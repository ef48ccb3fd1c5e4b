import Quadlet.Proofs.Token.Pieces

/-!
# Nothing is lost by a scan

A source text is its lexemes with gaps before, between and behind them. Main statement: where a
lenient scan succeeds, the text is made up of the lexemes of its tokens and of gaps of blanks,
comments and illegal characters; the scan complains about these characters and about no others, and
every lexeme determines its token.
-/

namespace Quadlet

/-- The character that an error is about, if it is about one. -/
def Error.character? : Error → Option Char
  | .illegal _ c => some c
  | _ => none

namespace Scanner

open Pattern
open Decimal (AreDigits)

/-! ## A lexeme determines its token -/

private theorem isLongest_self {L : Language Char} {w : List Char} (h : w ∈ L) :
    IsLongest L w (w ++ []) :=
  ⟨h, List.prefix_append .., fun v _ hfront => by simpa using hfront.length_le⟩

/-- What has more points is no front. -/
theorem noFront_of_count {L : Language Char} {w : List Char}
    (h : ∀ v ∈ L, w.count '.' < v.count '.') : NoFront L (w ++ []) := by
  intro v hv hfront
  rw [List.append_nil] at hfront
  exact absurd (hfront.sublist.count_le '.') (Nat.not_le.mpr (h v hv))

private theorem count_point_digits {w : List Char} (h : AreDigits w) : w.count '.' = 0 :=
  List.count_eq_zero.mpr fun hpoint => absurd (h '.' hpoint) (by decide)

private theorem count_point_fraction {w : List Char} (h : w ∈ fraction.matches') :
    w.count '.' = 1 := by
  obtain ⟨ds, -, hds, rfl⟩ := mem_fraction.mp h
  rw [List.count_cons_self, count_point_digits hds]

private theorem count_point_tail {w : List Char} (h : w = [] ∨ w ∈ exponent.matches') :
    w.count '.' = 0 := by
  obtain rfl | h := h
  · rfl
  · obtain ⟨m, sign, ds, hm, hsign, -, hds, rfl⟩ := mem_exponent.mp h
    have hfront : (m :: sign).count '.' = 0 := by
      simp only [exponentSigns, List.mem_cons, List.not_mem_nil, or_false] at hsign
      obtain rfl | rfl := hm <;> obtain rfl | rfl | rfl := hsign <;> decide
    rw [← List.cons_append, List.count_append, hfront, count_point_digits hds]

private theorem count_point_float {w : List Char} (h : w ∈ float.matches') : w.count '.' = 1 := by
  obtain ⟨whole, f, e, hwhole, hf, he, rfl⟩ := mem_float.mp h
  rw [List.count_append, List.count_append, count_point_digits hwhole, count_point_fraction hf,
    count_point_tail he]

private theorem count_point_twoPoints {w : List Char} (h : w ∈ twoPoints.matches') :
    w.count '.' = 2 := by
  obtain ⟨f, g, e, hf, hg, he, rfl⟩ := mem_twoPoints.mp h
  rw [List.count_append, List.count_append, count_point_fraction hf, count_point_fraction hg,
    count_point_tail he]

/-- A lexeme that stands alone is cut off as the token that it spells. -/
theorem firstPiece_of_spelled {w : List Char} {kind : Token.Kind} (h : Spelled w kind) :
    FirstPiece (w ++ []) ⟨.token kind, w, []⟩ := by
  cases h with
  | sign s =>
    obtain ⟨c, hc⟩ | ⟨c, hc⟩ := sign_cases s
    · rw [text_of_signOf? hc]
      exact .sign hc (by simp)
    · rw [text_of_pairOf? hc]
      exact .pair hc
  | keyword k =>
    rw [← wordKind_word k]
    exact .name (isLongest_self (word_mem_names k))
  | identifier name free =>
    rw [← wordKind_of_free free]
    exact .name (isLongest_self name)
  | string isQuote inside =>
    have hpiece := @FirstPiece.string _ _ [] isQuote inside
    simpa using hpiece
  | integer digits limit =>
    have hcount := count_point_digits (mem_integer.mp digits).2
    have hpiece : NumberPiece (w ++ []) ⟨integerKind w, w, []⟩ :=
      .integer (noFront_of_count fun v hv => by rw [hcount, count_point_twoPoints hv]; decide)
        (noFront_of_count fun v hv => by rw [hcount, count_point_float hv]; decide)
          (isLongest_self digits)
    rw [integerKind_eq digits, if_pos limit] at hpiece
    exact .number (k := ⟨_, w, []⟩) hpiece
  | float literal value =>
    have hcount := count_point_float literal
    exact .number (k := ⟨_, w, []⟩)
      (.float (noFront_of_count fun v hv => by rw [hcount, count_point_twoPoints hv]; decide)
        (isLongest_self literal) value)

/-- The end of the file has no spelling. -/
theorem Spelled.kind_ne {w : List Char} {kind : Token.Kind} (h : Spelled w kind) :
    kind ≠ .endOfFile := by
  cases h <;> simp

/-- A lexeme spells one kind of token. -/
theorem Spelled.unique {w : List Char} {k l : Token.Kind} (hk : Spelled w k) (hl : Spelled w l) :
    k = l := by
  have hpiece := firstPiece_of_spelled hk
  have hpiece' := firstPiece_of_spelled hl
  obtain ⟨c, cs, htext⟩ := List.exists_cons_of_ne_nil hpiece.ne_nil
  rw [htext] at hpiece hpiece'
  simpa using (cut_of_firstPiece hpiece).symm.trans (cut_of_firstPiece hpiece')

/-! ## Texts as lexemes and gaps -/

/-- What stands between tokens. -/
inductive Filler where
  | blank (c : Char)
  | comment (text : List Char)
  | illegal (c : Char)

namespace Filler

/-- The characters of a filler. -/
def text : Filler → List Char
  | .blank c => [c]
  | .comment text => '#' :: text
  | .illegal c => [c]

/-- The piece that a filler is. -/
def piece : Filler → Piece
  | .blank _ => .gap
  | .comment _ => .gap
  | .illegal c => .illegal c

/-- The illegal character of a filler. -/
def illegal? : Filler → Option Char
  | .illegal c => some c
  | _ => none

/-- A filler is what it says, with these characters behind it: a comment goes on to the end of its
line or of the text, and behind an illegal character nothing makes a token of it. -/
def Fits : Filler → List Char → Prop
  | .blank c, _ => isSpace c = true
  | .comment text, behind => '\n' ∉ text ∧ ∀ c ∈ behind.head?, c = '\n'
  | .illegal c, behind => IsIllegal c behind

/-- A filler is no token. -/
theorem tokenAt?_piece (f : Filler) (rest : List Char) (p : Position) :
    (⟨f.piece, f.text, rest⟩ : Cut).tokenAt? p = none := by
  cases f <;> rfl

/-- The complaint about a filler is about its illegal character. -/
theorem complaintAt?_piece (f : Filler) (rest : List Char) (p : Position) :
    ((⟨f.piece, f.text, rest⟩ : Cut).complaintAt? p).toList.map Error.character? =
      f.illegal?.toList.map some := by
  cases f <;> rfl

end Filler

/-- The characters of a gap. -/
def gapText (gap : List Filler) : List Char := gap.flatMap Filler.text

/-- The characters of tokens, each with the gap behind it. -/
def entriesText (entries : List (Token × List Filler)) : List Char :=
  entries.flatMap fun e => e.1.lexeme.toList ++ gapText e.2

/-- All fillers of a gap are what they say. -/
def GapFits : List Filler → List Char → Prop
  | [], _ => True
  | f :: gap, behind => f.Fits (gapText gap ++ behind) ∧ GapFits gap behind

/-- All fillers of the gaps behind tokens are what they say. -/
def EntriesFit : List (Token × List Filler) → Prop
  | [] => True
  | e :: entries => GapFits e.2 (entriesText entries) ∧ EntriesFit entries

/-- A text is a gap and then tokens with gaps behind them. These are all its tokens, and the
complaints are about the illegal characters of its gaps. -/
structure IsLayout (text : List Char) (tokens : List Token) (complaints : List Error)
    (gap : List Filler) (entries : List (Token × List Filler)) : Prop where
  text_eq : text = gapText gap ++ entriesText entries
  gap_fits : GapFits gap (entriesText entries)
  entries_fit : EntriesFit entries
  tokens_eq : entries.map Prod.fst = tokens
  complaints_eq : complaints.map Error.character? =
    ((gap ++ entries.flatMap Prod.snd).filterMap Filler.illegal?).map some
  spelled : ∀ e ∈ entries, Spelled e.1.lexeme.toList e.1.kind

namespace IsLayout

variable {text : List Char} {tokens : List Token} {complaints : List Error} {gap : List Filler}
  {entries : List (Token × List Filler)}

private theorem nil : IsLayout [] [] [] [] [] := ⟨rfl, trivial, trivial, rfl, rfl, by simp⟩

/-- A filler goes in front of a layout. -/
theorem filler (h : IsLayout text tokens complaints gap entries) {f : Filler} (hf : f.Fits text)
    {es : List Error} (hes : es.map Error.character? = f.illegal?.toList.map some) :
    IsLayout (f.text ++ text) tokens (es ++ complaints) (f :: gap) entries := by
  refine ⟨?_, ⟨h.text_eq ▸ hf, h.gap_fits⟩, h.entries_fit, h.tokens_eq, ?_, h.spelled⟩
  · rw [h.text_eq]
    simp [gapText]
  · rw [List.map_append, hes, h.complaints_eq]
    cases hf : f.illegal? <;> simp [hf]

/-- A token goes in front of a layout. -/
theorem token (h : IsLayout text tokens complaints gap entries) {t : Token}
    (ht : Spelled t.lexeme.toList t.kind) :
    IsLayout (t.lexeme.toList ++ text) (t :: tokens) complaints [] ((t, gap) :: entries) := by
  refine ⟨?_, trivial, ⟨h.gap_fits, h.entries_fit⟩, ?_, ?_, ?_⟩
  · rw [h.text_eq]
    simp [gapText, entriesText]
  · rw [List.map_cons, h.tokens_eq]
  · rw [h.complaints_eq]
    simp
  · exact List.forall_mem_cons.mpr ⟨ht, h.spelled⟩

end IsLayout

private theorem NumberPiece.token_or_fault {text : List Char} {k : Cut} (h : NumberPiece text k) :
    (∃ kind, k.piece = .token kind) ∨ ∃ f, k.piece = .fault f := by
  cases h with
  | twoPoints longest => exact .inr ⟨_, rfl⟩
  | float free longest value => exact .inl ⟨_, rfl⟩
  | integer free whole longest =>
    rw [integerKind_eq longest.mem]
    split
    · exact .inl ⟨_, rfl⟩
    · exact .inr ⟨_, rfl⟩

/-- A sound first piece is a token with a lexeme that spells it, or a filler. -/
theorem FirstPiece.token_or_filler {text : List Char} {k : Cut} (h : FirstPiece text k)
    (hsound : k.Sound) :
    (∃ kind, k.piece = .token kind ∧ Spelled k.lexeme kind) ∨
      ∃ f : Filler, k = ⟨f.piece, f.text, k.rest⟩ ∧ f.Fits k.rest := by
  by_cases htoken : ∃ kind, k.piece = .token kind
  · obtain ⟨kind, hkind⟩ := htoken
    obtain ⟨piece, lexeme, rest⟩ := k
    obtain rfl : piece = .token kind := hkind
    exact .inl ⟨kind, rfl, h.spelled⟩
  · refine .inr ?_
    cases h with
    | blank space => exact ⟨.blank _, rfl, space⟩
    | comment line ends => exact ⟨.comment _, rfl, line, ends⟩
    | illegal illegal => exact ⟨.illegal _, rfl, illegal⟩
    | unclosed isQuote inside => exact absurd rfl (hsound _)
    | number number =>
      obtain hkind | ⟨f, hf⟩ := number.token_or_fault
      · exact absurd hkind htoken
      · exact absurd hf (hsound f)
    | _ => exact absurd ⟨_, rfl⟩ htoken

/-- A text that is cut into sound pieces is laid out as the tokens and the fillers among them. -/
theorem Passes.exists_layout {cs rest : List Char} {ks : List Cut} (h : Passes cs ks rest)
    (hrest : rest = []) (p : Position) :
    ∃ gap entries, IsLayout cs (gather Cut.tokenAt? p ks)
      (gather Cut.complaintAt? p ks) gap entries := by
  induction h generalizing p with
  | nil cs =>
    subst hrest
    exact ⟨[], [], .nil⟩
  | @cons c cs rest k ks first sound more ih =>
    subst first
    obtain ⟨gap, entries, hlayout⟩ := ih hrest (p.after (cut c cs).lexeme)
    rw [← cut_append c cs, gather, gather]
    obtain ⟨kind, hkind, hspelled⟩ | ⟨f, hf, hfits⟩ := (firstPiece_cut c cs).token_or_filler sound
    · have hstep := hlayout.token
        (t := ⟨kind, String.ofList (cut c cs).lexeme, (cut c cs).placeAt p⟩)
          (by simpa using hspelled)
      rw [String.toList_ofList] at hstep
      simp only [Cut.tokenAt?, Cut.complaintAt?, hkind]
      exact ⟨_, _, hstep⟩
    · have hstep := hlayout.filler hfits (f.complaintAt?_piece (cut c cs).rest p)
      rw [hf, f.tokenAt?_piece]
      rw [hf] at hstep
      exact ⟨_, _, hstep⟩

/-- A lenient scan that succeeds loses nothing: the text is its lexemes with gaps of blanks,
comments and illegal characters, the complaints are about these characters in their order, every
lexeme spells its token and no other one, and one end of file ends the tokens. -/
theorem scan_keeps_source (source : String) (tokens : List Token)
    (h : scanned source false = .ok tokens) :
    ∃ gap entries last,
      tokens = entries.map Prod.fst ++ [last] ∧ last.kind = .endOfFile ∧ last.lexeme = "" ∧
      source.toList = gapText gap ++ entriesText entries ∧
      GapFits gap (entriesText entries) ∧ EntriesFit entries ∧
      (complaints source false).map Error.character? =
        ((gap ++ entries.flatMap Prod.snd).filterMap Filler.illegal?).map some ∧
      ∀ e ∈ entries, e.1.kind ≠ .endOfFile ∧ ∀ kind, Spelled e.1.lexeme.toList kind ↔
      kind = e.1.kind := by
  obtain ⟨ks, hpasses⟩ := exists_passes_of_scanned h
  -- A lenient scan needs no quiet pieces.
  have hlenient : false = true → ∀ k ∈ ks, k.Quiet := by simp
  obtain ⟨hscanned, hcomplaints⟩ := scan_of_passes hpasses hlenient
  obtain ⟨gap, entries, hlayout⟩ := hpasses.exists_layout rfl .start
  rw [hscanned] at h
  cases h
  refine ⟨gap, entries, _, by rw [hlayout.tokens_eq], rfl, rfl, hlayout.text_eq, hlayout.gap_fits,
    hlayout.entries_fit, by rw [hcomplaints, hlayout.complaints_eq],
    fun e he => ⟨?_, fun kind => ?_⟩⟩
  · exact (hlayout.spelled e he).kind_ne
  · constructor
    · intro hkind
      exact hkind.unique (hlayout.spelled e he)
    · rintro rfl
      exact hlayout.spelled e he

/-- The theorem on a text with two illegal characters, a string and a comment. -/
theorem scan_keeps_source_illegal :
    let source := "a@ '#'$b#$"
    ∃ tokens gap entries last, scanned source false = .ok tokens ∧
      tokens = entries.map Prod.fst ++ [last] ∧ tokens.map Token.lexeme = ["a", "'#'", "b", ""] ∧
      source.toList = gapText gap ++ entriesText entries ∧
        (gap ++ entries.flatMap Prod.snd).filterMap Filler.illegal? = ['@', '$'] := by
  intro source
  have hlexemes : (scanned source false).map (List.map Token.lexeme) = .ok ["a", "'#'", "b", ""] :=
    Except.toOption_eq_some.mp (by decide +kernel)
  have hillegal : (complaints source false).map Error.character? = ['@', '$'].map some := by
    decide +kernel
  obtain ⟨tokens, htokens, hlexemes⟩ := Except.map_eq_ok.mp hlexemes
  obtain ⟨gap, entries, last, hlast, -, -, htext, -, -, hcomplaints, -⟩ :=
    scan_keeps_source source tokens htokens
  rw [hillegal] at hcomplaints
  refine ⟨tokens, gap, entries, last, htokens, hlast, hlexemes, htext, ?_⟩
  exact (List.map_injective_iff.mpr (Option.some_injective _) hcomplaints).symm

end Scanner

end Quadlet
