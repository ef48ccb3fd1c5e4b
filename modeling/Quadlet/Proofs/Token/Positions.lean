import Mathlib.Data.List.Induction
import Quadlet.Proofs.Token.LongestMatch

/-!
# Where tokens and faults stand

A character stands on the line that the line feeds in front of it count, in the column that the
characters behind the last of them count. Main statement: however often a scanner has been called,
what it finds is told in the column of its first character, and on its line but for the line feeds
inside it. Only a string, closed or not, has line feeds inside it, so everything else is told
exactly where it starts.
-/

namespace Quadlet

namespace Position

/-- The place of the character that has `front` in front of it. -/
def behind (front : List Char) : Position :=
  ⟨1 + front.count '\n', 1 + (front.reverse.takeWhile (· != '\n')).length⟩

/-- A text is passed up to the place behind it. -/
theorem start_after (front : List Char) : start.after front = behind front := by
  induction front using List.reverseRecOn with
  | nil => rfl
  | append_singleton front c ih =>
    rw [after_append, ih]
    change (behind front).next c = _
    by_cases hc : c = '\n'
    · subst hc
      simp [next, behind, Nat.add_assoc]
    · simp [next, behind, hc, Nat.add_comm]

private theorem line_behind_append (front w : List Char) :
    (behind (front ++ w)).line = (behind front).line + w.count '\n' := by
  simp [behind, Nat.add_assoc]

end Position

namespace Cut

/-- Where a piece is told that has `front` in front of it: in the column of its first character, on
the line of its last. -/
def placeBehind (k : Cut) (front : List Char) : Position :=
  ⟨(Position.behind front).line + k.lexeme.count '\n', (Position.behind front).column⟩

private theorem placeAt_behind (k : Cut) (front : List Char) :
    k.placeAt (.behind front) = k.placeBehind front := by
  rw [placeAt, placeBehind, ← Position.start_after, ← Position.after_append, Position.start_after,
    Position.line_behind_append, Position.start_after]

/-- A piece without line feeds is told where its first character stands. -/
theorem placeBehind_of_line {k : Cut} (h : '\n' ∉ k.lexeme) (front : List Char) :
    k.placeBehind front = .behind front := by
  rw [placeBehind, List.count_eq_zero.mpr h]
  rfl

/-- The token that a piece is, in the place where it is told. -/
def tokenBehind? (k : Cut) (front : List Char) : Option Token :=
  match k.piece with
  | .token kind => some ⟨kind, String.ofList k.lexeme, k.placeBehind front⟩
  | _ => none

/-- The complaint about a piece, in the place where it is told. -/
def complaintBehind? (k : Cut) (front : List Char) : Option Error :=
  match k.piece with
  | .illegal c => some (.illegal (.behind front) c)
  | _ => none

end Cut

namespace Scanner

open Pattern

/-! ## The pieces of a source text -/

/-- A source text is cut into these pieces, whatever they are, and a rest is left behind them. -/
inductive Row (source : List Char) : List Cut → List Char → Prop where
  | nil : Row source [] source
  | snoc {ks : List Cut} {text : List Char} {k : Cut} (row : Row source ks text)
    (last : FirstPiece text k) :
    Row source (ks ++ [k]) k.rest

/-- The pieces and the rest are the source text. -/
theorem Row.text {source rest : List Char} {ks : List Cut} (h : Row source ks rest) :
    source = ks.flatMap Cut.lexeme ++ rest := by
  induction h with
  | nil => rfl
  | snoc row last ih =>
    rw [ih, ← last.append, List.flatMap_append, List.append_assoc, List.flatMap_singleton]

/-- Every piece is the first one of some text. -/
theorem Row.firstPiece {source rest : List Char} {ks : List Cut} (h : Row source ks rest) {k : Cut}
    (hk : k ∈ ks) : ∃ text, FirstPiece text k := by
  induction h with
  | nil => cases hk
  | snoc row last ih =>
    obtain hk | hk := List.mem_append.mp hk
    · exact ih hk
    · rw [List.mem_singleton.mp hk]
      exact ⟨_, last⟩

/-- What is found in pieces that have `front` in front of them. -/
def collect {α : Type} (f : Cut → List Char → Option α) : List Char → List Cut → List α
  | _, [] => []
  | front, k :: ks => (f k front).toList ++ collect f (front ++ k.lexeme) ks

private theorem collect_snoc {α : Type} (f : Cut → List Char → Option α) (front : List Char)
    (ks : List Cut) (k : Cut) :
    collect f front (ks ++ [k]) = collect f front ks ++
      (f k (front ++ ks.flatMap Cut.lexeme)).toList := by
  induction ks generalizing front with
  | nil => simp [collect]
  | cons l ks ih => simp [collect, ih]

private theorem line_of_solid {w : List Char} (h : Solid w) : '\n' ∉ w := fun hmem =>
  absurd (h '\n' hmem) (by decide)

private theorem line_of_sign (s : Sign) : '\n' ∉ s.text.toList := by
  cases s <;> decide

/-- Only blanks and strings have line feeds inside. -/
theorem FirstPiece.line {text : List Char} {k : Cut} (h : FirstPiece text k) (hgap : k.piece ≠ .gap)
    (hstring : ∀ s, k.piece ≠ .token (.string s))
    (hunclosed : k.piece ≠ .fault .unterminatedString) : '\n' ∉ k.lexeme := by
  cases h with
  | blank space => exact absurd rfl hgap
  | comment line ends => exact absurd rfl hgap
  | @pair c s rest pair =>
    have hsign := line_of_sign s
    rwa [text_of_pairOf? pair] at hsign
  | @sign c s rest sign alone =>
    have hsign := line_of_sign s
    rwa [text_of_signOf? sign] at hsign
  | string isQuote inside => exact absurd rfl (hstring _)
  | unclosed isQuote inside => exact absurd rfl hunclosed
  | number number =>
    generalize k.lexeme ++ k.rest = text at number
    cases number with
    | twoPoints longest => exact line_of_solid (solid_twoPoints longest.mem)
    | float free longest value => exact line_of_solid (solid_float longest.mem)
    | integer free whole longest => exact line_of_solid (solid_integer longest.mem)
  | name longest => exact line_of_solid (solid_names _ longest.mem)
  | @illegal c cs illegal =>
    refine line_of_solid ?_
    simp [Solid, illegal.noBlank]

/-! ## One step of a scan -/

/-- A scanner has come through `old` pieces in earlier scans that succeeded and
through `new` ones since. -/
structure Along (source : String) (strict : Bool) (old new : List Cut) (s : Scanner) : Prop where
  row : Row source.toList (old ++ new) s.rest
  position : s.position = .behind ((old ++ new).flatMap Cut.lexeme)
  tokens : s.tokens.toList = collect Cut.tokenBehind? (old.flatMap Cut.lexeme) new
  diagnostics : s.diagnostics.toList =
    if strict then [] else collect Cut.complaintBehind? [] (old ++ new)
  strict_eq : s.strict = strict

/-- An error is about a piece that has `front` in front of it. -/
inductive ErrorBehind (k : Cut) (front : List Char) : Error → Prop where
  | illegal {c : Char} (piece : k.piece = .illegal c) :
    ErrorBehind k front (.illegal (.behind front) c)
  | fault {f : GrammarFault} (piece : k.piece = .fault f) :
    ErrorBehind k front (.grammar (k.placeBehind front) f)

section

variable {source : String} {strict : Bool} {old new : List Cut} {s t : Scanner}
  {k : Cut} {e : Error}

/-- A scanner that has passed one more piece, with what it has found in it. -/
theorem Along.snoc (h : Along source strict old new s) (hpiece : FirstPiece s.rest k)
    (hrest : t.rest = k.rest) (hposition : t.position = s.position.after k.lexeme)
    (htokens : t.tokens.toList =
      s.tokens.toList ++ (k.tokenBehind? ((old ++ new).flatMap Cut.lexeme)).toList)
    (hdiagnostics : t.diagnostics.toList = s.diagnostics.toList ++
      if strict then [] else (k.complaintBehind? ((old ++ new).flatMap Cut.lexeme)).toList)
    (hstrict : t.strict = s.strict) : Along source strict old (new ++ [k]) t := by
  refine ⟨?_, ?_, ?_, ?_, hstrict.trans h.strict_eq⟩
  · rw [← List.append_assoc, hrest]
    exact h.row.snoc hpiece
  · rw [hposition, h.position, ← Position.start_after, ← Position.after_append,
      Position.start_after]
    simp
  · rw [htokens, h.tokens, collect_snoc, List.flatMap_append]
  · rw [hdiagnostics, h.diagnostics, ← List.append_assoc, collect_snoc, List.nil_append]
    cases strict <;> rfl

private theorem Along.placeOf (h : Along source strict old new s) (k : Cut) :
    s.placeOf k = k.placeBehind ((old ++ new).flatMap Cut.lexeme) := by
  rw [← Cut.placeAt_behind, ← h.position]
  rfl

/-- An illegal character is told where it stands. -/
theorem Along.placeOf_illegal (h : Along source strict old new s)
    (hpiece : FirstPiece s.rest k) {c : Char} (hc : k.piece = .illegal c) :
    s.placeOf k = .behind ((old ++ new).flatMap Cut.lexeme) := by
  rw [h.placeOf, Cut.placeBehind_of_line (hpiece.line (by simp [hc]) (by simp [hc]) (by simp [hc]))]

/-- A piece that is passed goes behind the others. -/
theorem Along.note_ok (h : Along source strict old new s) (hpiece : FirstPiece s.rest k)
    (hnote : note k s = .ok () t) : Along source strict old (new ++ [k]) t := by
  have hnoted := noted k s
  rw [hnote] at hnoted
  cases hnoted with
  | gap piece =>
    exact h.snoc hpiece rfl rfl (by simp [Cut.tokenBehind?, piece, pass])
      (by simp [Cut.complaintBehind?, piece, pass]) rfl
  | token piece =>
    exact h.snoc hpiece rfl rfl (by simp [Cut.tokenBehind?, piece, pass, h.placeOf])
      (by simp [Cut.complaintBehind?, piece, pass]) rfl
  | skipped piece lenient =>
    exact h.snoc hpiece rfl rfl (by simp [Cut.tokenBehind?, piece, pass])
      (by
        simp only [pass, Array.toList_push, h.placeOf_illegal hpiece piece, Cut.complaintBehind?,
          piece, ← h.strict_eq, lenient]
        rfl) rfl

/-- A piece that stops the scan is passed too, and the error tells where it stands. -/
theorem Along.note_error (h : Along source strict old new s) (hpiece : FirstPiece s.rest k)
    (hnote : note k s = .error e t) :
    Along source strict old (new ++ [k]) t ∧ ErrorBehind k ((old ++ new).flatMap Cut.lexeme) e := by
  have hnoted := noted k s
  rw [hnote] at hnoted
  cases hnoted with
  | illegal piece hstrict =>
    refine ⟨h.snoc hpiece rfl rfl (by simp [Cut.tokenBehind?, piece, pass])
      (by simp [pass, ← h.strict_eq, hstrict]) rfl, ?_⟩
    rw [h.placeOf_illegal hpiece piece]
    exact .illegal piece
  | fault piece =>
    refine ⟨h.snoc hpiece rfl rfl (by simp [Cut.tokenBehind?, piece, pass])
      (by simp [Cut.complaintBehind?, piece, pass]) rfl, ?_⟩
    rw [h.placeOf]
    exact .fault piece

/-! ## Whole scans -/

/-- A scan goes on through more pieces, to the end of the text or to an error
about the last of them. -/
theorem Along.passPieces {new : List Cut} {s : Scanner}
    (h : Along source strict old new s) (n : Nat) (hn : s.rest.length ≤ n) :
    (∀ t, passPieces n s = .ok () t →
      t.rest = [] ∧ ∃ more, Along source strict old (new ++ more) t) ∧
    ∀ e t, Scanner.passPieces n s = .error e t →
    ∃ more k, Along source strict old (new ++ more ++ [k]) t ∧
      ErrorBehind k ((old ++ (new ++ more)).flatMap Cut.lexeme) e := by
  cases hs : s.rest with
  | nil =>
    rw [passPieces_of_nil hs]
    refine ⟨?_, by simp⟩
    rintro t ⟨⟩
    exact ⟨hs, [], by rwa [List.append_nil]⟩
  | cons c cs =>
    have hpiece : FirstPiece s.rest (cut c cs) := hs ▸ firstPiece_cut c cs
    obtain ⟨n, rfl⟩ : ∃ m, n = m + 1 := Nat.exists_eq_succ_of_ne_zero fun hzero => by
      simp [hs, hzero] at hn
    cases hnote : note (cut c cs) s with
    | error e t =>
      rw [passPieces_of_error hs hnote]
      refine ⟨by simp, ?_⟩
      rintro e' t' ⟨⟩
      exact ⟨[], cut c cs, by simpa using h.note_error hpiece hnote⟩
    | ok u t =>
      have hmore := h.note_ok hpiece hnote
      have hlength := congrArg List.length (hmore.row.text.symm.trans h.row.text)
      have hpos := List.length_pos_iff.mpr (cut_lexeme_ne_nil c cs)
      simp only [List.flatMap_append, List.flatMap_singleton, List.length_append] at hlength
      obtain ⟨hok, herror⟩ := hmore.passPieces n (by omega)
      rw [passPieces_of_note hs hnote]
      constructor
      · intro t' hpass
        obtain ⟨hrest, more, ht⟩ := hok t' hpass
        exact ⟨hrest, cut c cs :: more, by simpa using ht⟩
      · intro e t' hpass
        obtain ⟨more, l, ht, hl⟩ := herror e t' hpass
        exact ⟨cut c cs :: more, l, by simpa using ht, by simpa using hl⟩
termination_by n

private theorem passPieces_of_scan_ok {tokens : List Token} (h : scan s = .ok tokens t) :
    ∃ u, Scanner.passPieces s.rest.length s = .ok () u ∧ t = { u with tokens := #[] } ∧
      tokens = u.tokens.toList ++ [⟨.endOfFile, "", u.position⟩] := by
  obtain ⟨_, _, hs, h⟩ := EStateM.bind_eq_ok.mp h
  cases hs
  obtain ⟨_, u, hu, h⟩ := EStateM.bind_eq_ok.mp h
  refine ⟨u, hu, ?_⟩
  cases h
  simp

private theorem passPieces_of_scan_error (h : scan s = .error e t) :
    Scanner.passPieces s.rest.length s = .error e t := by
  obtain h | ⟨_, _, hs, h⟩ := EStateM.bind_eq_error.mp h
  · cases h
  · cases hs
    obtain h | ⟨_, u, hu, h⟩ := EStateM.bind_eq_error.mp h
    · exact h
    · cases h

/-- A scanner of a source text that has been called any number of times. -/
inductive Called (source : String) (strict : Bool) : Scanner → Prop where
  | never : Called source strict (.ofSource source strict)
  | ok {s t : Scanner} {tokens : List Token} (before : Called source strict s)
    (scan : scan s = .ok tokens t) :
    Called source strict t
  | error {s t : Scanner} {e : Error} (before : Called source strict s)
    (scan : scan s = .error e t) :
    Called source strict t

/-- A scanner forgets the tokens that it has given. -/
theorem Along.given (h : Along source strict old new s) :
    Along source strict (old ++ new) [] { s with tokens := #[] } := by
  refine ⟨?_, ?_, rfl, ?_, h.strict_eq⟩
  · simpa using h.row
  · simpa using h.position
  · simpa using h.diagnostics

/-- A scanner comes through the pieces of its source text, however often it is called. -/
theorem Called.along (h : Called source strict s) : ∃ old new, Along source strict old new s := by
  induction h with
  | never => exact ⟨[], [], .nil, rfl, rfl, by simp [ofSource, collect], rfl⟩
  | ok before scan ih =>
    obtain ⟨old, new, hs⟩ := ih
    obtain ⟨u, hu, rfl, -⟩ := passPieces_of_scan_ok scan
    obtain ⟨-, more, hu⟩ := (hs.passPieces _ le_rfl).1 u hu
    exact ⟨_, _, hu.given⟩
  | error before scan ih =>
    obtain ⟨old, new, hs⟩ := ih
    obtain ⟨more, k, ht, -⟩ := (hs.passPieces _ le_rfl).2 _ _ (passPieces_of_scan_error scan)
    exact ⟨_, _, ht⟩

/-- However often a scanner has been called: the tokens that it gives, its complaints and its
errors stand in the columns of their first characters, and on their lines but for the line feeds
inside them. All but strings have none. The pieces up to `old` are those of earlier scans that
succeeded, the tokens of `kept` are left over from scans that failed, and a scanner that was
never called has neither. -/
theorem scan_places (h : Called source strict s) :
    ∃ old kept, Row source.toList (old ++ kept) s.rest ∧
      (s.diagnostics.toList =
        if strict then [] else collect Cut.complaintBehind? [] (old ++ kept)) ∧
      (∀ tokens t, scan s = .ok tokens t → ∃ more, Row source.toList (old ++ kept ++ more) [] ∧
        tokens = collect Cut.tokenBehind? (old.flatMap Cut.lexeme) (kept ++ more) ++
          [⟨.endOfFile, "", .behind source.toList⟩]) ∧
      (∀ e t, scan s = .error e t →
        ∃ more k, Row source.toList (old ++ kept ++ more ++ [k]) t.rest ∧
        ErrorBehind k ((old ++ kept ++ more).flatMap Cut.lexeme) e) ∧
      ∀ ks rest, Row source.toList ks rest → ∀ k ∈ ks, k.piece ≠ .gap →
      (∀ v, k.piece ≠ .token (.string v)) →
        k.piece ≠ .fault .unterminatedString → ∀ front, k.placeBehind front = .behind front := by
  obtain ⟨old, kept, hs⟩ := h.along
  obtain ⟨hok, herror⟩ := hs.passPieces _ le_rfl
  refine ⟨old, kept, hs.row, hs.diagnostics, fun tokens t hscan => ?_, fun e t hscan => ?_, ?_⟩
  · obtain ⟨u, hu, -, rfl⟩ := passPieces_of_scan_ok hscan
    obtain ⟨hrest, more, hu⟩ := hok u hu
    have htext := hu.row.text
    rw [hrest, List.append_nil] at htext
    refine ⟨more, ?_, by rw [hu.tokens, hu.position, ← htext]⟩
    rw [List.append_assoc, ← hrest]
    exact hu.row
  · obtain ⟨more, k, ht, hk⟩ := herror e t (passPieces_of_scan_error hscan)
    refine ⟨more, k, by simpa using ht.row, by simpa using hk⟩
  · intro ks rest hrow k hk hgap hstring hunclosed front
    obtain ⟨text, hpiece⟩ := hrow.firstPiece hk
    exact Cut.placeBehind_of_line (hpiece.line hgap hstring hunclosed) front

end

/-- The theorem on a text with a string over two lines, a comment and an illegal character. -/
theorem scan_places_string :
    let source := "x='a\nb'; # c\n $ 12"
    let s := ofSource source false
    Called source false s ∧ ∃ tokens t old kept more, scan s = .ok tokens t ∧
      Row source.toList (old ++ kept) source.toList ∧ Row source.toList (old ++ kept ++ more) [] ∧
      tokens = collect Cut.tokenBehind? (old.flatMap Cut.lexeme) (kept ++ more) ++
        [⟨.endOfFile, "", .behind source.toList⟩] ∧
      tokens.map Token.position = [⟨1, 1⟩, ⟨1, 2⟩, ⟨2, 3⟩, ⟨2, 3⟩, ⟨3, 4⟩, ⟨3, 6⟩] := by
  intro source s
  have hpositions : (scanned source false).map (List.map Token.position) =
      .ok [⟨1, 1⟩, ⟨1, 2⟩, ⟨2, 3⟩, ⟨2, 3⟩, ⟨3, 4⟩, ⟨3, 6⟩] :=
    Except.toOption_eq_some.mp (by decide +kernel)
  obtain ⟨tokens, htokens, hpositions⟩ := Except.map_eq_ok.mp hpositions
  rw [scanned] at htokens
  cases hscan : scan s with
  | error e t =>
    rw [hscan] at htokens
    cases htokens
  | ok found t =>
    rw [hscan] at htokens
    cases htokens
    obtain ⟨old, kept, hrow, -, hok, -⟩ := scan_places (@Called.never source false)
    obtain ⟨more, hmore, hfound⟩ := hok _ _ hscan
    exact ⟨.never, _, t, old, kept, more, rfl, hrow, hmore, hfound, hpositions⟩

/-- A string over two lines is not told where it starts, closed or not: its
line is that of its end. -/
theorem string_over_lines_misplaced :
    Position.behind [' ', ' '] = ⟨1, 3⟩ ∧
    (scanned "  'a\nb'" false).map (List.map Token.position) = .ok [⟨2, 3⟩, ⟨2, 3⟩] ∧
    scanned "  'a\nb" false = .error (.grammar ⟨2, 3⟩ .unterminatedString) := by
  refine ⟨by decide, ?_, ?_⟩
  · exact Except.toOption_eq_some.mp (by decide +kernel)
  · exact Except.eq_error_of_error? (by decide +kernel)

end Scanner

end Quadlet
