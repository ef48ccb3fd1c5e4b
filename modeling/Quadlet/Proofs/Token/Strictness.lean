import Mathlib.Data.List.Forall2
import Mathlib.Data.Prod.Lex
import Quadlet.Proofs.Token.Layout

/-!
# Strict and lenient scans

A lenient scan passes over illegal characters and complains about them. Main statement: it gives
what a strict scan gives of the text with blanks in place of these characters, and a strict scan of
the text itself fails with the first complaint, if there is one.
-/

namespace Quadlet

namespace Position

/-- Places are in order by line, and by column within a line. -/
def rank (p : Position) : ℕ ×ₗ ℕ := toLex (p.line, p.column)

private theorem rank_lt_next (p : Position) (c : Char) : p.rank < (p.next c).rank := by
  rw [next]
  split <;> simp [rank, Prod.Lex.toLex_lt_toLex]

private theorem rank_le_after (p : Position) (cs : List Char) : p.rank ≤ (p.after cs).rank := by
  induction cs generalizing p with
  | nil => exact le_rfl
  | cons c cs ih => exact (p.rank_lt_next c).le.trans (ih (p.next c))

private theorem line_le_after (p : Position) (cs : List Char) : p.line ≤ (p.after cs).line := by
  have hrank := p.rank_le_after cs
  rw [rank, rank, Prod.Lex.toLex_le_toLex] at hrank
  omega

end Position

/-- The place of an illegal character. -/
def Error.place? : Error → Option Position
  | .illegal p _ => some p
  | _ => none

/-- The characters of a piece, or a blank for an illegal one. -/
def Cut.faded (k : Cut) : List Char :=
  match k.piece with
  | .illegal _ => [' ']
  | _ => k.lexeme

private theorem Cut.faded_of_quiet {k : Cut} (h : k.Quiet) : k.faded = k.lexeme := by
  rw [faded]
  split
  · next c hc => exact absurd hc (h c)
  · rfl

namespace Scanner

/-- An illegal piece is one character that breaks no line. -/
theorem FirstPiece.lexeme_of_illegal {text : List Char} {k : Cut} (h : FirstPiece text k) {c : Char}
    (hc : k.piece = .illegal c) : k.lexeme = [c] ∧ c ≠ '\n' := by
  obtain ⟨kind, hkind, -⟩ | ⟨f, hf, hfits⟩ := h.token_or_filler (by simp [Cut.Sound, hc])
  · rw [hc] at hkind
    cases hkind
  · rw [hf] at hc ⊢
    cases f with
    | illegal d =>
      cases hc
      refine ⟨rfl, ?_⟩
      rintro rfl
      exact absurd hfits.noBlank (by decide)
    | _ => cases hc

/-! ## Texts with blanks in them -/

/-- A text that starts at `p`, with a blank for every character at one of these places. -/
def blankAt (places : List Position) : Position → List Char → List Char
  | _, [] => []
  | p, c :: cs => (if p ∈ places then ' ' else c) :: blankAt places (p.next c) cs

/-- A source text with a blank for every character that a lenient scan complains about. -/
def blanked (source : String) : String :=
  String.ofList (blankAt ((complaints source false).filterMap Error.place?) .start source.toList)

private theorem blankAt_append (places : List Position) (p : Position) (cs ds : List Char) :
    blankAt places p (cs ++ ds) = blankAt places p cs ++ blankAt places (p.after cs) ds := by
  induction cs generalizing p with
  | nil => rfl
  | cons c cs ih =>
    rw [List.cons_append, blankAt, blankAt, ih]
    rfl

/-- A text stays as it is if all places are in front of it or behind it. -/
theorem blankAt_eq_self {places : List Position} {p : Position} {cs : List Char}
    (h : ∀ q ∈ places, q.rank < p.rank ∨ (p.after cs).rank ≤ q.rank) :
    blankAt places p cs = cs := by
  induction cs generalizing p with
  | nil => rfl
  | cons c cs ih =>
    have hp : p ∉ places := by
      intro hmem
      obtain hlt | hle := h p hmem
      · exact lt_irrefl _ hlt
      · exact lt_irrefl _ (((p.rank_lt_next c).trans_le ((p.next c).rank_le_after cs)).trans_le hle)
    rw [blankAt, if_neg hp, ih]
    intro q hq
    exact (h q hq).imp_left fun hlt => hlt.trans (p.rank_lt_next c)

/-- No complaint about pieces is about a place in front of them. -/
theorem rank_le_of_mem_places {p q : Position} {ks : List Cut}
    (h : q ∈ (gather Cut.complaintAt? p ks).filterMap Error.place?) : p.rank ≤ q.rank := by
  induction ks generalizing p with
  | nil => cases h
  | cons k ks ih =>
    rw [gather, List.filterMap_append, List.mem_append] at h
    obtain h | h := h
    · obtain ⟨e, he, hq⟩ := List.mem_filterMap.mp h
      have hplace : q = k.placeAt p := by
        rw [Option.mem_toList, Cut.complaintAt?] at he
        split at he <;> cases he
        exact (Option.some.inj hq).symm
      rw [hplace, Cut.placeAt, Position.rank, Position.rank, Prod.Lex.toLex_le_toLex]
      have hline := p.line_le_after k.lexeme
      dsimp only
      omega
    · exact (p.rank_le_after k.lexeme).trans (ih h)

/-- The characters that are complained about are those of the illegal pieces. -/
theorem blankAt_of_passes {cs rest : List Char} {ks : List Cut} (h : Passes cs ks rest)
    (places : List Position) (p : Position) (hplaces : ∀ q, p.rank ≤ q.rank →
      (q ∈ places ↔ q ∈ (gather Cut.complaintAt? p ks).filterMap Error.place?)) :
    blankAt places p cs = ks.flatMap Cut.faded ++ rest := by
  -- Along the pieces only the places at `p` and behind it are told apart; those in front of it
  -- change nothing more.
  induction h generalizing p with
  | nil cs =>
    refine blankAt_eq_self fun q hq => .inl ?_
    by_contra hlt
    cases (hplaces q (not_lt.mp hlt)).mp hq
  | @cons c cs rest k ks first sound more ih =>
    have hpiece := firstPiece_cut c cs
    rw [first] at hpiece
    have hmore : ∀ q : Position, (p.after k.lexeme).rank ≤ q.rank → p.rank ≤ q.rank := fun q =>
      (p.rank_le_after k.lexeme).trans
    rw [← hpiece.append, blankAt_append, List.flatMap_cons, List.append_assoc]
    obtain hquiet | ⟨d, hd⟩ := k.quiet_or_illegal
    · rw [gather, Cut.complaintAt?_eq_none.mpr hquiet] at hplaces
      rw [Cut.faded_of_quiet hquiet, ih _ fun q hq => hplaces q (hmore q hq), blankAt_eq_self]
      intro q hq
      by_cases hlt : q.rank < p.rank
      · exact .inl hlt
      · exact .inr (rank_le_of_mem_places ((hplaces q (not_lt.mp hlt)).mp hq))
    · obtain ⟨hlexeme, hbreak⟩ := hpiece.lexeme_of_illegal hd
      have hplace : k.complaintAt? p = some (.illegal p d) := by
        simp [Cut.complaintAt?, hd, Cut.placeAt, hlexeme, Position.after, Position.next, hbreak]
      have hmem : p ∈ places := (hplaces p le_rfl).mpr (by simp [gather, hplace, Error.place?])
      have hnext : p.rank < (p.after k.lexeme).rank := by
        rw [hlexeme]
        exact p.rank_lt_next d
      have hfirst : blankAt places p k.lexeme = k.faded := by
        rw [hlexeme, Cut.faded, hd, blankAt, if_pos hmem]
        rfl
      rw [hfirst, ih]
      intro q hq
      rw [hplaces q (hmore q hq), gather, hplace]
      have hne : q ≠ p := by
        rintro rfl
        exact lt_irrefl _ (hnext.trans_le hq)
      simp [Error.place?, hne]

/-! ## What blanks leave as it is -/

/-- Some characters of a text are blanked, and none of them breaks a line. -/
def Faded (cs ds : List Char) : Prop := List.Forall₂ (fun c d => d = c ∨ d = ' ' ∧ c ≠ '\n') cs ds

namespace Faded

private theorem refl (cs : List Char) : Faded cs cs := List.forall₂_same.mpr fun _ _ => .inl rfl

private theorem append {cs ds cs' ds' : List Char} (h : Faded cs ds) (h' : Faded cs' ds') :
    Faded (cs ++ cs') (ds ++ ds') :=
  List.rel_append h h'

/-- Blanks put in make nothing longer. -/
theorem parted {cs ds : List Char} (h : Faded cs ds) : Parted cs ds := by
  intro v hv hfront
  induction h generalizing v with
  | nil => exact hfront
  | @cons c d cs ds hd hmore ih =>
    cases v with
    | nil => exact List.nil_prefix
    | cons e v =>
      obtain ⟨rfl, hrest⟩ := List.cons_prefix_cons.mp hfront
      obtain ⟨he, hv⟩ := List.forall_mem_cons.mp hv
      obtain rfl | ⟨rfl, -⟩ := hd
      · exact List.cons_prefix_cons.mpr ⟨rfl, ih v hv hrest⟩
      · exact absurd he (by decide)

/-- Lines end where they did. -/
theorem head? {cs ds : List Char} (h : Faded cs ds) (hcs : ∀ c ∈ cs.head?, c = '\n') :
    ∀ d ∈ ds.head?, d = '\n' := by
  cases h with
  | nil => exact hcs
  | @cons c d cs ds hd hmore =>
    have hc : c = '\n' := hcs c rfl
    simpa [hc] using hd

private theorem after {cs ds : List Char} (h : Faded cs ds) (p : Position) :
    p.after ds = p.after cs := by
  induction h generalizing p with
  | nil => rfl
  | @cons c d cs ds hd hmore ih =>
    have hnext : p.next d = p.next c := by
      obtain rfl | ⟨rfl, hc⟩ := hd
      · rfl
      · rw [Position.next, Position.next, if_neg (by decide), if_neg hc]
    exact (ih (p.next d)).trans (by rw [hnext]; rfl)

end Faded

private theorem FirstPiece.faded {text : List Char} {k : Cut} (h : FirstPiece text k) :
    Faded k.lexeme k.faded := by
  obtain hquiet | ⟨c, hc⟩ := k.quiet_or_illegal
  · rw [Cut.faded_of_quiet hquiet]
    exact .refl _
  · obtain ⟨hlexeme, hbreak⟩ := h.lexeme_of_illegal hc
    rw [hlexeme, Cut.faded, hc]
    exact .cons (.inr ⟨rfl, hbreak⟩) .nil

private theorem Passes.faded {cs rest : List Char} {ks : List Cut} (h : Passes cs ks rest) :
    Faded (ks.flatMap Cut.lexeme) (ks.flatMap Cut.faded) := by
  induction h with
  | nil cs => exact .nil
  | @cons c cs rest k ks first sound more ih =>
    subst first
    exact (firstPiece_cut c cs).faded.append ih

/-- The blanked piece is found in front of a text that has got blanks too. -/
theorem FirstPiece.fade {text rest' : List Char} {k : Cut} (h : FirstPiece text k)
    (hsound : k.Sound) (hrest : Faded k.rest rest') :
    ∃ l : Cut, FirstPiece (k.faded ++ rest') l ∧ l.rest = rest' ∧ l.Sound ∧ l.Quiet ∧
      ∀ p, l.tokenAt? p = k.tokenAt? p := by
  obtain ⟨kind, hkind, -⟩ | ⟨f, hf, hfits⟩ := h.token_or_filler hsound
  · obtain ⟨piece, w, rest⟩ := k
    obtain rfl : piece = .token kind := hkind
    rw [← h.append] at h
    exact ⟨_, h.parted hrest.parted, rfl, by simp [Cut.Sound], by simp [Cut.Quiet], fun p => rfl⟩
  · rw [hf]
    cases f with
    | blank c =>
      exact ⟨_, .blank hfits, rfl, by simp [Cut.Sound], by simp [Cut.Quiet], fun p => rfl⟩
    | comment text =>
      exact ⟨_, .comment hfits.1 (hrest.head? hfits.2), rfl, by simp [Cut.Sound],
        by simp [Cut.Quiet], fun p => rfl⟩
    | illegal c =>
      exact ⟨_, .blank (by decide), rfl, by simp [Cut.Sound], by simp [Cut.Quiet], fun p => rfl⟩

/-- A text with blanks for its illegal characters is cut into quiet pieces with the same tokens. -/
theorem Passes.fade {cs rest : List Char} {ks : List Cut} (h : Passes cs ks rest) :
    ∃ ls, Passes (ks.flatMap Cut.faded ++ rest) ls rest ∧ (∀ l ∈ ls, l.Quiet) ∧
      ∀ p, gather Cut.tokenAt? p ls = gather Cut.tokenAt? p ks := by
  induction h with
  | nil cs => exact ⟨[], .nil _, by simp, fun p => rfl⟩
  | @cons c cs rest k ks first sound more ih =>
    subst first
    obtain ⟨ls, hpasses, hquiet, htokens⟩ := ih
    -- The lookahead of a token goes over characters that may be blanked by now.
    have hrest : Faded (cut c cs).rest (ks.flatMap Cut.faded ++ rest) := by
      rw [more.text]
      exact more.faded.append (.refl rest)
    obtain ⟨l, hl, hlrest, hlsound, hlquiet, hltoken⟩ := (firstPiece_cut c cs).fade sound hrest
    have hlexeme : l.lexeme = (cut c cs).faded := by
      have happend := hl.append
      rw [hlrest] at happend
      exact List.append_cancel_right happend
    rw [List.flatMap_cons, List.append_assoc]
    refine ⟨l :: ls, .first hl hlsound (hlrest ▸ hpasses),
      List.forall_mem_cons.mpr ⟨hlquiet, hquiet⟩, fun p => ?_⟩
    rw [gather, gather, hltoken, hlexeme, (firstPiece_cut c cs).faded.after, htokens]

/-! ## Whole texts -/

private theorem compile_eq_scanned (source : String) (strict : Bool) :
    compile source strict = (scanned source strict).bind fun tokens =>
      (ObjectFile.ofTokens tokens).map fun object => ⟨object, complaints source strict⟩ := by
  rw [compile, scanned, complaints]
  cases scan (.ofSource source strict) <;> rfl

/-- A lenient scan complains about the illegal ones of its pieces, whether it comes to
the end or to a fault. -/
theorem complaints_of_passes {source : String} {ks : List Cut} {rest : List Char}
    (h : Passes source.toList ks rest) (hrest : Halts rest) :
    complaints source false = gather Cut.complaintAt? .start ks := by
  obtain rfl | ⟨c, cs, f, rfl, hf⟩ := hrest
  · exact (scan_of_passes h (by simp)).2
  · exact (scan_of_fault h hf (by simp)).2

/-- The blanked text is the text of the faded pieces. -/
theorem toList_blanked {source : String} {ks : List Cut} {rest : List Char}
    (h : Passes source.toList ks rest) (hrest : Halts rest) :
    (blanked source).toList = ks.flatMap Cut.faded ++ rest := by
  rw [blanked, complaints_of_passes h hrest, String.toList_ofList]
  exact blankAt_of_passes h _ .start fun q _ => Iff.rfl

/-- A strict scan of the blanked text gives what a lenient scan of the text gives. -/
theorem scan_blanked (source : String) :
    scanned (blanked source) true = scanned source false ∧
    complaints (blanked source) true = [] := by
  obtain ⟨ks, rest, hpasses, hhalts⟩ := exists_passes source.toList
  obtain ⟨ls, hfaded, hquiet, htokens⟩ := hpasses.fade
  have hlexemes : ls.flatMap Cut.lexeme = ks.flatMap Cut.faded :=
    List.append_cancel_right hfaded.text.symm
  have hbehind : Position.start.after (ls.flatMap Cut.lexeme) =
      Position.start.after (ks.flatMap Cut.lexeme) := by
    rw [hlexemes, hpasses.faded.after]
  rw [← toList_blanked hpasses hhalts] at hfaded
  have hnone : gather Cut.complaintAt? .start ls = [] := gather_complaints_eq_nil.mpr hquiet
  obtain rfl | ⟨c, cs, f, rfl, hf⟩ := hhalts
  · obtain ⟨hscanned, hcomplaints⟩ := scan_of_passes hfaded fun _ => hquiet
    rw [hscanned, hcomplaints, hnone, (scan_of_passes hpasses (by simp)).1, htokens, hbehind]
    exact ⟨rfl, rfl⟩
  · obtain ⟨hscanned, hcomplaints⟩ := scan_of_fault hfaded hf fun _ => hquiet
    rw [hscanned, hcomplaints, hnone, (scan_of_fault hpasses hf (by simp)).1, hbehind]
    exact ⟨rfl, rfl⟩

/-- A strict scan fails with the first complaint of a lenient scan, and without
complaints it gives the same. -/
theorem scan_strict (source : String) :
    scanned source true = (complaints source false).head?.elim (scanned source false) .error := by
  obtain ⟨ks, rest, hpasses, hhalts⟩ := exists_passes source.toList
  rw [complaints_of_passes hpasses hhalts]
  obtain hquiet | ⟨p, c, es, hcomplaints, hscanned⟩ := strict_of_passes hpasses
  · rw [gather_complaints_eq_nil.mpr hquiet]
    obtain rfl | ⟨c, cs, f, rfl, hf⟩ := hhalts
    · exact (scan_of_passes hpasses fun _ => hquiet).1.trans
        (scan_of_passes hpasses (by simp)).1.symm
    · exact (scan_of_fault hpasses hf fun _ => hquiet).1.trans
        (scan_of_fault hpasses hf (by simp)).1.symm
  · rw [hcomplaints, hscanned]
    rfl

/-- A strict scan gives what a lenient scan gives, or fails with its first complaint. With a blank
for every character that is complained about, the strict scan gives what the lenient one gives in
either case and has nothing to complain about, so both compile to the same. -/
theorem strict_agrees_with_lenient (source : String) :
    scanned source true = (complaints source false).head?.elim (scanned source false) .error ∧
    scanned (blanked source) true = scanned source false ∧ complaints (blanked source) true = [] ∧
    compile source false =
      (compile (blanked source) true).map fun c => ⟨c.object, complaints source false⟩ := by
  obtain ⟨hscanned, hcomplaints⟩ := scan_blanked source
  refine ⟨scan_strict source, hscanned, hcomplaints, ?_⟩
  rw [compile_eq_scanned, compile_eq_scanned, hscanned, hcomplaints]
  cases scanned source false with
  | error e => rfl
  | ok tokens =>
    simp only [Except.bind]
    cases ObjectFile.ofTokens tokens <;> rfl

example : blanked "a$\n'$'@" = "a \n'$' " := by decide +kernel

end Scanner

end Quadlet
