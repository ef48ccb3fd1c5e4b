import Quadlet.Proofs.Token.Layout

/-!
# Lexemes scan back to their tokens

Main statement: the lexemes that a lenient scan has found, put together with blanks between them,
make up a text that a strict scan reads as the same tokens, without a complaint.
-/

namespace Quadlet

namespace Token

/-- What a token says, wherever it stands. -/
def said (t : Token) : Kind × String := (t.kind, t.lexeme)

/-- The lexemes of tokens with blanks between them; the end of the file has none. -/
def joined (tokens : List Token) : String :=
  " ".intercalate ((tokens.filter fun t => t.kind ≠ .endOfFile).map lexeme)

end Token

namespace Scanner

/-- Nothing without a blank in it goes over a blank. -/
theorem parted_of_isSpace {c : Char} (h : isSpace c = true) (cs : List Char) :
    Parted [] (c :: cs) := by
  intro v hv hfront
  cases v with
  | nil => exact List.nil_prefix
  | cons d v =>
    obtain ⟨rfl, -⟩ := List.cons_prefix_cons.mp hfront
    rw [hv d (List.mem_cons_self ..)] at h
    cases h

section

variable {rest : List Char} {ks : List Cut} (h : Passes rest ks [])

include h

/-- A blank goes in front of a row of pieces. -/
theorem Passes.blank : Passes (' ' :: rest) (⟨.gap, [' '], rest⟩ :: ks) [] :=
  .first (.blank (by decide)) (by simp [Cut.Sound]) h

/-- A lexeme goes in front of a row of pieces that are parted from it. -/
theorem Passes.lexeme {w : List Char} {kind : Token.Kind} (hw : Spelled w kind)
    (hparted : Parted [] rest) : Passes (w ++ rest) (⟨.token kind, w, rest⟩ :: ks) [] :=
  .first ((firstPiece_of_spelled hw).parted hparted) (by simp [Cut.Sound]) h

end

/-- Lexemes with blanks between them are cut into the tokens that they spell. -/
theorem exists_passes_joined {ts : List Token} (h : ∀ t ∈ ts, Spelled t.lexeme.toList t.kind) :
    ∃ ks, Passes ([' '].intercalate (ts.map fun t => t.lexeme.toList)) ks [] ∧ (∀ k ∈ ks, k.Quiet) ∧
      ∀ p, (gather Cut.tokenAt? p ks).map Token.said = ts.map Token.said := by
  induction ts with
  | nil => exact ⟨[], .nil [], by simp, fun p => rfl⟩
  | cons t ts ih =>
    obtain ⟨ht, hts⟩ := List.forall_mem_cons.mp h
    obtain ⟨ks, hpasses, hquiet, hsaid⟩ := ih hts
    cases ts with
    | nil =>
      refine ⟨_, (Passes.nil []).lexeme ht fun v _ hfront => hfront, by simp [Cut.Quiet],
        fun p => ?_⟩
      simp [gather, Cut.tokenAt?, Token.said]
    | cons u ts =>
      refine ⟨_, hpasses.blank.lexeme ht (parted_of_isSpace (by decide) _), ?_, fun p => ?_⟩
      · simpa [Cut.Quiet] using hquiet
      · simp [gather, Cut.tokenAt?, Token.said, hsaid]

/-- The joined text of tokens with lexemes, in front of the end of the file. -/
theorem toList_joined {ts : List Token} (h : ∀ t ∈ ts, Spelled t.lexeme.toList t.kind)
    (last : Token) (hlast : last.kind = .endOfFile) :
    (Token.joined (ts ++ [last])).toList = [' '].intercalate (ts.map fun t => t.lexeme.toList) := by
  have hfilter : (ts ++ [last]).filter (fun t => t.kind ≠ .endOfFile) = ts := by
    rw [List.filter_append, List.filter_eq_self.mpr]
    · simp [hlast]
    · intro t ht
      simpa using (h t ht).kind_ne
  rw [Token.joined, hfilter, String.toList_intercalate, List.map_map]
  rfl

/-- What a lenient scan has found is found again by a strict scan of the lexemes,
with blanks between them. -/
theorem rescan_lexemes (source : String) (tokens : List Token)
    (h : scanned source false = .ok tokens) :
    ∃ tokens', scanned (Token.joined tokens) true = .ok tokens' ∧
    complaints (Token.joined tokens) true = [] ∧
      tokens'.map Token.said = tokens.map Token.said := by
  obtain ⟨ks, hpasses⟩ := exists_passes_of_scanned h
  obtain ⟨gap, entries, hlayout⟩ := hpasses.exists_layout rfl .start
  rw [(scan_of_passes hpasses (by simp)).1, ← hlayout.tokens_eq] at h
  cases h
  have hspelled : ∀ t ∈ entries.map Prod.fst, Spelled t.lexeme.toList t.kind := by
    intro t ht
    obtain ⟨e, he, rfl⟩ := List.mem_map.mp ht
    exact hlayout.spelled e he
  generalize entries.map Prod.fst = ts at hspelled
  obtain ⟨ls, hrow, hquiet, hsaid⟩ := exists_passes_joined hspelled
  rw [← toList_joined hspelled ⟨.endOfFile, "", Position.start.after (ks.flatMap Cut.lexeme)⟩ rfl]
    at hrow
  obtain ⟨hscanned, hcomplaints⟩ := scan_of_passes hrow fun _ => hquiet
  refine ⟨_, hscanned, hcomplaints.trans (gather_complaints_eq_nil.mpr hquiet), ?_⟩
  rw [List.map_append, List.map_append, hsaid]
  rfl

/-- The theorem on a text with a comment, an illegal character and a string
that holds a line break. -/
theorem rescan_lexemes_string :
    let source := "<= '\n'#'\n.5x@if"
    ∃ tokens tokens', scanned source false = .ok tokens ∧
      Token.joined tokens = "<= '\n' .5 x if" ∧ scanned (Token.joined tokens) true = .ok tokens' ∧
      tokens'.map Token.said = tokens.map Token.said := by
  intro source
  have hjoined : (scanned source false).map Token.joined = .ok "<= '\n' .5 x if" :=
    Except.toOption_eq_some.mp (by decide +kernel)
  obtain ⟨tokens, htokens, htext⟩ := Except.map_eq_ok.mp hjoined
  obtain ⟨tokens', hscanned, -, hsaid⟩ := rescan_lexemes source tokens htokens
  exact ⟨tokens, tokens', htokens, htext, hscanned, hsaid⟩

end Scanner

end Quadlet
