import Quadlet.Proofs.Text.Numeral
import Quadlet.Text.Blank

/-!
# Lines and words are found again

Lines without line feeds and carriage returns are found in the text that they make up,
words without blanks in the line that they make up, and a line that neither starts nor ends
with a blank keeps its ends.
-/

namespace Quadlet.Text

/-! ## Lines -/

/-- Characters that stay within one line. -/
def IsLine (cs : List Char) : Prop := ∀ c ∈ cs, c ≠ '\n' ∧ c ≠ '\r'

/-- A line is found in front of the rest of its text. -/
theorem lines_append {l : List Char} (hl : IsLine l) (cs : List Char) :
    lines (l ++ '\n' :: cs) = l :: lines cs := by
  induction l with
  | nil => rfl
  | cons c l ih =>
    obtain ⟨hfeed, hreturn⟩ := hl c (List.mem_cons_self ..)
    rw [List.cons_append, lines, ih fun d hd => hl d (List.mem_cons_of_mem _ hd)]
    · exact hfeed
    · intro _ hc
      exact absurd hc hreturn

/-- The lines of a text are found in it. -/
theorem lines_flatMap {ls : List (List Char)} (hls : ∀ l ∈ ls, IsLine l) :
    lines (ls.flatMap fun l => l ++ ['\n']) = ls := by
  induction ls with
  | nil => rfl
  | cons l ls ih =>
    rw [List.flatMap_cons, List.append_assoc, List.singleton_append,
      lines_append (hls l (List.mem_cons_self ..)), ih fun m hm =>
        hls m (List.mem_cons_of_mem _ hm)]

/-! ## Ends of lines -/

/-- A text whose first and last characters are not blank. -/
structure IsTrimmed (cs : List Char) : Prop where
  first : ∀ c, cs.head? = some c → isBlank c = false
  last : ∀ c, cs.getLast? = some c → isBlank c = false

theorem dropWhile_of_head {p : Char → Bool} {cs : List Char}
    (h : ∀ c, cs.head? = some c → p c = false) : cs.dropWhile p = cs := by
  cases cs with
  | nil => rfl
  | cons c cs => exact List.dropWhile_cons_of_neg (by simp [h c rfl])

/-- Such a text is trimmed. -/
theorem trim_of_isTrimmed {cs : List Char} (h : IsTrimmed cs) : trim cs = cs := by
  rw [trim, dropWhile_of_head h.first, dropWhile_of_head, List.reverse_reverse]
  intro c hc
  rw [List.head?_reverse] at hc
  exact h.last c hc

/-- A blank in front of such a text is dropped. -/
theorem trim_cons_of_isTrimmed {c : Char} {cs : List Char} (hc : isBlank c = true)
    (h : IsTrimmed cs) : trim (c :: cs) = cs := by
  rw [trim, List.dropWhile_cons_of_pos hc]
  exact trim_of_isTrimmed h

/-! ## Words -/

/-- A word: characters that are not blank, at least one. -/
structure IsWord (cs : List Char) : Prop where
  ne_nil : cs ≠ []
  solid : ∀ c ∈ cs, isBlank c = false

theorem isWord_of_all {w : List Char} (h : (!w.isEmpty && w.all fun c => !isBlank c) = true) :
    IsWord w := by
  simp only [Bool.and_eq_true, Bool.not_eq_true', List.isEmpty_eq_false_iff, List.all_eq_true] at h
  exact ⟨h.1, h.2⟩

namespace IsWord

variable {w v : List Char}

theorem isTrimmed (h : IsWord w) : IsTrimmed w :=
  ⟨fun c hc => h.solid c (List.mem_of_head? hc), fun c hc => h.solid c (List.mem_of_getLast? hc)⟩

/-- A text that starts with a word and ends with one is trimmed. -/
theorem isTrimmed_append (hw : IsWord w) (hv : IsTrimmed v) (hne : v ≠ []) (cs : List Char) :
    IsTrimmed (w ++ cs ++ v) := by
  constructor
  · intro c hc
    obtain ⟨d, w, rfl⟩ := List.exists_cons_of_ne_nil hw.ne_nil
    exact hw.isTrimmed.first c hc
  · intro c hc
    have hlast := List.getLast?_eq_some_getLast hne
    rw [List.getLast?_append, hlast, Option.some_or, ← hlast] at hc
    exact hv.last c hc

theorem isLine (h : IsWord w) : IsLine w := by
  intro c hc
  have hsolid := h.solid c hc
  constructor
  · rintro rfl
    exact absurd hsolid (by decide)
  · rintro rfl
    exact absurd hsolid (by decide)

private theorem pieces_append (hw : ∀ c ∈ w, isBlank c = false) {c : Char} (hc : isBlank c = true)
    (cs : List Char) : pieces (w ++ c :: cs) = w :: pieces cs := by
  induction w with
  | nil => rw [List.nil_append, pieces, if_pos hc]
  | cons d w ih =>
    have hd := hw d (List.mem_cons_self ..)
    rw [List.cons_append, pieces, ih fun e he => hw e (List.mem_cons_of_mem _ he)]
    simp [hd]

private theorem pieces_self (hw : ∀ c ∈ w, isBlank c = false) : pieces w = [w] := by
  induction w with
  | nil => rfl
  | cons d w ih =>
    have hd := hw d (List.mem_cons_self ..)
    rw [pieces, ih fun e he => hw e (List.mem_cons_of_mem _ he)]
    simp [hd]

/-- A word alone is the only one. -/
theorem words_self (h : IsWord w) : words w = [w] := by
  simp [words, pieces_self h.solid, h.ne_nil]

/-- A word is found in front of others. -/
theorem words_append (h : IsWord w) {c : Char} (hc : isBlank c = true) (cs : List Char) :
    words (w ++ c :: cs) = w :: words cs := by
  simp [words, pieces_append h.solid hc, h.ne_nil]

end IsWord

/-- A line of the given words. -/
structure IsRow (ws : List (List Char)) (cs : List Char) : Prop where
  isLine : IsLine cs
  isTrimmed : IsTrimmed cs
  words_eq : words cs = ws

/-- Words with a blank between them are a line of these words. -/
theorem isRow_intercalate (ws : List (List Char)) (hws : ∀ w ∈ ws, IsWord w) :
    IsRow ws ([' '].intercalate ws) := by
  induction ws with
  | nil => exact ⟨by simp [IsLine], ⟨by simp, by simp⟩, rfl⟩
  | cons w ws ih =>
    obtain ⟨hw, hws⟩ := List.forall_mem_cons.mp hws
    cases ws with
    | nil =>
      rw [List.intercalate_singleton]
      exact ⟨hw.isLine, hw.isTrimmed, hw.words_self⟩
    | cons v ws =>
      have hrow := ih hws
      have hne : [' '].intercalate (v :: ws) ≠ [] := by
        intro hnil
        have hwords := hrow.words_eq
        rw [hnil] at hwords
        cases hwords
      rw [List.intercalate_cons_cons]
      refine ⟨?_, hw.isTrimmed_append hrow.isTrimmed hne _, ?_⟩
      · simp only [IsLine, List.forall_mem_append, List.forall_mem_singleton]
        exact ⟨⟨hw.isLine, by decide⟩, hrow.isLine⟩
      · rw [List.append_assoc, List.singleton_append, hw.words_append (by decide), hrow.words_eq]

/-! ## Numerals -/

theorem isBlank_of_isDigit {c : Char} (h : c.isDigit = true) : isBlank c = false := by
  simp only [Char.isDigit, Bool.and_eq_true, decide_eq_true_eq, ge_iff_le,
    UInt32.le_iff_toNat_le] at h
  simp only [isBlank, Bool.or_eq_false_iff, Bool.and_eq_false_iff, decide_eq_false_iff_not,
    beq_eq_false_iff_ne]
  have hlow : 48 ≤ c.toNat := h.1
  have hhigh : c.toNat ≤ 57 := h.2
  omega

/-- The text of an integer is a word. -/
theorem isWord_int (n : Int) : IsWord (toString n).toList := by
  refine ⟨Numeral.toString_int_ne_nil n, fun c hc => ?_⟩
  obtain h | rfl := Numeral.mem_toString_int hc
  · exact isBlank_of_isDigit h
  · decide

theorem isWord_nat (n : Nat) : IsWord (toString n).toList := by
  rw [Numeral.toString_nat]
  exact isWord_int n

end Quadlet.Text
