import Mathlib.Data.List.DropRight
import Quadlet.Proofs.Text.Blank

/-!
# Fields of a line

A line without blanks at its ends is a row of words with blanks between them, and its words are
those of the row. What is trimmed has no blanks at its ends, and blanks there do not change it.
Carriage returns in front of line feeds are such blanks, so they change no line.
-/

namespace Quadlet.Text

/-! ## Words in a row -/

/-- Only blanks. -/
def AreBlanks (cs : List Char) : Prop := ∀ c ∈ cs, isBlank c = true

/-- A row of words with blanks between them. -/
inductive Fields : List (List Char) → List Char → Prop where
  | last {w : List Char} (hw : IsWord w) : Fields [w] w
  | cons {w bs cs : List Char} {ws : List (List Char)} (hw : IsWord w) (hne : bs ≠ [])
    (hbs : AreBlanks bs) (h : Fields ws cs) : Fields (w :: ws) (w ++ bs ++ cs)

/-- Blanks in front of words are passed over. -/
theorem words_blanks {bs : List Char} (hbs : AreBlanks bs) (cs : List Char) :
    words (bs ++ cs) = words cs := by
  induction bs with
  | nil => rfl
  | cons b bs ih =>
    obtain ⟨hb, hbs⟩ := List.forall_mem_cons.mp hbs
    rw [← ih hbs]
    simp [words, pieces, hb]

/-- The words of a row are found in it. -/
theorem Fields.words_eq {ws : List (List Char)} {cs : List Char} (h : Fields ws cs) :
    words cs = ws := by
  induction h with
  | last hw => exact hw.words_self
  | @cons w bs cs ws hw hne hbs _ ih =>
    obtain ⟨b, bs, rfl⟩ := List.exists_cons_of_ne_nil hne
    obtain ⟨hb, hbs⟩ := List.forall_mem_cons.mp hbs
    rw [List.append_assoc, List.cons_append, hw.words_append hb, words_blanks hbs, ih]

theorem head?_dropWhile {p : Char → Bool} {cs : List Char} {c : Char}
    (h : (cs.dropWhile p).head? = some c) : p c = false := by
  have hnot := List.head?_dropWhile_not p cs
  rw [h] at hnot
  simpa using hnot

/-- A line without blanks at its ends is a word, or a word, blanks and such a line. -/
theorem isWord_or_split {cs : List Char} (h : IsTrimmed cs) (hne : cs ≠ []) : IsWord cs ∨
    ∃ w bs more, IsWord w ∧ bs ≠ [] ∧ AreBlanks bs ∧ IsTrimmed more ∧ more ≠ [] ∧
    cs = w ++ bs ++ more := by
  obtain ⟨c, rest, rfl⟩ := List.exists_cons_of_ne_nil hne
  have hc : isBlank c = false := h.first c rfl
  obtain ⟨w, hwdef⟩ : ∃ w, w = rest.takeWhile fun d => !isBlank d := ⟨_, rfl⟩
  obtain ⟨tail, htaildef⟩ : ∃ tail, tail = rest.dropWhile fun d => !isBlank d := ⟨_, rfl⟩
  have hsplit : c :: w ++ tail = c :: rest := by
    rw [hwdef, htaildef]
    exact congrArg (c :: ·) List.takeWhile_append_dropWhile
  have hw : IsWord (c :: w) := by
    refine ⟨by simp, List.forall_mem_cons.mpr ⟨hc, fun d hd => ?_⟩⟩
    rw [hwdef] at hd
    simpa using List.mem_takeWhile_imp hd
  cases tail with
  | nil =>
    rw [List.append_nil] at hsplit
    exact .inl (hsplit ▸ hw)
  | cons b tail =>
    have hnot : (!isBlank b) = false :=
      head?_dropWhile (p := fun d => !isBlank d) (by rw [← htaildef]; rfl)
    have hb : isBlank b = true := by simpa using hnot
    have hlast {d : Char} (hd : tail.getLast? = some d) : isBlank d = false := by
      refine h.last d ?_
      rw [← hsplit, List.getLast?_append, List.getLast?_cons, hd]
      rfl
    have hblanks : tail.takeWhile isBlank ++ tail.dropWhile isBlank = tail :=
      List.takeWhile_append_dropWhile
    refine .inr ⟨c :: w, b :: tail.takeWhile isBlank, tail.dropWhile isBlank, hw, by simp,
      List.forall_mem_cons.mpr ⟨hb, fun d hd => List.mem_takeWhile_imp hd⟩,
      ⟨fun d hd => head?_dropWhile hd, fun d hd => hlast ?_⟩, fun hnil => ?_, ?_⟩
    · rw [← hblanks, List.getLast?_append, hd, Option.some_or]
    · -- The line would end with a blank.
      have hall : AreBlanks (b :: tail) :=
        List.forall_mem_cons.mpr ⟨hb, List.dropWhile_eq_nil_iff.mp hnil⟩
      have hend := h.last ((b :: tail).getLast (by simp)) (by
        rw [← hsplit, List.getLast?_append, List.getLast?_eq_some_getLast (by simp),
          Option.some_or])
      rw [hall _ (List.getLast_mem _)] at hend
      cases hend
    · simp only [List.append_assoc, List.cons_append, hblanks]
      exact hsplit.symm

/-- A line without blanks at its ends is a row of its words. -/
theorem fields_words {cs : List Char} (h : IsTrimmed cs) (hne : cs ≠ []) :
    Fields (words cs) cs := by
  induction hlength : cs.length using Nat.strongRecOn generalizing cs with
  | ind n ih =>
    obtain hw | ⟨w, bs, more, hw, hbs, hblanks, hmore, hmorene, rfl⟩ := isWord_or_split h hne
    · rw [hw.words_self]
      exact .last hw
    · have hshort : more.length < n := by
        have hpos := List.length_pos_iff.mpr hbs
        simp only [List.length_append] at hlength
        omega
      have hrow := Fields.cons hw hbs hblanks (ih _ hshort hmore hmorene rfl)
      rw [hrow.words_eq]
      exact hrow

/-! ## Ends of lines -/

/-- What is trimmed has no blanks at its ends. -/
theorem isTrimmed_trim (cs : List Char) : IsTrimmed (trim cs) := by
  have htrim : trim cs = (cs.dropWhile isBlank).rdropWhile isBlank := rfl
  rw [htrim]
  constructor
  · intro c hc
    obtain ⟨bs, hbs⟩ := List.rdropWhile_prefix isBlank (l := cs.dropWhile isBlank)
    have hhead : (cs.dropWhile isBlank).head? = some c := by
      rw [← hbs, List.head?_append, hc, Option.some_or]
    exact head?_dropWhile hhead
  · intro c hc
    have hne : (cs.dropWhile isBlank).rdropWhile isBlank ≠ [] := by
      intro hnil
      rw [hnil] at hc
      cases hc
    rw [List.getLast?_eq_some_getLast hne] at hc
    cases hc
    exact Bool.eq_false_iff.mpr (List.rdropWhile_last_not isBlank _ hne)

/-- Blanks at the end do not change what is trimmed. -/
theorem trim_append_blanks {bs : List Char} (hbs : AreBlanks bs) (cs : List Char) :
    trim (cs ++ bs) = trim cs := by
  rw [trim, trim, List.dropWhile_append]
  split
  · next hnil =>
    rw [List.dropWhile_eq_nil_iff.mpr hbs, List.isEmpty_iff.mp hnil]
  · rw [List.reverse_append, List.dropWhile_append_of_pos fun c hc =>
      hbs c (List.mem_reverse.mp hc)]

/-! ## Carriage returns -/

/-- A text with a carriage return in front of every line feed. -/
def withReturns (cs : List Char) : List Char :=
  cs.flatMap fun c => if c = '\n' then ['\r', '\n'] else [c]

private theorem withReturns_ne_feed (cs ds : List Char) : withReturns cs ≠ '\n' :: ds := by
  cases cs with
  | nil => simp [withReturns]
  | cons c cs =>
    rw [withReturns, List.flatMap_cons]
    split
    · simp
    · next hc => simp [hc]

/-- A character within a line is put in front of the first line. -/
theorem lines_cons_withReturns {c : Char} (hc : c ≠ '\n') (cs : List Char) :
    lines (c :: withReturns cs) = (c :: (lines (withReturns cs)).headD []) ::
      (lines (withReturns cs)).tail := by
  rw [lines]
  · cases lines (withReturns cs) <;> rfl
  · exact hc
  · intro ds _ hds
    exact withReturns_ne_feed cs ds hds

/-- Carriage returns in front of line feeds stand at the ends of lines. -/
theorem lines_withReturns (cs : List Char) :
    List.Forall₂ (fun l l' => ∃ bs, AreBlanks bs ∧ l' = l ++ bs) (lines cs)
      (lines (withReturns cs)) := by
  have hcons {c : Char} (hc : c ≠ '\n') (cs : List Char) : withReturns (c :: cs) =
      c :: withReturns cs := by
    simp [withReturns, hc]
  fun_induction lines cs with
  | case1 => exact .nil
  | case2 cs ih => exact .cons ⟨[], by simp [AreBlanks], rfl⟩ ih
  | case3 cs ih => exact .cons ⟨['\r'], by simp [AreBlanks]; decide, rfl⟩ ih
  | case4 c cs hfeed _ hnil ih =>
    rw [hnil] at ih
    rw [hcons hfeed, lines_cons_withReturns hfeed]
    generalize lines (withReturns cs) = ls' at ih ⊢
    cases ih
    exact .cons ⟨[], by simp [AreBlanks], rfl⟩ .nil
  | case5 c cs hfeed _ l ls hlines ih =>
    rw [hlines] at ih
    rw [hcons hfeed, lines_cons_withReturns hfeed]
    generalize lines (withReturns cs) = ls' at ih ⊢
    cases ih with
    | cons hl hrest =>
      obtain ⟨bs, hbs, rfl⟩ := hl
      exact .cons ⟨bs, hbs, rfl⟩ hrest

/-- Carriage returns change no trimmed line. -/
theorem map_trim_lines_withReturns (cs : List Char) :
    (lines (withReturns cs)).map trim = (lines cs).map trim := by
  have h := lines_withReturns cs
  generalize lines cs = ls, lines (withReturns cs) = ls' at h
  induction h with
  | nil => rfl
  | cons hl _ ih =>
    obtain ⟨bs, hbs, rfl⟩ := hl
    rw [List.map_cons, List.map_cons, ih, trim_append_blanks hbs]

end Quadlet.Text
