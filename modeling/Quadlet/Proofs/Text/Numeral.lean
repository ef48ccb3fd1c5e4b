import Quadlet.Proofs.Effects
import Quadlet.Text.Numeral

/-!
# Numerals are read back

The digits of a number are read as that number, with its sign if it has one. What is read is within
the limits of 64 bits, so a number is read back exactly if it is. Main statements: the readers take
exactly the texts that spell such numbers.
-/

namespace Quadlet.Text.Numeral

/-- An integer that 64 bits hold. -/
def IsInt (n : Int) : Prop := -((intLimit : Int) + 1) ≤ n ∧ n ≤ intLimit

/-- A count that 64 bits hold. -/
def IsCount (n : Nat) : Prop := n ≤ countLimit

instance (n : Int) : Decidable (IsInt n) := inferInstanceAs (Decidable (_ ∧ _))

instance (n : Nat) : Decidable (IsCount n) := inferInstanceAs (Decidable (_ ≤ _))

/-! ## Digits -/

/-- Digits only add to a number. -/
theorem le_ofDigitChars (cs : List Char) (n : Nat) : n ≤ Nat.ofDigitChars 10 cs n := by
  rw [Nat.ofDigitChars_eq_ofDigitChars_zero]
  have hpos : 0 < 10 ^ cs.length := Nat.pow_pos (by decide)
  exact Nat.le_trans (Nat.le_mul_of_pos_left n hpos) (Nat.le_add_right _ _)

/-- Digits are read as the number that they write. -/
theorem accumulate_digits {limit value : Nat} {past : Fault} {cs : List Char}
    (hcs : ∀ c ∈ cs, c.isDigit = true) (hlimit : Nat.ofDigitChars 10 cs value ≤ limit) :
    accumulate limit past value cs = .ok (Nat.ofDigitChars 10 cs value) := by
  induction cs generalizing value with
  | nil => rfl
  | cons c cs ih =>
    rw [Nat.ofDigitChars_cons] at hlimit ⊢
    have hle : 10 * value + digit c ≤ limit := Nat.le_trans (le_ofDigitChars cs _) hlimit
    rw [accumulate, if_pos (hcs c (List.mem_cons_self ..)), if_pos hle]
    exact ih (fun d hd => hcs d (List.mem_cons_of_mem _ hd)) hlimit

/-- Digits that write a number past the limit are not read. -/
theorem accumulate_past {limit value : Nat} {past : Fault} {cs : List Char}
    (hcs : ∀ c ∈ cs, c.isDigit = true) (hvalue : value ≤ limit)
    (hlimit : limit < Nat.ofDigitChars 10 cs value) :
    accumulate limit past value cs = .error past := by
  induction cs generalizing value with
  | nil => exact absurd hlimit (Nat.not_lt.mpr hvalue)
  | cons c cs ih =>
    rw [Nat.ofDigitChars_cons] at hlimit
    rw [accumulate, if_pos (hcs c (List.mem_cons_self ..))]
    split
    · next hle => exact ih (fun d hd => hcs d (List.mem_cons_of_mem _ hd)) hle hlimit
    · rfl

private theorem digits_toDigits {limit n : Nat} {past : Fault} (h : n ≤ limit) :
    digits limit past (Nat.toDigits 10 n) = .ok n := by
  have hread : accumulate limit past 0 (Nat.toDigits 10 n) = .ok n := by
    have hdigits : ∀ c ∈ Nat.toDigits 10 n, c.isDigit = true := fun c hc =>
      Nat.isDigit_of_mem_toDigits (by decide) (by decide) hc
    rw [accumulate_digits hdigits (by rw [Nat.ofDigitChars_ten_toDigits]; exact h),
      Nat.ofDigitChars_ten_toDigits]
  cases hcs : Nat.toDigits 10 n with
  | nil => exact absurd hcs Nat.toDigits_ne_nil
  | cons c cs => rw [digits, ← hcs, hread]; simp

/-- What digits are read as is within the limit. -/
theorem digits_le {limit n : Nat} {past : Fault} {cs : List Char}
    (h : digits limit past cs = .ok n) : n ≤ limit := by
  cases cs with
  | nil => cases h
  | cons c cs => exact accumulate_le h (Nat.zero_le _)

/-! ## Counts -/

/-- A text that starts with a digit has no sign. -/
theorem readCount_of_isDigit {c : Char} {cs : List Char} (h : c.isDigit = true) :
    readCount (c :: cs) = digits countLimit .tooLarge (c :: cs) := by
  unfold readCount
  split
  · next heq => cases heq
  · next heq =>
    cases heq
    exact absurd h (by decide)
  · rfl

/-- The text of a count is read as the count. -/
theorem readCount_toString {n : Nat} (h : IsCount n) : readCount (toString n).toList = .ok n := by
  rw [Nat.toString_eq_ofList_toDigits, String.toList_ofList]
  cases hcs : Nat.toDigits 10 n with
  | nil => exact absurd hcs Nat.toDigits_ne_nil
  | cons c cs =>
    have hc : c.isDigit = true :=
      Nat.isDigit_of_mem_toDigits (by decide) (by decide) (hcs ▸ List.mem_cons_self ..)
    rw [readCount_of_isDigit hc, ← hcs]
    exact digits_toDigits h

/-- What is read as a count is one. -/
theorem isCount_of_readCount {cs : List Char} {n : Nat} (h : readCount cs = .ok n) : IsCount n := by
  unfold readCount at h
  split at h
  · cases h
  · exact digits_le h
  · exact digits_le h

/-! ## Integers -/

theorem readInt_of_isDigit {c : Char} {cs : List Char} (h : c.isDigit = true) :
    readInt (c :: cs) = (digits intLimit .tooLarge (c :: cs)).map Int.ofNat := by
  unfold readInt
  split
  · next heq => cases heq
  · next heq =>
    cases heq
    exact absurd h (by decide)
  · next heq =>
    cases heq
    exact absurd h (by decide)
  · rfl

/-- The characters of an integer: its digits, behind a minus if it is negative. -/
theorem toList_toString_int (n : Int) :
    (toString n).toList = if 0 ≤ n then Nat.toDigits 10 n.toNat else '-' ::
      Nat.toDigits 10 (-n).toNat := by
  rw [Int.toString_eq_repr, Int.repr_eq_if]
  split
  · rw [Nat.repr_eq_ofList_toDigits, String.toList_ofList]
  · simp [Nat.repr_eq_ofList_toDigits]

/-- The text of an integer is read as the integer. -/
theorem readInt_toString {n : Int} (h : IsInt n) : readInt (toString n).toList = .ok n := by
  obtain ⟨hlow, hhigh⟩ := h
  rw [toList_toString_int]
  split
  · next hn =>
    cases hcs : Nat.toDigits 10 n.toNat with
    | nil => exact absurd hcs Nat.toDigits_ne_nil
    | cons c cs =>
      have hc : c.isDigit = true :=
        Nat.isDigit_of_mem_toDigits (by decide) (by decide) (hcs ▸ List.mem_cons_self ..)
      rw [readInt_of_isDigit hc, ← hcs, digits_toDigits (by omega)]
      exact congrArg Except.ok (Int.toNat_of_nonneg hn)
  · next hn =>
    rw [readInt, digits_toDigits (by omega)]
    refine congrArg Except.ok ?_
    change -((-n).toNat : Int) = n
    omega

/-- What is read as an integer is one that 64 bits hold. -/
theorem isInt_of_readInt {cs : List Char} {n : Int} (h : readInt cs = .ok n) : IsInt n := by
  unfold readInt at h
  split at h
  · cases h
  all_goals
    obtain ⟨m, hm, rfl⟩ := Except.map_eq_ok.mp h
    have hle := digits_le hm
    constructor <;> simp only [Int.ofNat_eq_natCast] <;> omega

/-- The characters of an integer are digits or a minus. -/
theorem mem_toString_int {n : Int} {c : Char} (h : c ∈ (toString n).toList) :
    c.isDigit = true ∨ c = '-' := by
  have hdigits {m : Nat} (hc : c ∈ Nat.toDigits 10 m) : c.isDigit = true :=
    Nat.isDigit_of_mem_toDigits (by decide) (by decide) hc
  rw [toList_toString_int] at h
  split at h
  · exact .inl (hdigits h)
  · obtain rfl | h := List.mem_cons.mp h
    · exact .inr rfl
    · exact .inl (hdigits h)

theorem toString_int_ne_nil (n : Int) : (toString n).toList ≠ [] := by
  rw [toList_toString_int]
  split
  · exact Nat.toDigits_ne_nil
  · simp

/-- The text of a count is that of the integer. -/
theorem toString_nat (n : Nat) : toString n = toString (n : Int) := rfl

/-! ## Spellings -/

/-- Digits, at least one, that write a number. -/
structure SpellsDigits (ds : List Char) (n : Nat) : Prop where
  ne_nil : ds ≠ []
  areDigits : ∀ c ∈ ds, c.isDigit = true
  value : Nat.ofDigitChars 10 ds 0 = n

/-- A count of 64 bits in digits, perhaps behind a plus. -/
def SpellsCount (cs : List Char) (n : Nat) : Prop :=
  IsCount n ∧ ∃ ds, SpellsDigits ds n ∧ (cs = ds ∨ cs = '+' :: ds)

/-- An integer of 64 bits in digits, perhaps behind a sign. -/
def SpellsInt (cs : List Char) (n : Int) : Prop :=
  IsInt n ∧ ∃ ds m, SpellsDigits ds m ∧
    ((cs = ds ∨ cs = '+' :: ds) ∧ n = m ∨ cs = '-' :: ds ∧ n = -m)

private theorem isDigit_of_accumulate {limit value n : Nat} {past : Fault} {cs : List Char}
    (h : accumulate limit past value cs = .ok n) :
    (∀ c ∈ cs, c.isDigit = true) ∧ Nat.ofDigitChars 10 cs value = n := by
  induction cs generalizing value with
  | nil =>
    cases h
    exact ⟨by simp, rfl⟩
  | cons c cs ih =>
    rw [accumulate] at h
    split at h
    · next hc =>
      split at h
      · obtain ⟨hcs, hvalue⟩ := ih h
        exact ⟨List.forall_mem_cons.mpr ⟨hc, hcs⟩, by rw [Nat.ofDigitChars_cons]; exact hvalue⟩
      · cases h
    · cases h

/-- Digits are read exactly if they write a number within the limit. -/
theorem digits_eq_ok_iff {limit n : Nat} {past : Fault} {cs : List Char} :
    digits limit past cs = .ok n ↔ SpellsDigits cs n ∧ n ≤ limit := by
  cases cs with
  | nil =>
    constructor
    · intro h
      cases h
    · intro h
      exact absurd rfl h.1.ne_nil
  | cons c cs =>
    constructor
    · intro h
      obtain ⟨hcs, hvalue⟩ := isDigit_of_accumulate h
      exact ⟨⟨by simp, hcs, hvalue⟩, digits_le h⟩
    · rintro ⟨h, hlimit⟩
      rw [digits, accumulate_digits h.areDigits (h.value ▸ hlimit), h.value]
      simp

/-- Digits start with no sign. -/
theorem SpellsDigits.first {ds : List Char} {n : Nat} (h : SpellsDigits ds n) :
    ∃ c cs, ds = c :: cs ∧ c.isDigit = true := by
  obtain ⟨c, cs, rfl⟩ := List.exists_cons_of_ne_nil h.ne_nil
  exact ⟨c, cs, rfl, h.areDigits c (List.mem_cons_self ..)⟩

/-- A text is read as a count exactly if it spells the count. -/
theorem readCount_eq_ok_iff {cs : List Char} {n : Nat} :
    readCount cs = .ok n ↔ SpellsCount cs n := by
  constructor
  · intro h
    refine ⟨isCount_of_readCount h, ?_⟩
    unfold readCount at h
    split at h
    · cases h
    · exact ⟨_, (digits_eq_ok_iff.mp h).1, .inr rfl⟩
    · exact ⟨_, (digits_eq_ok_iff.mp h).1, .inl rfl⟩
  · rintro ⟨hn, ds, hds, rfl | rfl⟩
    · obtain ⟨c, cs, rfl, hc⟩ := hds.first
      rw [readCount_of_isDigit hc]
      exact digits_eq_ok_iff.mpr ⟨hds, hn⟩
    · exact digits_eq_ok_iff.mpr ⟨hds, hn⟩

/-- A text is read as an integer exactly if it spells the integer. -/
theorem readInt_eq_ok_iff {cs : List Char} {n : Int} : readInt cs = .ok n ↔ SpellsInt cs n := by
  constructor
  · intro h
    refine ⟨isInt_of_readInt h, ?_⟩
    unfold readInt at h
    split at h
    · cases h
    · obtain ⟨m, hm, rfl⟩ := Except.map_eq_ok.mp h
      exact ⟨_, m, (digits_eq_ok_iff.mp hm).1, .inl ⟨.inr rfl, rfl⟩⟩
    · obtain ⟨m, hm, rfl⟩ := Except.map_eq_ok.mp h
      exact ⟨_, m, (digits_eq_ok_iff.mp hm).1, .inr ⟨rfl, rfl⟩⟩
    · obtain ⟨m, hm, rfl⟩ := Except.map_eq_ok.mp h
      exact ⟨_, m, (digits_eq_ok_iff.mp hm).1, .inl ⟨.inl rfl, rfl⟩⟩
  · rintro ⟨⟨hlow, hhigh⟩, ds, m, hds, ⟨rfl | rfl, rfl⟩ | ⟨rfl, rfl⟩⟩
    · obtain ⟨c, cs, rfl, hc⟩ := hds.first
      rw [readInt_of_isDigit hc]
      exact Except.map_eq_ok.mpr ⟨m, digits_eq_ok_iff.mpr ⟨hds, by omega⟩, rfl⟩
    · exact Except.map_eq_ok.mpr ⟨m, digits_eq_ok_iff.mpr ⟨hds, by omega⟩, rfl⟩
    · exact Except.map_eq_ok.mpr ⟨m, digits_eq_ok_iff.mpr ⟨hds, by omega⟩, rfl⟩

end Quadlet.Text.Numeral
