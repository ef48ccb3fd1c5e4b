import Mathlib
import Quadlet.Proofs.Decimal.Reading

/-!
# Doubles are read back

A double is its sign and its magnitude, and only one double is no number. So every double is read
back from its text, the infinities and the one that is no number included.
-/

namespace Quadlet

namespace Binary64

private theorem magnitude_lt (x : Float) : magnitude x < signBit := Nat.mod_lt _ (by decide)

/-- A double is its sign and its magnitude. -/
theorem ofMagnitude_magnitude (x : Float) : ofMagnitude (isNegative x) (magnitude x) = x := by
  have hlt := x.toBits.toNat_lt
  have hbits : (if isNegative x then magnitude x + signBit else magnitude x) = x.toBits.toNat := by
    by_cases h : signBit ≤ x.toBits.toNat
    · simp only [isNegative, h, decide_true, if_true, magnitude]
      simp only [signBit] at h ⊢
      omega
    · simp only [isNegative, h, decide_false, magnitude]
      exact Nat.mod_eq_of_lt (Nat.lt_of_not_le h)
  rw [ofMagnitude, hbits, UInt64.ofNat_toNat, Float.ofBits_toBits]

section

open Float.Model

variable {x : Float} (h : infinity < magnitude x)

include h

/-- Above infinity, every bit of the exponent is set. -/
theorem unpackExponent_of_infinity_lt :
    @UnpackedFloat.unpackExponent Format.binary64 x.toModel.toBits.toBitVec = -1#11 := by
  have hlt := magnitude_lt x
  have hbits : magnitude x = x.toModel.toBits.toBitVec.toNat % signBit := rfl
  rw [UnpackedFloat.unpackExponent_def]
  apply BitVec.eq_of_toNat_eq
  have hones : (-1#11).toNat = 2047 := by decide
  rw [hones, BitVec.extractLsb'_toNat, Nat.shiftRight_eq_div_pow]
  change x.toModel.toBits.toBitVec.toNat / 2 ^ 52 % 2 ^ 11 = 2047
  simp only [hbits, infinity, unit, signBit] at h hlt
  omega

/-- Above infinity, some bit of the fraction is set. -/
theorem unpackMantissa_of_infinity_lt :
    @UnpackedFloat.unpackMantissa Format.binary64 x.toModel.toBits.toBitVec ≠ 0#52 := by
  have hlt := magnitude_lt x
  have hbits : magnitude x = x.toModel.toBits.toBitVec.toNat % signBit := rfl
  rw [UnpackedFloat.unpackMantissa_def]
  intro hzero
  have hfraction : x.toModel.toBits.toBitVec.toNat % 2 ^ 52 = 0 := by
    simpa [BitVec.extractLsb'_toNat] using congrArg BitVec.toNat hzero
  simp only [hbits, infinity, unit, signBit] at h hlt
  omega

/-- There is one double that is no number. -/
theorem eq_of_infinity_lt : x = ofMagnitude false (infinity + unit / 2) := by
  have hnan :=
    x.toModel.valid.eq_packedNaN (unpackExponent_of_infinity_lt h) (unpackMantissa_of_infinity_lt h)
  refine Float.toBits_inj.mp (UInt64.toBitVec_inj.mp (Eq.trans hnan ?_))
  decide

end

end Binary64

namespace Decimal

open Binary64 Text

private theorem readFloat_minus (cs : List Char) :
    readFloat ('-' :: cs) = (readMagnitude cs).map (ofMagnitude true) :=
  rfl

theorem readFloat_plain {c : Char} {cs : List Char} (hminus : c ≠ '-') (hplus : c ≠ '+') :
    readFloat (c :: cs) = (readMagnitude (c :: cs)).map (ofMagnitude false) := by
  rw [readFloat]
  · rintro _ ⟨⟩
    exact hminus rfl
  · rintro _ ⟨⟩
    exact hplus rfl

/-- A finite double is read back from its text. -/
theorem readFloat_finite (layout : Layout) {x : Float} (h : magnitude x < infinity) :
    readFloat (layout.finite x).toList = some x := by
  have hread := readMagnitude_magnitude layout h
  have hx := ofMagnitude_magnitude x
  rw [Layout.finite, String.toList_ofList]
  cases hsign : isNegative x with
  | true =>
    rw [hsign] at hx
    rw [if_pos rfl, readFloat_minus, hread, Option.map_some, hx]
  | false =>
    rw [hsign] at hx
    obtain ⟨c, rest, hcs, hminus, hplus⟩ := exists_cons_magnitude layout h
    rw [if_neg Bool.false_ne_true, hcs, readFloat_plain hminus hplus, ← hcs, hread,
      Option.map_some, hx]

/-- Every double is read back from its text. -/
theorem readFloat_floatText (x : Float) : readFloat (floatText x).toList = some x := by
  have hx := ofMagnitude_magnitude x
  rw [floatText]
  split
  · next hnan => exact (congrArg some (eq_of_infinity_lt hnan)).symm
  · split
    · next hinfinite =>
      rw [hinfinite] at hx
      cases hsign : isNegative x with
      | true =>
        rw [hsign] at hx
        exact congrArg some hx
      | false =>
        rw [hsign] at hx
        exact congrArg some hx
    · next hnan hfinite => exact readFloat_finite Layout.value (by omega)

/-- The text of a double is a word. -/
theorem isWord_floatText (x : Float) : IsWord (floatText x).toList := by
  rw [floatText]
  split
  · exact isWord_of_all (w := ['N', 'a', 'N']) rfl
  · split
    · split
      · exact isWord_of_all (w := ['-', 'i', 'n', 'f']) rfl
      · exact isWord_of_all (w := ['i', 'n', 'f']) rfl
    · next hnan hfinite =>
      have hlt : magnitude x < infinity := by omega
      obtain ⟨c, rest, hcs, -⟩ := exists_cons_magnitude Layout.value hlt
      have hsolid := solid_magnitude Layout.value (magnitude x)
      rw [Layout.finite, String.toList_ofList]
      split
      · exact ⟨List.cons_ne_nil _ _, List.forall_mem_cons.mpr ⟨by decide, hsolid⟩⟩
      · exact ⟨by simp [hcs], hsolid⟩

end Decimal

end Quadlet
