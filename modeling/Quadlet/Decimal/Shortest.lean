import Quadlet.Decimal.Basic

/-!
# Fewest digits that read back

`shortest` gives a finite magnitude the decimal with the fewest digits that is read as that
magnitude, and of those the nearest. It walks the grids of one, two, ... seventeen digits and tries
the two points of a grid next to the value; the exact value stands by in case no grid had a point to
offer, so what comes out always reads back.
-/

namespace Quadlet

namespace Decimal

/-- Which of two equally near points is taken. -/
inductive Tie where
  | up
  | even
  deriving DecidableEq, Repr

/-- The point taken when `low` and `low + 1` are equally near. -/
def Tie.pick (tie : Tie) (low : Nat) : Nat :=
  match tie with
  | .up => low + 1
  | .even => low + low % 2

/-- The value of a finite magnitude as a numerator. -/
def numerator (bits : Nat) : Nat :=
  Binary64.significand bits <<< (Binary64.scale bits).toNat

/-- The value of a finite magnitude as a denominator. -/
def denominator (bits : Nat) : Nat := 1 <<< (-Binary64.scale bits).toNat

/-- The exponent of the largest power of ten that is at most `num / den`. -/
def logTen (num den : Nat) : Int :=
  let guess := (Binary64.logRatio num den * 30103).fdiv 100000
  let reaches (e : Int) : Bool := den * tenPow e.toNat ≤ num * tenPow (-e).toNat
  if reaches (guess + 1) then guess + 1
  else if reaches guess then guess
  else guess - 1

/-- The point of the grid of `10 ^ e` that reads back as `bits` and is nearest to its value. -/
def onGrid (tie : Tie) (bits : Nat) (e : Int) : Option Decimal :=
  let num := numerator bits * tenPow (-e).toNat
  let den := denominator bits * tenPow e.toNat
  let low : Decimal := ⟨num / den, e⟩
  let high : Decimal := ⟨num / den + 1, e⟩
  let rest := num % den
  match low.nearest == bits, high.nearest == bits with
  | true, true =>
    if 2 * rest < den then some low
    else if den < 2 * rest then some high
    else some (if tie.pick low.digits = low.digits then low else high)
  | true, false => some low
  | false, true => some high
  | false, false => none

/-- The exact value of a finite magnitude. -/
def exact (bits : Nat) : Decimal :=
  ⟨numerator bits * Nat.pow 5 (-Binary64.scale bits).toNat, min (Binary64.scale bits) 0⟩

/-- The decimal with the fewest digits that reads back as `bits`, and of those the nearest. -/
def shortest (tie : Tie) (bits : Nat) : Decimal :=
  let top := logTen (numerator bits) (denominator bits)
  ((List.range 17).findSome? fun (n : Nat) => onGrid tie bits (top - n)).getD (exact bits)

/-- A point of a grid is only taken if it reads back. -/
theorem nearest_of_onGrid {tie : Tie} {bits : Nat} {e : Int} {d : Decimal}
    (h : onGrid tie bits e = some d) : d.nearest = bits := by
  simp only [onGrid] at h
  split at h
  · next hl hh =>
    have hl := eq_of_beq hl
    have hh := eq_of_beq hh
    split at h
    · exact Option.some.inj h ▸ hl
    · split at h
      · exact Option.some.inj h ▸ hh
      · split at h
        · exact Option.some.inj h ▸ hl
        · exact Option.some.inj h ▸ hh
  · next hl _ => exact Option.some.inj h ▸ eq_of_beq hl
  · next _ hh => exact Option.some.inj h ▸ eq_of_beq hh
  · simp at h

end Decimal

end Quadlet
