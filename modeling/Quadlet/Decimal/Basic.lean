import Quadlet.Decimal.Binary64

/-!
# Decimal numbers

A decimal is a number of digits times a power of ten. `nearest` is the double it is read as.
-/

namespace Quadlet

/-- The number `digits * 10 ^ exponent`. -/
structure Decimal where
  digits : Nat
  exponent : Int
  deriving DecidableEq, Repr

namespace Decimal

/-- No double reaches ten to this power, and none but zero is below its inverse. -/
def reach : Int := 400

/-- A power of ten. -/
def tenPow (k : Nat) : Nat := Nat.pow 10 k

/-- The magnitude of the double nearest to a decimal, a tie to the even one. -/
def nearest (d : Decimal) : Nat :=
  if d.digits = 0 then 0
  else if reach < d.exponent then Binary64.infinity
  else if d.exponent + d.digits.log2 + 1 < -reach then 0
  else Binary64.ofRatio (d.digits * tenPow d.exponent.toNat) (tenPow (-d.exponent).toNat)

end Decimal

end Quadlet
