/-!
# Double precision by its bits

The magnitude of a double is a number below `2 ^ 63`: eleven bits of exponent over fifty-two bits of
fraction. A finite magnitude stands for `significand * 2 ^ scale`, and magnitudes are ordered as the
values they stand for. `ofRatio` takes a fraction to the nearest magnitude, a tie to the even one;
because a carry out of the fraction runs into the exponent, one sum builds every case.
-/

namespace Quadlet.Binary64

/-- The unit of the exponent among the bits, `2 ^ 52`. -/
def unit : Nat := 0x10000000000000

/-- The sign among the bits, `2 ^ 63`. -/
def signBit : Nat := 0x8000000000000000

/-- The magnitude of infinity; larger ones are not numbers. -/
def infinity : Nat := 2047 * unit

/-- The integer whose multiple by a power of two a finite magnitude is. -/
def significand (bits : Nat) : Nat :=
  if bits < unit then bits else bits % unit + unit

/-- The exponent of that power of two. -/
def scale (bits : Nat) : Int :=
  if bits < unit then -1074 else (bits / unit : Nat) - 1075

/-- Quotient to the nearest integer, a tie to the even one. -/
def divNearest (num den : Nat) : Nat :=
  let q := num / den
  let r := num % den
  if 2 * r < den then q
  else if den < 2 * r then q + 1
  else q + q % 2

/-- The exponent of the largest power of two that is at most `num / den`. -/
def logRatio (num den : Nat) : Int :=
  let e : Int := (num.log2 : Int) - den.log2
  if num <<< (-e).toNat < den <<< e.toNat then e - 1 else e

/-- The magnitude nearest to `num / den`, a tie to the even one; past the
largest number, infinity. -/
def ofRatio (num den : Nat) : Nat :=
  if num = 0 then 0
  else
    let q := max (logRatio num den - 52) (-1074)
    let m := divNearest (num <<< (-q).toNat) (den <<< q.toNat)
    min ((q + 1074).toNat * unit + m) infinity

/-- The double with the given sign and magnitude. -/
def ofMagnitude (negative : Bool) (bits : Nat) : Float :=
  Float.ofBits (UInt64.ofNat (if negative then bits + signBit else bits))

/-- Whether the sign bit is set. -/
def isNegative (x : Float) : Bool := signBit ≤ x.toBits.toNat

/-- The bits of a double without its sign. -/
def magnitude (x : Float) : Nat := x.toBits.toNat % signBit

/-- The double nearest to an integer. -/
def ofInt (n : Int) : Float := ofMagnitude (n < 0) (ofRatio n.natAbs 1)

/-- The integer part of a finite magnitude. -/
def truncate (bits : Nat) : Nat :=
  significand bits <<< (scale bits).toNat >>> (-scale bits).toNat

/-- The integer part of a double, held to 64 bits; what is no number gives zero. -/
def toInt64 (x : Float) : Int64 :=
  let bits := magnitude x
  if infinity < bits then 0
  else if isNegative x then
    if 1086 * unit ≤ bits then Int64.minValue else Int64.ofInt (-(truncate bits : Int))
  else
    if 1086 * unit ≤ bits then Int64.maxValue else Int64.ofNat (truncate bits)

end Quadlet.Binary64
