import Quadlet.Decimal.Shortest

/-!
# Writing doubles

A layout says where positional notation ends and how an exponent is written. Positional notation
always has a digit on both sides of the point; scientific notation has a point only between digits.

Duckling prints doubles by the rules of its standard library and puts them into JSON by those of a
package; the two differ in their layout only (`SPEC_FULL.md` §J).
-/

namespace Quadlet

/-- How doubles are written. -/
structure Layout where
  /-- Least place of the point before the first digit that is still written positionally. -/
  least : Int
  /-- Largest such place. -/
  most : Int
  /-- Whether an exponent that is not negative carries a plus. -/
  plus : Bool
  /-- Which of two equally near decimals is written. -/
  tie : Decimal.Tie
  deriving DecidableEq, Repr

namespace Layout

/-- Digits with the point after the first `point` of them, which may lie outside the digits. -/
def positional (ds : List Char) (point : Int) : List Char :=
  if point ≤ 0 then '0' :: '.' :: List.replicate (-point).toNat '0' ++ ds
  else if ds.length ≤ point.toNat then
    ds ++ List.replicate (point.toNat - ds.length) '0' ++ ['.', '0']
  else ds.take point.toNat ++ '.' :: ds.drop point.toNat

/-- Digits with the point after the first of them, and the exponent. -/
def scientific (layout : Layout) (ds : List Char) (point : Int) : List Char :=
  let e := point - 1
  let sign := if e < 0 then ['-'] else if layout.plus then ['+'] else []
  let point := if ds.length ≤ 1 then ds else ds.take 1 ++ '.' :: ds.drop 1
  point ++ 'e' :: sign ++ Nat.toDigits 10 e.natAbs

/-- The digits of a decimal without the zeros at their end. -/
def digitsOf (d : Decimal) : List Char :=
  ((Nat.toDigits 10 d.digits).reverse.dropWhile (· == '0')).reverse

/-- A decimal in the notation that the layout wants. -/
def decimal (layout : Layout) (d : Decimal) : List Char :=
  let point := (Nat.toDigits 10 d.digits).length + d.exponent
  let ds := digitsOf d
  if layout.least ≤ point ∧ point ≤ layout.most then positional ds point
  else layout.scientific ds point

/-- A finite magnitude. -/
def magnitude (layout : Layout) (bits : Nat) : List Char :=
  if bits = 0 then ['0', '.', '0'] else layout.decimal (Decimal.shortest layout.tie bits)

/-- A double that is a finite number. -/
def finite (layout : Layout) (x : Float) : String :=
  let text := layout.magnitude (Binary64.magnitude x)
  String.ofList (if Binary64.isNegative x then '-' :: text else text)

/-- Values are positional from a ten-thousandth up to ten to the sixteenth; a tie goes up. -/
def value : Layout := ⟨-3, 16, false, .up⟩

/-- Data for other programs is positional from a hundred-thousandth on; a tie
goes to the even digit. -/
def data : Layout := ⟨-4, 16, true, .even⟩

end Layout

/-- The text of a value of type `float`. -/
def floatText (x : Float) : String :=
  let bits := Binary64.magnitude x
  if Binary64.infinity < bits then "NaN"
  else if bits = Binary64.infinity then (if Binary64.isNegative x then "-inf" else "inf")
  else Layout.value.finite x

end Quadlet
