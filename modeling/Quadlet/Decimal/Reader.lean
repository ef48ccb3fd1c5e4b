import Quadlet.Decimal.Basic
import Quadlet.Text.Numeral

/-!
# Reading doubles

A double is written as an optional sign and either a word for infinity or for what is no number, in
any case, or digits with at most one point among or around them and an optional exponent. Digits are
required somewhere before the exponent, and in it.

These are the rules of duckling's standard library for doubles, on which the scanner and
`ObjectFile.from_text` rely.
-/

namespace Quadlet

namespace Decimal

/-- The number that a run of digits continues. -/
def appendDigits (n : Nat) (ds : List Char) : Nat :=
  ds.foldl (fun n c => 10 * n + Text.Numeral.digit c) n

/-- An exponent with its mark; nothing at all stands for zero. -/
def readExponent : List Char → Option Int
  | [] => some 0
  | m :: cs =>
    if m = 'e' ∨ m = 'E' then
      let negative := cs.head? = some '-'
      let ds := if negative ∨ cs.head? = some '+' then cs.drop 1 else cs
      if ds ≠ [] ∧ ds.all Char.isDigit then
        some (if negative then -(appendDigits 0 ds : Int) else appendDigits 0 ds)
      else none
    else none

/-- A decimal without its sign. -/
def readUnsigned (cs : List Char) : Option Decimal :=
  let whole := cs.takeWhile Char.isDigit
  let rest := cs.dropWhile Char.isDigit
  let tail := if rest.head? = some '.' then rest.drop 1 else []
  let fraction := tail.takeWhile Char.isDigit
  let rest := if rest.head? = some '.' then tail.dropWhile Char.isDigit else rest
  if whole = [] ∧ fraction = [] then none
  else
    (readExponent rest).map fun e =>
      ⟨appendDigits (appendDigits 0 whole) fraction, e - fraction.length⟩

/-- The magnitude that a text without sign stands for. -/
def readMagnitude (cs : List Char) : Option Nat :=
  let word := String.ofList (cs.map Char.toLower)
  if word = "inf" ∨ word = "infinity" then some Binary64.infinity
  else if word = "nan" then some (Binary64.infinity + Binary64.unit / 2)
  else (readUnsigned cs).map nearest

/-- The double that a text stands for. -/
def readFloat (cs : List Char) : Option Float :=
  match cs with
  | '-' :: cs => (readMagnitude cs).map (Binary64.ofMagnitude true)
  | '+' :: cs => (readMagnitude cs).map (Binary64.ofMagnitude false)
  | cs => (readMagnitude cs).map (Binary64.ofMagnitude false)

end Decimal

end Quadlet
