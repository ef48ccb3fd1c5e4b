/-!
# Decimal numerals

A numeral is an optional sign and at least one digit. It is read from the left, and the first
character that is no digit, or that takes the value past its limit, decides what is wrong with it.

These are the rules of duckling's standard library for integers, on which the scanner,
`ObjectFile.from_text` and the command line rely.
-/

namespace Quadlet.Text.Numeral

/-- Why a text is no numeral in range. -/
inductive Fault where
  | empty
  | invalidDigit
  | tooLarge
  | tooSmall
  deriving DecidableEq, Repr

/-- The wording of a fault. -/
def Fault.message : Fault → String
  | .empty => "cannot parse integer from empty string"
  | .invalidDigit => "invalid digit found in string"
  | .tooLarge => "number too large to fit in target type"
  | .tooSmall => "number too small to fit in target type"

/-- The value of a decimal digit. -/
def digit (c : Char) : Nat := c.toNat - 48

/-- Appends digits to `value`; `past` is reported as soon as the value exceeds `limit`. -/
def accumulate (limit : Nat) (past : Fault) : Nat → List Char → Except Fault Nat
  | value, [] => .ok value
  | value, c :: cs =>
    if c.isDigit then
      if 10 * value + digit c ≤ limit then accumulate limit past (10 * value + digit c) cs
      else .error past
    else .error .invalidDigit

/-- Digits, at least one. -/
def digits (limit : Nat) (past : Fault) : List Char → Except Fault Nat
  | [] => .error .invalidDigit
  | cs => accumulate limit past 0 cs

/-- The largest count that a numeral may state. -/
def countLimit : Nat := 0xFFFFFFFFFFFFFFFF

/-- The largest integer that a numeral may state; below zero it may go one further. -/
def intLimit : Nat := 0x7FFFFFFFFFFFFFFF

/-- A count: no sign or a plus, and at most `countLimit`. -/
def readCount : List Char → Except Fault Nat
  | [] => .error .empty
  | '+' :: cs => digits countLimit .tooLarge cs
  | cs => digits countLimit .tooLarge cs

/-- An integer of 64 bits. -/
def readInt : List Char → Except Fault Int
  | [] => .error .empty
  | '+' :: cs => (digits intLimit .tooLarge cs).map Int.ofNat
  | '-' :: cs => (digits (intLimit + 1) .tooSmall cs).map fun n => -Int.ofNat n
  | cs => (digits intLimit .tooLarge cs).map Int.ofNat

/-- What has been read stays within the limit. -/
theorem accumulate_le {limit value n : Nat} {past : Fault} {cs : List Char}
    (h : accumulate limit past value cs = .ok n) (hv : value ≤ limit) : n ≤ limit := by
  induction cs generalizing value with
  | nil => simp only [accumulate, Except.ok.injEq] at h; omega
  | cons c cs ih =>
    simp only [accumulate] at h
    split at h
    · split at h
      · next hle => exact ih h hle
      · simp at h
    · simp at h

end Quadlet.Text.Numeral
