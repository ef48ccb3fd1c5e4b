import Quadlet.Error

/-!
# Values

What cells hold. Arithmetic on two values that are `int` or `bool` is exact and fails where
the result does not fit 64 bits; any other arithmetic is in double precision. Division is
always in double precision and fails on a divisor equal to zero. Comparing with what is no
number only finds a difference.

Embeds duckling's `Value`; `SPEC_FULL.md` §J.
-/

namespace Quadlet

/-- The content of a written cell. -/
inductive Value where
  | int (n : Int64)
  | float (x : Float)
  | bool (b : Bool)
  | string (s : String)
  deriving DecidableEq

/-- The value of a literal. -/
def Literal.value : Literal → Value
  | .int n => .int n
  | .float x => .float x
  | .string s => .string s

namespace Value

/-- The type of a value. -/
def type : Value → ValueType
  | .int _ => .int
  | .float _ => .float
  | .bool _ => .bool
  | .string _ => .string

/-- The printed text of a value. -/
def text : Value → String
  | .int n => toString n.toInt
  | .float x => floatText x
  | .bool b => if b then "true" else "false"
  | .string s => s

/-- Whether a value counts as true: it is not zero, not false and not the empty string.
Duckling `Value.is_truthy`. -/
def truthy : Value → Bool
  | .int n => n != 0
  | .float x => x != 0.0
  | .bool b => b
  | .string s => !s.isEmpty

/-- A value as an integer; fractions are cut off and the rest is held to 64 bits. -/
def toInt : Value → Except Error Int64
  | .int n => .ok n
  | .float x => .ok (Binary64.toInt64 x)
  | .bool b => .ok (if b then 1 else 0)
  | .string _ => .error (.mismatch [.int] .string)

/-- A value as a double. -/
def toFloat : Value → Except Error Float
  | .int n => .ok (Binary64.ofInt n.toInt)
  | .float x => .ok x
  | .bool b => .ok (if b then 1.0 else 0.0)
  | .string _ => .error (.mismatch [.float] .string)

/-- The value that is stored when a value is written to a cell of a type.
Duckling `Value.coerce`. -/
def coerce (v : Value) : ValueType → Except Error Value
  | .int => v.toInt.map .int
  | .float => v.toFloat.map .float
  | .bool => .ok (.bool v.truthy)
  | .string =>
    match v with
    | .string s => .ok (.string s)
    | v => .error (.mismatch [.string] v.type)
  | .void => .error (.mismatch [.void] v.type)

/-- The integer behind a value that is `int` or `bool`. -/
def integers? : Value → Option Int64
  | .int n => some n
  | .bool b => some (if b then 1 else 0)
  | _ => none

/-- An exact result, if it fits 64 bits. -/
def fit (op : Opcode) (left right : Int64) (n : Int) : Except Error Value :=
  if Int64.minValue.toInt ≤ n ∧ n ≤ Int64.maxValue.toInt then .ok (.int (Int64.ofInt n))
  else .error (.machine (.overflow op left right))

/-- Addition, subtraction or multiplication. -/
def arithmetic (op : Opcode) (exact : Int → Int → Int) (rounded : Float → Float → Float)
    (left right : Value) : Except Error Value :=
  match left.integers?, right.integers? with
  | some a, some b => fit op a b (exact a.toInt b.toInt)
  | _, _ => do
    let a ← left.toFloat
    let b ← right.toFloat
    return .float (rounded a b)

/-- Division. -/
def divide (left right : Value) : Except Error Value := do
  let a ← left.toFloat
  let b ← right.toFloat
  if b == 0.0 then throw .divisionByZero
  return .float (a / b)

/-- The order of two doubles; none if one of them is no number. -/
def compareFloats (a b : Float) : Option Ordering :=
  if a < b then some .lt
  else if b < a then some .gt
  else if a == b then some .eq
  else none

/-- A comparison, given which orders satisfy it; `unordered` is its answer
where there is no order. -/
def relation (holds : Ordering → Bool) (unordered : Bool) (left right : Value) :
    Except Error Value :=
  match left.integers?, right.integers? with
  | some a, some b => .ok (.bool (holds (compare a.toInt b.toInt)))
  | _, _ => do
    let a ← left.toFloat
    let b ← right.toFloat
    match compareFloats a b with
    | some o => return .bool (holds o)
    | none => return .bool unordered

/-- What an operator makes of two values. Duckling `Value.binary`. -/
def binary (op : Opcode) (left right : Value) : Except Error Value :=
  match op with
  | .add => arithmetic .add (· + ·) (· + ·) left right
  | .sub => arithmetic .sub (· - ·) (· - ·) left right
  | .mul => arithmetic .mul (· * ·) (· * ·) left right
  | .div => divide left right
  | .lt => relation Ordering.isLT false left right
  | .gt => relation Ordering.isGT false left right
  | .le => relation Ordering.isLE false left right
  | .ge => relation Ordering.isGE false left right
  | .eq => relation Ordering.isEq false left right
  | .ne => relation Ordering.isNe true left right
  | op => .error (.machine (.notBinary op))

/-- What is stored in a cell has the type of the cell. -/
theorem type_of_coerce {v w : Value} {t : ValueType} (h : v.coerce t = .ok w) : w.type = t := by
  cases t <;> simp only [coerce] at h
  · simp at h
  · cases hv : v.toInt <;> simp_all [Except.map]
    rw [← h]; rfl
  · cases hv : v.toFloat <;> simp_all [Except.map]
    rw [← h]; rfl
  · rw [← Except.ok.inj h]; rfl
  · split at h
    · rw [← Except.ok.inj h]; rfl
    · simp at h

end Value

end Quadlet
