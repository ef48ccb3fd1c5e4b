import Quadlet.Proofs.Effects
import Quadlet.Typing
import Quadlet.Value

/-!
# Values and their types

What an operator makes of two values has the type that the operator has on their types, and it fails
only on a divisor that is zero and on a result that does not fit.
-/

namespace Quadlet.Value

/-- A value is kept where it is converted to its own type. -/
theorem coerce_type (v : Value) : v.coerce v.type = .ok v := by
  cases v <;> rfl

/-- The ways in which an operator fails on numbers and truth values. -/
inductive Failure : Error → Prop where
  | divisionByZero : Failure .divisionByZero
  | overflow (op : Opcode) (left right : Int64) : Failure (.machine (.overflow op left right))

/-- What comes of an operation with results of a type. -/
def Gives (τ : ValueType) : Except Error Value → Prop
  | .ok v => v.type = τ
  | .error e => Failure e

private theorem gives_fit (op : Opcode) (left right : Int64) (n : Int) :
    Gives .int (fit op left right n) := by
  unfold fit
  split
  · rfl
  · exact .overflow op left right

/-- Values of operable types are doubles where they are no integers. -/
theorem toFloat_of_operable {x : Value} (hx : Typing.isOperable x.type = true) :
    ∃ d, x.toFloat = .ok d := by
  cases x with
  | string s => cases hx
  | _ => exact ⟨_, rfl⟩

section

variable {x y : Value} (hx : Typing.isOperable x.type = true) (hy : Typing.isOperable y.type = true)

include hx hy

private theorem gives_arithmetic (op : Opcode) (exact : Int → Int → Int)
    (rounded : Float → Float → Float) :
    Gives (if x.type == .float || y.type == .float then .float else .int)
      (arithmetic op exact rounded x y) := by
  cases x with
  | string s => cases hx
  | float a =>
    cases y with
    | string s => cases hy
    | _ => rfl
  | int n | bool n =>
    cases y with
    | string s => cases hy
    | float b => rfl
    | int k | bool k => apply gives_fit

private theorem gives_divide : Gives .float (divide x y) := by
  obtain ⟨a, ha⟩ := toFloat_of_operable hx
  obtain ⟨b, hb⟩ := toFloat_of_operable hy
  rw [divide, ha, hb]
  simp only [Except.ok_bind]
  by_cases h : (b == 0.0) = true
  · rw [if_pos h]
    exact .divisionByZero
  · rw [if_neg h]
    rfl

private theorem gives_relation (holds : Ordering → Bool) (unordered : Bool) :
    Gives .bool (relation holds unordered x y) := by
  obtain ⟨a, ha⟩ := toFloat_of_operable hx
  obtain ⟨b, hb⟩ := toFloat_of_operable hy
  rw [relation, ha, hb]
  simp only [Except.ok_bind]
  split
  · rfl
  · cases compareFloats a b <;> rfl

/-- An operator gives a value of its type on the types of two values. -/
theorem gives_binary {op : Operator} (hop : op ≠ .assign) :
    Gives ((Typing.result? op x.type y.type).getD .void) (binary op.opcode x y) := by
  rw [Typing.result?.eq_def, hx, hy]
  cases op with
  | assign => exact absurd rfl hop
  | add | sub | mul => exact gives_arithmetic hx hy _ _ _
  | div => exact gives_divide hx hy
  | lt | gt | le | ge | eq | ne => exact gives_relation hx hy _ _

end

end Quadlet.Value
