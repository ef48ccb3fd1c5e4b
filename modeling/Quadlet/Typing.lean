import Quadlet.Error

/-!
# Typing of operators

Operators work on `int`, `float` and `bool`. Comparisons give `bool`, division gives `float`, the
other arithmetic gives `float` as soon as one side is a `float`. An assignment keeps its left type
and never mixes `bool` with a number.

Embeds duckling's semantic cube; `SPEC_FULL.md` §4.4.
-/

namespace Quadlet.Typing

/-- The types that operators work on. -/
def isOperable : ValueType → Bool
  | .int | .float | .bool => true
  | .void | .string => false

/-- The type of an operator's result; none if the operator has no meaning on these
types. Duckling `lookup`. -/
def result? (op : Operator) (left right : ValueType) : Option ValueType :=
  if !(isOperable left && isOperable right) then none
  else
    match op with
    | .assign => if (left == .bool) == (right == .bool) then some left else none
    | .div => some .float
    | .add | .sub | .mul => some (if left == .float || right == .float then .float else .int)
    | .lt | .gt | .le | .ge | .eq | .ne => some .bool

/-- The type of an operator's result. Duckling `check`. -/
def result (op : Operator) (left right : ValueType) : Except Error ValueType :=
  match result? op left right with
  | some t => .ok t
  | none => .error (.operation op left right)

/-- An operator other than assignment has a meaning exactly on operable types. -/
theorem result?_isSome_iff {op : Operator} (h : op ≠ .assign) (left right : ValueType) :
    (result? op left right).isSome = true ↔ isOperable left = true ∧ isOperable right = true := by
  cases op <;> first | exact absurd rfl h | (cases left <;> cases right <;> decide)

end Quadlet.Typing
