import Quadlet.Error

/-!
# Code under construction

Quadruples are only ever appended, and the target of an open jump is filled in once,
which keeps their number.

Embeds duckling's `QuadrupleList`; `SPEC_FULL.md` §4.5 (backpatching).
-/

namespace Quadlet

/-- The quadruples emitted so far. -/
structure Code where
  quads : Array Quadruple
  deriving DecidableEq

namespace Code

/-- Code without quadruples. -/
def empty : Code := ⟨#[]⟩

/-- The number of quadruples, which is the index of the next one. -/
def size (c : Code) : Nat := c.quads.size

/-- Appends a quadruple. -/
def push (c : Code) (q : Quadruple) : Code := ⟨c.quads.push q⟩

/-- Whether a quadruple is a jump without a target. -/
def isOpen (q : Quadruple) : Bool := q.op.isJump && q.result == unused

/-- The indices of the jumps without a target. Duckling `QuadrupleList.unresolved`. -/
def unresolved (c : Code) : List Nat :=
  (List.range c.size).filter fun i => c.quads[i]?.any isOpen

/-- Fills in the target of an open jump. Duckling `QuadrupleList.backpatch`. -/
def patch (c : Code) (index : Nat) (target : Address) : Except Error Code :=
  match c.quads[index]? with
  | none => .error (.protocol (.patchMissing index))
  | some q =>
    if !q.op.isJump then .error (.protocol (.patchOther index q.op))
    else if q.result ≠ unused then .error (.protocol (.patchTwice index q.result))
    else .ok ⟨c.quads.setIfInBounds index { q with result := target }⟩

/-- A patch keeps the number of quadruples. -/
theorem size_patch {c d : Code} {index : Nat} {target : Address}
    (h : c.patch index target = .ok d) : d.size = c.size := by
  unfold patch at h
  split at h
  · simp at h
  · split at h
    · simp at h
    · split at h
      · simp at h
      · simp only [Except.ok.injEq] at h
        simp [← h, size]

end Code

end Quadlet
