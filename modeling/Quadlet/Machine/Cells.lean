import Quadlet.Value

/-!
# Typed cells

A block of cells of one type. A cell that was never written has no value; a value is converted to
the type of the block when it is written.

Embeds duckling's `MemorySegment`; `SPEC_FULL.md` §4.7 and §J.
-/

namespace Quadlet

/-- A fixed number of cells of one type. Duckling `MemorySegment`. -/
structure Cells where
  type : ValueType
  cells : Array (Option Value)
  deriving DecidableEq

namespace Cells

/-- Cells that were never written. Duckling `MemorySegment.new`. A size beyond what the
host can allocate is outside: duckling is aborted there, and what is proved of such cells
says nothing about a run. -/
def unwritten (type : ValueType) (size : Nat) : Cells := ⟨type, Array.replicate size none⟩

/-- The number of cells. -/
def size (b : Cells) : Nat := b.cells.size

/-- The value of a cell; none if it was never written or lies outside.
Duckling `MemorySegment.get`. -/
def get? (b : Cells) (offset : Nat) : Option Value := b.cells[offset]?.join

/-- Writes a cell; a value that cannot be converted is refused before the offset is looked at.
Duckling `MemorySegment.set`. -/
def set (b : Cells) (offset : Nat) (v : Value) : Except Error Cells := do
  let w ← v.coerce b.type
  if offset < b.size then return ⟨b.type, b.cells.setIfInBounds offset (some w)⟩
  else throw (.machine (.outsideCells offset b.size))

/-- Writing keeps the number of cells. -/
theorem size_set {b c : Cells} {offset : Nat} {v : Value} (h : b.set offset v = .ok c) :
    c.size = b.size := by
  simp only [set, bind, Except.bind] at h
  split at h
  · simp at h
  · split at h
    · rw [← Except.ok.inj h]; simp [size]
    · simp [throw, throwThe, MonadExceptOf.throw] at h

/-- Writing keeps the type. -/
theorem type_set {b c : Cells} {offset : Nat} {v : Value} (h : b.set offset v = .ok c) :
    c.type = b.type := by
  simp only [set, bind, Except.bind] at h
  split at h
  · simp at h
  · split at h
    · rw [← Except.ok.inj h]
    · simp [throw, throwThe, MonadExceptOf.throw] at h

end Cells

end Quadlet
