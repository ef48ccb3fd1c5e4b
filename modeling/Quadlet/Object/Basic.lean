import Quadlet.Literal
import Quadlet.Quadruple

/-!
# Object files

A compiled program: how many cells every segment and every function needs, its constants, and its
quadruples. The memory map is what the planner of addresses and the machine agree on.

Embeds duckling's `ObjectFile` and `MemoryMap`; `SPEC_FULL.md` §3.
-/

namespace Quadlet

/-- The number of cells in use in a segment. -/
structure SegmentSize where
  segment : Segment
  cells : Nat
  deriving DecidableEq, Repr

/-- The number of cells that a call of a function needs. -/
structure FrameSize where
  function : Address
  ints : Nat
  floats : Nat
  deriving DecidableEq, Repr

/-- The cells that a program needs. -/
structure MemoryMap where
  segments : List SegmentSize
  functions : List FrameSize
  deriving DecidableEq, Repr

namespace MemoryMap

/-- The cells of a segment: those of the first entry for it, or none. -/
def cells (m : MemoryMap) (s : Segment) : Nat :=
  ((m.segments.find? fun e => e.segment == s).map SegmentSize.cells).getD 0

/-- The first entry for a function. -/
def frame? (m : MemoryMap) (function : Address) : Option FrameSize :=
  m.functions.find? fun f => f.function == function

/-- The last entry for a function. -/
def lastFrame? (m : MemoryMap) (function : Address) : Option FrameSize :=
  m.functions.reverse.find? fun f => f.function == function

end MemoryMap

/-- A compiled program. -/
structure ObjectFile where
  memory : MemoryMap
  constants : List Constant
  quadruples : Array Quadruple
  deriving DecidableEq

end Quadlet
