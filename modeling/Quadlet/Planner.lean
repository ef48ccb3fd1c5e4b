import Quadlet.Error
import Quadlet.Object.Basic

/-!
# Planning of addresses

The planner hands out the addresses of a segment one after the other. Segments that live as long
as the program have one counter each; the segments of calls are counted for every function on its
own, and counting goes on when a function is entered again. A literal is given one address
however often it is asked for.

Embeds duckling's `MemoryPlanner`; `SPEC_FULL.md` §4.1 and §H. What it keeps, the planner
here keeps in another form:

- its counters hold the next address of a segment, and a counter of calls holds 0 while its segment
  was not used; here they are numbers of cells, so the next address is the base plus the count;
- its `current` is the index of a frame; here it is the id of the function, and ids do not repeat
  among the frames that `enter` makes;
- it finds a literal that was seen before in a map from segment and key to address; here the one
  list of constants is searched, in which a literal stands once.
-/

namespace Quadlet

/-- What has been handed out. Duckling `MemoryPlanner`. -/
structure Planner where
  /-- The program-wide segments in use and their numbers of cells. -/
  used : List SegmentSize
  /-- The functions that were entered, in the order of their first entry. -/
  frames : List FrameSize
  /-- The function whose variables are being placed. -/
  current : Option Address
  /-- The literals, in the order of their addresses being handed out. -/
  constants : Array Constant
  deriving DecidableEq

namespace Planner

/-- Nothing is handed out. -/
def empty : Planner := ⟨[], [], none, #[]⟩

/-- The number of cells handed out in a program-wide segment. -/
def count (p : Planner) (s : Segment) : Nat :=
  ((p.used.find? fun e => e.segment == s).map SegmentSize.cells).getD 0

/-- Counts one more cell of a segment. -/
def countOne (s : Segment) : List SegmentSize → List SegmentSize
  | [] => [⟨s, 1⟩]
  | e :: es => if e.segment = s then ⟨s, e.cells + 1⟩ :: es else e :: countOne s es

/-- Hands out the next cell of a program-wide segment. Duckling `bump`, on a segment's counter. -/
def place (p : Planner) (s : Segment) (base : Address) : Except Error (Address × Planner) :=
  if p.count s < Segment.size then .ok (base + p.count s, { p with used := countOne s p.used })
  else .error (.protocol (.exhausted s))

/-- The number of cells of a type that a call of a function needs so far. -/
def frameCount (f : FrameSize) (type : ValueType) : Nat :=
  if type = .int then f.ints else f.floats

/-- Counts one more cell of a type for a function. -/
def frameCountOne (f : FrameSize) (type : ValueType) : FrameSize :=
  if type = .int then { f with ints := f.ints + 1 } else { f with floats := f.floats + 1 }

/-- Hands out the next cell of a segment of calls, for the function that was entered. -/
def placeLocal (p : Planner) (s : Segment) (base : Address) : Except Error (Address × Planner) :=
  match p.current.bind fun id => p.frames.find? fun f => f.function == id with
  | none => .error (.protocol (.outsideFunction s))
  | some f =>
    if frameCount f s.type < Segment.size then
      .ok (base + frameCount f s.type,
        { p with
          frames := p.frames.map fun g =>
            if g.function = f.function then frameCountOne g s.type else g })
    else .error (.protocol (.exhausted s))

/-- Hands out the address of a literal: the one it has, or the next of its segment. -/
def placeLiteral (p : Planner) (s : Segment) (base : Address) (l : Literal) :
    Except Error (Address × Planner) :=
  if l.type ≠ s.type then .error (.protocol (.literalOfType l.type s))
  else
    match p.constants.find? fun c => c.literal == l with
    | some c => .ok (c.address, p)
    | none => do
      let (a, p) ← p.place s base
      return (a, { p with constants := p.constants.push ⟨a, l⟩ })

/-- Hands out an address of a segment; a segment of constants needs a literal, the others take none.
Duckling `MemoryPlanner.assign`. -/
def assign (p : Planner) (s : Segment) (literal : Option Literal) :
    Except Error (Address × Planner) :=
  match s.base? with
  | none => .error (.protocol (.noSegment s))
  | some base =>
    match s.lifetime with
    | .global | .temporary => p.place s base
    | .call => p.placeLocal s base
    | .constant =>
      match literal with
      | none => .error (.protocol (.literalMissing s))
      | some l => p.placeLiteral s base l

/-- Hands out the address of a literal in the segment of its type. Duckling
`MemoryPlanner.constant`. -/
def constant (p : Planner) (l : Literal) : Except Error (Address × Planner) :=
  p.assign ⟨.constant, l.type⟩ (some l)

/-- Places variables in the cells of a function's calls from now on. Duckling
`MemoryPlanner.enter_function`. -/
def enter (p : Planner) (function : Address) : Planner :=
  { p with
    frames :=
      if p.frames.any fun f => f.function == function then p.frames
      else p.frames ++ [⟨function, 0, 0⟩]
    current := some function }

/-- Places no more variables in a function. Duckling `MemoryPlanner.leave_function`. -/
def leave (p : Planner) : Planner := { p with current := none }

/-- The cells in use: every program-wide segment, and every function that was entered. Duckling
`MemoryPlanner.memory_map`. -/
def memoryMap (p : Planner) : MemoryMap :=
  ⟨Segment.programWide.map fun s => ⟨s, p.count s⟩, p.frames⟩

end Planner

end Quadlet
