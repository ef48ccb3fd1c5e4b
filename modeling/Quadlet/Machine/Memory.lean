import Quadlet.Machine.Cells
import Quadlet.Object.Basic

/-!
# Memory of the machine

One block of cells for every program-wide segment and a stack of frames. A frame is made for a call
before its arguments are known and stays out of sight until the call is entered. An address of a
call's segment belongs to the topmost frame that was entered; reading it goes one frame deeper if
that frame has no value there.

Embeds duckling's `RuntimeMemory` and `Frame`; `SPEC_FULL.md` §4.7 and §K. The stack of
frames has its top in front.
-/

namespace Quadlet

/-- The cells of one call. Duckling `Frame`. -/
structure Frame where
  function : Address
  ints : Cells
  floats : Cells
  /-- The cells of either type that arguments have filled. -/
  nextInt : Nat
  nextFloat : Nat
  /-- Whether the call is still to be entered. -/
  pending : Bool
  deriving DecidableEq

namespace Frame

/-- The frame of a call that was not entered yet. -/
def ofSize (s : FrameSize) : Frame :=
  ⟨s.function, .unwritten .int s.ints, .unwritten .float s.floats, 0, 0, true⟩

/-- The cells of a type. -/
def cells? (f : Frame) : ValueType → Option Cells
  | .int => some f.ints
  | .float => some f.floats
  | _ => none

/-- Reads a cell of a segment of calls. -/
def read? (f : Frame) (s : Segment) (offset : Nat) : Option Value :=
  (f.cells? s.type).bind fun b => b.get? offset

/-- Writes a cell of a segment of calls. -/
def write (f : Frame) (s : Segment) (offset : Nat) (v : Value) : Except Error Frame :=
  match s.type with
  | .int => (f.ints.set offset v).map fun b => { f with ints := b }
  | .float => (f.floats.set offset v).map fun b => { f with floats := b }
  | _ => .error (.machine (.noStorage s))

/-- Stores an argument in the next cell for its type. -/
def param (f : Frame) (v : Value) : Except Error Frame :=
  match v with
  | .int _ | .bool _ =>
    (f.ints.set f.nextInt v).map fun b => { f with ints := b, nextInt := f.nextInt + 1 }
  | .float _ =>
    (f.floats.set f.nextFloat v).map fun b => { f with floats := b, nextFloat := f.nextFloat + 1 }
  | .string _ => .error (.mismatch [.int, .float] .string)

end Frame

/-- The cells of a running program. Duckling `RuntimeMemory`. -/
structure Memory where
  /-- The blocks of the program-wide segments. -/
  globals : List (Segment × Cells)
  /-- The frames, topmost first. -/
  frames : List Frame
  /-- The cells that calls need. -/
  map : MemoryMap
  deriving DecidableEq

namespace Memory

/-- Where an address points. Duckling `decode`. -/
def locate (a : Address) : Except Error (Segment × Nat) :=
  match Segment.locate? a with
  | some place => .ok place
  | none => .error (.machine (.outsideSpace a))

/-- The number of frames, also of those that are still to be entered. -/
def depth (m : Memory) : Nat := m.frames.length

/-- The topmost frame that was entered and the frames beneath it. Duckling
`RuntimeMemory.active_index`. -/
def entered (m : Memory) : List Frame := m.frames.dropWhile Frame.pending

/-- The value of a cell of a segment of calls. -/
def readLocal? (m : Memory) (s : Segment) (offset : Nat) : Except Error (Option Value) :=
  match m.entered with
  | [] => .error (.machine .localOutside)
  | f :: below =>
    .ok ((f.read? s offset).or (below.head?.bind fun g => g.read? s offset))

/-- The value of a cell. Duckling `RuntimeMemory.read`. -/
def read (m : Memory) (a : Address) : Except Error Value := do
  let (s, offset) ← locate a
  let v ←
    if s.isLocal then m.readLocal? s offset
    else pure ((m.globals.lookup s).bind fun b => b.get? offset)
  match v with
  | some v => return v
  | none => throw (.unwritten a)

/-- Writes a cell of the topmost frame that was entered. -/
def writeLocal (m : Memory) (s : Segment) (offset : Nat) (v : Value) : Except Error Memory :=
  match m.entered with
  | [] => .error (.machine .localOutside)
  | f :: below =>
    (f.write s offset v).map fun f =>
      { m with frames := m.frames.takeWhile Frame.pending ++ f :: below }

/-- Writes a cell of a program-wide segment. -/
def writeGlobal (m : Memory) (s : Segment) (offset : Nat) (v : Value) : Except Error Memory :=
  match m.globals.lookup s with
  | none => .error (.machine (.noStorage s))
  | some b =>
    (b.set offset v).map fun b =>
      { m with globals := m.globals.map fun e => if e.1 = s then (s, b) else e }

/-- Writes a cell. Duckling `RuntimeMemory.write`. -/
def write (m : Memory) (a : Address) (v : Value) : Except Error Memory := do
  let (s, offset) ← locate a
  if s.isLocal then m.writeLocal s offset v else m.writeGlobal s offset v

/-- Makes a frame for a call of a function. Duckling `RuntimeMemory.allocate`. -/
def allocate (m : Memory) (function : Address) : Except Error Memory :=
  match m.map.lastFrame? function with
  | none => .error (.machine (.noFrame function))
  | some s => .ok { m with frames := .ofSize s :: m.frames }

/-- Hands an argument to the call that is still to be entered. Duckling `RuntimeMemory.param`. -/
def param (m : Memory) (v : Value) : Except Error Memory :=
  match m.frames with
  | f :: below =>
    if f.pending then (f.param v).map fun f => { m with frames := f :: below }
    else .error (.machine .parameterUnframed)
  | [] => .error (.machine .parameterUnframed)

/-- Enters the call that is still to be entered. Duckling `RuntimeMemory.enter`. -/
def enter (m : Memory) : Except Error Memory :=
  match m.frames with
  | f :: below =>
    if f.pending then .ok { m with frames := { f with pending := false } :: below }
    else .error (.machine .callUnframed)
  | [] => .error (.machine .callUnframed)

/-- Drops the topmost frame. Duckling `RuntimeMemory.release`. -/
def release (m : Memory) : Except Error Memory :=
  match m.frames with
  | _ :: below => .ok { m with frames := below }
  | [] => .error (.machine .returnUnframed)

/-- Memory of the sizes that a map states, with nothing written. -/
def ofMap (map : MemoryMap) : Memory :=
  ⟨Segment.programWide.map fun s => (s, .unwritten s.type (map.cells s)), [], map⟩

/-- Memory of the sizes that a map states, with the constants written in order. Duckling
`RuntimeMemory.new`. A map that asks for more cells than the host can allocate is outside, as it is
for `Cells.unwritten`. -/
def load (map : MemoryMap) (constants : List Constant) : Except Error Memory :=
  constants.foldlM (fun m c => m.write c.address c.literal.value) (ofMap map)

end Memory

end Quadlet
