import Quadlet.Machine.Basic
import Quadlet.Proofs.Static.WellFormed

/-!
# A direct interpreter

The meaning of a program as a walk through its tree, with variables where the names say and values
where the operators say: no addresses of results, no jumps and no planner. Loops and calls may go on
forever, so a walk is given a bound and says so where the bound cuts it off.
-/

namespace Quadlet.Syntax

/-! ## Variables -/

/-- The cells of the variables of the program, or of one call, by type and place. -/
structure Slots where
  ints : Nat → Option Int64
  floats : Nat → Option Float

namespace Slots

/-- Nothing is written. -/
def empty : Slots := ⟨fun _ => none, fun _ => none⟩

/-- The value of a cell that was written. -/
def get? (s : Slots) : Numeric → Nat → Option Value
  | .int, i => (s.ints i).map .int
  | .float, i => (s.floats i).map .float

/-- Writes a cell; the value is converted to the type of the cell. -/
def set (s : Slots) : Numeric → Nat → Value → Except Error Slots
  | .int, i, v =>
    v.toInt.map fun n => { s with ints := fun j => if j = i then some n else s.ints j }
  | .float, i, v =>
    v.toFloat.map fun x => { s with floats := fun j => if j = i then some x else s.floats j }

/-- Writes the first values to the cells of the first variables. -/
def fill : Slots → List Variable → List Value → Except Error Slots
  | s, v :: vs, x :: xs => do
    let s ← s.set v.type v.index x
    s.fill vs xs
  | s, _, _ => .ok s

end Slots

/-- What a running program has stored and printed. -/
structure World where
  globals : Slots
  /-- The cells of the active calls, innermost first. -/
  frames : List Slots
  /-- The printed lines, first line first. -/
  lines : List String

namespace World

/-- Nothing is stored and nothing is printed. -/
def start : World := ⟨.empty, [], []⟩

/-- The value of a variable. A local variable that the active call has not written has the value of
the same cell of the call directly beneath, if there is one. -/
def find? (w : World) (v : Variable) : Option Value :=
  match v.lifetime, w.frames with
  | .call, [] => none
  | .call, s :: below =>
    (s.get? v.type v.index).or (below.head?.bind fun t => t.get? v.type v.index)
  | _, _ => w.globals.get? v.type v.index

/-- The value of a variable; fails with the address of a variable that has none. -/
def read (w : World) (v : Variable) : Except Error Value :=
  match w.find? v with
  | some x => .ok x
  | none => .error (.unwritten v.address)

/-- Writes a variable; the value is converted to the declared type. -/
def write (w : World) (v : Variable) (x : Value) : Except Error World :=
  match v.lifetime, w.frames with
  | .call, [] => .error (.machine .localOutside)
  | .call, s :: below => (s.set v.type v.index x).map fun s => { w with frames := s :: below }
  | _, _ => (w.globals.set v.type v.index x).map fun s => { w with globals := s }

/-- Enters a call of a function with the values of its arguments. -/
def enter (w : World) (f : Function) (arguments : List Value) : Except Error World := do
  let s ← Slots.empty.fill f.locals arguments
  return { w with frames := s :: w.frames }

/-- Leaves the active call. -/
def leave (w : World) : World := { w with frames := w.frames.tail }

/-- Prints a line. -/
def print (w : World) (line : String) : World := { w with lines := w.lines ++ [line] }

end World

/-! ## Expressions -/

/-- What an expression leaves behind: a value, or a variable that is read by
whatever consumes it. -/
inductive Reading where
  | value (x : Value)
  | cell (v : Variable)

/-- The value of what an expression leaves behind. -/
def World.fetch (w : World) : Reading → Except Error Value
  | .value x => .ok x
  | .cell v => w.read v

/-- An operator reads what is left of it first. -/
def World.apply (w : World) (op : Operator) (left right : Reading) : Except Error Reading := do
  let x ← w.fetch left
  let y ← w.fetch right
  return .value (← Value.binary op.opcode x y)

/-- Works an expression out; a sign multiplies by `-1` or `1`. -/
def Tree.eval {r : Rank} (Γ : Scope) (w : World) : Tree r → Except Error Reading
  | .int n => .ok (.value (.int n))
  | .float x => .ok (.value (.float x))
  | .name x =>
    match Γ x with
    | some v => .ok (.cell v)
    | none => .error (.undeclared x)
  | .signed negative e => do
    let a ← e.eval Γ w
    w.apply .mul a (.value (.int (if negative then -1 else 1)))
  | .group e | .ofFactor e | .ofTerm e | .ofSum e => e.eval Γ w
  | .product l op _ r | .addition l op _ r | .comparison l op _ r => do
    let a ← l.eval Γ w
    let b ← r.eval Γ w
    w.apply op a b

/-- The value of an expression. -/
def Tree.value {r : Rank} (Γ : Scope) (e : Tree r) (w : World) : Except Error Value := do
  w.fetch (← e.eval Γ w)

/-- The value of a printed item. -/
def Item.content (Γ : Scope) (i : Item) (w : World) : Except Error Value :=
  match i with
  | .text s => .ok (.string s)
  | .value e => e.value Γ w

/-! ## Statements -/

/-- Why a walk stops early. -/
inductive Stop where
  | failed (e : Error)
  /-- The bound of the walk is reached. -/
  | cut

/-- A part of a walk. -/
abbrev Action (α : Type) := EStateM Stop World α

namespace Action

/-- Asks the world. -/
def ask {α : Type} (f : World → Except Error α) : Action α := fun w =>
  match f w with
  | .ok a => .ok a w
  | .error e => .error (.failed e) w

/-- Changes the world, unless the change fails. -/
def change (f : World → Except Error World) : Action Unit := fun w =>
  match f w with
  | .ok w => .ok () w
  | .error e => .error (.failed e) w

/-- Takes turns until one says no, at most the given number. -/
def repeatWhile (turn : Action Bool) : Nat → Action Unit
  | 0 => throw .cut
  | n + 1 => do
    if ← turn then repeatWhile turn n

end Action

open Action

/-- Prints an item on a line of its own. -/
def Item.exec (Γ : Scope) (i : Item) : Action Unit := do
  let x ← ask (i.content Γ)
  modify fun w => w.print x.text

/-- Walks through a statement or a block, where a loop may take `n` turns and
`call` runs functions. -/
def Phrase.exec {r : Role} (n : Nat) (call : String → List Value → Action Unit) (Γ : Scope) :
    Phrase r → Action Unit
  | .assign x e =>
    match Γ x with
    | some v => do
      let y ← ask (e.value Γ)
      change fun w => w.write v y
    | none => throw (.failed (.undeclared x))
  | .branch g b => do
    if (← ask (g.value Γ)).truthy then b.exec n call Γ
  | .choice g b c => do
    if (← ask (g.value Γ)).truthy then b.exec n call Γ else c.exec n call Γ
  | .loop b g => repeatWhile (do
    b.exec n call Γ
    return (← ask (g.value Γ)).truthy) n
  | .call f es => do
    let xs ← es.mapM fun e => ask (e.value Γ)
    call f xs
  | .print i is => (i :: is).forM (Item.exec Γ)
  | .nil => pure ()
  | .cons s rest => do
    s.exec n call Γ
    rest.exec n call Γ

/-- Runs a function of a program; at most `n` calls are active at a time. -/
def Program.call (a : Program) : Nat → String → List Value → Action Unit
  | 0, _, _ => throw .cut
  | n + 1, name, arguments =>
    match a.functions.find? fun f => f.name == name with
    | some f => do
      change fun w => w.enter f arguments
      f.body.exec n (a.call n) (f.scope a.scope)
      modify World.leave
    | none => throw (.failed (.undeclared name))

/-- Runs a program within a bound: how it ends, and the lines that it prints. -/
def Program.run (a : Program) (n : Nat) : Machine.Outcome × List String :=
  match a.main.exec n (a.call n) a.scope .start with
  | .ok _ w => (.halted, w.lines)
  | .error (.failed e) w => (.failed e, w.lines)
  | .error .cut w => (.running, w.lines)

end Quadlet.Syntax
