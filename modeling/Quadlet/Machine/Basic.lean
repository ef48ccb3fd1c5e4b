import Quadlet.Machine.Memory

/-!
# The machine

A machine runs quadruples until the place of execution leaves them. An instruction that fails leaves
the place where it is, so running on tries the same instruction again. Printed lines go to a
printer, which may refuse them.

Embeds duckling's `VirtualMachine`; `SPEC_FULL.md` §4.7, and §B for what it may fail with. The loop
of its `run` has no bound of its own; `run` here is given the number of quadruples it may carry out
and says `running` when they are used up.
-/

namespace Quadlet

/-- Something that takes printed text piece by piece, or refuses a piece and says why. -/
structure Printer (ω : Type) where
  put : String → EStateM String ω Unit

namespace Printer

/-- Takes everything. -/
def endless : Printer String where
  put piece := modify fun text => text ++ piece

/-- Takes pieces until it holds the given number of line feeds. -/
def lines (limit : Nat) : Printer String where
  put piece := do
    if limit ≤ (← get).toList.count '\n' then throw "sink full"
    modify fun text => text ++ piece

end Printer

/-- A program and where its execution stands. Duckling `VirtualMachine`. -/
structure Machine where
  program : Array Quadruple
  memory : Memory
  /-- Where the entered calls return to, innermost first. -/
  returns : List Nat
  /-- The index of the next quadruple. -/
  ip : Nat
  /-- The number of quadruples carried out. -/
  steps : Nat
  /-- The number of quadruples that may be carried out. -/
  limit : Option Nat

/-- An action of a machine with a printer's state beside it. -/
abbrev Execution (ω α : Type) := EStateM Error (Machine × ω) α

namespace Machine

variable {ω : Type}

/-- A machine at the start of a program. Duckling `VirtualMachine.with_options`. -/
def load (object : ObjectFile) (limit : Option Nat) : Except Error Machine := do
  let memory ← Memory.load object.memory object.constants
  return ⟨object.quadruples, memory, [], 0, 0, limit⟩

/-- The result of a computation that changes nothing. -/
def lift {α : Type} (x : Except Error α) : Execution ω α := fun s =>
  match x with
  | .ok a => .ok a s
  | .error e => .error e s

/-- The value at an address. -/
def read (a : Address) : Execution ω Value := do
  lift ((← get).1.memory.read a)

/-- Changes the memory, unless the change fails. -/
def updateMemory (f : Memory → Except Error Memory) : Execution ω Unit := do
  let m ← lift (f (← get).1.memory)
  modify fun (s, out) => ({ s with memory := m }, out)

/-- Hands a piece of text to the printer. -/
def put (printer : Printer ω) (piece : String) : Execution ω Unit := fun (m, out) =>
  match printer.put piece out with
  | .ok _ out => .ok () (m, out)
  | .error reason out => .error (.output reason) (m, out)

/-- The target of a jump. Duckling `target`. -/
def target (q : Quadruple) : Execution ω Nat :=
  if q.result < 0 then throw (.machine (.badTarget q.result)) else pure q.result.toNat

/-- Takes the innermost place to return to. -/
def popReturn : Execution ω Nat := do
  match (← get).1.returns with
  | r :: returns =>
    modify fun (m, out) => ({ m with returns }, out)
    return r
  | [] => throw (.machine .noReturn)

/-- Carries out a quadruple and gives the index of the next one. Duckling `VirtualMachine.step`, up
to the index of the next quadruple. -/
def perform (printer : Printer ω) (q : Quadruple) : Execution ω Nat := do
  let next := (← get).1.ip + 1
  match q.op with
  | .add | .sub | .mul | .div | .lt | .gt | .le | .ge | .eq | .ne =>
    let left ← read q.left
    let right ← read q.right
    let v ← lift (Value.binary q.op left right)
    updateMemory fun m => m.write q.result v
    return next
  | .assign =>
    let v ← read q.left
    updateMemory fun m => m.write q.result v
    return next
  | .print =>
    let v ← read q.left
    put printer v.text
    put printer "\n"
    return next
  | .goto => target q
  | .gotoFalse =>
    if (← read q.left).truthy then return next else target q
  | .gotoTrue =>
    if (← read q.left).truthy then target q else return next
  | .call =>
    updateMemory Memory.enter
    modify fun (m, out) => ({ m with returns := next :: m.returns }, out)
    target q
  | .allocate =>
    updateMemory fun m => m.allocate q.left
    return next
  | .leave =>
    let r ← popReturn
    updateMemory Memory.release
    return r
  | .param =>
    let v ← read q.left
    if q.result < 0 then throw (.machine (.badParameter q.result))
    updateMemory fun m => m.param v
    return next

/-- Carries out a quadruple, moves on and counts it. Duckling `VirtualMachine.step`. -/
def step (printer : Printer ω) (q : Quadruple) : Execution ω Unit := do
  let next ← perform printer q
  modify fun (m, out) => ({ m with ip := next, steps := m.steps + 1 }, out)

/-- How a run ends. -/
inductive Outcome where
  /-- The place of execution left the program. -/
  | halted
  | failed (e : Error)
  /-- The run was cut off. -/
  | running
  deriving DecidableEq

/-- The limit of a machine that has carried out as many quadruples as it may. -/
def exhausted (m : Machine) : Option Nat := m.limit.filter fun limit => limit ≤ m.steps

/-- Runs at most the given number of quadruples. Duckling `VirtualMachine.run`. -/
def run (printer : Printer ω) (fuel : Nat) (m : Machine) (out : ω) : Outcome × Machine × ω :=
  match m.program[m.ip]? with
  | none => (.halted, m, out)
  | some q =>
    match m.exhausted with
    | some limit => (.failed (.limit limit), m, out)
    | none =>
      match fuel with
      | 0 => (.running, m, out)
      | fuel + 1 =>
        match step printer q (m, out) with
        | .ok _ (m, out) => run printer fuel m out
        | .error e (m, out) => (.failed e, m, out)

end Machine

end Quadlet
