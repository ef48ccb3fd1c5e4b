import Quadlet.Object.Code
import Quadlet.Planner
import Quadlet.Symbol.Directory
import Quadlet.Typing

/-!
# Drafts

A draft is a program that is being put together event by event. It owns the directory of names, the
planner of addresses, the code so far, and the stacks on which unfinished constructs wait. An action
on it may fail, and what it did before it failed stays done.

Embeds the state of duckling's `TranslationContext` with its stacks; `SPEC_FULL.md` §9 and §G.
-/

namespace Quadlet

/-- A value in a cell that waits to be used. -/
structure Operand where
  address : Address
  type : ValueType
  deriving DecidableEq, Repr

/-- A call whose arguments are still to come. -/
structure PendingCall where
  name : String
  function : Address
  /-- The types of the parameters. -/
  parameters : List ValueType
  /-- The types of the arguments so far. -/
  arguments : List ValueType
  deriving DecidableEq, Repr

/-- A program in progress; the stacks have their top in front. Duckling `TranslationContext`. -/
structure Draft where
  directory : Directory
  planner : Planner
  code : Code
  /-- The open scopes, innermost first. -/
  scopes : List Level
  /-- The names of a list of variables whose type is still to come, in order. -/
  pendingNames : List String
  /-- The indices of open jumps and of the starts of loops. -/
  jumps : List Nat
  operators : List PendingOperator
  operands : List Operand
  calls : List PendingCall
  /-- Whether the program has ended. -/
  ended : Bool

/-- An action on a draft. -/
abbrev Drafting (α : Type) := EStateM Error Draft α

namespace Draft

/-- A draft before the program has started. -/
def empty : Draft := ⟨.empty, .empty, .empty, [], [], [], [], [], [], false⟩

end Draft

namespace Drafting

/-- Fails because the events do not fit together. -/
def broken {α : Type} (fault : ProtocolFault) : Drafting α := throw (.protocol fault)

/-- The result of a computation that does not change the draft. -/
def lift {α : Type} (x : Except Error α) : Drafting α := fun t =>
  match x with
  | .ok a => .ok a t
  | .error e => .error e t

/-- Changes the directory, unless the change fails. -/
def updateDirectory (f : Directory → Except Error Directory) : Drafting Unit := do
  let d ← lift (f (← get).directory)
  modify fun t => { t with directory := d }

/-- Hands out an address, unless the planner fails. -/
def place (f : Planner → Except Error (Address × Planner)) : Drafting Address := do
  let (a, p) ← lift (f (← get).planner)
  modify fun t => { t with planner := p }
  return a

/-- Appends a quadruple. -/
def emit (op : Opcode) (left right result : Address) : Drafting Unit :=
  modify fun t => { t with code := t.code.push ⟨op, left, right, result⟩ }

/-- Fills in the target of an open jump: the next quadruple. -/
def patchToHere (index : Nat) : Drafting Unit := do
  let code ← lift ((← get).code.patch index (← get).code.size)
  modify fun t => { t with code }

/-- The innermost open scope. -/
def currentLevel : Drafting Level := do
  match (← get).scopes with
  | level :: _ => return level
  | [] => broken .noScope

/-- A new cell for the result of an operator. -/
def temporary (type : ValueType) : Drafting Address :=
  place fun p => p.assign ⟨.temporary, type⟩ none

/-- Puts an operand on its stack. -/
def pushOperand (o : Operand) : Drafting Unit :=
  modify fun t => { t with operands := o :: t.operands }

/-- Takes an operand from its stack. -/
def popOperand : Drafting Operand := do
  match (← get).operands with
  | o :: os =>
    modify fun t => { t with operands := os }
    return o
  | [] => broken (.underflow .operand)

/-- Puts an operator on its stack. -/
def pushOperator (op : PendingOperator) : Drafting Unit :=
  modify fun t => { t with operators := op :: t.operators }

/-- Takes an operator from its stack. -/
def popOperator : Drafting PendingOperator := do
  match (← get).operators with
  | op :: ops =>
    modify fun t => { t with operators := ops }
    return op
  | [] => broken (.underflow .operator)

/-- Puts the index of a quadruple on the stack of jumps. -/
def pushJump (index : Nat) : Drafting Unit :=
  modify fun t => { t with jumps := index :: t.jumps }

/-- Takes an index from the stack of jumps. -/
def popJump : Drafting Nat := do
  match (← get).jumps with
  | j :: js =>
    modify fun t => { t with jumps := js }
    return j
  | [] => broken (.underflow .jump)

end Drafting

end Quadlet
