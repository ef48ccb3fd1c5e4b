import Quadlet.Segment

/-!
# Quadruples

One instruction is an opcode, two operands and a result. A field that an opcode does not use holds
`unused`. Opcodes are numbered from 1 on in the persisted form.

Embeds duckling's `Opcode`, `Operator` and `Quadruple`; `SPEC_FULL.md` §3.
-/

namespace Quadlet

/-- Marks a field that is not used. -/
def unused : Address := -1

/-- What a quadruple does. -/
inductive Opcode where
  | sub
  | add
  | mul
  | div
  | lt
  | gt
  | le
  | ge
  | eq
  | ne
  | assign
  | print
  | goto
  | gotoFalse
  | gotoTrue
  | call
  | allocate
  | leave
  | param
  deriving DecidableEq, Repr

namespace Opcode

/-- Every opcode, in the order of the persisted numbers. -/
def all : List Opcode := [
  .sub, .add, .mul, .div, .lt, .gt, .le, .ge, .eq, .ne, .assign, .print, .goto,
  .gotoFalse, .gotoTrue, .call, .allocate, .leave, .param]

/-- The number of an opcode in the persisted form. -/
def code (op : Opcode) : Int := all.idxOf op + 1

/-- The opcode with that number. -/
def ofCode? (n : Int) : Option Opcode := if n < 1 then none else all[n.toNat - 1]?

/-- The sign or word of an opcode in listings. -/
def mnemonic : Opcode → String
  | .sub => "-"
  | .add => "+"
  | .mul => "*"
  | .div => "/"
  | .lt => "<"
  | .gt => ">"
  | .le => "<="
  | .ge => ">="
  | .eq => "=="
  | .ne => "!="
  | .assign => "="
  | .print => "PRINT"
  | .goto => "GOTO"
  | .gotoFalse => "GOTOF"
  | .gotoTrue => "GOTOT"
  | .call => "GOSUB"
  | .allocate => "ERA"
  | .leave => "ENDFUNC"
  | .param => "PARAM"

/-- The name of an opcode in data for other programs. -/
def name : Opcode → String
  | .sub => "Sub"
  | .add => "Add"
  | .mul => "Mul"
  | .div => "Div"
  | .lt => "Lt"
  | .gt => "Gt"
  | .le => "LtEq"
  | .ge => "GtEq"
  | .eq => "Eq"
  | .ne => "NotEq"
  | .assign => "Assign"
  | .print => "Print"
  | .goto => "Goto"
  | .gotoFalse => "GotoFalse"
  | .gotoTrue => "GotoTrue"
  | .call => "Call"
  | .allocate => "AllocateFrame"
  | .leave => "Return"
  | .param => "Param"

/-- Whether the result field holds the index of a quadruple. -/
def isJump : Opcode → Bool
  | .goto | .gotoFalse | .gotoTrue | .call => true
  | _ => false

/-- An opcode is found under its own number. -/
theorem ofCode?_code (op : Opcode) : ofCode? op.code = some op := by
  cases op <;> decide

end Opcode

/-- A binary operator of the source language, or the sign of an assignment. -/
inductive Operator where
  | add
  | sub
  | mul
  | div
  | lt
  | gt
  | le
  | ge
  | eq
  | ne
  | assign
  deriving DecidableEq, Repr

namespace Operator

/-- Every operator. -/
def all : List Operator := [.add, .sub, .mul, .div, .lt, .gt, .le, .ge, .eq, .ne, .assign]

/-- The opcode that carries out an operator. -/
def opcode : Operator → Opcode
  | .add => .add
  | .sub => .sub
  | .mul => .mul
  | .div => .div
  | .lt => .lt
  | .gt => .gt
  | .le => .le
  | .ge => .ge
  | .eq => .eq
  | .ne => .ne
  | .assign => .assign

/-- The sign of an operator in source texts. -/
def symbol (op : Operator) : String := op.opcode.mnemonic

/-- The operator with that sign. -/
def ofSymbol? (s : String) : Option Operator := all.find? fun op => op.symbol = s

/-- `+` and `-`. -/
def isAdditive : Operator → Bool
  | .add | .sub => true
  | _ => false

/-- `*` and `/`. -/
def isMultiplicative : Operator → Bool
  | .mul | .div => true
  | _ => false

/-- The comparisons. -/
def isRelational : Operator → Bool
  | .lt | .gt | .le | .ge | .eq | .ne => true
  | _ => false

/-- An operator is found under its own sign. -/
theorem ofSymbol?_symbol (op : Operator) : ofSymbol? op.symbol = some op := by
  cases op <;> decide

end Operator

/-- One instruction. -/
structure Quadruple where
  op : Opcode
  left : Address
  right : Address
  result : Address
  deriving DecidableEq, Repr

/-- The persisted form of a quadruple: four numbers with a blank between them. -/
def Quadruple.text (q : Quadruple) : String :=
  s!"{toString q.op.code} {toString q.left} {toString q.right} {toString q.result}"

/-- A jump whose target is still open. -/
def Quadruple.pending (op : Opcode) (condition : Address) : Quadruple :=
  ⟨op, condition, unused, unused⟩

end Quadlet
