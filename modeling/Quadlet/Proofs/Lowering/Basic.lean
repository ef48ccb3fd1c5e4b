import Quadlet.Draft.Actions
import Quadlet.Proofs.Effects
import Quadlet.Proofs.Syntax.Basic

/-!
# Lowering of syntax trees

The code of a tree, written down directly by recursion over the tree: no stacks, and every jump with
its target from the start. The only states are the planner, which hands out cells in the order of a
walk from left to right, and the directory of names.
-/

namespace Quadlet

/-- The code of an expression, where its result is found, and what is handed out behind it. -/
structure Computed where
  code : List Quadruple
  operand : Operand
  planner : Planner

/-- The code of a statement and what is handed out behind it. -/
structure Laid where
  code : List Quadruple
  planner : Planner

/-- What a call needs to know of a function. -/
structure Callee where
  id : Address
  parameters : List ValueType
  /-- Where the body starts, if it is known. -/
  start : Option Nat

/-- What names stand for. -/
structure Environment where
  operand : String → Except Error Operand
  callee : String → Except Error Callee

namespace Directory

/-- The variable that a name stands for in some scopes. -/
def operand (d : Directory) (scopes : List Level) (name : String) : Except Error Operand := do
  let s ← d.resolve scopes name
  match s.kind.type?, s.address with
  | some type, some address => return ⟨address, type⟩
  | _, _ => throw (.typing (.notVariable name s.kind))

/-- The function that a name stands for. -/
def callee (d : Directory) (name : String) : Except Error Callee := do
  let f ← d.function name
  match f.address with
  | some id => return ⟨id, parameterTypes f, f.start⟩
  | none => throw (.protocol (.noIdentity name))

/-- What names stand for in some scopes. -/
def environment (d : Directory) (scopes : List Level) : Environment :=
  ⟨d.operand scopes, d.callee⟩

end Directory

namespace Planner

/-- Hands out the cell of a literal. -/
def literal (p : Planner) (l : Literal) : Except Error Computed := do
  let (a, p) ← p.constant l
  return ⟨[], ⟨a, l.type⟩, p⟩

/-- Puts an operator behind code for its operands and hands out a cell for its result. -/
def operation (p : Planner) (op : Operator) (left right : Operand) (code : List Quadruple) :
    Except Error Computed := do
  let type ← Typing.result op left.type right.type
  let (a, p) ← p.assign ⟨.temporary, type⟩ none
  return ⟨code ++ [⟨op.opcode, left.address, right.address, a⟩], ⟨a, type⟩, p⟩

end Planner

namespace Syntax

/-- The code of an expression. -/
def Tree.lower {r : Rank} (env : Environment) : Tree r → Planner → Except Error Computed
  | .int n, p => p.literal (.int n)
  | .float x, p => p.literal (.float x)
  | .name x, p => do
    let o ← env.operand x
    return ⟨[], o, p⟩
  | .group e, p => e.lower env p
  | .signed negative e, p => do
    let a ← e.lower env p
    let b ← a.planner.literal (.int (if negative then -1 else 1))
    b.planner.operation .mul a.operand b.operand a.code
  | .ofFactor e, p => e.lower env p
  | .product l op _ r, p => do
    let a ← l.lower env p
    let b ← r.lower env a.planner
    b.planner.operation op a.operand b.operand (a.code ++ b.code)
  | .ofTerm e, p => e.lower env p
  | .addition l op _ r, p => do
    let a ← l.lower env p
    let b ← r.lower env a.planner
    b.planner.operation op a.operand b.operand (a.code ++ b.code)
  | .ofSum e, p => e.lower env p
  | .comparison l op _ r, p => do
    let a ← l.lower env p
    let b ← r.lower env a.planner
    b.planner.operation op a.operand b.operand (a.code ++ b.code)

/-- The code for the value of a printed item. -/
def Item.computed (env : Environment) : Item → Planner → Except Error Computed
  | .text s, p => p.literal (.string s)
  | .value e, p => e.lower env p

/-- The code of a printed item. -/
def Item.lower (env : Environment) (i : Item) (p : Planner) : Except Error Laid := do
  let a ← i.computed env p
  return ⟨a.code ++ [⟨.print, a.operand.address, unused, unused⟩], a.planner⟩

/-- The code of printed items. -/
def Item.lowerAll (env : Environment) : List Item → Planner → Except Error Laid
  | [], p => return ⟨[], p⟩
  | i :: is, p => do
    let a ← i.lower env p
    let b ← lowerAll env is a.planner
    return ⟨a.code ++ b.code, b.planner⟩

/-- The code of the arguments of a call, counted on from a position, and their types. -/
def Tree.lowerArguments (env : Environment) : Nat → List Expression → Planner →
    Except Error (Laid × List ValueType)
  | _, [], p => return (⟨[], p⟩, [])
  | k, e :: es, p => do
    let a ← e.lower env p
    let (b, types) ← lowerArguments env (k + 1) es a.planner
    return (⟨a.code ++ ⟨.param, a.operand.address, unused, k⟩ :: b.code, b.planner⟩,
      a.operand.type :: types)

/-- Fails unless arguments have the types of parameters; positions count on from `position`. -/
def checkArguments (name : String) : Nat → List ValueType → List ValueType → Except Error Unit
  | position, expected :: parameters, found :: arguments =>
    if expected ≠ found then throw (.typing (.argument position name expected found))
    else checkArguments name (position + 1) parameters arguments
  | _, _, _ => return ()

/-- The code of a guard, which has to be a `bool`. -/
def Tree.lowerGuard (construct : String) (env : Environment) (g : Expression) (p : Planner) :
    Except Error Computed := do
  let a ← g.lower env p
  if a.operand.type ≠ .bool then throw (.typing (.guard construct a.operand.type))
  return a

/-- The code of a statement or a block whose first quadruple has the given index. -/
def Phrase.lower {r : Role} (env : Environment) : Phrase r → Nat → Planner → Except Error Laid
  | .assign x e, _, p => do
    let target ← env.operand x
    let a ← e.lower env p
    let _ ← Typing.result .assign target.type a.operand.type
    return ⟨a.code ++ [⟨.assign, a.operand.address, unused, target.address⟩], a.planner⟩
  | .branch g b, start, p => do
    let a ← g.lowerGuard "if" env p
    let body ← b.lower env (start + a.code.length + 1) a.planner
    let exit := start + a.code.length + 1 + body.code.length
    return ⟨a.code ++ ⟨.gotoFalse, a.operand.address, unused, exit⟩ :: body.code, body.planner⟩
  | .choice g b c, start, p => do
    let a ← g.lowerGuard "if" env p
    let body ← b.lower env (start + a.code.length + 1) a.planner
    let other := start + a.code.length + 1 + body.code.length + 1
    let rest ← c.lower env other body.planner
    let exit := other + rest.code.length
    return ⟨a.code ++ ⟨.gotoFalse, a.operand.address, unused, other⟩ :: body.code ++
      ⟨.goto, unused, unused, exit⟩ :: rest.code, rest.planner⟩
  | .loop b g, start, p => do
    let body ← b.lower env start p
    let a ← g.lowerGuard "while" env body.planner
    return ⟨body.code ++ a.code ++ [⟨.gotoTrue, a.operand.address, unused, start⟩], a.planner⟩
  | .call f es, _, p => do
    let c ← env.callee f
    let (args, types) ← Tree.lowerArguments env 0 es p
    if types.length ≠ c.parameters.length then
      throw (.typing (.arity f c.parameters.length types.length))
    checkArguments f 1 c.parameters types
    match c.start with
    | none => throw (.protocol (.bodyMissing f))
    | some start =>
      return ⟨⟨.allocate, c.id, unused, unused⟩ :: args.code ++ [⟨.call, c.id, unused, start⟩],
        args.planner⟩
  | .print i is, _, p => Item.lowerAll env (i :: is) p
  | .nil, _, p => return ⟨[], p⟩
  | .cons s rest, start, p => do
    let a ← s.lower env start p
    let b ← rest.lower env (start + a.code.length) a.planner
    return ⟨a.code ++ b.code, b.planner⟩

/-- Declares a name in a scope and gives it a cell. -/
def declareOne (level : Level) (lifetime : Lifetime) (kind : ValueType → SymbolKind) (x : Parameter)
    (d : Directory) (p : Planner) : Except Error (Directory × Planner) := do
  let t ← d.table level
  if t.contains x.name then throw (.redeclared x.name)
  let (a, p) ← p.assign ⟨lifetime, x.type.type⟩ none
  let d ← d.declare level (.ofVariable x.name (kind x.type.type) a)
  return (d, p)

/-- Declares names in a scope one after the other. -/
def declareAll (level : Level) (lifetime : Lifetime) (kind : ValueType → SymbolKind) :
    List Parameter → Directory → Planner → Except Error (Directory × Planner)
  | [], d, p => return (d, p)
  | x :: xs, d, p => do
    let r ← declareOne level lifetime kind x d p
    declareAll level lifetime kind xs r.1 r.2

/-- The code of a function and the directory with the function in it. -/
def Function.lower (f : Function) (start : Nat) (d : Directory) (p : Planner) :
    Except Error (Laid × Directory) := do
  if d.globals.contains f.name then throw (.redeclared f.name)
  let (id, p) ← p.assign ⟨.global, .void⟩ none
  let d ← d.declare .global (.ofFunction f.name id)
  let (d, p) ← declareAll (.function f.name) .call .param f.parameters d (p.enter id)
  let (d, p) ← declareAll (.function f.name) .call .var (Declaration.allEntries f.declarations) d p
  let d ← d.modifyFunction f.name fun s => { s with start := some start }
  let body ← f.body.lower (d.environment [.function f.name, .global]) start p
  return (⟨body.code ++ [⟨.leave, unused, unused, unused⟩], body.planner.leave⟩, d)

/-- The code of functions that stand one behind the other. -/
def Function.lowerAll : List Function → Nat → Directory → Planner → Except Error (Laid × Directory)
  | [], _, d, p => return (⟨[], p⟩, d)
  | f :: fs, start, d, p => do
    let (a, d) ← f.lower start d p
    let (b, d) ← lowerAll fs (start + a.code.length) d a.planner
    return (⟨a.code ++ b.code, b.planner⟩, d)

/-- The object file of a program. -/
def Program.lower (a : Program) : Except Error ObjectFile := do
  let (d, p) ← declareAll .global .global .var (Declaration.allEntries a.declarations)
    (.ofProgram a.name) .empty
  let (bodies, d) ← Function.lowerAll a.functions 1 d p
  let start := 1 + bodies.code.length
  let main ← a.main.lower (d.environment [.global]) start bodies.planner
  return ⟨main.planner.memoryMap, main.planner.constants.toList,
    (⟨.goto, unused, unused, start⟩ :: bodies.code ++ main.code).toArray⟩

end Syntax

end Quadlet
