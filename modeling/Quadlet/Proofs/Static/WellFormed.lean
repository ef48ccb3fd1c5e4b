import Quadlet.Proofs.Syntax.Basic
import Quadlet.Segment
import Quadlet.Literal
import Quadlet.Typing

/-!
# Well-formed programs

Which programs make sense, said about their trees: what names stand for, the types of expressions,
the rules for statements, and the cells that a program asks for. Nothing here knows of a translator.
-/

namespace Quadlet.Syntax

/-! ## Variables -/

/-- A declared variable and its place among the variables of its type. -/
structure Variable where
  name : String
  lifetime : Lifetime
  type : Numeric
  index : Nat
  deriving DecidableEq, Repr

namespace Variable

/-- The segment in which a variable lives. -/
def segment (v : Variable) : Segment := ⟨v.lifetime, v.type.type⟩

/-- The address of a variable. -/
def address (v : Variable) : Address := v.segment.base?.getD 0 + v.index

/-- Names as variables: the place of each is the number of names of its type
that stand before it. -/
def number (lifetime : Lifetime) : List Parameter → List Parameter → List Variable
  | _, [] => []
  | before, x :: xs =>
    ⟨x.name, lifetime, x.type, before.countP fun y => y.type = x.type⟩ ::
      number lifetime (before ++ [x]) xs

end Variable

/-- What names stand for. -/
abbrev Scope := String → Option Variable

/-- What names stand for among some variables. -/
def Scope.of (vs : List Variable) : Scope := fun x => vs.find? fun v => v.name == x

/-- The parameters and variables of a function. -/
def Function.names (f : Function) : List Parameter :=
  f.parameters ++ Declaration.allEntries f.declarations

/-- The parameters and variables of a function with their places. -/
def Function.locals (f : Function) : List Variable := Variable.number .call [] f.names

/-- The variables of the program itself. -/
def Program.names (a : Program) : List Parameter := Declaration.allEntries a.declarations

/-- What names stand for among variables of the program itself. -/
abbrev Scope.global (xs : List Parameter) : Scope := .of (Variable.number .global [] xs)

/-- What names stand for in the main part. -/
def Program.scope (a : Program) : Scope := .global a.names

/-- What names stand for in a function: its own names hide those of the program. -/
def Function.scope (outer : Scope) (f : Function) : Scope :=
  fun x => (Scope.of f.locals x).or (outer x)

/-! ## Cells -/

/-- A wish for a cell. -/
inductive Request where
  /-- A cell of its own. -/
  | cell (s : Segment)
  /-- A cell with a literal, which all wishes for the literal share. -/
  | literal (l : Literal)
  deriving DecidableEq

namespace Request

/-- The literals among some wishes. -/
def literals (rs : List Request) : List Literal :=
  rs.filterMap fun
    | .cell _ => none
    | .literal l => some l

/-- The number of cells of a segment that some wishes need. -/
def demand (rs : List Request) (s : Segment) : Nat :=
  rs.count (.cell s) + ((literals rs).eraseDups.countP fun l => s = ⟨.constant, l.type⟩)

/-- No segment needs more cells than it has. -/
def Fits (rs : List Request) : Prop := ∀ s, demand rs s ≤ Segment.size

end Request

/-! ## Expressions -/

namespace Tree

/-- The names in an expression. -/
def names {r : Rank} : Tree r → List String
  | .int _ | .float _ => []
  | .name x => [x]
  | .group e | .signed _ e | .ofFactor e | .ofTerm e | .ofSum e => e.names
  | .product l _ _ r | .addition l _ _ r | .comparison l _ _ r => l.names ++ r.names

/-- Every name in an expression stands for a variable. -/
def Resolves {r : Rank} (Γ : Scope) (e : Tree r) : Prop := ∀ x ∈ e.names, (Γ x).isSome = true

/-- The type of an expression; a sign multiplies by an `int`. -/
def type {r : Rank} (Γ : Scope) : Tree r → ValueType
  | .int _ => .int
  | .float _ => .float
  | .name x => (Γ x).elim .void fun v => v.type.type
  | .signed _ e => (Typing.result? .mul (e.type Γ) .int).getD .void
  | .group e | .ofFactor e | .ofTerm e | .ofSum e => e.type Γ
  | .product l op _ r | .addition l op _ r | .comparison l op _ r =>
    (Typing.result? op (l.type Γ) (r.type Γ)).getD .void

/-- The cells of an expression: one for each literal, the literals of its signs included, and one
for the result of each operator and sign. -/
def requests {r : Rank} (Γ : Scope) : Tree r → List Request
  | .int n => [.literal (.int n)]
  | .float x => [.literal (.float x)]
  | .name _ => []
  | .signed negative e => e.requests Γ ++
    [Request.literal (.int (if negative then -1 else 1)),
      .cell ⟨.temporary, (signed negative e).type Γ⟩]
  | .group e | .ofFactor e | .ofTerm e | .ofSum e => e.requests Γ
  | .product l op h r =>
    l.requests Γ ++ r.requests Γ ++ [Request.cell ⟨.temporary, (product l op h r).type Γ⟩]
  | .addition l op h r =>
    l.requests Γ ++ r.requests Γ ++ [Request.cell ⟨.temporary, (addition l op h r).type Γ⟩]
  | .comparison l op h r =>
    l.requests Γ ++ r.requests Γ ++ [Request.cell ⟨.temporary, (comparison l op h r).type Γ⟩]

end Tree

/-! ## Statements -/

/-- Every name in a printed item stands for a variable. -/
def Item.Resolves (Γ : Scope) : Item → Prop
  | .text _ => True
  | .value e => e.Resolves Γ

/-- The cells of a printed item. -/
def Item.requests (Γ : Scope) : Item → List Request
  | .text s => [.literal (.string s)]
  | .value e => e.requests Γ

/-- The types of the parameters of a function. -/
def Function.types (f : Function) : List ValueType := f.parameters.map fun x => x.type.type

namespace Phrase

/-- A statement or block follows the rules, where some functions may be called: names stand
for variables, guards are `bool` and assigned values are not, and calls have arguments of the
types of the parameters. -/
def WellTyped {r : Role} (Γ : Scope) (callable : List Function) : Phrase r → Prop
  | .assign x e => (Γ x).isSome = true ∧ e.Resolves Γ ∧ e.type Γ ≠ .bool
  | .branch g b => g.Resolves Γ ∧ g.type Γ = .bool ∧ b.WellTyped Γ callable
  | .choice g b c =>
    g.Resolves Γ ∧ g.type Γ = .bool ∧ b.WellTyped Γ callable ∧ c.WellTyped Γ callable
  | .loop b g => b.WellTyped Γ callable ∧ g.Resolves Γ ∧ g.type Γ = .bool
  | .call f es =>
    (∃ g ∈ callable, g.name = f ∧ es.map (Tree.type Γ) = g.types) ∧ ∀ e ∈ es, e.Resolves Γ
  | .print i is => ∀ j ∈ i :: is, j.Resolves Γ
  | .nil => True
  | .cons s rest => s.WellTyped Γ callable ∧ rest.WellTyped Γ callable

/-- The cells of a statement or block. -/
def requests {r : Role} (Γ : Scope) : Phrase r → List Request
  | .assign _ e => e.requests Γ
  | .branch g b => g.requests Γ ++ b.requests Γ
  | .choice g b c => g.requests Γ ++ b.requests Γ ++ c.requests Γ
  | .loop b g => b.requests Γ ++ g.requests Γ
  | .call _ es => es.flatMap (Tree.requests Γ)
  | .print i is => (i :: is).flatMap (Item.requests Γ)
  | .nil => []
  | .cons s rest => s.requests Γ ++ rest.requests Γ

end Phrase

/-! ## Programs -/

/-- The cells of a function that live as long as the program: its identity and those of its body. -/
def Function.requests (outer : Scope) (f : Function) : List Request :=
  .cell ⟨.global, .void⟩ :: f.body.requests (f.scope outer)

/-- The cells of variables of the program itself. -/
def globalCells (xs : List Parameter) : List Request := xs.map fun x => .cell ⟨.global, x.type.type⟩

/-- The cells of a program that live as long as the program. -/
def Program.requests (a : Program) : List Request :=
  globalCells a.names ++ a.functions.flatMap (Function.requests a.scope) ++ a.main.requests a.scope

/-- Functions follow the rules one after the other: each may be called in its
own body and behind it. -/
def Function.AllWellTyped (outer : Scope) : List Function → List Function → Prop
  | _, [] => True
  | before, f :: fs =>
    f.body.WellTyped (f.scope outer) (before ++ [f]) ∧ AllWellTyped outer (before ++ [f]) fs

/-- A program makes sense. -/
structure Program.WellFormed (a : Program) : Prop where
  /-- No two variables or functions of the program have one name. -/
  globals_distinct : (a.names.map Parameter.name ++ a.functions.map Function.name).Nodup
  /-- No two parameters or variables of a function have one name. -/
  locals_distinct : ∀ f ∈ a.functions, (f.names.map Parameter.name).Nodup
  /-- The functions follow the rules. -/
  functions : Function.AllWellTyped a.scope [] a.functions
  /-- The main part follows the rules. -/
  main : a.main.WellTyped a.scope a.functions
  /-- The cells that live as long as the program fit. -/
  fits : Request.Fits a.requests
  /-- The parameters and variables of every function fit. -/
  locals_fit : ∀ f ∈ a.functions, ∀ τ : Numeric, (f.names.countP fun x => x.type = τ) ≤ Segment.size

end Quadlet.Syntax
