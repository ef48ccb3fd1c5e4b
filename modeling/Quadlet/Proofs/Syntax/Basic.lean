import Quadlet.Event.Basic
import Quadlet.Token.Basic

/-!
# Syntax trees

The trees of the grammar, one constructor for each way to apply a rule:

```text
program    := 'program' ID ';' variables? function* 'main' block 'end'
variables  := 'var' (ID (',' ID)* ':' type ';')+
function   := 'func'? 'void' ID '(' parameters? ')' '[' variables? block ']' ';'
block      := '{' statement* '}'
statement  := assignment | condition | cycle | call | print
expression := sum (comparison sum)?
sum        := term (('+' | '-') term)*
term       := factor (('*' | '/') factor)*
factor     := '(' expression ')' | ('+' | '-') factor | NUMBER | ID
```

Operators of one level lean to the left. A tree has two readings: the tokens that it derives, and
the events of a walk through it from left to right.
-/

namespace Quadlet

/-- The sign of an operator in a row of tokens. -/
def Operator.sign : Operator → Sign
  | .add => .plus
  | .sub => .minus
  | .mul => .star
  | .div => .slash
  | .lt => .lt
  | .gt => .gt
  | .le => .le
  | .ge => .ge
  | .eq => .eq
  | .ne => .ne
  | .assign => .assign

namespace Syntax

/-- The types that a declaration may name. -/
inductive Numeric where
  | int
  | float
  deriving DecidableEq, Repr

namespace Numeric

/-- The type that is named. -/
def type : Numeric → ValueType
  | .int => .int
  | .float => .float

/-- The word that names it. -/
def keyword : Numeric → Keyword
  | .int => .int
  | .float => .float

end Numeric

/-- The levels of an expression, the tightest first. -/
inductive Rank where
  | factor
  | term
  | sum
  | whole
  deriving DecidableEq, Repr

/-- Expressions, by the rule that they are derived from. -/
inductive Tree : Rank → Type where
  | int (n : Int64) : Tree .factor
  | float (x : Float) : Tree .factor
  | name (x : String) : Tree .factor
  | group (e : Tree .whole) : Tree .factor
  | signed (negative : Bool) (e : Tree .factor) : Tree .factor
  | ofFactor (e : Tree .factor) : Tree .term
  | product (l : Tree .term) (op : Operator) (h : op.isMultiplicative = true) (r : Tree .factor) :
    Tree .term
  | ofTerm (e : Tree .term) : Tree .sum
  | addition (l : Tree .sum) (op : Operator) (h : op.isAdditive = true) (r : Tree .term) : Tree .sum
  | ofSum (e : Tree .sum) : Tree .whole
  | comparison (l : Tree .sum) (op : Operator) (h : op.isRelational = true) (r : Tree .sum) :
    Tree .whole

/-- A whole expression. -/
abbrev Expression := Tree .whole

namespace Tree

/-- The tokens of an expression. -/
def tokens {r : Rank} : Tree r → List Token.Kind
  | .int n => [.integer n]
  | .float x => [.float x]
  | .name x => [.identifier x]
  | .group e => .sign .leftParen :: e.tokens ++ [.sign .rightParen]
  | .signed negative e => .sign (if negative then .minus else .plus) :: e.tokens
  | .ofFactor e => e.tokens
  | .product l op _ r => l.tokens ++ .sign op.sign :: r.tokens
  | .ofTerm e => e.tokens
  | .addition l op _ r => l.tokens ++ .sign op.sign :: r.tokens
  | .ofSum e => e.tokens
  | .comparison l op _ r => l.tokens ++ .sign op.sign :: r.tokens

/-- The events of an expression: the end of a level is told behind each of its operands. -/
def events {r : Rank} : Tree r → List Event
  | .int n => [.intLiteral n]
  | .float x => [.floatLiteral x]
  | .name x => [.identifier x]
  | .group e => .openParen :: e.events ++ [.closeParen]
  | .signed negative e => .unarySign negative :: e.events ++ [.unaryEnd]
  | .ofFactor e => e.events ++ [.factorEnd]
  | .product l op _ r => l.events ++ .operator op :: r.events ++ [.factorEnd]
  | .ofTerm e => e.events ++ [.termEnd]
  | .addition l op _ r => l.events ++ .operator op :: r.events ++ [.termEnd]
  | .ofSum e => e.events ++ [.relationalEnd]
  | .comparison l op _ r => l.events ++ .operator op :: r.events ++ [.relationalEnd]

end Tree

/-- The tokens that an expression starts with. -/
def StartsExpression : Token.Kind → Prop
  | .integer _ | .float _ | .identifier _ => True
  | .sign .leftParen | .sign .plus | .sign .minus => True
  | _ => False

/-- Every expression starts with such a token. -/
theorem first_of_tree {r : Rank} (e : Tree r) :
    ∃ k ks, e.tokens = k :: ks ∧ StartsExpression k := by
  induction e with
  | int n => exact ⟨_, _, rfl, trivial⟩
  | float x => exact ⟨_, _, rfl, trivial⟩
  | name x => exact ⟨_, _, rfl, trivial⟩
  | group e => exact ⟨_, _, rfl, trivial⟩
  | signed negative e => exact ⟨_, _, rfl, by cases negative <;> trivial⟩
  | ofFactor e ih => exact ih
  | ofTerm e ih => exact ih
  | ofSum e ih => exact ih
  | product l op h r ih | addition l op h r ih | comparison l op h r ih =>
    obtain ⟨k, ks, hk, hs⟩ := ih
    exact ⟨k, _, by rw [Tree.tokens, hk]; rfl, hs⟩

/-- The tokens of items with commas between them. -/
def listed {α : Type} (f : α → List Token.Kind) : List α → List Token.Kind
  | [] => []
  | a :: as => f a ++ as.flatMap fun b => .sign .comma :: f b

/-- One printed item. -/
inductive Item where
  | text (s : String)
  | value (e : Expression)

namespace Item

/-- The tokens of an item. -/
def tokens : Item → List Token.Kind
  | .text s => [.string s]
  | .value e => e.tokens

/-- The events of an item. -/
def events : Item → List Event
  | .text s => [.stringLiteral s, .printItem]
  | .value e => e.events ++ [.printItem]

end Item

/-- Statements, and rows of statements as they stand between two braces. -/
inductive Role where
  | statement
  | block
  deriving DecidableEq, Repr

/-- A statement or a block of statements. -/
inductive Phrase : Role → Type where
  | assign (x : String) (e : Expression) : Phrase .statement
  | branch (guard : Expression) (body : Phrase .block) : Phrase .statement
  | choice (guard : Expression) (body other : Phrase .block) : Phrase .statement
  | loop (body : Phrase .block) (guard : Expression) : Phrase .statement
  | call (f : String) (arguments : List Expression) : Phrase .statement
  | print (first : Item) (more : List Item) : Phrase .statement
  | nil : Phrase .block
  | cons (s : Phrase .statement) (rest : Phrase .block) : Phrase .block

/-- A statement. -/
abbrev Statement := Phrase .statement

/-- The statements between two braces. -/
abbrev Block := Phrase .block

namespace Phrase

/-- The tokens of a statement, or of a block without its braces. -/
def tokens {r : Role} : Phrase r → List Token.Kind
  | .assign x e => .identifier x :: .sign .assign :: e.tokens ++ [.sign .semicolon]
  | .branch g b =>
    .keyword .cond :: .sign .leftParen :: g.tokens ++
      .sign .rightParen :: .sign .leftBrace :: b.tokens ++ [.sign .rightBrace, .sign .semicolon]
  | .choice g b c =>
    .keyword .cond :: .sign .leftParen :: g.tokens ++
      .sign .rightParen :: .sign .leftBrace :: b.tokens ++
      .sign .rightBrace :: .keyword .otherwise :: .sign .leftBrace :: c.tokens ++
      [.sign .rightBrace, .sign .semicolon]
  | .loop b g =>
    .keyword .loop :: .sign .leftBrace :: b.tokens ++
      .sign .rightBrace :: .keyword .whilst :: .sign .leftParen :: g.tokens ++
      [.sign .rightParen, .sign .semicolon]
  | .call f es =>
    .identifier f :: .sign .leftParen :: listed Tree.tokens es ++
      [.sign .rightParen, .sign .semicolon]
  | .print i is =>
    .keyword .print :: .sign .leftParen :: listed Item.tokens (i :: is) ++
      [.sign .rightParen, .sign .semicolon]
  | .nil => []
  | .cons s rest => s.tokens ++ rest.tokens

/-- The events of a statement or a block. -/
def events {r : Role} : Phrase r → List Event
  | .assign x e => .assignTarget x :: .assignOperator :: e.events ++ [.assignValue]
  | .branch g b => g.events ++ .ifGuardEnd :: b.events ++ [.ifEnd]
  | .choice g b c => g.events ++ .ifGuardEnd :: b.events ++ .elseBranch :: c.events ++ [.ifEnd]
  | .loop b g => .loopStart :: b.events ++ g.events ++ [.loopGuardEnd]
  | .call f es =>
    .callStart f :: .callOpen :: es.flatMap (fun e => e.events ++ [.argument]) ++ [.callEnd]
  | .print i is => (i :: is).flatMap Item.events
  | .nil => []
  | .cons s rest => s.events ++ rest.events

end Phrase

/-- A list of variables with their type. -/
structure Declaration where
  first : String
  more : List String
  type : Numeric

namespace Declaration

/-- The names of a list of variables. -/
def names (d : Declaration) : List String := d.first :: d.more

/-- The tokens of a list of variables. -/
def tokens (d : Declaration) : List Token.Kind :=
  listed (fun x => [.identifier x]) d.names ++
    [.sign .colon, .keyword d.type.keyword, .sign .semicolon]

/-- The events of a list of variables. -/
def events (d : Declaration) : List Event := d.names.map .varName ++ [.varType d.type.type]

/-- The tokens of the variables of a program or a function; nothing if there are none. -/
def sectionTokens : List Declaration → List Token.Kind
  | [] => []
  | d :: ds => .keyword .var :: (d :: ds).flatMap tokens

end Declaration

/-- One parameter of a function, or another name that is declared with a type. -/
structure Parameter where
  name : String
  type : Numeric
  deriving DecidableEq, Repr

/-- The names of a list of variables, each with its type. -/
def Declaration.entries (d : Declaration) : List Parameter := d.names.map fun x => ⟨x, d.type⟩

/-- The variables of the program or of a function, in order. -/
def Declaration.allEntries (ds : List Declaration) : List Parameter := ds.flatMap entries

namespace Parameter

/-- The tokens of a parameter. -/
def tokens (p : Parameter) : List Token.Kind :=
  [.identifier p.name, .sign .colon, .keyword p.type.keyword]

/-- The event of a parameter. -/
def event (p : Parameter) : Event := .param p.name p.type.type

end Parameter

/-- A function. -/
structure Function where
  /-- Whether the word `func` stands before it. -/
  marked : Bool
  name : String
  parameters : List Parameter
  declarations : List Declaration
  body : Block

namespace Function

/-- The tokens of a function. -/
def tokens (f : Function) : List Token.Kind :=
  (if f.marked then [.keyword .func] else []) ++
    .keyword .void :: .identifier f.name :: .sign .leftParen :: listed Parameter.tokens
    f.parameters ++ .sign .rightParen :: .sign .leftBracket :: Declaration.sectionTokens
      f.declarations ++
    .sign .leftBrace :: f.body.tokens ++
    [.sign .rightBrace, .sign .rightBracket, .sign .semicolon]

/-- The events of a function. -/
def events (f : Function) : List Event :=
  .functionStart f.name :: f.parameters.map Parameter.event ++
    f.declarations.flatMap Declaration.events ++
    .functionBodyStart :: f.body.events ++ [.functionEnd]

end Function

/-- A whole program. -/
structure Program where
  name : String
  declarations : List Declaration
  functions : List Function
  main : Block

namespace Program

/-- The tokens of a program, without an end marker. -/
def tokens (p : Program) : List Token.Kind :=
  .keyword .program :: .identifier p.name :: .sign .semicolon ::
    Declaration.sectionTokens p.declarations ++ p.functions.flatMap Function.tokens ++
    .keyword .main :: .sign .leftBrace :: p.main.tokens ++ [.sign .rightBrace, .keyword .finish]

/-- The events of a program. -/
def events (p : Program) : List Event :=
  .programStart p.name :: p.declarations.flatMap Declaration.events ++
    p.functions.flatMap Function.events ++ .mainStart :: p.main.events ++ [.programEnd]

end Program

end Syntax

end Quadlet
