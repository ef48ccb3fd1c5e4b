import Quadlet.Error

/-!
# Recognising programs

The parser walks a list of tokens by recursive descent and tells what it recognises to a sink of
events:

```text
program    := 'program' ID ';' variables? function* 'main' block 'end'
variables  := 'var' (ID (',' ID)* ':' type ';')+
function   := 'func'? 'void' ID '(' parameters? ')' '[' variables? block ']' ';'
block      := '{' statement* '}'
statement  := assignment | condition | cycle | call | print
expression := sum (comparison sum)?
sum        := term (('+' | '-') term)*
term       := factor (('*' | '/') factor)*
factor     := '(' expression ')' | ('+' | '-') factor | NUMBER | ID
```

The sink may refuse an event, which stops the parser. What was told before stays told, and the
parser stays at the token it had reached. Every loop and every descent is given the number of tokens
it may still take. A list that ends in an end marker never needs more than it has; one that does not
may show its last token for ever, which is then reported.

Embeds duckling's `Parser`, each `parse_` function under the name of what it recognises;
`SPEC_FULL.md` §6 (grammar) and §F.
-/

namespace Quadlet

/-- A state that takes events. Duckling `EventSink`. -/
class EventSink (σ : Type) where
  /-- Takes one event or refuses it; either way the state may change. -/
  accept : Event → EStateM Error σ Unit

/-- A record takes every event. -/
instance : EventSink (Array Event) where
  accept e := modify fun es => es.push e

/-- A place in a list of tokens. -/
structure Cursor where
  /-- The tokens from here on. -/
  rest : List Token
  /-- The last token of the list, which is seen again and again behind its end. -/
  last : Token

namespace Cursor

/-- The start of a list of tokens. -/
def ofTokens (ts : List Token) : Cursor :=
  ⟨ts, ts.getLast?.getD ⟨.endOfFile, "", .start⟩⟩

/-- The token here. -/
def peek (c : Cursor) : Token := c.rest.headD c.last

/-- The token behind the one here. -/
def second? (c : Cursor) : Option Token := c.rest[1]?

/-- Whether the end marker is here. -/
def atEnd (c : Cursor) : Bool := c.peek.kind == .endOfFile

/-- Moves behind the token here, never behind an end marker. -/
def advance (c : Cursor) : Cursor := if c.atEnd then c else { c with rest := c.rest.tail }

end Cursor

/-- A parser and the sink it tells events to. -/
structure Parser (σ : Type) where
  cursor : Cursor
  sink : σ

/-- A part of the grammar. -/
abbrev Parse (σ α : Type) := EStateM Error (Parser σ) α

namespace Parse

variable {σ α : Type}

/-- The token here. -/
def peek : Parse σ Token := return (← get).cursor.peek

/-- Moves behind the token here. -/
def advance : Parse σ Unit := modify fun p => { p with cursor := p.cursor.advance }

/-- Tells an event to the sink. -/
def fire [EventSink σ] (e : Event) : Parse σ Unit := fun p =>
  match EventSink.accept e p.sink with
  | .ok _ s => .ok () { p with sink := s }
  | .error err s => .error err { p with sink := s }

/-- Fails because something else is wanted here. Duckling `Parser.expected_error`. -/
def wanted (what : String) : Parse σ α := do
  let t ← peek
  throw (.grammar t.position (.expected what t.kind))

/-- Fails because more tokens would be taken than there are. -/
def endless : Parse σ α := do
  throw (.grammar (← peek).position .endless)

/-- Whether a token of this kind is here. -/
def sees (kind : Token.Kind) : Parse σ Bool := return (← peek).kind == kind

/-- Takes a token of this kind if it is here. Duckling `Parser.match_token`. -/
def take? (kind : Token.Kind) : Parse σ Bool := do
  if ← sees kind then
    advance
    return true
  else return false

/-- Takes a token of this kind, which has to be here. Duckling `Parser.consume`. -/
def expect (kind : Token.Kind) : Parse σ Unit := do
  if ← sees kind then advance
  else if (← get).cursor.atEnd then throw .truncated
  else wanted kind.described

/-- Takes a name, which has to be here. Duckling `Parser.expect_identifier`. -/
def name : Parse σ String := do
  match (← peek).kind with
  | .identifier name =>
    advance
    return name
  | .endOfFile => throw .truncated
  | _ => wanted "identifier"

/-- Takes the name of a type that can be declared. Duckling `Parser.parse_type`. -/
def typeName : Parse σ ValueType := do
  if ← take? (.keyword .int) then return .int
  else if ← take? (.keyword .float) then return .float
  else wanted "type `int` or `float`"

/-- Further items, each behind a comma. -/
def moreItems (item : Parse σ Unit) (n : Nat) : Parse σ Unit := do
  if ← take? (.sign .comma) then
    match n with
    | 0 => endless
    | n + 1 =>
      item
      moreItems item n

/-- Items with commas between them, at least one. -/
def items (item : Parse σ Unit) (n : Nat) : Parse σ Unit := do
  item
  moreItems item n

variable [EventSink σ]

/-- Further operands, each behind an operator of one level. -/
def moreOperands (level : Token.Kind → Option Operator) (operand : Parse σ Unit) (n : Nat) :
    Parse σ Unit := do
  match level (← peek).kind with
  | none => pure ()
  | some op =>
    match n with
    | 0 => endless
    | n + 1 =>
      advance
      fire (.operator op)
      operand
      moreOperands level operand n

/-- The operators between factors. -/
def multiplicative? : Token.Kind → Option Operator
  | .sign .star => some .mul
  | .sign .slash => some .div
  | _ => none

/-- The operators between terms. -/
def additive? : Token.Kind → Option Operator
  | .sign .plus => some .add
  | .sign .minus => some .sub
  | _ => none

/-- The operators between sums. Duckling `Parser.relational_operator`. -/
def relational? : Token.Kind → Option Operator
  | .sign .lt => some .lt
  | .sign .gt => some .gt
  | .sign .le => some .le
  | .sign .ge => some .ge
  | .sign .eq => some .eq
  | .sign .ne => some .ne
  | _ => none

/-- A term, given its factors. Duckling `Parser.parse_term`. -/
def term (factor : Parse σ Unit) (n : Nat) : Parse σ Unit := do
  let whole : Parse σ Unit := do
    factor
    fire .factorEnd
  whole
  moreOperands multiplicative? whole n

/-- A sum, given its factors. Duckling `Parser.parse_exp`. -/
def sum (factor : Parse σ Unit) (n : Nat) : Parse σ Unit := do
  let whole : Parse σ Unit := do
    term factor n
    fire .termEnd
  whole
  moreOperands additive? whole n

/-- An expression, given its factors. Duckling `Parser.parse_expression`. -/
def expressionOf (factor : Parse σ Unit) (n : Nat) : Parse σ Unit := do
  sum factor n
  match relational? (← peek).kind with
  | none => pure ()
  | some op =>
    advance
    fire (.operator op)
    sum factor n
  fire .relationalEnd

/-- A factor that is a literal or a name, by the kind of its token. -/
def leaf : Token.Kind → Parse σ Unit
  | .integer k => do
    advance
    fire (.intLiteral k)
  | .float x => do
    advance
    fire (.floatLiteral x)
  | .identifier name => do
    advance
    fire (.identifier name)
  | .endOfFile => throw .truncated
  | _ => wanted "expression"

/-- A factor. Duckling `Parser.parse_factor`. -/
def factor : Nat → Parse σ Unit
  | 0 => do
    match (← peek).kind with
    | .sign .leftParen | .sign .plus | .sign .minus => endless
    | k => leaf k
  | n + 1 => do
    match (← peek).kind with
    | .sign .leftParen =>
      advance
      fire .openParen
      expressionOf (factor n) n
      expect (.sign .rightParen)
      fire .closeParen
    | .sign .plus =>
      advance
      fire (.unarySign false)
      factor n
      fire .unaryEnd
    | .sign .minus =>
      advance
      fire (.unarySign true)
      factor n
      fire .unaryEnd
    | k => leaf k

/-- An expression. -/
def expression (n : Nat) : Parse σ Unit := expressionOf (factor n) n

/-- A name of a list of variables. -/
def variableName : Parse σ Unit := do
  fire (.varName (← name))

/-- Lists of variables with their types, at least one. -/
def variableLists (n : Nat) : Parse σ Unit := do
  items variableName n
  expect (.sign .colon)
  fire (.varType (← typeName))
  expect (.sign .semicolon)
  match (← peek).kind with
  | .identifier _ =>
    match n with
    | 0 => endless
    | n + 1 => variableLists n
  | _ => pure ()

/-- The variables of the program or of a function. Duckling `Parser.parse_declarations`. -/
def declarations (n : Nat) : Parse σ Unit := do
  if ← take? (.keyword .var) then variableLists n

/-- The statements up to a closing brace. -/
def statements (statement : Parse σ Unit) (n : Nat) : Parse σ Unit := do
  if ← sees (.sign .rightBrace) then pure ()
  else if (← get).cursor.atEnd then throw .truncated
  else
    match n with
    | 0 => endless
    | n + 1 =>
      statement
      statements statement n

/-- Statements between braces. Duckling `Parser.parse_body`. -/
def block (statement : Parse σ Unit) (n : Nat) : Parse σ Unit := do
  expect (.sign .leftBrace)
  statements statement n
  expect (.sign .rightBrace)

/-- An expression between parentheses. -/
def guarded (n : Nat) : Parse σ Unit := do
  expect (.sign .leftParen)
  expression n
  expect (.sign .rightParen)

/-- An assignment. Duckling `Parser.parse_assignment`. -/
def assignment (n : Nat) : Parse σ Unit := do
  fire (.assignTarget (← name))
  expect (.sign .assign)
  fire .assignOperator
  expression n
  fire .assignValue
  expect (.sign .semicolon)

/-- A condition with one or two branches. Duckling `Parser.parse_condition`. -/
def condition (body : Parse σ Unit) (n : Nat) : Parse σ Unit := do
  expect (.keyword .cond)
  guarded n
  fire .ifGuardEnd
  body
  if ← take? (.keyword .otherwise) then
    fire .elseBranch
    body
  fire .ifEnd
  expect (.sign .semicolon)

/-- A loop with its guard behind the body. Duckling `Parser.parse_cycle`. -/
def cycle (body : Parse σ Unit) (n : Nat) : Parse σ Unit := do
  expect (.keyword .loop)
  fire .loopStart
  body
  expect (.keyword .whilst)
  guarded n
  fire .loopGuardEnd
  expect (.sign .semicolon)

/-- One argument of a call. -/
def argument (n : Nat) : Parse σ Unit := do
  expression n
  fire .argument

/-- A call. Duckling `Parser.parse_call`. -/
def call (n : Nat) : Parse σ Unit := do
  fire (.callStart (← name))
  expect (.sign .leftParen)
  fire .callOpen
  if !(← sees (.sign .rightParen)) then items (argument n) n
  expect (.sign .rightParen)
  fire .callEnd
  expect (.sign .semicolon)

/-- One printed item: a string or an expression. -/
def printItem (n : Nat) : Parse σ Unit := do
  match (← peek).kind with
  | .string text =>
    advance
    fire (.stringLiteral text)
  | _ => expression n
  fire .printItem

/-- A print statement. Duckling `Parser.parse_print`. -/
def print (n : Nat) : Parse σ Unit := do
  expect (.keyword .print)
  expect (.sign .leftParen)
  items (printItem n) n
  expect (.sign .rightParen)
  expect (.sign .semicolon)

/-- A statement. Duckling `Parser.parse_statement`. -/
def statement : Nat → Parse σ Unit
  | 0 => endless
  | n + 1 => do
    match (← peek).kind with
    | .keyword .cond => condition (block (statement n) n) n
    | .keyword .loop => cycle (block (statement n) n) n
    | .keyword .print => print n
    | .identifier _ =>
      match (← get).cursor.second?.map Token.kind with
      | some (.sign .assign) => assignment n
      | some (.sign .leftParen) => call n
      | _ =>
        advance
        wanted "`=` or `(`"
    | _ => wanted "statement"

/-- One parameter of a function. -/
def parameter : Parse σ Unit := do
  let name ← name
  expect (.sign .colon)
  fire (.param name (← typeName))

/-- A function. Duckling `Parser.parse_function`. -/
def function (n : Nat) : Parse σ Unit := do
  let _ ← take? (.keyword .func)
  expect (.keyword .void)
  fire (.functionStart (← name))
  expect (.sign .leftParen)
  if !(← sees (.sign .rightParen)) then items parameter n
  expect (.sign .rightParen)
  expect (.sign .leftBracket)
  declarations n
  fire .functionBodyStart
  block (statement n) n
  expect (.sign .rightBracket)
  expect (.sign .semicolon)
  fire .functionEnd

/-- The functions of a program. -/
def functions (n : Nat) : Parse σ Unit := do
  if (← sees (.keyword .func)) || (← sees (.keyword .void)) then
    match n with
    | 0 => endless
    | n + 1 =>
      function (n + 1)
      functions n

/-- A program, taking at most `n` tokens at each turn. -/
def programWithin (n : Nat) : Parse σ Unit := do
  expect (.keyword .program)
  fire (.programStart (← name))
  expect (.sign .semicolon)
  declarations n
  functions n
  expect (.keyword .main)
  fire .mainStart
  block (statement n) n
  expect (.keyword .finish)
  fire .programEnd
  if !(← get).cursor.atEnd then wanted "end of file"

/-- A whole program from the token here on. Duckling `Parser.parse`. -/
def program : Parse σ Unit := do
  programWithin ((← get).cursor.rest.length + 1)

end Parse

namespace Parser

/-- The result of a parser that may have failed, and the parser afterwards. -/
def outcome {σ α : Type} : EStateM.Result Error σ α → Except Error α × σ
  | .ok a s => (.ok a, s)
  | .error e s => (.error e, s)

/-- Tells the program that starts at a cursor to a sink; gives the cursor
and the sink afterwards. -/
def run {σ : Type} [EventSink σ] (c : Cursor) (sink : σ) : Except Error Unit × Parser σ :=
  outcome (Parse.program ⟨c, sink⟩)

end Parser

end Quadlet
