import Quadlet.Proofs.Parser.Actions

/-!
# The parser without bounds

The text of the parser as data: what a part of the grammar does one after the other, where it only
calls for another round of a loop, for a statement or for a factor. A walker follows such a script
for as long as it takes, counts the tokens that it takes, and leaves a mark wherever a call starts.
It sees the last token again and again behind the end of the list. A script that would go on for
ever, or would look at a token outside the list, has no outcome.
-/

namespace Quadlet

/-- The loops of the parser, whose rounds are called, and the two parts that it descends into. Calls
that start at the same token stand in this order. -/
inductive Station where
  | functions
  /-- The lists of variables of one declaration. -/
  | lists
  /-- The names of one list of variables. -/
  | names
  | parameters
  /-- The statements of one block. -/
  | statements
  /-- A descent into a statement. -/
  | statement
  | arguments
  | printItems
  /-- A descent into a factor. -/
  | factor
  /-- The factors of one term. -/
  | factors
  /-- The terms of one sum. -/
  | terms
  deriving DecidableEq

/-- The place of a station in the order of stations. -/
def Station.rank : Station → Nat
  | .functions => 0
  | .lists => 1
  | .names => 2
  | .parameters => 3
  | .statements => 4
  | .statement => 5
  | .arguments => 6
  | .printItems => 7
  | .factor => 8
  | .factors => 9
  | .terms => 10

/-- What is done until a result is there. -/
inductive Script (α : Type) where
  | done (a : α)
  | fails (e : Error)
  /-- Goes on by the token here. -/
  | looks (next : Token → Script α)
  /-- Goes on by the token behind the one here. -/
  | looksBehind (next : Option Token → Script α)
  /-- Goes on at the next place. -/
  | moves (next : Script α)
  | tells (e : Event) (next : Script α)
  | calls (s : Station) (next : Script α)

namespace Script

/-- One script behind the other. -/
def andThen {α β : Type} : Script α → (α → Script β) → Script β
  | .done a, f => f a
  | .fails e, _ => .fails e
  | .looks next, f => .looks fun t => (next t).andThen f
  | .looksBehind next, f => .looksBehind fun t => (next t).andThen f
  | .moves next, f => .moves (next.andThen f)
  | .tells e next, f => .tells e (next.andThen f)
  | .calls s next, f => .calls s (next.andThen f)

instance : Monad Script where
  pure := .done
  bind := andThen

/-! ## Tokens -/

/-- The token here. -/
def peek : Script Token := .looks .done

/-- The token behind the one here. -/
def second? : Script (Option Token) := .looksBehind .done

/-- Tells an event to the sink. -/
def fire (e : Event) : Script Unit := .tells e (.done ())

/-- Calls for a round of a loop, or descends. -/
def call (s : Station) : Script Unit := .calls s (.done ())

/-- Whether the end marker is here. -/
def atEnd : Script Bool := return (← peek).kind == .endOfFile

/-- Moves behind the token here, never behind an end marker. -/
def advance : Script Unit := do
  if ← atEnd then pure () else .moves (.done ())

/-- Fails because something else is wanted here. -/
def wanted {α : Type} (what : String) : Script α := do
  let t ← peek
  .fails (.grammar t.position (.expected what t.kind))

/-- Whether a token of this kind is here. -/
def sees (kind : Token.Kind) : Script Bool := return (← peek).kind == kind

/-- Takes a token of this kind if it is here. -/
def take? (kind : Token.Kind) : Script Bool := do
  if ← sees kind then
    advance
    return true
  else return false

/-- Takes a token of this kind, which has to be here. -/
def expect (kind : Token.Kind) : Script Unit := do
  if ← sees kind then advance
  else if ← atEnd then .fails .truncated
  else wanted kind.described

/-- Takes a name, which has to be here. -/
def name : Script String := do
  match (← peek).kind with
  | .identifier name =>
    advance
    return name
  | .endOfFile => .fails .truncated
  | _ => wanted "identifier"

/-- Takes the name of a type that can be declared. -/
def typeName : Script ValueType := do
  if ← take? (.keyword .int) then return .int
  else if ← take? (.keyword .float) then return .float
  else wanted "type `int` or `float`"

/-- A round of a loop over items with commas between them. -/
def round (s : Station) (item : Script Unit) : Script Unit := do
  item
  if ← take? (.sign .comma) then call s

/-! ## Expressions -/

/-- A round of a loop over operands, each behind an operator of one level. -/
def operandRound (s : Station) (level : Token.Kind → Option Operator) (operand : Script Unit) :
    Script Unit := do
  match level (← peek).kind with
  | none => pure ()
  | some op =>
    advance
    fire (.operator op)
    operand
    call s

/-- A factor with its end. -/
def wholeFactor : Script Unit := do
  call .factor
  fire .factorEnd

/-- A term. -/
def term : Script Unit := do
  wholeFactor
  call .factors

/-- A term with its end. -/
def wholeTerm : Script Unit := do
  term
  fire .termEnd

/-- A sum. -/
def sum : Script Unit := do
  wholeTerm
  call .terms

/-- An expression. -/
def expression : Script Unit := do
  sum
  match Parse.relational? (← peek).kind with
  | none => pure ()
  | some op =>
    advance
    fire (.operator op)
    sum
  fire .relationalEnd

/-- A factor that is a literal or a name, by the kind of its token. -/
def leaf : Token.Kind → Script Unit
  | .integer k => do
    advance
    fire (.intLiteral k)
  | .float x => do
    advance
    fire (.floatLiteral x)
  | .identifier name => do
    advance
    fire (.identifier name)
  | .endOfFile => .fails .truncated
  | _ => wanted "expression"

/-- A factor. -/
def factor : Script Unit := do
  match (← peek).kind with
  | .sign .leftParen =>
    advance
    fire .openParen
    expression
    expect (.sign .rightParen)
    fire .closeParen
  | .sign .plus =>
    advance
    fire (.unarySign false)
    call .factor
    fire .unaryEnd
  | .sign .minus =>
    advance
    fire (.unarySign true)
    call .factor
    fire .unaryEnd
  | k => leaf k

/-! ## Declarations -/

/-- A name of a list of variables. -/
def variableName : Script Unit := do
  fire (.varName (← name))

/-- A round of the loop over the names of a list behind the first one. -/
def furtherName : Script Unit := do
  if ← take? (.sign .comma) then
    variableName
    call .names

/-- The names of a list of variables. -/
def nameList : Script Unit := do
  variableName
  call .names

/-- A list of variables with their type, and those behind it. -/
def variableList : Script Unit := do
  nameList
  expect (.sign .colon)
  fire (.varType (← typeName))
  expect (.sign .semicolon)
  match (← peek).kind with
  | .identifier _ => call .lists
  | _ => pure ()

/-- The variables of the program or of a function. -/
def declarations : Script Unit := do
  if ← take? (.keyword .var) then call .lists

/-! ## Statements -/

/-- A round of the loop over the statements up to a closing brace. -/
def furtherStatement : Script Unit := do
  if ← sees (.sign .rightBrace) then pure ()
  else if ← atEnd then .fails .truncated
  else
    call .statement
    call .statements

/-- Statements between braces. -/
def block : Script Unit := do
  expect (.sign .leftBrace)
  call .statements
  expect (.sign .rightBrace)

/-- An expression between parentheses. -/
def guarded : Script Unit := do
  expect (.sign .leftParen)
  expression
  expect (.sign .rightParen)

/-- An assignment. -/
def assignment : Script Unit := do
  fire (.assignTarget (← name))
  expect (.sign .assign)
  fire .assignOperator
  expression
  fire .assignValue
  expect (.sign .semicolon)

/-- A condition with one or two branches. -/
def condition : Script Unit := do
  expect (.keyword .cond)
  guarded
  fire .ifGuardEnd
  block
  if ← take? (.keyword .otherwise) then
    fire .elseBranch
    block
  fire .ifEnd
  expect (.sign .semicolon)

/-- A loop with its guard behind the body. -/
def cycle : Script Unit := do
  expect (.keyword .loop)
  fire .loopStart
  block
  expect (.keyword .whilst)
  guarded
  fire .loopGuardEnd
  expect (.sign .semicolon)

/-- One argument of a call. -/
def argument : Script Unit := do
  expression
  fire .argument

/-- A call of a function. -/
def invocation : Script Unit := do
  fire (.callStart (← name))
  expect (.sign .leftParen)
  fire .callOpen
  if !(← sees (.sign .rightParen)) then call .arguments
  expect (.sign .rightParen)
  fire .callEnd
  expect (.sign .semicolon)

/-- One printed item: a string or an expression. -/
def printItem : Script Unit := do
  match (← peek).kind with
  | .string text =>
    advance
    fire (.stringLiteral text)
  | _ => expression
  fire .printItem

/-- A print statement. -/
def print : Script Unit := do
  expect (.keyword .print)
  expect (.sign .leftParen)
  call .printItems
  expect (.sign .rightParen)
  expect (.sign .semicolon)

/-- A statement. -/
def statement : Script Unit := do
  match (← peek).kind with
  | .keyword .cond => condition
  | .keyword .loop => cycle
  | .keyword .print => print
  | .identifier _ =>
    match (← second?).map Token.kind with
    | some (.sign .assign) => assignment
    | some (.sign .leftParen) => invocation
    | _ =>
      advance
      wanted "`=` or `(`"
  | _ => wanted "statement"

/-! ## Programs -/

/-- One parameter of a function. -/
def parameter : Script Unit := do
  let name ← name
  expect (.sign .colon)
  fire (.param name (← typeName))

/-- A function. -/
def function : Script Unit := do
  let _ ← take? (.keyword .func)
  expect (.keyword .void)
  fire (.functionStart (← name))
  expect (.sign .leftParen)
  if !(← sees (.sign .rightParen)) then call .parameters
  expect (.sign .rightParen)
  expect (.sign .leftBracket)
  declarations
  fire .functionBodyStart
  block
  expect (.sign .rightBracket)
  expect (.sign .semicolon)
  fire .functionEnd

/-- A round of the loop over the functions of a program. -/
def furtherFunction : Script Unit := do
  if (← sees (.keyword .func)) || (← sees (.keyword .void)) then
    function
    call .functions

/-- A whole program from the token here on. -/
def program : Script Unit := do
  expect (.keyword .program)
  fire (.programStart (← name))
  expect (.sign .semicolon)
  declarations
  call .functions
  expect (.keyword .main)
  fire .mainStart
  block
  expect (.keyword .finish)
  fire .programEnd
  if !(← atEnd) then wanted "end of file"

end Script

/-- What a call does. -/
def Station.script : Station → Script Unit
  | .functions => .furtherFunction
  | .lists => .variableList
  | .names => .furtherName
  | .parameters => .round .parameters .parameter
  | .statements => .furtherStatement
  | .statement => .statement
  | .arguments => .round .arguments .argument
  | .printItems => .round .printItems .printItem
  | .factor => .factor
  | .factors => .operandRound .factors Parse.multiplicative? .wholeFactor
  | .terms => .operandRound .terms Parse.additive? .wholeTerm

/-! ## Following a script -/

/-- The start of a call. -/
structure Mark where
  station : Station
  /-- The number of tokens taken before. -/
  place : Nat

/-- One mark is left before the other: at an earlier place, or at the same one
by an earlier station. -/
def Mark.Before (m m' : Mark) : Prop :=
  m.place < m'.place ∨ m.place = m'.place ∧ m.station.rank < m'.station.rank

/-- Two calls at one station start at different places. -/
theorem Mark.Before.place_lt {m m' : Mark} (h : m.Before m') (hs : m.station = m'.station) :
    m.place < m'.place := by
  rcases h with hlt | ⟨-, hrank⟩
  · exact hlt
  · rw [hs] at hrank
    omega

/-- A parser that counts the tokens it takes. -/
structure Walker (σ : Type) where
  tokens : List Token
  /-- The number of tokens taken. -/
  current : Nat
  sink : σ
  /-- The marks left so far, the earliest first. -/
  marks : List Mark

namespace Walker

variable {σ : Type}

/-- A walker that has left no mark yet. -/
def start (tokens : List Token) (current : Nat) (sink : σ) : Walker σ := ⟨tokens, current, sink, []⟩

/-- A walker at the start of a call. -/
def calling (w : Walker σ) (s : Station) : Walker σ :=
  { w with marks := w.marks ++ [⟨s, w.current⟩] }

/-- The parser at the place of a walker. -/
def parser (w : Walker σ) : Parser σ :=
  ⟨⟨w.tokens.drop w.current, (Cursor.ofTokens w.tokens).last⟩, w.sink⟩

end Walker

namespace Script

/-- A walker that follows a script comes to an outcome and to a place. -/
inductive Yields {σ : Type} [EventSink σ] :
    {α : Type} → Script α → Walker σ → Except Error α → Walker σ → Prop where
  | done {α : Type} (a : α) (w : Walker σ) : Yields (.done a) w (.ok a) w
  | fails {α : Type} (e : Error) (w : Walker σ) : Yields (.fails e : Script α) w (.error e) w
  /-- The token here has to be one of the list. Behind the end of the list it is the last one. -/
  | looks {α : Type} {next : Token → Script α} {w w' : Walker σ} {r : Except Error α} {t : Token}
    (inside : w.tokens[min w.current (w.tokens.length - 1)]? = some t)
    (rest : Yields (next t) w r w') :
    Yields (.looks next) w r w'
  | looksBehind {α : Type} {next : Option Token → Script α} {w w' : Walker σ} {r : Except Error α}
    (rest : Yields (next w.tokens[w.current + 1]?) w r w') : Yields (.looksBehind next) w r w'
  | moves {α : Type} {next : Script α} {w w' : Walker σ} {r : Except Error α}
    (rest : Yields next { w with current := w.current + 1 } r w') : Yields (.moves next) w r w'
  | told {α : Type} {e : Event} {next : Script α} {w w' : Walker σ} {r : Except Error α} {s : σ}
    (taken : EventSink.accept e w.sink = .ok () s) (rest : Yields next { w with sink := s } r w') :
    Yields (.tells e next) w r w'
  | refused {α : Type} {e : Event} {next : Script α} {w : Walker σ} {err : Error} {s : σ}
    (refused : EventSink.accept e w.sink = .error err s) :
    Yields (.tells e next) w (.error err) { w with sink := s }
  /-- A call starts where it stands, and leaves its mark there. -/
  | called {α : Type} {s : Station} {next : Script α} {w v w' : Walker σ} {r : Except Error α}
    (call : Yields s.script (w.calling s) (.ok ()) v) (rest : Yields next v r w') :
    Yields (.calls s next) w r w'
  | failed {α : Type} {s : Station} {next : Script α} {w w' : Walker σ} {e : Error}
    (call : Yields s.script (w.calling s) (.error e) w') : Yields (.calls s next) w (.error e) w'

namespace Yields

variable {σ α β : Type} [EventSink σ] {w w' w'' : Walker σ} {x : Script α} {e : Error}

/-- A script comes to one outcome at most. -/
theorem unique {r r' : Except Error α} (h : x.Yields w r w') (h' : x.Yields w r' w'') :
    r' = r ∧ w'' = w' := by
  induction h generalizing w'' with
  | done a w | fails e w =>
    cases h'
    exact ⟨rfl, rfl⟩
  | looks inside rest ih =>
    cases h' with
    | looks inside' rest' =>
      obtain rfl := Option.some.inj (inside.symm.trans inside')
      exact ih rest'
  | looksBehind rest ih =>
    cases h' with
    | looksBehind rest' => exact ih rest'
  | moves rest ih =>
    cases h' with
    | moves rest' => exact ih rest'
  | told taken rest ih =>
    cases h' with
    | told taken' rest' =>
      cases taken.symm.trans taken'
      exact ih rest'
    | refused refused => cases taken.symm.trans refused
  | refused refused =>
    cases h' with
    | told taken rest => cases refused.symm.trans taken
    | refused refused' =>
      cases refused.symm.trans refused'
      exact ⟨rfl, rfl⟩
  | called call rest ihcall ihrest =>
    cases h' with
    | called call' rest' =>
      obtain ⟨-, rfl⟩ := ihcall call'
      exact ihrest rest'
    | failed call' => cases (ihcall call').1
  | failed call ih =>
    cases h' with
    | called call' rest' => cases (ih call').1
    | failed call' =>
      obtain ⟨he, rfl⟩ := ih call'
      cases he
      exact ⟨rfl, rfl⟩

/-- A script behind one that succeeds is followed from where that one ends. -/
theorem bind {f : α → Script β} {a : α} {r : Except Error β} (hx : x.Yields w (.ok a) w')
    (hf : (f a).Yields w' r w'') : (x >>= f).Yields w r w'' := by
  generalize hout : Except.ok a = out at hx
  induction hx with
  | done a' w =>
    cases hout
    exact hf
  | fails | refused | failed => cases hout
  | looks inside rest ih => exact .looks inside (ih hf hout)
  | looksBehind rest ih => exact .looksBehind (ih hf hout)
  | moves rest ih => exact .moves (ih hf hout)
  | told taken rest ih => exact .told taken (ih hf hout)
  | called call rest ihcall ihrest => exact .called call (ihrest hf hout)

/-- What stands behind a script that fails is not reached. -/
theorem bind_error (hx : x.Yields w (.error e) w') (f : α → Script β) :
    (x >>= f).Yields w (.error e) w' := by
  generalize hout : Except.error e = out at hx
  induction hx with
  | done => cases hout
  | fails e' w =>
    cases hout
    exact .fails _ _
  | looks inside rest ih => exact .looks inside (ih f hout)
  | looksBehind rest ih => exact .looksBehind (ih f hout)
  | moves rest ih => exact .moves (ih f hout)
  | told taken rest ih => exact .told taken (ih f hout)
  | refused refused =>
    cases hout
    exact .refused refused
  | called call rest ihcall ihrest => exact .called call (ihrest f hout)
  | failed call ih =>
    cases hout
    exact .failed call

/-- A call yields what its script yields. -/
theorem of_script {s : Station} {r : Except Error Unit} (h : s.script.Yields (w.calling s) r w') :
    (call s).Yields w r w' := by
  cases r with
  | ok u => exact .called h (.done u w')
  | error e => exact .failed h

end Yields

end Script

end Quadlet
