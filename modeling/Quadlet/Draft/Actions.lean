import Quadlet.Event.Parser
import Quadlet.Draft.Basic

/-!
# What events do to a draft

Every event is an action on a draft. An operator waits until its right operand is complete and then
takes both operands, a forward jump is emitted without a target and patched when the target is
known, and the code of a function stands where its declaration stood, behind a jump at the start
that leads to the main part.

Embeds the actions of duckling's `TranslationContext` and `Translator.handle` and `finish`,
which dispatch to them; `SPEC_FULL.md` §4.3 (expressions), §4.5 (control flow), §4.6
(calls) and §G (events).
-/

namespace Quadlet.Drafting

/-! ## Declarations -/

/-- Starts the program with a jump over the functions, to be patched at the main part.
Duckling `program_start`. -/
def programStart (name : String) : Drafting Unit := do
  if (← get).directory.program.isSome then broken .startedTwice
  modify fun t => { t with directory := .ofProgram name, scopes := [.global] }
  let jump := (← get).code.size
  emit .goto unused unused unused
  pushJump jump

/-- Fails unless a type can be declared. Duckling `require_storable`. -/
def requireDeclarable (name : String) (type : ValueType) : Drafting Unit :=
  match type with
  | .int | .float => pure ()
  | _ => throw (.typing (.undeclarable name type))

/-- Declares a variable or parameter in a scope and gives it an address. -/
def declare (level : Level) (s : Segment) (kind : SymbolKind) (name : String) : Drafting Unit := do
  requireDeclarable name s.type
  if (← lift ((← get).directory.table level)).contains name then throw (.redeclared name)
  let a ← place fun p => p.assign s none
  updateDirectory fun d => d.declare level (.ofVariable name kind a)

/-- Keeps a name until its type is known. Duckling `var_name`. -/
def varName (name : String) : Drafting Unit :=
  modify fun t => { t with pendingNames := t.pendingNames ++ [name] }

/-- Declares the names that wait for their type, until one of them fails. Duckling `var_type`. -/
def varType (type : ValueType) : Drafting Unit := do
  let level ← currentLevel
  let lifetime : Lifetime :=
    match level with
    | .global => .global
    | .function _ => .call
  let names := (← get).pendingNames
  modify fun t => { t with pendingNames := [] }
  names.forM (declare level ⟨lifetime, type⟩ (.var type))

/-- Opens the scope of a function. Duckling `function_start`. -/
def functionStart (name : String) : Drafting Unit := do
  if (← get).scopes.length ≠ 1 then broken (.nestedFunction name)
  if (← get).directory.globals.contains name then throw (.redeclared name)
  let id ← place fun p => p.assign ⟨.global, .void⟩ none
  updateDirectory fun d => d.declare .global (.ofFunction name id)
  modify fun t =>
    { t with planner := t.planner.enter id, scopes := .function name :: t.scopes }

/-- Declares a parameter. Duckling `param`. -/
def param (name : String) (type : ValueType) : Drafting Unit := do
  match ← currentLevel with
  | .global => broken (.parameterOutside name)
  | .function f => declare (.function f) ⟨.call, type⟩ (.param type) name

/-- Notes where the body of a function starts. Duckling `function_body_start`. -/
def functionBodyStart : Drafting Unit := do
  match ← currentLevel with
  | .global => broken .bodyOutside
  | .function f =>
    let start := (← get).code.size
    updateDirectory fun d => d.modifyFunction f fun s => { s with start := some start }

/-- Closes the innermost scope, which has to be that of a function. Duckling `function_end`. -/
def functionEnd : Drafting Unit := do
  let level := (← get).scopes.head?
  modify fun t => { t with scopes := t.scopes.tail }
  match level with
  | some (.function _) =>
    emit .leave unused unused unused
    modify fun t => { t with planner := t.planner.leave }
  | _ => broken .endOutside

/-- Lets the jump at the start lead here. Duckling `main_start`. -/
def mainStart : Drafting Unit := do
  if (← get).scopes.length ≠ 1 then broken .mainInside
  let jump ← popJump
  if jump ≠ 0 ∨ (← get).jumps ≠ [] then broken .openJumps
  patchToHere jump

/-- Ends the program. Duckling `program_end`. -/
def programEnd : Drafting Unit := modify fun t => { t with ended := true }

/-! ## Expressions -/

/-- Pushes the variable or parameter of a name. Duckling `identifier`. -/
def identifier (name : String) : Drafting Unit := do
  let t ← get
  let s ← lift (t.directory.resolve t.scopes name)
  match s.kind.type?, s.address with
  | some type, some address => pushOperand ⟨address, type⟩
  | _, _ => throw (.typing (.notVariable name s.kind))

/-- Pushes a literal. Duckling `literal`. -/
def literal (l : Literal) : Drafting Unit := do
  let address ← place fun p => p.constant l
  pushOperand ⟨address, l.type⟩

/-- Lets a binary operator wait. Duckling `binary_operator`. -/
def operator (op : Operator) : Drafting Unit :=
  if op = .assign then broken .assignInExpression else pushOperator (.binary op)

/-- Emits a binary operator on two operands and pushes its result. Duckling `apply_binary`. -/
def apply (op : Operator) (left right : Operand) : Drafting Unit := do
  let type ← lift (Typing.result op left.type right.type)
  let result ← temporary type
  emit op.opcode left.address right.address result
  pushOperand ⟨result, type⟩

/-- Applies the operator on top if it belongs to the level that has ended. Duckling `apply_if`. -/
def levelEnd (level : Operator → Bool) : Drafting Unit := do
  match (← get).operators with
  | .binary op :: ops =>
    if level op then
      modify fun t => { t with operators := ops }
      let right ← popOperand
      let left ← popOperand
      apply op left right
  | _ => pure ()

/-- Takes the parenthesis that is closed. Duckling `close_paren`. -/
def closeParen : Drafting Unit := do
  match ← popOperator with
  | .paren => pure ()
  | found => broken (.closesOther found)

/-- Multiplies the operand on top by the literal that its sign stands for. Duckling `unary_end`. -/
def unaryEnd : Drafting Unit := do
  match ← popOperator with
  | .unary negative =>
    let operand ← popOperand
    let sign ← place fun p => p.constant (.int (if negative then -1 else 1))
    apply .mul operand ⟨sign, .int⟩
  | _ => broken .signMissing

/-- Assigns the operand on top to the one beneath it. Duckling `assign_value`. -/
def assignValue : Drafting Unit := do
  let value ← popOperand
  if (← popOperator) ≠ .assign then broken .assignMissing
  let target ← popOperand
  let _ ← lift (Typing.result .assign target.type value.type)
  emit .assign value.address unused target.address

/-- Prints the operand on top. Duckling `print_item`. -/
def printItem : Drafting Unit := do
  let item ← popOperand
  emit .print item.address unused unused

/-! ## Branches and loops -/

/-- Takes the guard of a construct, which has to be a `bool`. Duckling `pop_condition`. -/
def popGuard (construct : String) : Drafting Operand := do
  let guard ← popOperand
  if guard.type ≠ .bool then throw (.typing (.guard construct guard.type))
  return guard

/-- Skips the first branch if the guard is false. Duckling `if_guard_end`. -/
def ifGuardEnd : Drafting Unit := do
  let guard ← popGuard "if"
  let jump := (← get).code.size
  emit .gotoFalse guard.address unused unused
  pushJump jump

/-- Skips the second branch behind the first, and lets the guard's jump lead to the second.
Duckling `else_branch`. -/
def elseBranch : Drafting Unit := do
  let exit := (← get).code.size
  emit .goto unused unused unused
  patchToHere (← popJump)
  pushJump exit

/-- Lets the last open jump lead here. Duckling `if_end`. -/
def ifEnd : Drafting Unit := do
  patchToHere (← popJump)

/-- Notes where a loop starts. Duckling `loop_start`. -/
def loopStart : Drafting Unit := do
  pushJump (← get).code.size

/-- Goes back to the start of the loop if the guard is true. Duckling `loop_guard_end`. -/
def loopGuardEnd : Drafting Unit := do
  let guard ← popGuard "while"
  let head ← popJump
  emit .gotoTrue guard.address unused head

/-! ## Calls -/

/-- Lets a call wait for its arguments. Duckling `call_start`. -/
def callStart (name : String) : Drafting Unit := do
  let f ← lift ((← get).directory.function name)
  match f.address with
  | none => broken (.noIdentity name)
  | some id =>
    let call : PendingCall := ⟨name, id, Directory.parameterTypes f, []⟩
    modify fun t => { t with calls := call :: t.calls }

/-- Makes room for the variables of the called function. Duckling `call_open`. -/
def callOpen : Drafting Unit := do
  match (← get).calls with
  | call :: _ => emit .allocate call.function unused unused
  | [] => broken .callNotStarted

/-- Hands the operand on top to the call. Duckling `argument`. -/
def argument : Drafting Unit := do
  let value ← popOperand
  match (← get).calls with
  | call :: calls =>
    modify fun t =>
      { t with calls := { call with arguments := call.arguments ++ [value.type] } :: calls }
    emit .param value.address unused call.arguments.length
  | [] => broken .argumentOutside

/-- Fails unless the arguments have the types of the parameters; positions
count on from `position`. -/
def matchArguments (name : String) : Nat → List ValueType → List ValueType → Drafting Unit
  | position, expected :: parameters, found :: arguments =>
    if expected ≠ found then throw (.typing (.argument position name expected found))
    else matchArguments name (position + 1) parameters arguments
  | _, _, _ => pure ()

/-- Emits the call once its arguments have been checked. Duckling `call_end`. -/
def callEnd : Drafting Unit := do
  match (← get).calls with
  | [] => broken .callNotOpen
  | call :: calls =>
    modify fun t => { t with calls }
    if call.arguments.length ≠ call.parameters.length then
      throw (.typing (.arity call.name call.parameters.length call.arguments.length))
    matchArguments call.name 1 call.parameters call.arguments
    match (← lift ((← get).directory.function call.name)).start with
    | none => broken (.bodyMissing call.name)
    | some start => emit .call call.function unused start

/-! ## Events -/

/-- What an event of a program in progress does. -/
def perform : Event → Drafting Unit
  | .programStart name => programStart name
  | .varName name => varName name
  | .varType type => varType type
  | .functionStart name => functionStart name
  | .param name type => param name type
  | .functionBodyStart => functionBodyStart
  | .functionEnd => functionEnd
  | .mainStart => mainStart
  | .programEnd => programEnd
  | .assignTarget name => identifier name
  | .assignOperator => pushOperator .assign
  | .assignValue => assignValue
  | .identifier name => identifier name
  | .intLiteral n => literal (.int n)
  | .floatLiteral x => literal (.float x)
  | .stringLiteral s => literal (.string s)
  | .operator op => operator op
  | .factorEnd => levelEnd Operator.isMultiplicative
  | .termEnd => levelEnd Operator.isAdditive
  | .relationalEnd => levelEnd Operator.isRelational
  | .openParen => pushOperator .paren
  | .closeParen => closeParen
  | .unarySign negative => pushOperator (.unary negative)
  | .unaryEnd => unaryEnd
  | .ifGuardEnd => ifGuardEnd
  | .elseBranch => elseBranch
  | .ifEnd => ifEnd
  | .loopStart => loopStart
  | .loopGuardEnd => loopGuardEnd
  | .callStart name => callStart name
  | .callOpen => callOpen
  | .argument => argument
  | .callEnd => callEnd
  | .printItem => printItem

/-- Whether an event starts a program. -/
def isStart : Event → Bool
  | .programStart _ => true
  | _ => false

/-- Takes an event: none behind the end of the program, and none but its start before it.
Duckling `Translator.handle`. -/
def handle (e : Event) : Drafting Unit := do
  let t ← get
  if t.ended then broken (.afterEnd e)
  if t.directory.program.isNone && !isStart e then broken (.beforeStart e)
  perform e

/-- A draft takes events. -/
instance : EventSink Draft where
  accept := handle

end Quadlet.Drafting

namespace Quadlet.Draft

/-- The first stack that still holds something, in the order in which they are looked at.
Duckling `ensure_balanced`. -/
def leftover? (t : Draft) : Option (Stack × Nat) :=
  [(Stack.operand, t.operands.length), (.operator, t.operators.length), (.jump, t.jumps.length),
    (.call, t.calls.length), (.declaration, t.pendingNames.length)].find? fun s => 0 < s.2

/-- The compiled program, if it has ended and nothing is left open. Duckling `Translator.finish`. -/
def finish (t : Draft) : Except Error ObjectFile :=
  if !t.ended then .error (.protocol .notEnded)
  else
    match t.leftover? with
    | some (stack, depth) => .error (.protocol (.leftover stack depth))
    | none =>
      if 1 < t.scopes.length then .error (.protocol .scopeOpen)
      else if t.code.unresolved ≠ [] then .error (.protocol (.unresolved t.code.unresolved))
      else .ok ⟨t.planner.memoryMap, t.planner.constants.toList, t.code.quads⟩

end Quadlet.Draft

namespace Quadlet.ObjectFile

/-- The program that events make up; stops at the first event that fails. Duckling
`Translator.translate`. -/
def ofEvents (events : List Event) : Except Error ObjectFile :=
  match events.forM Drafting.handle Draft.empty with
  | .ok _ t => t.finish
  | .error e _ => .error e

end Quadlet.ObjectFile
