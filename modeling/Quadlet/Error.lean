import Quadlet.Event.Basic
import Quadlet.Literal
import Quadlet.Symbol.Basic
import Quadlet.Text.JsonString
import Quadlet.Token.Basic

/-!
# Errors

Everything that can go wrong, as causes. Each family of causes has one function for its wording, and
`Error.message` words them all.

Embeds duckling's `Error` with its wordings, those of its formatted causes included; `SPEC_FULL.md`
§7 and §B.
-/

namespace Quadlet

/-- Why a source text does not follow the grammar. -/
inductive GrammarFault where
  | unterminatedString
  | invalidFloat (text : String)
  | invalidInteger (text : String)
  /-- Something else was wanted than the token that stands there. -/
  | expected (wanted : String) (found : Token.Kind)
  /-- The tokens have no end marker, and the last of them opens an expression again and again. -/
  | endless
  deriving DecidableEq

/-- The wording of a grammar fault. -/
def GrammarFault.message : GrammarFault → String
  | .unterminatedString => "Unterminated string"
  | .invalidFloat text => "Invalid float: " ++ text
  | .invalidInteger text => "Invalid integer: " ++ text
  | .expected wanted found => "Expected " ++ wanted ++ ", found " ++ found.described
  | .endless => "Endless expression"

/-- How a type rule is broken. -/
inductive TypeFault where
  /-- The guard of a construct is no `bool`. -/
  | guard (construct : String) (found : ValueType)
  | notVariable (name : String) (kind : SymbolKind)
  /-- A variable or parameter may only be an `int` or a `float`. -/
  | undeclarable (name : String) (type : ValueType)
  | arity (name : String) (parameters arguments : Nat)
  /-- The argument at a position, counted from 1, has another type than the parameter. -/
  | argument (position : Nat) (name : String) (expected found : ValueType)
  deriving DecidableEq

/-- The wording of a broken type rule. -/
def TypeFault.message : TypeFault → String
  | .guard construct found => s!"{construct} guard must be bool, found {found.name}"
  | .notVariable name kind => s!"{name} is a {kind.name}, not a variable"
  | .undeclarable name type => s!"{name} cannot be declared as {type.name}"
  | .arity name parameters arguments =>
    s!"{name} expects {toString parameters} arguments, got {toString arguments}"
  | .argument position name expected found =>
    s!"argument {toString position} of {name} must be {expected.name}, found {found.name}"

/-- The stacks of unfinished constructs. -/
inductive Stack where
  | operand
  | operator
  | jump
  | call
  | declaration
  deriving DecidableEq, Repr

/-- The name of a stack in messages. -/
def Stack.name : Stack → String
  | .operand => "operand"
  | .operator => "operator"
  | .jump => "jump"
  | .call => "call"
  | .declaration => "declaration"

/-- An operator that waits for its right operand or its end. -/
inductive PendingOperator where
  | binary (op : Operator)
  | assign
  | paren
  | unary (negative : Bool)
  deriving DecidableEq, Repr

/-- A waiting operator as messages show it. -/
def PendingOperator.shown : PendingOperator → String
  | .binary op => "Binary(" ++ op.opcode.name ++ ")"
  | .assign => "Assign"
  | .paren => "Paren"
  | .unary negative => "Unary(" ++ (if negative then "true" else "false") ++ ")"

/-- Why a row of events or requests cannot be followed. -/
inductive ProtocolFault where
  | afterEnd (event : Event)
  | beforeStart (event : Event)
  | startedTwice
  | notEnded
  /-- A stack holds entries when the program ends. -/
  | leftover (stack : Stack) (depth : Nat)
  | scopeOpen
  | unresolved (jumps : List Nat)
  | noScope
  | underflow (stack : Stack)
  | assignInExpression
  | closesOther (found : PendingOperator)
  | signMissing
  | assignMissing
  | nestedFunction (name : String)
  | parameterOutside (name : String)
  | bodyOutside
  | endOutside
  | mainInside
  | openJumps
  | noIdentity (name : String)
  | noTable (name : String)
  | callNotStarted
  | argumentOutside
  | callNotOpen
  | bodyMissing (name : String)
  | noSegment (segment : Segment)
  | literalMissing (segment : Segment)
  | literalOfType (type : ValueType) (segment : Segment)
  | outsideFunction (segment : Segment)
  | exhausted (segment : Segment)
  | patchMissing (index : Nat)
  | patchOther (index : Nat) (op : Opcode)
  | patchTwice (index : Nat) (target : Address)
  deriving DecidableEq

/-- The wording of a broken protocol. -/
def ProtocolFault.message : ProtocolFault → String
  | .afterEnd event => event.shown ++ " after program end"
  | .beforeStart event => event.shown ++ " before program start"
  | .startedTwice => "program started twice"
  | .notEnded => "program was not ended"
  | .leftover stack depth => s!"{stack.name} stack holds {toString depth} entries at program end"
  | .scopeOpen => "function scope left open"
  | .unresolved jumps => "unresolved jumps at [" ++ ", ".intercalate (jumps.map toString) ++ "]"
  | .noScope => "no open scope"
  | .underflow stack => stack.name ++ " stack underflow"
  | .assignInExpression => "'=' is not an expression operator"
  | .closesOther found => "')' closes " ++ found.shown ++ " instead of a parenthesis"
  | .signMissing => "sign end without a sign"
  | .assignMissing => "assignment value without '='"
  | .nestedFunction name => s!"function {name} declared inside another function"
  | .parameterOutside name => s!"parameter {name} outside a function"
  | .bodyOutside => "function body outside a function"
  | .endOutside => "function end outside a function"
  | .mainInside => "main inside a function"
  | .openJumps => "open jumps before main"
  | .noIdentity name => s!"function {name} has no id"
  | .noTable name => s!"function {name} has no local table"
  | .callNotStarted => "call opened without a callee"
  | .argumentOutside => "argument outside a call"
  | .callNotOpen => "call closed without a callee"
  | .bodyMissing name => name ++ " called before its body"
  | .noSegment segment => s!"no segment {segment.name} in the layout"
  | .literalMissing segment => s!"constant segment {segment.name} needs a literal"
  | .literalOfType type segment => s!"{type.name} literal in segment {segment.name}"
  | .outsideFunction segment => segment.name ++ " address requested outside a function"
  | .exhausted segment => s!"segment {segment.name} exhausted ({toString Segment.size} cells)"
  | .patchMissing index => s!"backpatch of missing quadruple {toString index}"
  | .patchOther index op => s!"backpatch of non-jump quadruple {toString index} ({op.mnemonic})"
  | .patchTwice index target => s!"quadruple {toString index} already jumps to {toString target}"

/-- The fields of the persisted form that hold a number. -/
inductive Field where
  | functionId
  | cellCount
  | address
  | intLiteral
  | floatLiteral
  | opcode
  | operand
  | result
  deriving DecidableEq, Repr

/-- The name of a field in messages. -/
def Field.name : Field → String
  | .functionId => "function id"
  | .cellCount => "cell count"
  | .address => "address"
  | .intLiteral => "int literal"
  | .floatLiteral => "float literal"
  | .opcode => "opcode"
  | .operand => "operand"
  | .result => "result"

/-- Why a line of a persisted program cannot be read. -/
inductive FormatFault where
  | memoryLine
  | constantLine
  | quadrupleLine
  | trailing
  | sections (found : Nat)
  | field (field : Field) (text : String)
  | unknownSegment (name : String)
  | unknownOpcode (code : Int)
  | notConstant (address : Address)
  | string (fault : Text.JsonString.Fault)
  deriving DecidableEq

/-- The wording of a format fault. -/
def FormatFault.message : FormatFault → String
  | .memoryLine => "expected '<segment> <count>' or 'function <id> <ints> <floats>'"
  | .constantLine => "expected '<address>, <literal>'"
  | .quadrupleLine => "expected 4 fields"
  | .trailing => "content after final section"
  | .sections found => s!"expected 3 sections, found {toString found}"
  | .field kind text => s!"invalid {kind.name} '{text}'"
  | .unknownSegment name => s!"unknown segment '{name}'"
  | .unknownOpcode code => s!"unknown opcode {toString code}"
  | .notConstant address => s!"{toString address} is not a constant address"
  | .string fault => "invalid string literal: " ++ fault.message

/-- Why the machine cannot carry out a quadruple. -/
inductive MachineFault where
  | overflow (op : Opcode) (left right : Int64)
  | notBinary (op : Opcode)
  | outsideCells (offset size : Nat)
  | noStorage (segment : Segment)
  | noFrame (function : Address)
  | parameterUnframed
  | callUnframed
  | returnUnframed
  | localOutside
  | outsideSpace (address : Address)
  | noReturn
  | badParameter (position : Address)
  | badTarget (target : Address)
  deriving DecidableEq

/-- The wording of a machine fault. -/
def MachineFault.message : MachineFault → String
  | .overflow op left right =>
    s!"integer overflow in {toString left.toInt} {op.mnemonic} {toString right.toInt}"
  | .notBinary op => op.mnemonic ++ " is not a binary operator"
  | .outsideCells offset size =>
    s!"offset {toString offset} outside a {toString size}-cell segment"
  | .noStorage segment => s!"no storage for {segment.name}"
  | .noFrame function => s!"no frame descriptor for function {toString function}"
  | .parameterUnframed => "parameter without an allocated frame"
  | .callUnframed => "call without an allocated frame"
  | .returnUnframed => "return without an active frame"
  | .localOutside => "local address used outside a function"
  | .outsideSpace address => s!"address {toString address} is outside the address space"
  | .noReturn => "return with an empty call stack"
  | .badParameter position => s!"bad parameter position {toString position}"
  | .badTarget target => s!"jump to invalid target {toString target}"

/-- Everything that can go wrong. -/
inductive Error where
  | grammar (position : Position) (fault : GrammarFault)
  | illegal (position : Position) (character : Char)
  /-- The tokens end where more are needed. -/
  | truncated
  | redeclared (name : String)
  | undeclared (name : String)
  | typing (fault : TypeFault)
  /-- An operator has no meaning on a pair of types. -/
  | operation (op : Operator) (left right : ValueType)
  | malformed (line : Nat) (fault : FormatFault)
  /-- A value has none of the wanted types. -/
  | mismatch (wanted : List ValueType) (found : ValueType)
  | divisionByZero
  | unwritten (address : Address)
  | limit (steps : Nat)
  | machine (fault : MachineFault)
  | protocol (fault : ProtocolFault)
  /-- The sink refused the output. -/
  | output (reason : String)
  deriving DecidableEq

namespace Error

/-- The wording of an error. -/
def message : Error → String
  | .grammar p fault =>
    s!"Syntax error at line {toString p.line}, column {toString p.column}: {fault.message}"
  | .illegal p c =>
    s!"Illegal character '{toString c}' at line {toString p.line}, column {toString p.column}"
  | .truncated => "Unexpected end of file"
  | .redeclared name => s!"Symbol {name} is already declared"
  | .undeclared name => s!"Symbol {name} is undeclared"
  | .typing fault => "Invalid type: " ++ fault.message
  | .operation op left right =>
    s!"Invalid operation: {op.symbol} on types {left.name} and {right.name}"
  | .malformed line fault => s!"Malformed program at line {toString line}: {fault.message}"
  | .mismatch wanted found =>
    "Type error: expected " ++ " or ".intercalate (wanted.map ValueType.name) ++ ", got " ++
      found.name
  | .divisionByZero => "Division by zero"
  | .unwritten address => s!"Read of uninitialized address {toString address}"
  | .limit steps => s!"Execution limit exceeded (max: {toString steps} instructions)"
  | .machine fault => "Runtime error: " ++ fault.message
  | .protocol fault => "Compiler error: " ++ fault.message
  | .output reason => "I/O error: " ++ reason

/-- Whether a program was refused for its names or types. -/
def isSemantic : Error → Bool
  | .redeclared _ | .undeclared _ | .typing _ | .operation .. => true
  | _ => false

end Error

end Quadlet
