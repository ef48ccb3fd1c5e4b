import Quadlet.Decimal.Layout
import Quadlet.Quadruple
import Quadlet.Text.Quoted

/-!
# Events

Recognising a program is told as a row of events, one for each point of the grammar at
which something is to be done. Precedence shows in where the ends of factors, terms
and expressions are told.

Embeds duckling's `Event`; `SPEC_FULL.md` §G.
-/

namespace Quadlet

/-- One point of the grammar. -/
inductive Event where
  | programStart (name : String)
  /-- A name in a list of variables. -/
  | varName (name : String)
  /-- The type that ends such a list. -/
  | varType (type : ValueType)
  | functionStart (name : String)
  | param (name : String) (type : ValueType)
  | functionBodyStart
  | functionEnd
  | mainStart
  | programEnd
  /-- The name left of an assignment sign. -/
  | assignTarget (name : String)
  | assignOperator
  /-- The end of the assigned expression. -/
  | assignValue
  /-- A name used as an operand. -/
  | identifier (name : String)
  | intLiteral (n : Int64)
  | floatLiteral (x : Float)
  | stringLiteral (s : String)
  | operator (op : Operator)
  | factorEnd
  | termEnd
  /-- The end of a whole expression. -/
  | relationalEnd
  | openParen
  | closeParen
  | unarySign (negative : Bool)
  /-- The end of the factor that a sign applies to. -/
  | unaryEnd
  | ifGuardEnd
  | elseBranch
  | ifEnd
  | loopStart
  | loopGuardEnd
  | callStart (name : String)
  | callOpen
  /-- The end of one argument. -/
  | argument
  | callEnd
  /-- The end of one printed item. -/
  | printItem
  deriving DecidableEq

namespace Event

/-- An event with one named field. -/
private def withField (event field value : String) : String :=
  event ++ " \x7b " ++ field ++ ": " ++ value ++ " \x7d"

/-- An event as messages show it. -/
def shown : Event → String
  | .programStart name => withField "ProgramStart" "name" (Text.quoted name)
  | .varName name => withField "VarName" "name" (Text.quoted name)
  | .varType type => withField "VarType" "ty" type.title
  | .functionStart name => withField "FunctionStart" "name" (Text.quoted name)
  | .param name type => withField "Param" "name" (Text.quoted name ++ ", ty: " ++ type.title)
  | .functionBodyStart => "FunctionBodyStart"
  | .functionEnd => "FunctionEnd"
  | .mainStart => "MainStart"
  | .programEnd => "ProgramEnd"
  | .assignTarget name => withField "AssignTarget" "name" (Text.quoted name)
  | .assignOperator => "AssignOperator"
  | .assignValue => "AssignValue"
  | .identifier name => withField "Identifier" "name" (Text.quoted name)
  | .intLiteral n => "IntLiteral(" ++ toString n.toInt ++ ")"
  | .floatLiteral x => "FloatLiteral(" ++ floatText x ++ ")"
  | .stringLiteral s => "StringLiteral(" ++ Text.quoted s ++ ")"
  | .operator op => "Operator(" ++ op.opcode.name ++ ")"
  | .factorEnd => "FactorEnd"
  | .termEnd => "TermEnd"
  | .relationalEnd => "RelationalEnd"
  | .openParen => "OpenParen"
  | .closeParen => "CloseParen"
  | .unarySign negative => withField "UnarySign" "negative" (if negative then "true" else "false")
  | .unaryEnd => "UnaryEnd"
  | .ifGuardEnd => "IfGuardEnd"
  | .elseBranch => "Else"
  | .ifEnd => "IfEnd"
  | .loopStart => "LoopStart"
  | .loopGuardEnd => "LoopGuardEnd"
  | .callStart name => withField "CallStart" "name" (Text.quoted name)
  | .callOpen => "CallOpen"
  | .argument => "Argument"
  | .callEnd => "CallEnd"
  | .printItem => "PrintItem"

end Event

end Quadlet
