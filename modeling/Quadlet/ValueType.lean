/-!
# Value types

The types of the language: `int` and `float` can be declared, `bool` comes from comparisons,
`string` can only be printed, and `void` types the functions themselves.

Embeds duckling's `ValueType`; `SPEC_FULL.md` §3.
-/

namespace Quadlet

/-- The type of a cell, a literal or a value. -/
inductive ValueType where
  | void
  | int
  | float
  | bool
  | string
  deriving DecidableEq, Repr

namespace ValueType

/-- Every type. -/
def all : List ValueType := [.void, .int, .float, .bool, .string]

/-- The name of a type in source texts and messages. -/
def name : ValueType → String
  | .void => "void"
  | .int => "int"
  | .float => "float"
  | .bool => "bool"
  | .string => "string"

/-- The name of a type with a capital letter, for data and for descriptions of events. -/
def title : ValueType → String
  | .void => "Void"
  | .int => "Int"
  | .float => "Float"
  | .bool => "Bool"
  | .string => "String"

/-- The type of that name. -/
def ofName? (s : String) : Option ValueType := all.find? fun t => t.name = s

/-- A type is found under its own name. -/
theorem ofName?_name (t : ValueType) : ofName? t.name = some t := by
  cases t <;> decide

end ValueType

end Quadlet
