import Quadlet.Decimal.Layout
import Quadlet.Segment
import Quadlet.Text.Quoted

/-!
# Literals

The constants that a program text may hold. Two literals are the same constant exactly if they have
the same type and the same text.

Embeds duckling's `Literal` and `Constant`; `SPEC_FULL.md` §3.
-/

namespace Quadlet

/-- A constant of a program text. -/
inductive Literal where
  | int (n : Int64)
  | float (x : Float)
  | string (s : String)
  deriving DecidableEq

namespace Literal

/-- The type of a literal. -/
def type : Literal → ValueType
  | .int _ => .int
  | .float _ => .float
  | .string _ => .string

/-- The text that tells literals of one type apart. -/
def key : Literal → String
  | .int n => toString n.toInt
  | .float x => floatText x
  | .string s => s

/-- A literal as listings show it: like its key, strings between quotes. -/
def shown : Literal → String
  | .string s => Text.quoted s
  | l => l.key

end Literal

/-- A literal and the address where it is stored. -/
structure Constant where
  address : Address
  literal : Literal
  deriving DecidableEq

end Quadlet
