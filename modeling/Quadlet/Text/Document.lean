import Quadlet.Decimal.Layout
import Quadlet.Text.JsonString

/-!
# Documents

Nested data in the notation of JSON, one item a line and two blanks for each level. A number that is
infinite or none at all has no such notation and is written as `null`.

As for `JsonString`, the layout is that of the package `serde_json`; only `ObjectFile.data` uses it.
-/

namespace Quadlet.Text

/-- Nested data. -/
inductive Document where
  | integer (n : Int)
  | float (x : Float)
  | string (s : String)
  | list (items : List Document)
  | record (fields : List (String × Document))

namespace Document

/-- A double in a document. -/
def floatData (x : Float) : String :=
  if x.isFinite then Layout.data.finite x else "null"

/-- The blanks in front of a line. -/
def margin (level : Nat) : String := String.ofList (List.replicate (2 * level) ' ')

/-- The items of a list or record between its brackets. -/
def enclose (level : Nat) (left right : String) : List String → String
  | [] => left ++ right
  | items => left ++ "\n" ++ ",\n".intercalate items ++ "\n" ++ margin level ++ right

mutual

/-- The text of a document that starts at a level. -/
def render (level : Nat) : Document → String
  | .integer n => toString n
  | .float x => floatData x
  | .string s => JsonString.encode s
  | .list items => enclose level "[" "]" (renderItems (level + 1) items)
  | .record fields => enclose level "\x7b" "\x7d" (renderFields (level + 1) fields)

/-- The items of a list. -/
def renderItems (level : Nat) : List Document → List String
  | [] => []
  | d :: ds => (margin level ++ render level d) :: renderItems level ds

/-- The fields of a record. -/
def renderFields (level : Nat) : List (String × Document) → List String
  | [] => []
  | (name, d) :: fs =>
    (margin level ++ JsonString.encode name ++ ": " ++ render level d) :: renderFields level fs

end

end Document

end Quadlet.Text
