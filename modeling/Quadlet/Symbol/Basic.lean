import Quadlet.Segment

/-!
# Symbols

A symbol is a declared name with what it stands for. The symbol of a function owns a table of its
parameters and variables, so tables nest two deep.

Embeds duckling's `Symbol` and `SymbolKind`; `SPEC_FULL.md` §4.2.
-/

namespace Quadlet

/-- What a name stands for. -/
inductive SymbolKind where
  | var (type : ValueType)
  | param (type : ValueType)
  | program
  | function
  deriving DecidableEq, Repr

namespace SymbolKind

/-- The type of a variable or parameter. -/
def type? : SymbolKind → Option ValueType
  | .var t | .param t => some t
  | .program | .function => none

/-- The name of a kind in messages. -/
def name : SymbolKind → String
  | .var t => "var." ++ t.name
  | .param t => "param." ++ t.name
  | .program => "table.global"
  | .function => "table.local"

end SymbolKind

mutual

/-- A declared name. -/
structure Symbol where
  name : String
  kind : SymbolKind
  /-- The address of a variable, or the identity of a function. -/
  address : Option Address
  /-- The index of the first quadruple of a function's body. -/
  start : Option Nat
  /-- The names declared inside a function. -/
  table : Option SymbolTable

/-- Symbols in the order of their declaration, and where they stand. -/
structure SymbolTable where
  toList : List Symbol
  /-- The positions of the names. -/
  index : List (String × Nat)

end

namespace Symbol

/-- A variable or a parameter. -/
def ofVariable (name : String) (kind : SymbolKind) (address : Address) : Symbol :=
  ⟨name, kind, some address, none, none⟩

/-- A function in which nothing is declared yet. -/
def ofFunction (name : String) (id : Address) : Symbol :=
  ⟨name, .function, some id, none, some ⟨[], []⟩⟩

/-- The program itself. -/
def ofProgram (name : String) : Symbol := ⟨name, .program, none, none, none⟩

end Symbol

end Quadlet
