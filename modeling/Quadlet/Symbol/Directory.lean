import Quadlet.Symbol.Table

/-!
# The directory of a program

The directory holds the program's own symbol and the table of its variables and functions. A name is
resolved in the function that is being declared first and among the globals second.

Embeds duckling's `FunctionDirectory`; `SPEC_FULL.md` §4.2.
-/

namespace Quadlet

/-- One open scope: the program, or a function by its name. -/
inductive Level where
  | global
  | function (name : String)
  deriving DecidableEq, Repr

/-- The program's symbol and its table. Duckling `FunctionDirectory`. -/
structure Directory where
  program : Option Symbol
  globals : SymbolTable

namespace Directory

/-- The directory before a program has started. -/
def empty : Directory := ⟨none, .empty⟩

/-- The directory of a program in which nothing is declared yet. -/
def ofProgram (name : String) : Directory := ⟨some (.ofProgram name), .empty⟩

/-- The function of that name, if the name stands for a function. -/
def function? (d : Directory) (name : String) : Option Symbol :=
  (d.globals.find? name).filter fun s => s.kind == .function

/-- The function of that name; a variable of that name does not count. Duckling
`FunctionDirectory.function`. -/
def function (d : Directory) (name : String) : Except Error Symbol :=
  match d.function? name with
  | some s => .ok s
  | none => .error (.undeclared name)

/-- Changes the symbol of a function. -/
def modifyFunction (d : Directory) (name : String) (f : Symbol → Symbol) :
    Except Error Directory := do
  let _ ← d.function name
  return { d with globals := ← d.globals.modify name f }

/-- The table in which a scope declares its names. Duckling `FunctionDirectory.table_mut`. -/
def table (d : Directory) : Level → Except Error SymbolTable
  | .global => .ok d.globals
  | .function name => do
    match (← d.function name).table with
    | some t => return t
    | none => throw (.protocol (.noTable name))

/-- Puts a table in the place of the one in which a scope declares its names. -/
def setTable (d : Directory) (t : SymbolTable) : Level → Except Error Directory
  | .global => .ok { d with globals := t }
  | .function name => d.modifyFunction name fun s => { s with table := some t }

/-- Declares a symbol in a scope. -/
def declare (d : Directory) (level : Level) (s : Symbol) : Except Error Directory := do
  d.setTable (← (← d.table level).declare s) level

/-- The table that a scope is searched in; none if it has no table. -/
def table? (d : Directory) : Level → Option SymbolTable
  | .global => some d.globals
  | .function name => (d.function? name).bind Symbol.table

/-- The symbol of a name in the first of the scopes that declares it, innermost scope first. -/
def resolve? (d : Directory) (scopes : List Level) (name : String) : Option Symbol :=
  scopes.findSome? fun level => (d.table? level).bind fun t => t.find? name

/-- The symbol that a name stands for; fails if no scope declares it. Duckling
`FunctionDirectory.resolve`. -/
def resolve (d : Directory) (scopes : List Level) (name : String) : Except Error Symbol :=
  match d.resolve? scopes name with
  | some s => .ok s
  | none => .error (.undeclared name)

/-- The types of the parameters of a function symbol, in order. -/
def parameterTypes (f : Symbol) : List ValueType :=
  match f.table with
  | none => []
  | some t => t.toList.filterMap fun s =>
    match s.kind with
    | .param type => some type
    | _ => none

/-- The types of the parameters of a function, in order. Duckling `FunctionDirectory.parameters`. -/
def parameters (d : Directory) (name : String) : Except Error (List ValueType) :=
  (d.function name).map parameterTypes

end Directory

end Quadlet
