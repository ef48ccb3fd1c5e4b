import Quadlet.Proofs.Static.Declarations

/-!
# What names stand for in a directory

A directory that lists the variables of a program and some of its functions resolves names
as the scopes do: in the main part among the variables of the program, and in a function
among its own names first.
-/

namespace Quadlet

open Syntax Request Planner

/-- The symbols of the parameters and variables of a function. -/
def Syntax.Function.symbols (f : Function) : List Symbol :=
  (Variable.number .call [] f.parameters).map (Variable.symbol .param) ++
    (Variable.number .call f.parameters (Declaration.allEntries f.declarations)).map
      (Variable.symbol .var)

/-- The symbol of a routine. -/
def Routine.symbol (r : Routine) : Symbol :=
  ⟨r.function.name, .function, some r.id, some r.start, some (.ofList r.function.symbols)⟩

/-- A directory that lists variables of the program and routines. -/
structure Directory.Lists (d : Directory) (xs : List Parameter) (done : List Routine) : Prop where
  globals : d.globals =
    .ofList ((Variable.number .global [] xs).map (Variable.symbol .var) ++ done.map Routine.symbol)
  distinct : (xs.map Parameter.name ++ done.map fun r => r.function.name).Nodup

/-- Kinds that variables have. -/
def SymbolKind.Typed (kind : ValueType → SymbolKind) : Prop := ∀ τ, (kind τ).type? = some τ

private theorem typed_var : SymbolKind.Typed .var := fun _ => rfl

private theorem typed_param : SymbolKind.Typed .param := fun _ => rfl

/-- The symbols of variables are found as the variables are. -/
theorem find?_symbols (kind : ValueType → SymbolKind) (vs : List Variable) (x : String) :
    ((vs.map (Variable.symbol kind)).find? fun s => s.name == x) =
      (Scope.of vs x).map (Variable.symbol kind) := by
  rw [List.find?_map]
  rfl

private theorem Scope.of_append (vs ws : List Variable) (x : String) :
    Scope.of (vs ++ ws) x = (Scope.of vs x).or (Scope.of ws x) := List.find?_append

/-- The names of a function are found as its variables are. -/
theorem find?_function_symbols (f : Function) (x : String) :
    (Scope.of f.locals x = none ∧ (f.symbols.find? fun s => s.name == x) = none) ∨
      ∃ v kind, SymbolKind.Typed kind ∧ Scope.of f.locals x = some v ∧
        (f.symbols.find? fun s => s.name == x) = some (v.symbol kind) := by
  have hlocals : f.locals = Variable.number .call [] f.parameters ++
      Variable.number .call f.parameters (Declaration.allEntries f.declarations) := by
    rw [Function.locals, Function.names, Variable.number_append, List.nil_append]
  rw [hlocals, Scope.of_append, Function.symbols, List.find?_append, find?_symbols, find?_symbols]
  cases Scope.of (Variable.number .call [] f.parameters) x with
  | some v => exact .inr ⟨v, .param, typed_param, rfl, rfl⟩
  | none =>
    cases Scope.of (Variable.number .call f.parameters
      (Declaration.allEntries f.declarations)) x with
    | some v => exact .inr ⟨v, .var, typed_var, rfl, rfl⟩
    | none => exact .inl ⟨rfl, rfl⟩

/-- The parameters of a routine are those of its function. -/
theorem parameterTypes_routine (r : Routine) :
    Directory.parameterTypes r.symbol = r.function.types := by
  have hsymbols (g : Symbol → Option ValueType)
      (hparam : ∀ v : Variable, g (v.symbol .param) = some v.type.type)
      (hvar : ∀ v : Variable, g (v.symbol .var) = none) :
      r.function.symbols.filterMap g = r.function.types := by
    have hparameters (before xs : List Parameter) :
        ((Variable.number .call before xs).map (Variable.symbol .param)).filterMap g =
          xs.map fun x => x.type.type := by
      induction xs generalizing before with
      | nil => rfl
      | cons x xs ih => simp [Variable.number, hparam, ih]
    rw [Function.symbols, List.filterMap_append, hparameters]
    simp [hvar, Function.types]
  exact hsymbols _ (fun _ => rfl) (fun _ => rfl)

/-- The only element with a key is found under it. -/
theorem find?_of_nodup {α β : Type} [DecidableEq β] (key : α → β) {xs : List α} {x : α}
    (h : (xs.map key).Nodup) (hx : x ∈ xs) : (xs.find? fun y => key y == key x) = some x := by
  induction xs with
  | nil => cases hx
  | cons y xs ih =>
    rw [List.map_cons, List.nodup_cons] at h
    obtain rfl | hx := List.mem_cons.mp hx
    · simp
    · have hne : key y ≠ key x := fun hkey => h.1 (hkey ▸ List.mem_map_of_mem hx)
      rw [List.find?_cons, beq_eq_false_iff_ne.mpr hne]
      exact ih h.2 hx

namespace Directory.Lists

variable {d : Directory} {xs : List Parameter} {done : List Routine}

/-- The table of such a directory is in good order. -/
theorem ordered (h : d.Lists xs done) : d.globals = .ofList d.globals.toList := by
  rw [h.globals]
  rfl

/-- A name that is no variable of the program is searched among the routines. -/
theorem find?_eq (h : d.Lists xs done) (x : String) : d.globals.find? x =
    ((Scope.global xs x).map (Variable.symbol .var)).or
      ((done.map Routine.symbol).find? fun s => s.name == x) := by
  rw [h.globals, SymbolTable.find?_ofList, List.find?_append, find?_symbols]

/-- A routine is found under its name. -/
theorem find?_routine (h : d.Lists xs done) {r : Routine} (hr : r ∈ done) :
    d.globals.find? r.function.name = some r.symbol := by
  have hdistinct := List.nodup_append.mp h.distinct
  have hnone : Scope.global xs r.function.name = none := by
    rw [Scope.global, Scope.of, List.find?_eq_none]
    intro v hv hname
    have hmem : v.name ∈ xs.map Parameter.name := by
      rw [← Variable.map_name_number .global []]
      exact List.mem_map_of_mem hv
    exact hdistinct.2.2 v.name hmem r.function.name (List.mem_map_of_mem hr) (beq_iff_eq.mp hname)
  have hfind := find?_of_nodup (fun r : Routine => r.function.name) hdistinct.2.1 hr
  rw [h.find?_eq, hnone, List.find?_map]
  change Option.or none
    (Option.map _ (done.find? fun r' => r'.function.name == r.function.name)) = _
  rw [hfind]
  rfl

/-- A symbol that is found and is a function is one of the routines. -/
theorem routine_of_find? (h : d.Lists xs done) {x : String} {s : Symbol}
    (hs : d.globals.find? x = some s) (hkind : s.kind = .function) :
    ∃ r ∈ done, r.function.name = x ∧ s = r.symbol := by
  rw [h.find?_eq] at hs
  cases hx : Scope.global xs x with
  | some v =>
    rw [hx] at hs
    cases hs
    cases hkind
  | none =>
    rw [hx, Option.map_none, Option.none_or] at hs
    obtain ⟨r, hr, rfl⟩ := List.mem_map.mp (List.mem_of_find?_eq_some hs)
    have hname := List.find?_some hs
    exact ⟨r, hr, beq_iff_eq.mp hname, rfl⟩

/-- The routines are what can be called. -/
theorem calls (h : d.Lists xs done) (scopes : List Level) : (d.environment scopes).Calls done where
  known := by
    intro r hr
    have hfunction : d.function r.function.name = .ok r.symbol := by
      rw [Directory.function, Directory.function?, h.find?_routine hr]
      rfl
    change d.callee r.function.name = _
    rw [Directory.callee, hfunction, Except.ok_bind, parameterTypes_routine]
    rfl
  only := by
    intro f c hc
    obtain ⟨s, hs, -⟩ := Except.bind_eq_ok.mp hc
    rw [Directory.function, Directory.function?] at hs
    cases hfind : d.globals.find? f with
    | none =>
      rw [hfind] at hs
      cases hs
    | some u =>
      rw [hfind] at hs
      by_cases hkind : u.kind = .function
      · obtain ⟨r, hr, hname, -⟩ := h.routine_of_find? hfind hkind
        exact ⟨r, hr, hname⟩
      · rw [Option.filter_some, if_neg (by simpa using hkind)] at hs
        cases hs

/-- The symbol of a variable stands for the variable. -/
theorem operand_of_resolve? {scopes : List Level} {x : String} {v : Variable}
    {kind : ValueType → SymbolKind} (hkind : SymbolKind.Typed kind)
    (hx : d.resolve? scopes x = some (v.symbol kind)) : d.operand scopes x = .ok v.operand := by
  rw [Directory.operand, Directory.resolve, hx, Except.ok_bind]
  simp only [Variable.symbol, Symbol.ofVariable, hkind v.type.type]
  rfl

/-- A name that is found among the globals, and is no variable there, stands for no variable. -/
theorem not_operand (h : d.Lists xs done) {scopes : List Level} {x : String} {o : Operand}
    (hglobals : d.resolve? scopes x = d.globals.find? x)
    (hx : Scope.global xs x = none) : d.operand scopes x ≠ .ok o := by
  intro ho
  rw [Directory.operand, Directory.resolve, hglobals, h.find?_eq, hx, Option.map_none,
    Option.none_or] at ho
  cases hfind : (done.map Routine.symbol).find? fun s => s.name == x with
  | none =>
    rw [hfind] at ho
    cases ho
  | some s =>
    obtain ⟨r, -, rfl⟩ := List.mem_map.mp (List.mem_of_find?_eq_some hfind)
    rw [hfind] at ho
    cases ho

/-- The names of the main part. -/
theorem knows_main (h : d.Lists xs done) :
    (d.environment [.global]).Knows (.global xs) where
  some := by
    intro x v hv
    refine operand_of_resolve? typed_var ?_
    simp [Directory.resolve?, Directory.table?, h.find?_eq, hv]
  none := by
    intro x o hx
    refine h.not_operand ?_ hx
    simp [Directory.resolve?, Directory.table?]

/-- The names of a routine: its own names first. -/
theorem knows_routine (h : d.Lists xs done) {r : Routine} (hr : r ∈ done) :
    (d.environment [.function r.function.name, .global]).Knows
      (r.function.scope (.global xs)) := by
  have hresolve (x : String) : d.resolve? [.function r.function.name, .global] x =
      (r.function.symbols.find? fun s => s.name == x).or (d.globals.find? x) := by
    have htable : d.table? (.function r.function.name) = some (.ofList r.function.symbols) := by
      rw [Directory.table?, Directory.function?, h.find?_routine hr]
      rfl
    have hglobal : d.table? .global = some d.globals := rfl
    rw [Directory.resolve?, List.findSome?_cons, htable, List.findSome?_cons, hglobal]
    rw [Option.bind_some, Option.bind_some, SymbolTable.find?_ofList]
    cases r.function.symbols.find? fun s => s.name == x with
    | some s => rfl
    | none => cases d.globals.find? x <;> rfl
  constructor
  · intro x v hv
    rw [Function.scope] at hv
    obtain ⟨hnone, hfind⟩ | ⟨w, kind, hkind, hw, hfind⟩ := find?_function_symbols r.function x
    · rw [hnone, Option.none_or] at hv
      refine operand_of_resolve? typed_var ?_
      rw [hresolve, hfind, h.find?_eq, hv]
      rfl
    · rw [hw, Option.some_or] at hv
      cases hv
      refine operand_of_resolve? hkind ?_
      rw [hresolve, hfind, Option.some_or]
  · intro x o hx
    rw [Function.scope] at hx
    obtain ⟨hnone, hfind⟩ | ⟨w, kind, hkind, hw, hfind⟩ := find?_function_symbols r.function x
    · rw [hnone, Option.none_or] at hx
      refine h.not_operand ?_ hx
      rw [hresolve, hfind, Option.none_or]
    · rw [hw, Option.some_or] at hx
      cases hx

end Directory.Lists

end Quadlet
