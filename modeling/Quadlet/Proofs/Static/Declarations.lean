import Quadlet.Proofs.Static.Statements
import Quadlet.Proofs.Symbol.Table

/-!
# Which declarations are accepted

Names are declared one after the other, at the top of a program or inside the function that was
opened last. All of them are accepted exactly if no name comes twice and no type has too many of
them; the cells are then those of the numbered variables.
-/

namespace Quadlet

open Syntax Request Planner

namespace Syntax

/-- The symbol of a variable. -/
def Variable.symbol (kind : ValueType → SymbolKind) (v : Variable) : Symbol :=
  .ofVariable v.name (kind v.type.type) v.address

theorem Variable.number_append (lifetime : Lifetime) (before xs ys : List Parameter) :
    number lifetime before (xs ++ ys) = number lifetime before xs ++ number lifetime
      (before ++ xs) ys := by
  induction xs generalizing before with
  | nil => simp [number]
  | cons x xs ih => simp [number, ih]

theorem Variable.map_name_number (lifetime : Lifetime) (before xs : List Parameter) :
    (number lifetime before xs).map Variable.name = xs.map Parameter.name := by
  induction xs generalizing before with
  | nil => rfl
  | cons x xs ih => simp [number, ih]

/-- Names that can be declared together. -/
structure Declarable (xs : List Parameter) : Prop where
  distinct : (xs.map Parameter.name).Nodup
  fits : ∀ τ : Numeric, (xs.countP fun x => x.type = τ) ≤ Segment.size

theorem declarable_nil : Declarable [] := ⟨List.nodup_nil, fun _ => Nat.zero_le _⟩

/-- One more name can be declared if it is new and there is room for its type. -/
theorem declarable_concat {xs : List Parameter} {x : Parameter} :
    Declarable (xs ++ [x]) ↔ Declarable xs ∧ x.name ∉ xs.map Parameter.name ∧
      (xs.countP fun y => y.type = x.type) < Segment.size := by
  have hcount (τ : Numeric) : ((xs ++ [x]).countP fun y => y.type = τ) =
      (xs.countP fun y => y.type = τ) + if x.type = τ then 1 else 0 := by
    by_cases h : x.type = τ <;> simp [h]
  constructor
  · rintro ⟨hdistinct, hfits⟩
    rw [List.map_append, List.nodup_append] at hdistinct
    refine ⟨⟨hdistinct.1, fun τ => ?_⟩, fun hmem => ?_, ?_⟩
    · have hle := hfits τ
      rw [hcount] at hle
      omega
    · exact hdistinct.2.2 x.name hmem x.name (by simp) rfl
    · have hle := hfits x.type
      rw [hcount, if_pos rfl] at hle
      omega
  · rintro ⟨hxs, hfresh, hroom⟩
    refine ⟨?_, fun τ => ?_⟩
    · rw [List.map_append, List.nodup_append]
      refine ⟨hxs.distinct, by simp, fun a ha b hb hab => ?_⟩
      rw [List.map_singleton, List.mem_singleton] at hb
      exact hfresh (hb ▸ hab ▸ ha)
    · rw [hcount]
      have hle := hxs.fits τ
      by_cases h : x.type = τ
      · subst h
        rw [if_pos rfl]
        omega
      · rw [if_neg h]
        omega

theorem Declarable.of_append {xs ys : List Parameter} (h : Declarable (xs ++ ys)) :
    Declarable xs := by
  refine ⟨?_, fun τ => ?_⟩
  · have hdistinct := h.distinct
    rw [List.map_append, List.nodup_append] at hdistinct
    exact hdistinct.1
  · have hle := h.fits τ
    rw [List.countP_append] at hle
    omega

end Syntax

/-! ## Rows of declarations -/

/-- A place where names are declared, by what is known there of the names so far, of their symbols,
of the directory and of the planner. -/
structure Site (level : Level) (lifetime : Lifetime) (kind : ValueType → SymbolKind)
    (Known : List Parameter → List Symbol → Directory → Planner → Prop) : Prop where
  step : ∀ {before symbols d p x d' p'}, Known before symbols d p →
    declareOne level lifetime kind x d p = .ok (d', p') →
    Known (before ++ [x]) (symbols ++ (Variable.number lifetime before [x]).map
      (Variable.symbol kind)) d' p'
  accepts : ∀ {before symbols d p x}, Known before symbols d p → Declarable (before ++ [x]) →
    ∃ r, declareOne level lifetime kind x d p = .ok r

section

variable {level : Level} {lifetime : Lifetime} {kind : ValueType → SymbolKind}
  {Known : List Parameter → List Symbol → Directory → Planner → Prop}

/-- Names that are declared become the numbered variables. -/
theorem Site.steps (hsite : Site level lifetime kind Known) (xs : List Parameter)
    {before : List Parameter} {symbols : List Symbol} {d d' : Directory} {p p' : Planner}
    (hknown : Known before symbols d p) (h : declareAll level lifetime kind xs d p = .ok (d', p')) :
    Known (before ++ xs)
      (symbols ++ (Variable.number lifetime before xs).map (Variable.symbol kind)) d' p' := by
  induction xs generalizing before symbols d p with
  | nil =>
    cases h
    simpa [Variable.number] using hknown
  | cons x xs ih =>
    obtain ⟨⟨d₁, p₁⟩, hx, h⟩ := Except.bind_eq_ok.mp h
    have hrest := ih (hsite.step hknown hx) h
    rw [List.append_assoc, List.singleton_append, List.append_assoc, ← List.map_append,
      ← Variable.number_append, List.singleton_append] at hrest
    exact hrest

/-- Names that can be declared together are declared. -/
theorem Site.accepts_all (hsite : Site level lifetime kind Known) (xs : List Parameter)
    {before : List Parameter} {symbols : List Symbol} {d : Directory} {p : Planner}
    (hknown : Known before symbols d p) (hxs : Declarable (before ++ xs)) :
    ∃ d' p', declareAll level lifetime kind xs d p = .ok (d', p') := by
  induction xs generalizing before symbols d p with
  | nil => exact ⟨d, p, rfl⟩
  | cons x xs ih =>
    rw [← List.singleton_append, ← List.append_assoc] at hxs
    obtain ⟨⟨d₁, p₁⟩, hx⟩ := hsite.accepts hknown hxs.of_append
    obtain ⟨d', p', h⟩ := ih (hsite.step hknown hx) hxs
    exact ⟨d', p', by rw [declareAll, hx, Except.ok_bind, h]⟩

end

/-! ## The top of a program -/

/-- The variables of a program demand one cell each. -/
theorem demand_globalCells (xs : List Parameter) (τ : Numeric) :
    demand (globalCells xs) ⟨.global, τ.type⟩ = xs.countP fun x => x.type = τ := by
  have hliterals : literals (globalCells xs) = [] := by
    simp [literals, globalCells]
  have htype (x : Parameter) : x.type.type = τ.type ↔ x.type = τ := by
    cases x.type <;> cases τ <;> decide
  rw [demand, hliterals, globalCells, List.count_eq_countP, List.countP_map]
  refine congrArg (List.countP · xs) (funext fun x => ?_)
  simp [Bool.beq_eq_decide_eq, htype]

private theorem globalCells_concat (xs : List Parameter) (x : Parameter) :
    globalCells (xs ++ [x]) = globalCells xs ++ [Request.cell ⟨.global, x.type.type⟩] := by
  simp [globalCells]

/-- A symbol is declared among the globals exactly if its name is new there. -/
theorem Directory.declare_global {d d' : Directory} {symbols : List Symbol} {s : Symbol}
    (h : d.globals = .ofList symbols) : d.declare .global s = .ok d' ↔
      s.name ∉ symbols.map Symbol.name ∧ d' = { d with globals := .ofList (symbols ++ [s]) } := by
  rw [declare, table, Except.ok_bind, h]
  by_cases hfresh : s.name ∈ symbols.map Symbol.name
  · rw [SymbolTable.declare, (SymbolTable.contains_ofList symbols s.name).mpr hfresh]
    simp only [if_true, Except.error_bind, hfresh, not_true, false_and, reduceCtorEq]
  · rw [SymbolTable.declare_ofList hfresh, Except.ok_bind, setTable, Except.ok.injEq]
    simp only [hfresh, not_false_eq_true, true_and, eq_comm]

/-- What is known at the top of a program in which nothing but variables is declared. -/
structure AtTop (before : List Parameter) (symbols : List Symbol) (d : Directory) (p : Planner) :
    Prop where
  declarable : Declarable before
  globals : d.globals = .ofList symbols
  names : symbols.map Symbol.name = before.map Parameter.name
  served : Served (globalCells before) p
  kept : Kept empty p

theorem atTop_start (name : String) : AtTop [] [] (.ofProgram name) empty :=
  ⟨declarable_nil, rfl, rfl, served_empty, .refl _⟩

theorem base?_global (τ : Numeric) :
    Segment.base? ⟨.global, τ.type⟩ = some ((Segment.base? ⟨.global, τ.type⟩).getD 0) := by
  cases τ <;> rfl

/-- A name is new at the top exactly if it is none of those before. -/
theorem AtTop.contains {before : List Parameter} {symbols : List Symbol} {d : Directory}
    {p : Planner} (h : AtTop before symbols d p) (x : String) :
    d.globals.contains x = false ↔ x ∉ before.map Parameter.name := by
  rw [← h.names, h.globals, SymbolTable.contains_ofList_eq_false]

theorem site_atTop : Site .global .global .var AtTop where
  step := by
    intro before symbols d p x d' p' h hx
    obtain ⟨t, a, ht, hcontains, ha, hd'⟩ := declareOne_eq_ok.mp hx
    cases ht
    have hfresh := (h.contains x.name).mp hcontains
    obtain ⟨rfl, hserved, hkept⟩ := h.served.cell (.inl rfl) (base?_global x.type) ha
    obtain ⟨-, rfl⟩ := (Directory.declare_global h.globals).mp hd'
    rw [← globalCells_concat] at hserved
    have hdeclarable : Declarable (before ++ [x]) := by
      refine declarable_concat.mpr ⟨h.declarable, hfresh, ?_⟩
      have hle := hserved.fits ⟨.global, x.type.type⟩
      rw [demand_globalCells] at hle
      simp only [List.countP_append, List.countP_singleton, decide_true, if_true] at hle
      omega
    refine ⟨hdeclarable, ?_, ?_, hserved, h.kept.trans hkept⟩
    · rw [demand_globalCells]
      rfl
    · simp [h.names, Variable.number, Variable.symbol, Symbol.ofVariable]
  accepts := by
    intro before symbols d p x h hx
    obtain ⟨-, hfresh, hroom⟩ := declarable_concat.mp hx
    have hcontains := (h.contains x.name).mpr hfresh
    have hlt : p.count ⟨.global, x.type.type⟩ < Segment.size := by
      rw [h.served.count, demand_globalCells]
      exact hroom
    have hplace := (assign_of_owned (.inl rfl) (base?_global x.type)).trans
      (place_eq_ok.mpr ⟨hlt, rfl, rfl⟩)
    exact ⟨_, declareOne_eq_ok.mpr
      ⟨_, _, rfl, hcontains, hplace,
        (Directory.declare_global h.globals).mpr ⟨h.names ▸ hfresh, rfl⟩⟩⟩

/-! ## The inside of a function -/

section

variable {d : Directory} {outer symbols : List Symbol} {s : Symbol}

variable (h : d.globals = .ofList (outer ++ [s])) (hfresh : s.name ∉ outer.map Symbol.name)
  (hkind : s.kind = .function)

include h hfresh hkind

private theorem Directory.function?_last : d.function? s.name = some s := by
  rw [function?, h, SymbolTable.find?_append hfresh]
  simp [hkind]

theorem Directory.modifyFunction_last {f : Symbol → Symbol} (hf : (f s).name = s.name) :
    d.modifyFunction s.name f = .ok { d with globals := .ofList (outer ++ [f s]) } := by
  rw [modifyFunction, function, function?_last h hfresh hkind, Except.ok_bind, h,
    SymbolTable.modify_ofList hfresh hf]
  rfl

private theorem Directory.table_last {t : SymbolTable} (ht : s.table = some t) :
    d.table (.function s.name) = .ok t := by
  rw [table, function, function?_last h hfresh hkind, Except.ok_bind, ht]
  rfl

/-- A symbol with a new name is declared in the function that was opened last. -/
theorem Directory.declare_last (ht : s.table = some (.ofList symbols)) {x : Symbol}
    (hx : x.name ∉ symbols.map Symbol.name) :
    d.declare (.function s.name) x = .ok { d with
      globals := .ofList (outer ++ [{ s with table := some (.ofList (symbols ++ [x])) }]) } := by
  rw [declare, table_last h hfresh hkind ht, Except.ok_bind, SymbolTable.declare_ofList hx]
  exact modifyFunction_last h hfresh hkind rfl

end

/-- The cells of the calls of a function in which names are declared. -/
def FrameSize.ofNames (id : Address) (xs : List Parameter) : FrameSize :=
  ⟨id, xs.countP fun x => x.type = .int, xs.countP fun x => x.type = .float⟩

theorem frameCount_ofNames (id : Address) (xs : List Parameter) (τ : Numeric) :
    frameCount (.ofNames id xs) τ.type = xs.countP fun x => x.type = τ := by
  cases τ <;> rfl

private theorem frameCountOne_ofNames (id : Address) (xs : List Parameter) (x : Parameter) :
    frameCountOne (.ofNames id xs) x.type.type = .ofNames id (xs ++ [x]) := by
  cases h : x.type <;> simp [frameCountOne, FrameSize.ofNames, h, Numeric.type]

/-- A cell of a call is handed out in the function that was entered last. -/
theorem placeLocal_last {p : Planner} {frames : List FrameSize} {f : FrameSize}
    (hframes : p.frames = frames ++ [f]) (hcurrent : p.current = some f.function)
    (hfresh : f.function ∉ frames.map FrameSize.function) (s : Segment) (base : Address) :
    p.placeLocal s base = if frameCount f s.type < Segment.size then
      .ok (base + frameCount f s.type, { p with frames := frames ++ [frameCountOne f s.type] })
    else .error (.protocol (.exhausted s)) := by
  have hfind : (p.frames.find? fun g => g.function == f.function) = some f := by
    have hnone : (frames.find? fun g => g.function == f.function) = none := by
      rw [List.find?_eq_none]
      intro g hg hid
      exact hfresh (List.mem_map.mpr ⟨g, hg, beq_iff_eq.mp hid⟩)
    rw [hframes, List.find?_append, hnone]
    simp
  have hmap :
      (p.frames.map fun g => if g.function = f.function then frameCountOne g s.type else g) =
        frames ++ [frameCountOne f s.type] := by
    have hbefore :
        (frames.map fun g => if g.function = f.function then frameCountOne g s.type else g) =
          frames := by
      refine (List.map_congr_left fun g hg => if_neg fun hid => hfresh ?_).trans
        (List.map_id' frames)
      exact List.mem_map.mpr ⟨g, hg, hid⟩
    rw [hframes, List.map_append, hbefore]
    simp
  rw [placeLocal, hcurrent, Option.bind_some, hfind]
  simp only [hmap]

/-- What is known inside a function behind some of its declarations: the symbols and frames of what
was declared before it, its name and identity, and the cells asked for. -/
structure Inside (outer : List Symbol) (entered : List FrameSize) (name : String) (id : Address)
    (rs : List Request) (before : List Parameter) (symbols : List Symbol) (d : Directory)
    (p : Planner) : Prop where
  declarable : Declarable before
  globals :
    d.globals = .ofList (outer ++ [⟨name, .function, some id, none, some (.ofList symbols)⟩])
  fresh : name ∉ outer.map Symbol.name
  names : symbols.map Symbol.name = before.map Parameter.name
  served : Served rs p
  frames : p.frames = entered ++ [.ofNames id before]
  current : p.current = some id
  unknown : id ∉ entered.map FrameSize.function

section

variable {outer : List Symbol} {entered : List FrameSize} {name : String} {id : Address}
  {rs : List Request} {before : List Parameter} {symbols : List Symbol} {d : Directory}
  {p : Planner}

theorem Inside.table (h : Inside outer entered name id rs before symbols d p) :
    d.table (.function name) = .ok (.ofList symbols) :=
  Directory.table_last h.globals h.fresh rfl rfl

theorem Inside.contains (h : Inside outer entered name id rs before symbols d p) (x : String) :
    (SymbolTable.ofList symbols).contains x = false ↔ x ∉ before.map Parameter.name := by
  rw [← h.names, SymbolTable.contains_ofList_eq_false]

theorem Inside.assign (h : Inside outer entered name id rs before symbols d p) (x : Parameter) :
    p.assign ⟨.call, x.type.type⟩ none = if (before.countP fun y => y.type = x.type) <
      Segment.size then
      .ok ((Segment.base? ⟨.call, x.type.type⟩).getD 0 +
        (before.countP fun y => y.type = x.type : Nat),
        { p with frames := entered ++ [.ofNames id (before ++ [x])] })
    else .error (.protocol (.exhausted ⟨.call, x.type.type⟩)) := by
  have hbase : Segment.base? ⟨.call, x.type.type⟩ =
      some ((Segment.base? ⟨.call, x.type.type⟩).getD 0) := by
    cases x.type <;> rfl
  rw [Planner.assign, hbase, ← frameCountOne_ofNames, ← frameCount_ofNames id]
  exact placeLocal_last h.frames h.current h.unknown ⟨.call, x.type.type⟩ _

end

theorem site_inside {outer : List Symbol} {entered : List FrameSize} {name : String} {id : Address}
    {rs : List Request} (kind : ValueType → SymbolKind) :
    Site (.function name) .call kind (Inside outer entered name id rs) where
  step := by
    intro before symbols d p x d' p' h hx
    obtain ⟨t, a, ht, hcontains, ha, hd'⟩ := declareOne_eq_ok.mp hx
    obtain rfl : .ofList symbols = t := Except.ok.inj (h.table.symm.trans ht)
    have hfresh := (h.contains x.name).mp hcontains
    rw [h.assign] at ha
    by_cases hroom : (before.countP fun y => y.type = x.type) < Segment.size
    · rw [if_pos hroom] at ha
      cases ha
      rw [Directory.declare_last h.globals h.fresh rfl rfl (h.names ▸ hfresh)] at hd'
      cases hd'
      refine ⟨declarable_concat.mpr ⟨h.declarable, hfresh, hroom⟩, rfl, h.fresh, ?_, ?_,
        rfl, h.current, h.unknown⟩
      · simp [h.names, Variable.number, Variable.symbol, Symbol.ofVariable]
      · exact ⟨h.served.count, h.served.constants, h.served.fits, h.served.plain⟩
    · rw [if_neg hroom] at ha
      cases ha
  accepts := by
    intro before symbols d p x h hx
    obtain ⟨-, hfresh, hroom⟩ := declarable_concat.mp hx
    have hcontains := (h.contains x.name).mpr hfresh
    have ha := h.assign x
    rw [if_pos hroom] at ha
    exact ⟨_, declareOne_eq_ok.mpr ⟨_, _, h.table, hcontains, ha,
      Directory.declare_last h.globals h.fresh rfl rfl (h.names ▸ hfresh)⟩⟩

end Quadlet
