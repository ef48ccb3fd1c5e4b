import Quadlet.Proofs.Lowering.Derivation
import Quadlet.Proofs.Lowering.Draft

/-!
# Drafts carry out the lowering of whole programs

The events of a program make up exactly the object file of its lowering, and where there is none the
first event that fails has the lowering's error. In particular nothing is ever left on a stack of a
draft, and every jump has its target.
-/

namespace Quadlet

open Drafting Syntax

/-! ## The quadruples that are emitted -/

/-- What a quadruple of lowered code may look like. -/
inductive Emitted (env : Environment) : Quadruple → Prop
  | operation (op : Operator) (hop : op ≠ .assign) (left right : Address) {p p' : Planner}
    {type : ValueType} {a : Address} (h : p.assign ⟨.temporary, type⟩ none = .ok (a, p')) :
    Emitted env ⟨op.opcode, left, right, a⟩
  | assign (a : Address) {x : String} {target : Operand} (h : env.operand x = .ok target) :
    Emitted env ⟨.assign, a, unused, target.address⟩
  | print (a : Address) : Emitted env ⟨.print, a, unused, unused⟩
  | goto (target : Nat) : Emitted env ⟨.goto, unused, unused, target⟩
  | gotoFalse (a : Address) (target : Nat) : Emitted env ⟨.gotoFalse, a, unused, target⟩
  | gotoTrue (a : Address) (target : Nat) : Emitted env ⟨.gotoTrue, a, unused, target⟩
  | allocate (function : Address) : Emitted env ⟨.allocate, function, unused, unused⟩
  | param (a : Address) (position : Nat) : Emitted env ⟨.param, a, unused, position⟩
  | call (function : Address) (target : Nat) : Emitted env ⟨.call, function, unused, target⟩

/-- All quadruples of a row may be emitted. -/
abbrev AllEmitted (env : Environment) (qs : List Quadruple) : Prop := ∀ q ∈ qs, Emitted env q

private theorem AllEmitted.append {env : Environment} {qs rs : List Quadruple}
    (hq : AllEmitted env qs) (hr : AllEmitted env rs) : AllEmitted env (qs ++ rs) := by
  intro q hq'
  exact (List.mem_append.mp hq').elim (hq q) (hr q)

private theorem AllEmitted.cons {env : Environment} {q : Quadruple} {qs : List Quadruple}
    (hq : Emitted env q) (hqs : AllEmitted env qs) : AllEmitted env (q :: qs) := by
  intro q' hq'
  obtain rfl | hmem := List.mem_cons.mp hq'
  · exact hq
  · exact hqs q' hmem

private theorem AllEmitted.nil {env : Environment} : AllEmitted env [] := by
  intro q hq
  cases hq

/-- An operator puts one quadruple behind the code of its operands. -/
theorem emitted_operation {env : Environment} {p : Planner} {op : Operator} (hop : op ≠ .assign)
    {left right : Operand} {code : List Quadruple} {a : Computed} (hcode : AllEmitted env code)
    (h : p.operation op left right code = .ok a) : AllEmitted env a.code := by
  obtain ⟨type, -, h⟩ := Except.bind_eq_ok.mp h
  obtain ⟨r, hr, h⟩ := Except.bind_eq_ok.mp h
  cases h
  exact hcode.append (.cons (.operation op hop _ _ hr) .nil)

private theorem emitted_literal {env : Environment} {p : Planner} {l : Literal} {a : Computed}
    (h : p.literal l = .ok a) : AllEmitted env a.code := by
  obtain ⟨r, -, h⟩ := Except.bind_eq_ok.mp h
  cases h
  exact .nil

/-- Every quadruple of an expression's code may be emitted. -/
theorem emitted_tree {env : Environment} {r : Rank} (e : Tree r) {p : Planner} {a : Computed}
    (h : e.lower env p = .ok a) : AllEmitted env a.code := by
  induction e generalizing p a with
  | int n | float x => exact emitted_literal h
  | name x =>
    obtain ⟨o, -, h⟩ := Except.bind_eq_ok.mp h
    cases h
    exact .nil
  | group e ih | ofFactor e ih | ofTerm e ih | ofSum e ih => exact ih h
  | signed negative e ih =>
    obtain ⟨b, hb, h⟩ := Except.bind_eq_ok.mp h
    obtain ⟨c, hc, h⟩ := Except.bind_eq_ok.mp h
    exact emitted_operation (by decide) (ih hb) h
  | product l op hop r ihl ihr | addition l op hop r ihl ihr | comparison l op hop r ihl ihr =>
    obtain ⟨b, hb, h⟩ := Except.bind_eq_ok.mp h
    obtain ⟨c, hc, h⟩ := Except.bind_eq_ok.mp h
    have hassign : op ≠ .assign := by
      rintro rfl
      cases hop
    exact emitted_operation hassign ((ihl hb).append (ihr hc)) h

private theorem emitted_items {env : Environment} {is : List Item} {p : Planner} {l : Laid}
    (h : Item.Lowers env is p l) : AllEmitted env l.code := by
  induction h with
  | nil p => exact .nil
  | @cons i is p a l first more ih =>
    refine .append (.append ?_ (.cons (.print _) .nil)) ih
    cases i with
    | text s => exact emitted_literal first
    | value e => exact emitted_tree e first

private theorem emitted_arguments {env : Environment} {es : List Expression} {k : Nat}
    {p : Planner} {l : Laid} {types : List ValueType}
    (h : Tree.LowersArguments env k es p l types) : AllEmitted env l.code := by
  induction h with
  | nil k p => exact .nil
  | cons first more ih => exact (emitted_tree _ first).append (.cons (.param _ _) ih)

/-- Every quadruple of a statement's code may be emitted. -/
theorem emitted_phrase {env : Environment} {r : Role} {s : Phrase r} {start : Nat}
    {p : Planner} {l : Laid} (h : s.Lowers env start p l) : AllEmitted env l.code := by
  induction h with
  | assign name value type => exact (emitted_tree _ value).append (.cons (.assign _ name) .nil)
  | branch guard bool body ih => exact (emitted_tree _ guard).append (.cons (.gotoFalse _ _) ih)
  | choice guard bool body other ihb iho =>
    exact ((emitted_tree _ guard).append (.cons (.gotoFalse _ _) ihb)).append (.cons (.goto _) iho)
  | loop body guard bool ih =>
    exact (ih.append (emitted_tree _ guard)).append (.cons (.gotoTrue _ _) .nil)
  | call callee arguments count checked body =>
    exact AllEmitted.append (.cons (.allocate _) (emitted_arguments arguments))
      (.cons (.call _ _) .nil)
  | print items => exact emitted_items items
  | nil start p => exact .nil
  | cons first more ihfirst ihmore => exact ihfirst.append ihmore

/-- No jump is emitted without a target. -/
theorem Emitted.not_open {env : Environment} {q : Quadruple} (h : Emitted env q) :
    Code.isOpen q = false := by
  have htarget (n : Nat) : ((n : Address) == unused) = false := by
    simp [unused]
  cases h with
  | operation op => cases op <;> rfl
  | goto | gotoFalse | gotoTrue | call => simp [Code.isOpen, htarget]
  | _ => rfl

/-! ## Declarations -/

/-- A declaration keeps the program's own symbol. -/
theorem Directory.program_declare {d d' : Directory} {level : Level} {s : Symbol}
    (h : d.declare level s = .ok d') : d'.program = d.program := by
  obtain ⟨t, -, h⟩ := Except.bind_eq_ok.mp h
  obtain ⟨t', -, h⟩ := Except.bind_eq_ok.mp h
  cases level with
  | global =>
    cases h
    rfl
  | function f =>
    obtain ⟨s, -, h⟩ := Except.bind_eq_ok.mp h
    obtain ⟨g, -, h⟩ := Except.bind_eq_ok.mp h
    cases h
    rfl

section Declarations

variable {level : Level} {lifetime : Lifetime} {kind : ValueType → SymbolKind}

/-- What the declaration of a name has done. -/
theorem declareOne_eq_ok {x : Parameter} {d d' : Directory} {p p' : Planner} :
    declareOne level lifetime kind x d p = .ok (d', p') ↔
      ∃ t a, d.table level = .ok t ∧ t.contains x.name = false ∧
        p.assign ⟨lifetime, x.type.type⟩ none = .ok (a, p') ∧
        d.declare level (.ofVariable x.name (kind x.type.type) a) = .ok d' := by
  rw [declareOne, Except.bind_eq_ok]
  refine exists_congr fun t => ?_
  cases t.contains x.name with
  | true => simp
  | false =>
    simp only [Bool.false_eq_true, if_false, true_and]
    constructor
    · rintro ⟨hd, h⟩
      obtain ⟨⟨a, p₁⟩, ha, h⟩ := Except.bind_eq_ok.mp h
      obtain ⟨d₁, hd₁, h⟩ := Except.bind_eq_ok.mp h
      cases h
      exact ⟨a, hd, ha, hd₁⟩
    · rintro ⟨a, hd, ha, hd'⟩
      refine ⟨hd, ?_⟩
      simp [ha, hd']

/-- Declarations keep the program's own symbol. -/
theorem program_declareAll {xs : List Parameter} {d : Directory} {p : Planner}
    {r : Directory × Planner} (h : declareAll level lifetime kind xs d p = .ok r) :
    r.1.program = d.program := by
  induction xs generalizing d p with
  | nil =>
    cases h
    rfl
  | cons x xs ih =>
    obtain ⟨⟨d', p'⟩, hx, h⟩ := Except.bind_eq_ok.mp h
    obtain ⟨t, a, -, -, -, hd'⟩ := declareOne_eq_ok.mp hx
    rw [ih h, Directory.program_declare hd']

/-- Two rows of names are declared one after the other. -/
theorem declareAll_append (xs ys : List Parameter) (d : Directory) (p : Planner) :
    declareAll level lifetime kind (xs ++ ys) d p =
      declareAll level lifetime kind xs d p >>= fun r =>
        declareAll level lifetime kind ys r.1 r.2 := by
  induction xs generalizing d p with
  | nil => rfl
  | cons x xs ih =>
    simp only [List.cons_append, declareAll]
    cases declareOne level lifetime kind x d p with
    | error e => rfl
    | ok r => exact ih r.1 r.2

end Declarations

namespace Draft

/-- A draft with other names and cells. -/
def know (t : Draft) (r : Directory × Planner) : Draft :=
  { t with directory := r.1, planner := r.2 }

private theorem Running.know {t : Draft} (h : t.Running) {level : Level} {lifetime : Lifetime}
    {kind : ValueType → SymbolKind} {xs : List Parameter} {r : Directory × Planner}
    (hr : declareAll level lifetime kind xs t.directory t.planner = .ok r) :
    (t.know r).Running := by
  refine ⟨h.not_ended, ?_⟩
  change r.1.program ≠ none
  rw [program_declareAll hr]
  exact h.started

/-- One name is declared. -/
theorem settle_declare (level : Level) (lifetime : Lifetime) (kind : ValueType → SymbolKind)
    (x : Parameter) (t : Draft) :
    settle (declare level ⟨lifetime, x.type.type⟩ (kind x.type.type) x.name) t =
      declareOne level lifetime kind x t.directory t.planner >>= fun r => .ok ((), t.know r) := by
  have hdeclarable : requireDeclarable x.name x.type.type = pure () := by
    cases x.type <;> rfl
  simp only [declare, declareOne, hdeclarable, settle_bind, settle_pure, settle_get, settle_lift,
    Except.ok_bind]
  cases ht : t.directory.table level with
  | error e => rfl
  | ok table =>
    simp only [Except.ok_bind]
    cases table.contains x.name with
    | true => simp
    | false =>
      cases ha : t.planner.assign ⟨lifetime, x.type.type⟩ none with
      | error e => simp [ha]
      | ok r =>
        cases hd : t.directory.declare level (.ofVariable x.name (kind x.type.type) r.1) <;>
          simp [updateDirectory, ha, hd, know]

/-- Names of one type are declared one after the other. -/
theorem settle_declareNames (level : Level) (lifetime : Lifetime) (τ : Numeric) (xs : List String)
    (t : Draft) :
    settle (xs.forM (declare level ⟨lifetime, τ.type⟩ (.var τ.type))) t =
      declareAll level lifetime .var (xs.map fun x => ⟨x, τ⟩) t.directory t.planner >>= fun r =>
        .ok ((), t.know r) := by
  induction xs generalizing t with
  | nil => simp [declareAll, know]
  | cons x xs ih =>
    simp only [List.forM_eq_forM, List.forM_cons, settle_bind, List.map_cons, declareAll] at ih ⊢
    rw [settle_declare level lifetime .var ⟨x, τ⟩ t]
    cases declareOne level lifetime .var ⟨x, τ⟩ t.directory t.planner with
    | error e => rfl
    | ok r => exact ih (t.know r)

/-- The scope of the names that are declared in a draft, and how long their cells live. -/
inductive Declares : Draft → Level → Lifetime → Prop
  | global {t : Draft} {rest : List Level} (h : t.scopes = .global :: rest) :
    Declares t .global .global
  | function {t : Draft} {f : String} {rest : List Level} (h : t.scopes = .function f :: rest) :
    Declares t (.function f) .call

/-- The events of a list of variables. -/
theorem take_declaration {t : Draft} {level : Level} {lifetime : Lifetime} (ht : t.Running)
    (hpending : t.pendingNames = []) (hlevel : t.Declares level lifetime) (d : Declaration) :
    t.take d.events =
      declareAll level lifetime .var d.entries t.directory t.planner >>=
        fun r => .ok (t.know r) := by
  have hnames (xs ys : List String) :
      ({ t with pendingNames := ys } : Draft).take (xs.map .varName) =
        .ok { t with pendingNames := ys ++ xs } := by
    induction xs generalizing ys with
    | nil => simp
    | cons x xs ih =>
      have ht' : ({ t with pendingNames := ys } : Draft).Running := ⟨ht.not_ended, ht.started⟩
      have hx : ({ t with pendingNames := ys } : Draft).after (.varName x) =
          .ok { t with pendingNames := ys ++ [x] } := by
        simp [after, perform, varName]
      rw [List.map_cons, take_cons ht', hx, Except.ok_bind, ih, List.append_assoc,
        List.singleton_append]
  have hself : ({ t with pendingNames := [] } : Draft) = t := by
    rw [← hpending]
  have ht' : ({ t with pendingNames := d.names } : Draft).Running := ⟨ht.not_ended, ht.started⟩
  have htype : settle (varType d.type.type) { t with pendingNames := d.names } =
      settle (d.names.forM (declare level ⟨lifetime, d.type.type⟩ (.var d.type.type))) t := by
    have hlevel' : settle currentLevel { t with pendingNames := d.names } =
        .ok (level, { t with pendingNames := d.names }) := by
      cases hlevel with
      | global h | function h => simp [currentLevel, h]
    simp only [varType, settle_bind, hlevel', Except.ok_bind, settle_get, settle_modify, hself]
    cases hlevel <;> rfl
  have htake := hnames d.names []
  rw [hself, List.nil_append] at htake
  rw [Declaration.events, take_append, htake, Except.ok_bind, take_cons ht', after, perform, htype,
    settle_declareNames, Declaration.entries]
  cases declareAll level lifetime .var (d.names.map fun x => ⟨x, d.type⟩) t.directory t.planner <;>
    rfl

/-- The events of all variables of the program or of a function. -/
theorem take_declarations {t : Draft} {level : Level} {lifetime : Lifetime} (ht : t.Running)
    (hpending : t.pendingNames = []) (hlevel : t.Declares level lifetime) (ds : List Declaration) :
    t.take (ds.flatMap Declaration.events) =
      declareAll level lifetime .var (Declaration.allEntries ds) t.directory t.planner >>= fun r =>
        .ok (t.know r) := by
  induction ds generalizing t with
  | nil => simp [Declaration.allEntries, declareAll, know]
  | cons d ds ih =>
    rw [Declaration.allEntries, List.flatMap_cons, List.flatMap_cons, take_append,
      take_declaration ht hpending hlevel, declareAll_append]
    cases hr : declareAll level lifetime .var d.entries t.directory t.planner with
    | error e => rfl
    | ok r =>
      have hlevel' : (t.know r).Declares level lifetime := by
        cases hlevel with
        | global h => exact .global h
        | function h => exact .function h
      exact ih (ht.know hr) hpending hlevel'

/-- The events of the parameters of a function. -/
theorem take_parameters {t : Draft} {f : String} {rest : List Level} (ht : t.Running)
    (hscopes : t.scopes = .function f :: rest) (xs : List Parameter) :
    t.take (xs.map Parameter.event) =
      declareAll (.function f) .call .param xs t.directory t.planner >>=
        fun r => .ok (t.know r) := by
  induction xs generalizing t with
  | nil => simp [declareAll, know]
  | cons x xs ih =>
    have hparam : settle (param x.name x.type.type) t =
        settle (declare (.function f) ⟨.call, x.type.type⟩ (.param x.type.type) x.name) t := by
      simp [param, currentLevel, hscopes]
    rw [List.map_cons, take_cons ht, after, Parameter.event, perform, hparam,
      settle_declare, declareAll]
    cases hr : declareOne (.function f) .call .param x t.directory t.planner with
    | error e => rfl
    | ok r =>
      have hx : declareAll (.function f) .call .param [x] t.directory t.planner = .ok r := by
        simp [declareAll, hr]
      simp only [Except.ok_bind]
      rw [ih (ht.know hx) hscopes]
      rfl

/-! ## Functions and programs -/

/-- A draft between two functions: nothing is open but the program itself. -/
structure Between (t : Draft) : Prop extends t.Running where
  scopes : t.scopes = [.global]
  pending : t.pendingNames = []
  quiet : t.Quiet .whole

/-- A draft inside a function of which nothing but the header is known. -/
def opened (t : Draft) (f : String) (id : Address) (d : Directory) (p : Planner) : Draft :=
  { t with directory := d, planner := p.enter id, scopes := [.function f, .global] }

/-- The start of a function. -/
theorem after_functionStart {t : Draft} (ht : t.Between) (f : String) :
    t.after (.functionStart f) = (do
      if t.directory.globals.contains f then throw (.redeclared f)
      let r ← t.planner.assign ⟨.global, .void⟩ none
      let d ← t.directory.declare .global (.ofFunction f r.1)
      .ok (t.opened f r.1 d r.2)) := by
  simp only [after, perform, functionStart, settle_bind, settle_get, Except.ok_bind, ht.scopes,
    List.length_singleton, ne_eq, not_true_eq_false, if_false]
  cases t.directory.globals.contains f with
  | true => simp
  | false =>
    cases hid : t.planner.assign ⟨.global, .void⟩ none with
    | error e => simp [hid]
    | ok r =>
      cases hd : t.directory.declare .global (.ofFunction f r.1) <;>
        simp [hid, hd, updateDirectory, opened, ht.scopes]

/-- The end of a function. -/
theorem after_functionEnd {t : Draft} {f : String} {rest : List Level}
    (hscopes : t.scopes = .function f :: rest) :
    t.after .functionEnd = .ok { t with
      code := t.code.append [⟨.leave, unused, unused, unused⟩]
      planner := t.planner.leave
      scopes := rest } := by
  simp [after, perform, functionEnd, hscopes, emit, Code.push_eq_append]

/-- The start of the body of a function. -/
theorem after_functionBodyStart {t : Draft} {f : String} {rest : List Level}
    (hscopes : t.scopes = .function f :: rest) :
    t.after .functionBodyStart =
      t.directory.modifyFunction f (fun s => { s with start := some t.code.size }) >>= fun d =>
        .ok { t with directory := d } := by
  cases h : t.directory.modifyFunction f (fun s => { s with start := some t.code.size }) <;>
    simp [after, perform, functionBodyStart, currentLevel, hscopes, updateDirectory, h]

/-- A change of a function keeps the program's own symbol. -/
theorem program_modifyFunction {d d' : Directory} {f : String} {g : Symbol → Symbol}
    (h : d.modifyFunction f g = .ok d') : d'.program = d.program := by
  obtain ⟨s, -, h⟩ := Except.bind_eq_ok.mp h
  obtain ⟨t, -, h⟩ := Except.bind_eq_ok.mp h
  cases h
  rfl

/-- A draft with the code of a function behind its own and the function in its directory. -/
def grow (t : Draft) (r : Laid × Directory) : Draft :=
  { t with directory := r.2, planner := r.1.planner, code := t.code.append r.1.code }

/-- The events of the body of a function, up to the function's end. -/
theorem take_body {t : Draft} {f : String} (ht : t.Running)
    (hscopes : t.scopes = [.function f, .global]) (hquiet : t.Quiet .whole) (b : Block) :
    t.take (.functionBodyStart :: b.events ++ [.functionEnd]) = (do
      let d ← t.directory.modifyFunction f fun s => { s with start := some t.code.size }
      let body ← b.lower (d.environment [.function f, .global]) t.code.size t.planner
      .ok { t with
        directory := d
        code := t.code.append (body.code ++ [⟨.leave, unused, unused, unused⟩])
        planner := body.planner.leave
        scopes := [.global] }) := by
  rw [List.cons_append, take_cons ht, after_functionBodyStart hscopes]
  cases hd : t.directory.modifyFunction f fun s => { s with start := some t.code.size } with
  | error e => rfl
  | ok d =>
    have ht' : ({ t with directory := d } : Draft).Running := by
      refine ⟨ht.not_ended, ?_⟩
      change d.program ≠ none
      rw [program_modifyFunction hd]
      exact ht.started
    have henv : ({ t with directory := d } : Draft).environment =
        d.environment [.function f, .global] := by
      rw [environment, hscopes]
    simp only [Except.ok_bind]
    rw [take_append, lays b _ ht' hquiet, henv]
    cases b.lower (d.environment [.function f, .global]) t.code.size t.planner with
    | error e => rfl
    | ok body =>
      simp only [Except.ok_bind]
      have hend := after_functionEnd (t := ({ t with directory := d } : Draft).lay body) hscopes
      rw [take_cons (ht'.lay body), hend]
      simp [lay, Code.append_append]

/-- The events of a function. -/
theorem take_function {t : Draft} (ht : t.Between) (f : Function) :
    t.take f.events = f.lower t.code.size t.directory t.planner >>= fun r => .ok (t.grow r) := by
  rw [Function.events, List.append_assoc, List.append_assoc, List.cons_append,
    take_cons ht.toRunning, after_functionStart ht, Function.lower]
  cases t.directory.globals.contains f.name with
  | true => rfl
  | false =>
    simp only [Bool.false_eq_true, if_false]
    cases t.planner.assign ⟨.global, .void⟩ none with
    | error e => rfl
    | ok r =>
      simp only [Except.ok_bind]
      cases hd : t.directory.declare .global (.ofFunction f.name r.1) with
      | error e => rfl
      | ok d =>
        have ht₁ : (t.opened f.name r.1 d r.2).Running := by
          refine ⟨ht.not_ended, ?_⟩
          change d.program ≠ none
          rw [Directory.program_declare hd]
          exact ht.started
        simp only [Except.ok_bind]
        rw [take_append, take_parameters ht₁ rfl]
        change (declareAll _ _ _ f.parameters d (r.2.enter r.1) >>= _) >>= _ =
          (declareAll _ _ _ f.parameters d (r.2.enter r.1) >>= _) >>= _
        cases hp : declareAll (.function f.name) .call .param f.parameters d (r.2.enter r.1) with
        | error e => rfl
        | ok r₁ =>
          have ht₂ := ht₁.know hp
          simp only [Except.ok_bind]
          rw [take_append, take_declarations ht₂ ht.pending (.function rfl)]
          change (declareAll _ _ _ _ r₁.1 r₁.2 >>= _) >>= _ =
            (declareAll _ _ _ _ r₁.1 r₁.2 >>= _) >>= _
          cases hl :
              declareAll (.function f.name) .call .var (Declaration.allEntries f.declarations)
                r₁.1 r₁.2 with
          | error e => rfl
          | ok r₂ =>
            have ht₃ := ht₂.know hl
            simp only [Except.ok_bind]
            rw [take_body ht₃ rfl ht.quiet]
            change (r₂.1.modifyFunction f.name (fun s => { s with start := some t.code.size }) >>=
              _) = _
            cases r₂.1.modifyFunction f.name fun s => { s with start := some t.code.size } with
            | error e => rfl
            | ok d₃ =>
              simp only [Except.ok_bind]
              change (f.body.lower _ t.code.size r₂.2 >>= _) =
                (f.body.lower _ t.code.size r₂.2 >>= _) >>= _
              cases f.body.lower (d₃.environment [.function f.name, .global]) t.code.size r₂.2 with
              | error e => rfl
              | ok body => simp [grow, know, opened, ht.scopes]

/-- What a function that is lowered has passed through. -/
theorem lower_function_eq_ok {f : Function} {start : Nat} {d : Directory} {p : Planner}
    {r : Laid × Directory} (h : f.lower start d p = .ok r) :
    d.globals.contains f.name = false ∧ ∃ id p₀ d₁ d₂ p₂ d₃ p₃ d₄ body,
      p.assign ⟨.global, .void⟩ none = .ok (id, p₀) ∧
      d.declare .global (.ofFunction f.name id) = .ok d₁ ∧
      declareAll (.function f.name) .call .param f.parameters d₁ (p₀.enter id) = .ok (d₂, p₂) ∧
      declareAll (.function f.name) .call .var (Declaration.allEntries f.declarations) d₂ p₂ =
        .ok (d₃, p₃) ∧
      d₃.modifyFunction f.name (fun s => { s with start := some start }) = .ok d₄ ∧
      f.body.lower (d₄.environment [.function f.name, .global]) start p₃ = .ok body ∧
      r = (⟨body.code ++ [⟨.leave, unused, unused, unused⟩], body.planner.leave⟩, d₄) := by
  rw [Function.lower] at h
  cases hc : d.globals.contains f.name with
  | true => simp [hc] at h
  | false =>
    simp only [hc, Bool.false_eq_true, if_false] at h
    obtain ⟨⟨id, p₀⟩, hid, h⟩ := Except.bind_eq_ok.mp h
    obtain ⟨d₁, hd₁, h⟩ := Except.bind_eq_ok.mp h
    obtain ⟨⟨d₂, p₂⟩, hd₂, h⟩ := Except.bind_eq_ok.mp h
    obtain ⟨⟨d₃, p₃⟩, hd₃, h⟩ := Except.bind_eq_ok.mp h
    obtain ⟨d₄, hd₄, h⟩ := Except.bind_eq_ok.mp h
    obtain ⟨body, hbody, h⟩ := Except.bind_eq_ok.mp h
    cases h
    exact ⟨rfl, id, p₀, d₁, d₂, p₂, d₃, p₃, d₄, body, hid, hd₁, hd₂, hd₃, hd₄, hbody, rfl⟩

/-- A function keeps the program's own symbol. -/
theorem program_lower {f : Function} {start : Nat} {d : Directory} {p : Planner}
    {r : Laid × Directory} (h : f.lower start d p = .ok r) : r.2.program = d.program := by
  obtain ⟨-, id, p₀, d₁, d₂, p₂, d₃, p₃, d₄, body, -, hd₁, hd₂, hd₃, hd₄, -, rfl⟩ :=
    lower_function_eq_ok h
  have h₂ : d₂.program = d₁.program := program_declareAll hd₂
  have h₃ : d₃.program = d₂.program := program_declareAll hd₃
  rw [program_modifyFunction hd₄, h₃, h₂, Directory.program_declare hd₁]

/-- The events of functions that stand one behind the other. -/
theorem take_functions {t : Draft} (ht : t.Between) (fs : List Function) :
    t.take (fs.flatMap Function.events) =
      Function.lowerAll fs t.code.size t.directory t.planner >>= fun r => .ok (t.grow r) := by
  induction fs generalizing t with
  | nil => simp [Function.lowerAll, grow]
  | cons f fs ih =>
    rw [List.flatMap_cons, take_append, take_function ht, Function.lowerAll]
    cases hr : f.lower t.code.size t.directory t.planner with
    | error e => rfl
    | ok r =>
      have ht' : (t.grow r).Between := by
        refine ⟨⟨ht.not_ended, ?_⟩, ht.scopes, ht.pending, ht.quiet⟩
        change r.2.program ≠ none
        rw [program_lower hr]
        exact ht.started
      have hsize : (t.grow r).code.size = t.code.size + r.1.code.length := Code.size_append ..
      simp only [Except.ok_bind]
      rw [ih ht', hsize]
      change Function.lowerAll fs _ r.2 r.1.planner >>= _ =
        (Function.lowerAll fs _ r.2 r.1.planner >>= _) >>= _
      cases Function.lowerAll fs (t.code.size + r.1.code.length) r.2 r.1.planner with
      | error e => rfl
      | ok s => simp [grow, Code.append_append]

/-- The draft of a program of which nothing but its name is known. -/
def started (name : String) : Draft :=
  { empty with
    directory := .ofProgram name
    code := Code.empty.append [⟨.goto, unused, unused, unused⟩]
    scopes := [.global]
    jumps := [0] }

/-- The start of a program. -/
theorem take_programStart (name : String) (es : List Event) :
    empty.take (.programStart name :: es) = (started name).take es := by
  have hhandle : settle (handle (.programStart name)) empty = .ok ((), started name) := rfl
  simp only [take, List.forM_eq_forM, List.forM_cons, settle_bind, hhandle, Except.ok_bind]

private theorem between_started (name : String) : (started name).Between :=
  ⟨⟨rfl, by simp [started, Directory.ofProgram]⟩, rfl, rfl, by simp [Quiet, started, empty]⟩

/-- The start of the main part leads the first jump there. -/
theorem after_mainStart {t : Draft} {qs : List Quadruple} (hscopes : t.scopes = [.global])
    (hjumps : t.jumps = [0])
    (hcode : t.code = Code.empty.append (⟨.goto, unused, unused, unused⟩ :: qs)) :
    t.after .mainStart = .ok { t with
      code := Code.empty.append (⟨.goto, unused, unused, (1 + qs.length : Nat)⟩ :: qs)
      jumps := [] } := by
  have hsize : (Code.empty.append (⟨.goto, unused, unused, unused⟩ :: qs)).size =
      1 + qs.length := by
    simp [Code.size, Code.empty, Code.append]
    omega
  have hpatch : t.code.patch 0 t.code.size =
      .ok (Code.empty.append (⟨.goto, unused, unused, (1 + qs.length : Nat)⟩ :: qs)) := by
    rw [hcode, hsize]
    exact Code.patch_append (c := Code.empty) rfl rfl qs _
  simp only [after, perform, mainStart, settle_bind, settle_get, Except.ok_bind, hscopes,
    List.length_singleton, ne_eq, not_true_eq_false, if_false, popJump, hjumps, settle_modify,
    settle_pure, or_self, patchToHere, settle_lift, hpatch]

/-- The end of a program. -/
theorem after_programEnd (t : Draft) : t.after .programEnd = .ok { t with ended := true } := rfl

/-- A draft with nothing open is finished. -/
theorem finish_eq_ok {t : Draft} {qs : List Quadruple} (hended : t.ended = true)
    (hscopes : t.scopes = [.global]) (hpending : t.pendingNames = []) (hjumps : t.jumps = [])
    (hoperators : t.operators = []) (hoperands : t.operands = []) (hcalls : t.calls = [])
    (hcode : t.code = Code.empty.append qs) (hqs : ∀ q ∈ qs, Code.isOpen q = false) :
    t.finish = .ok ⟨t.planner.memoryMap, t.planner.constants.toList, qs.toArray⟩ := by
  have hresolved : (Code.empty.append qs).unresolved = [] := by
    rw [Code.unresolved, List.filter_eq_nil_iff]
    intro i _
    cases hq : (Code.empty.append qs).quads[i]? with
    | none => simp
    | some q =>
      have hmem : q ∈ qs := by
        have := Array.mem_of_getElem? hq
        simpa [Code.append, Code.empty] using this
      simp [hqs q hmem]
  simp [finish, leftover?, hended, hscopes, hpending, hjumps, hoperators, hoperands, hcalls, hcode,
    hresolved]
  simp [Code.append, Code.empty]

/-- Every quadruple of functions may be emitted, or leaves a function. -/
theorem emitted_functions {fs : List Function} {start : Nat} {d : Directory} {p : Planner}
    {r : Laid × Directory} (h : Function.lowerAll fs start d p = .ok r) :
    ∀ q ∈ r.1.code, (∃ env, Emitted env q) ∨ q = ⟨.leave, unused, unused, unused⟩ := by
  induction fs generalizing start d p r with
  | nil =>
    cases h
    intro q hq
    cases hq
  | cons f fs ih =>
    obtain ⟨⟨a, d'⟩, ha, h⟩ := Except.bind_eq_ok.mp h
    obtain ⟨⟨b, d''⟩, hb, h⟩ := Except.bind_eq_ok.mp h
    cases h
    obtain ⟨-, id, p₀, d₁, d₂, p₂, d₃, p₃, d₄, body, -, -, -, -, -, hbody, hr⟩ :=
      lower_function_eq_ok ha
    cases hr
    intro q hq
    obtain hq | hq := List.mem_append.mp hq
    · obtain hq | hq := List.mem_append.mp hq
      · exact .inl ⟨_, emitted_phrase (Phrase.lowers_of_lower hbody) q hq⟩
      · exact .inr (List.mem_singleton.mp hq)
    · exact ih hb q hq

/-- The code of functions has no open jumps. -/
theorem not_open_functions {fs : List Function} {start : Nat} {d : Directory} {p : Planner}
    {r : Laid × Directory} (h : Function.lowerAll fs start d p = .ok r) :
    ∀ q ∈ r.1.code, Code.isOpen q = false := by
  intro q hq
  obtain ⟨env, hemitted⟩ | rfl := emitted_functions h q hq
  · exact hemitted.not_open
  · rfl

/-- Functions keep the program's own symbol. -/
theorem program_lowerAll {fs : List Function} {start : Nat} {d : Directory} {p : Planner}
    {r : Laid × Directory} (h : Function.lowerAll fs start d p = .ok r) :
    r.2.program = d.program := by
  induction fs generalizing start d p r with
  | nil =>
    cases h
    rfl
  | cons f fs ih =>
    obtain ⟨⟨a, d'⟩, ha, h⟩ := Except.bind_eq_ok.mp h
    obtain ⟨⟨b, d''⟩, hb, h⟩ := Except.bind_eq_ok.mp h
    cases h
    have h₁ : d''.program = d'.program := ih hb
    have h₂ : d'.program = d.program := program_lower ha
    rw [h₁, h₂]

/-- The draft at the start of the main part, with the jump there. -/
def entered (t : Draft) (bodies : List Quadruple) : Draft :=
  { t with
    code := Code.empty.append (⟨.goto, unused, unused, (1 + bodies.length : Nat)⟩ :: bodies)
    jumps := [] }

/-- The events of the main part, up to the draft that is finished. -/
theorem take_main {t : Draft} (ht : t.Between) (hjumps : t.jumps = [0]) {bodies : List Quadruple}
    (hcode : t.code = Code.empty.append (⟨.goto, unused, unused, unused⟩ :: bodies))
    (hbodies : ∀ q ∈ bodies, Code.isOpen q = false) (hoperators : t.operators = [])
    (hoperands : t.operands = []) (hcalls : t.calls = []) (b : Block) :
    t.take (.mainStart :: b.events ++ [.programEnd]) >>= finish =
      b.lower (t.directory.environment [.global]) (1 + bodies.length) t.planner >>= fun main =>
        .ok ⟨main.planner.memoryMap, main.planner.constants.toList,
          (⟨.goto, unused, unused, (1 + bodies.length : Nat)⟩ :: bodies ++ main.code).toArray⟩ := by
  have ht₁ : (t.entered bodies).Running := ⟨ht.not_ended, ht.started⟩
  have hstart : t.after .mainStart = .ok (t.entered bodies) :=
    after_mainStart ht.scopes hjumps hcode
  have hsize : (t.entered bodies).code.size = 1 + bodies.length := by
    simp [entered, Code.empty, Code.size, Code.append]
    omega
  have henv : (t.entered bodies).environment = t.directory.environment [.global] := by
    rw [environment, entered, ht.scopes]
  rw [List.cons_append, take_cons ht.toRunning, hstart, Except.ok_bind, take_append,
    lays b _ ht₁ ht.quiet, hsize, henv]
  change (b.lower _ _ t.planner >>= _) >>= _ >>= _ = _
  cases hb : b.lower (t.directory.environment [.global]) (1 + bodies.length) t.planner with
  | error e => rfl
  | ok main =>
    simp only [Except.ok_bind]
    rw [take_cons (ht₁.lay main), after_programEnd, Except.ok_bind, take_nil, Except.ok_bind]
    apply finish_eq_ok
    · rfl
    · exact ht.scopes
    · exact ht.pending
    · rfl
    · exact hoperators
    · exact hoperands
    · exact hcalls
    · exact Code.append_append _ _ main.code
    intro q hq
    obtain hq | hq := List.mem_append.mp hq
    · obtain rfl | hq := List.mem_cons.mp hq
      · exact (@Emitted.goto t.environment (1 + bodies.length)).not_open
      · exact hbodies q hq
    · exact (emitted_phrase (Phrase.lowers_of_lower hb) q hq).not_open

/-- The events of a program, up to the draft that is finished. -/
theorem take_program (a : Program) : empty.take a.events >>= finish = a.lower := by
  rw [Program.events, List.append_assoc, List.append_assoc, List.cons_append, take_programStart,
    take_append, take_declarations (between_started a.name).toRunning rfl (.global rfl),
    Program.lower]
  change (declareAll _ _ _ _ (.ofProgram a.name) .empty >>= _) >>= _ >>= _ = _
  cases hd : declareAll .global .global .var (Declaration.allEntries a.declarations)
      (.ofProgram a.name) .empty with
  | error e => rfl
  | ok r =>
    have ht₁ : ((started a.name).know r).Between :=
      ⟨(between_started a.name).toRunning.know hd, rfl, rfl, (between_started a.name).quiet⟩
    simp only [Except.ok_bind]
    rw [take_append, take_functions ht₁]
    change (Function.lowerAll a.functions 1 r.1 r.2 >>= _) >>= _ >>= _ =
      Function.lowerAll a.functions 1 r.1 r.2 >>= _
    cases hf : Function.lowerAll a.functions 1 r.1 r.2 with
    | error e => rfl
    | ok s =>
      have ht₂ : (((started a.name).know r).grow s).Between := by
        refine ⟨⟨rfl, ?_⟩, rfl, rfl, ht₁.quiet⟩
        change s.2.program ≠ none
        rw [program_lowerAll hf]
        exact ht₁.started
      simp only [Except.ok_bind]
      rw [take_main ht₂ rfl (Code.append_append _ [_] s.1.code) (not_open_functions hf) rfl rfl rfl]
      rfl

end Draft

/-- The events of a program make up the object file of its lowering. -/
theorem ofEvents_eq_lower (a : Program) : ObjectFile.ofEvents a.events = a.lower := by
  rw [← Draft.take_program, ObjectFile.ofEvents, Draft.take, Drafting.settle]
  cases a.events.forM handle Draft.empty <;> rfl

end Quadlet
