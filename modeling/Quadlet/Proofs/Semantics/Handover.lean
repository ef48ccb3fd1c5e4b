import Quadlet.Proofs.Semantics.Termination
import Quadlet.Proofs.Semantics.View
import Quadlet.Proofs.Shape.Course

/-!
# Arguments that are handed over

Where the code of the arguments of a call can be run to its end, the arguments have values. Main
statement: at that end the frame that waits shows the values which the arguments have in the world
of the caller, and that world is the same as before.
-/

namespace Quadlet

open Syntax Request Planner

/-! ## Types of values -/

/-- An operator gives a value of its type. -/
theorem Syntax.World.type_apply {w : World} {op : Operator} (hop : op ≠ .assign) {l r s : Reading}
    {τ υ : ValueType} (hl : ∀ x, w.fetch l = .ok x → x.type = τ)
    (hr : ∀ y, w.fetch r = .ok y → y.type = υ) (hτ : Typing.isOperable τ = true)
    (hυ : Typing.isOperable υ = true) (hs : w.apply op l r = .ok s) {z : Value}
    (hz : w.fetch s = .ok z) : z.type = (Typing.result? op τ υ).getD .void := by
  obtain ⟨x, hx, hs⟩ := Except.bind_eq_ok.mp hs
  obtain ⟨y, hy, hs⟩ := Except.bind_eq_ok.mp hs
  obtain ⟨v, hv, hs⟩ := Except.bind_eq_ok.mp hs
  cases hs
  cases hz
  obtain rfl := hl x hx
  obtain rfl := hr y hy
  have hgives := Value.gives_binary hτ hυ hop
  rw [hv] at hgives
  exact hgives

namespace Syntax.Tree

variable {rank : Rank} {Γ : Scope} {w : World}

private theorem type_eval {e : Tree rank} (he : e.Resolves Γ) {r : Reading}
    (hr : e.eval Γ w = .ok r) {x : Value} (hx : w.fetch r = .ok x) : x.type = e.type Γ := by
  induction e generalizing r x with
  | int n | float y =>
    cases hr
    cases hx
    rfl
  | name y =>
    rw [eval] at hr
    rw [type]
    cases hv : Γ y with
    | none =>
      rw [hv] at hr
      cases hr
    | some v =>
      rw [hv] at hr
      cases hr
      exact World.type_read hx
  | group e ih | ofFactor e ih | ofTerm e ih | ofSum e ih => exact ih he hr hx
  | signed negative e ih =>
    obtain ⟨a, ha, hr⟩ := Except.bind_eq_ok.mp hr
    have hsign : ∀ y, w.fetch (.value (.int (if negative then -1 else 1))) = .ok y →
        y.type = .int := by
      intro y hy
      cases hy
      rfl
    exact World.type_apply (by decide) (fun _ => ih he ha) hsign (operable_type he) rfl hr hx
  | product l op hop d ihl ihd | addition l op hop d ihl ihd | comparison l op hop d ihl ihd =>
    obtain ⟨hl, hd⟩ : l.Resolves Γ ∧ d.Resolves Γ := List.forall_mem_append.mp he
    obtain ⟨a, ha, hr⟩ := Except.bind_eq_ok.mp hr
    obtain ⟨b, hb, hr⟩ := Except.bind_eq_ok.mp hr
    have hassign : op ≠ .assign := by
      rintro rfl
      cases hop
    exact World.type_apply hassign (fun _ => ihl hl ha) (fun _ => ihd hd hb) (operable_type hl)
      (operable_type hd) hr hx

/-- The value of an expression has the type of the expression. -/
theorem type_value {e : Tree rank} (he : e.Resolves Γ) {x : Value} (hx : e.value Γ w = .ok x) :
    x.type = e.type Γ := by
  obtain ⟨r, hr, hx⟩ := Except.bind_eq_ok.mp hx
  exact type_eval he hr hx

/-- The values of arguments have the types of the arguments. -/
theorem map_type_values {es : List Expression} (hes : ∀ e ∈ es, e.Resolves Γ) {xs : List Value}
    (hxs : es.mapM (fun e => e.value Γ w) = .ok xs) : xs.map Value.type = es.map (Tree.type Γ) := by
  induction es generalizing xs with
  | nil =>
    cases hxs
    rfl
  | cons e es ih =>
    rw [List.mapM_cons] at hxs
    obtain ⟨x, hx, hxs⟩ := Except.bind_eq_ok.mp hxs
    obtain ⟨ys, hys, hxs⟩ := Except.bind_eq_ok.mp hxs
    cases hxs
    obtain ⟨he, hes⟩ := List.forall_mem_cons.mp hes
    rw [List.map_cons, List.map_cons, type_value he hx, ih hes hys]

end Syntax.Tree

namespace Syntax.Action

variable {α : Type} {w w' : World}

private theorem ask_eq_ok {f : World → Except Error α} {a : α} :
    ask f w = .ok a w' ↔ f w = .ok a ∧ w' = w := by
  rw [ask]
  cases f w <;> simp [eq_comm]

/-- Expressions that are asked for one after the other have their values in the same world. -/
theorem mapM_ask {Γ : Scope} {es : List Expression} {xs : List Value}
    (h : es.mapM (fun e => ask (e.value Γ)) w = .ok xs w') :
    es.mapM (fun e => e.value Γ w) = .ok xs := by
  induction es generalizing xs with
  | nil =>
    cases h
    rfl
  | cons e es ih =>
    rw [List.mapM_cons] at h
    obtain ⟨x, w₁, hx, hrest⟩ := EStateM.bind_eq_ok.mp h
    obtain ⟨hx, rfl⟩ := ask_eq_ok.mp hx
    obtain ⟨ys, w₂, hys, hpure⟩ := EStateM.bind_eq_ok.mp hrest
    cases hpure
    rw [List.mapM_cons, hx, ih hys]
    rfl

end Syntax.Action

/-! ## Ends of straight code -/

/-- Where the execution of a program stands, without what was printed. -/
def Config.core {ω : Type} (c : Config ω) : Core := ⟨c.memory, c.returns, c.ip⟩

/-- A machine that can go to the end of a program does so. -/
theorem Config.run_of_leads {ω : Type} {program : Array Quadruple} {c : Config ω} {d : Core}
    (hd : c.core.Leads program d) (hend : program[d.ip]? = none) (write : String → ω → ω) :
    ∃ k m out, m.core = d ∧ ∀ n,
      Machine.run (.total write) (k + n) (c.machine program 0) c.out = (.halted, m, out) := by
  obtain ⟨k, m, hfollows, rfl, hruns⟩ := Machine.run_of_leads (m := c.machine program 0) rfl hd
  obtain ⟨out, hrun⟩ := hruns write c.out
  refine ⟨k, m, out, rfl, fun n => ?_⟩
  have hq : m.program[m.ip]? = none := by
    rw [hfollows.program]
    exact hend
  rw [hrun, Machine.run, hq]

/-- If a machine that does what an action does can go to the end of the program, the action
succeeds, and the end is where it leads. -/
theorem Session.Simulates.of_leads {ω α : Type} {S : Session ω} {n : Nat} {c : Config ω}
    {post : α → World → Config ω → Prop} {x : Action α} {w : World} (h : S.Simulates n c post (x w))
    (hx : Action.Uncut x) (hpost : ∀ a w e, post a w e → S.object.quadruples[e.ip]? = none)
    {d : Core} (hd : c.core.Leads S.object.quadruples d)
    (hend : S.object.quadruples[d.ip]? = none) :
    ∃ a w' e, x w = .ok a w' ∧ post a w' e ∧ e.core = d := by
  obtain ⟨k, m, out, rfl, hrun⟩ := Config.run_of_leads hd hend S.write
  cases hxw : x w with
  | ok a w' =>
    rw [hxw] at h
    obtain ⟨k', e, hgoes, he⟩ := h
    have hhalts := (hgoes 0 k).trans (Config.run_halted (hpost a w' e he) _ _)
    rw [Nat.add_comm, hrun] at hhalts
    obtain ⟨hm, -⟩ := Prod.mk.inj (Prod.mk.inj hhalts).2
    refine ⟨a, w', e, rfl, he, ?_⟩
    rw [hm]
    rfl
  | error stop w' =>
    cases stop with
    | cut => exact absurd hxw (hx w w')
    | failed e =>
      rw [hxw] at h
      obtain ⟨-, k', hfails⟩ := h
      obtain ⟨m', hfailed⟩ := hfails 0 k
      rw [Nat.add_comm, hrun] at hfailed
      cases hfailed

/-! ## Arguments -/

namespace ObjectFile

variable {o : ObjectFile} {n : Nat} {stack : List Routine}

private theorem mirrors_upTo {waiting : List Frame} {w : World} {m : Memory} :
    Mirrors (o.upTo n) stack waiting w m ↔ Mirrors o stack waiting w m :=
  ⟨fun h => ⟨h.map, h.block, h.globals, h.constants, h.pending, h.frames⟩,
    fun h => ⟨h.map, h.block, h.globals, h.constants, h.pending, h.frames⟩⟩

private theorem placed_upTo {v : Variable} (h : Placed o stack v) : Placed (o.upTo n) stack v := by
  cases h with
  | global lifetime fits cell => exact .global lifetime fits cell
  | call lifetime fits cell => exact .call lifetime fits cell

private theorem codeAt_upTo {i : Nat} {code : List Quadruple} (h : CodeAt o.quadruples i code) :
    CodeAt (o.upTo (i + code.length)).quadruples i code := by
  obtain ⟨front, back, hprogram, rfl⟩ := h
  refine ⟨front, [], ?_, rfl⟩
  rw [upTo, hprogram, ← List.length_append, List.take_left, List.append_nil]

end ObjectFile

/-- From the first quadruple of the arguments to the end of them, the frame that waits gets the
values of the arguments. -/
theorem Syntax.Invocation.Lowered.passes {o : ObjectFile} {t : Invocation} {r : Routine}
    (h : t.Lowered o r) {stack : List Routine} (hΓ : ∀ {x v}, t.scope x = some v → Placed o stack v)
    {w : World} {c d : Core} (hc : Mirrors o stack [.ofSize r.frame] w c.memory)
    (hip : c.ip = t.first + 1) (hd : c.Leads (o.upTo t.last).quadruples d) (hlast : d.ip = t.last) :
    ∃ xs s f, t.arguments.mapM (fun e => e.value t.scope w) = .ok xs ∧
      xs.map Value.type = r.function.types ∧ Slots.empty.fill r.function.locals xs = .ok s ∧
      Holds r s f ∧ Mirrors o stack [f] w d.memory := by
  obtain ⟨env, rs, p, arguments, types, henv, hserved, hsupplies, hlower, htypes, hcode⟩ := h
  have hlowers := Tree.lowerArguments_eq_ok.mp hlower
  have hlength : t.last = t.first + 1 + arguments.code.length := by
    rw [Invocation.last, ← size_arguments hlowers]
  rw [hlength] at hd hlast
  -- without the call behind it, the code of the arguments can only be run to its end
  let S : Session Unit := ⟨o.upTo (t.first + 1 + arguments.code.length), fun _ u => u, ()⟩
  let start : Config Unit := ⟨c.memory, c.returns, c.ip, ()⟩
  have hstands : S.Stands stack [.ofSize r.frame] w c.returns (t.first + 1) start :=
    ⟨ObjectFile.mirrors_upTo.mpr hc, rfl, rfl, hip⟩
  have hnames : r.function.names = [] ++ r.function.parameters ++ Declaration.allEntries
      r.function.declarations := rfl
  have hsimulates := Session.simulates_arguments (S := S) (n := 0) henv
    (fun hv => ObjectFile.placed_upTo (hΓ hv)) hserved hlowers hsupplies
    (ObjectFile.codeAt_upTo hcode.left.tail) hnames htypes (filled_ofSize r) hstands
  have hpast : S.object.quadruples[t.first + 1 + arguments.code.length]? = none :=
    ObjectFile.getElem?_upTo_eq_none (Nat.le_refl _)
  have hstops : ∀ xs w' e, S.Passed stack w c.returns (t.first + 1 + arguments.code.length) r .empty
      r.function.locals xs w' e → S.object.quadruples[e.ip]? = none := by
    rintro xs w' e ⟨-, s, f, -, -, hend⟩
    rw [hend.ip]
    exact hpast
  obtain ⟨xs, w', e, hxs, ⟨-, s, f, hfill, hholds, hend⟩, rfl⟩ := hsimulates.of_leads
    (Action.uncut_mapM (fun e => Action.uncut_ask _) t.arguments) hstops hd (hlast ▸ hpast)
  have hvalues := Action.mapM_ask hxs
  refine ⟨xs, s, f, hvalues, ?_, hfill, hholds, ObjectFile.mirrors_upTo.mp hend.mirrors⟩
  obtain ⟨hresolves, -⟩ := serves_arguments henv hserved hlowers
  rw [Tree.map_type_values hresolves hvalues, htypes]

end Quadlet
