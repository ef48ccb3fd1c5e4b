import Quadlet.Proofs.Draft.Growth
import Quadlet.Proofs.Lowering.Draft
import Quadlet.Proofs.Planner.Books
import Quadlet.Proofs.Shape.Addresses

/-!
# Drafts are sound

Whatever events a draft was sent, and whichever of them failed: its planner has served
requests, every variable of its directory has a type that can be declared and a cell in a
segment of that type, and no operand that waits and no result in the code is a temporary that
is still to be handed out.
-/

namespace Quadlet

open Syntax Planner

/-! ## Cells -/

namespace Planner

variable {p p' p'' : Planner} {a : Address}

/-- An address is not a temporary that is still to be handed out. -/
def Owns (p : Planner) (a : Address) : Prop :=
  ∀ τ i, Segment.locate? a = some (⟨.temporary, τ⟩, i) → i < p.count ⟨.temporary, τ⟩

/-- A planner that serves requests and has handed out what another one has. -/
structure Advances (p p' : Planner) : Prop where
  served : ∃ rs, Served rs p'
  count_le : ∀ s, p.count s ≤ p'.count s

theorem Advances.trans (h : Advances p p') (h' : Advances p' p'') : Advances p p'' :=
  ⟨h'.served, fun s => Nat.le_trans (h.count_le s) (h'.count_le s)⟩

private theorem Owns.advance (h : p.Owns a) (hp : Advances p p') : p'.Owns a :=
  fun τ i hi => Nat.lt_of_lt_of_le (h τ i hi) (hp.count_le _)

/-- An address of another lifetime is no temporary. -/
theorem owns_of_locate? {s : Segment} {i : Nat} (h : Segment.locate? a = some (s, i))
    (hs : s.lifetime ≠ .temporary) : p.Owns a := by
  intro τ j hj
  cases h.symm.trans hj
  exact absurd rfl hs

/-- More requests are served by a planner that advances. -/
theorem Served.advances {rs ss : List Request} (h : Served rs p) (h' : Served (rs ++ ss) p') :
    Advances p p' := by
  refine ⟨⟨_, h'⟩, fun s => ?_⟩
  rw [h.count, h'.count]
  exact Request.demand_le_append rs ss s

/-- What handing out a cell of its own does. -/
theorem Served.assign {rs : List Request} {s : Segment} (h : Served rs p)
    (ha : p.assign s none = .ok (a, p')) :
    Advances p p' ∧ ∃ i, Segment.locate? a = some (s, i) ∧
    (isOwned s → i = p.count s ∧ i < p'.count s) := by
  have hassigned := assigned_of_assign ha
  cases hassigned with
  | owned hbase hs hfree =>
    obtain ⟨-, hserved, -⟩ := h.cell hs hbase ha
    refine ⟨h.advances hserved, _, Segment.locate?_base hbase hfree, fun _ => ⟨rfl, ?_⟩⟩
    rw [count_countOne, if_pos rfl]
    exact Nat.lt_succ_self _
  | placed hbase hs hf hfree =>
    refine ⟨⟨⟨rs, h.congr rfl rfl⟩, fun s => Nat.le_refl _⟩, _, Segment.locate?_base hbase hfree,
      fun hown => ?_⟩
    rw [isOwned, hs] at hown
    rcases hown with hown | hown <;> cases hown
  | known hs hl => cases hl
  | interned hbase hs hl => cases hl

/-- What handing out the cell of a literal does. -/
theorem Served.constant {rs : List Request} {l : Literal} (h : Served rs p)
    (ha : p.constant l = .ok (a, p')) :
    Advances p p' ∧ ∃ i, Segment.locate? a = some (⟨.constant, l.type⟩, i) := by
  obtain ⟨hmem, hserved, -⟩ := h.literal ha
  obtain ⟨i, hi, -⟩ := locate?_constant hserved hmem
  exact ⟨h.advances hserved, i, hi⟩

end Planner

/-! ## Names -/

/-- A symbol that is a variable has a type that can be declared, and its cell is in
a segment of the type. -/
def Symbol.Placed (s : Symbol) : Prop :=
  ∀ type a, s.kind.type? = some type → s.address = some a →
    ∃ (τ : Numeric) (l : Lifetime) (i : Nat), type = τ.type ∧ (l = .global ∨ l = .call) ∧
      Segment.locate? a = some (⟨l, type⟩, i)

/-- The symbols of a table and of the tables in it are placed. -/
def SymbolTable.Placed (t : SymbolTable) : Prop :=
  ∀ s ∈ t.toList, s.Placed ∧ ∀ u ∈ s.table, ∀ r ∈ u.toList, r.Placed

private theorem SymbolTable.Placed.modify {t u : SymbolTable} {name : String} {f : Symbol → Symbol}
    (h : t.Placed) (hf : ∀ s, (s.Placed ∧ ∀ u ∈ s.table, ∀ r ∈ u.toList, r.Placed) →
      (f s).Placed ∧ ∀ u ∈ (f s).table, ∀ r ∈ u.toList, r.Placed)
    (hu : t.modify name f = .ok u) : u.Placed := by
  intro r hr
  obtain ⟨s, hs, rfl | rfl⟩ := SymbolTable.mem_of_modify hu hr
  · exact h r hs
  · exact hf s (h s hs)

namespace Directory

variable {d d' : Directory}

private theorem mem_of_function {name : String} {f : Symbol} (h : d.function name = .ok f) :
    f ∈ d.globals.toList := by
  rw [function] at h
  split at h
  · next g hg =>
    cases h
    exact SymbolTable.mem_of_find? (Option.eq_some_of_filter_eq_some hg)
  · cases h

private theorem placed_modifyFunction {name : String} {f : Symbol → Symbol} (h : d.globals.Placed)
    (hf : ∀ s, (s.Placed ∧ ∀ u ∈ s.table, ∀ r ∈ u.toList, r.Placed) →
      (f s).Placed ∧ ∀ u ∈ (f s).table, ∀ r ∈ u.toList, r.Placed)
    (hd : d.modifyFunction name f = .ok d') : d'.globals.Placed := by
  obtain ⟨_, -, hd⟩ := Except.bind_eq_ok.mp hd
  obtain ⟨u, hu, hd⟩ := Except.bind_eq_ok.mp hd
  cases hd
  exact h.modify hf hu

/-- A placed symbol may be declared in any scope. -/
theorem placed_declare {level : Level} {s : Symbol} (h : d.globals.Placed) (hs : s.Placed)
    (htable : ∀ u ∈ s.table, ∀ r ∈ u.toList, r.Placed) (hd : d.declare level s = .ok d') :
    d'.globals.Placed := by
  obtain ⟨t, ht, hrest⟩ := Except.bind_eq_ok.mp hd
  obtain ⟨u, hu, hset⟩ := Except.bind_eq_ok.mp hrest
  have hmem {r : Symbol} (hr : r ∈ u.toList) : r ∈ t.toList ∨ r = s := by
    rw [SymbolTable.toList_declare hu] at hr
    exact (List.mem_append.mp hr).imp id List.mem_singleton.mp
  cases level with
  | global =>
    cases ht
    cases hset
    intro r hr
    rcases hmem hr with hr | rfl
    · exact h r hr
    · exact ⟨hs, htable⟩
  | function name =>
    obtain ⟨f, hf, ht⟩ := Except.bind_eq_ok.mp ht
    have htf : f.table = some t := by
      split at ht
      · next hftable =>
        cases ht
        exact hftable
      · cases ht
    have hplaced := (h f (mem_of_function hf)).2 t htf
    refine placed_modifyFunction (f := fun s => { s with table := some u }) h
      (fun g hg => ⟨hg.1, ?_⟩) hset
    rintro _ ⟨⟩ r hr
    rcases hmem hr with hr | rfl
    · exact hplaced r hr
    · exact hs

/-- The symbol that a name stands for is placed. -/
theorem placed_resolve {scopes : List Level} {name : String} {s : Symbol} (h : d.globals.Placed)
    (hs : d.resolve scopes name = .ok s) : s.Placed := by
  rw [resolve] at hs
  split at hs
  · next r hr =>
    cases hs
    obtain ⟨level, -, hlevel⟩ := List.exists_of_findSome?_eq_some hr
    obtain ⟨t, ht, hfind⟩ := Option.bind_eq_some_iff.mp hlevel
    have hmem := SymbolTable.mem_of_find? hfind
    cases level with
    | global =>
      cases ht
      exact (h s hmem).1
    | function f =>
      obtain ⟨g, hg, htable⟩ := Option.bind_eq_some_iff.mp ht
      have hg' := SymbolTable.mem_of_find? (Option.eq_some_of_filter_eq_some hg)
      exact (h g hg').2 t htable s hmem
  · cases hs

/-- The variable that a name stands for has a type that can be declared and a cell of that type. -/
theorem exists_of_operand {scopes : List Level} {name : String} {o : Operand} (h : d.globals.Placed)
    (ho : d.operand scopes name = .ok o) :
    ∃ (τ : Numeric) (l : Lifetime) (i : Nat), o.type = τ.type ∧
      (l = .global ∨ l = .call) ∧ Segment.locate? o.address = some (⟨l, o.type⟩, i) := by
  obtain ⟨s, hs, ho⟩ := Except.bind_eq_ok.mp ho
  split at ho
  · next type a htype ha =>
    cases ho
    exact placed_resolve h hs type a htype ha
  · cases ho

end Directory

/-! ## Drafts -/

/-- What holds of a draft behind any events. -/
structure Draft.Sound (t : Draft) : Prop where
  served : ∃ rs, Served rs t.planner
  names : t.directory.globals.Placed
  operands : ∀ o ∈ t.operands, t.planner.Owns o.address
  results : ∀ q ∈ t.code.quads, q.op.isOperator = true → t.planner.Owns q.result

namespace Draft

private theorem sound_empty : empty.Sound :=
  ⟨⟨[], served_empty⟩, by rintro s ⟨⟩, by rintro o ⟨⟩, fun _ hq => (Array.not_mem_empty _ hq).elim⟩

/-- A draft stays sound when its planner advances. -/
theorem Sound.advance {t : Draft} (h : t.Sound) {p : Planner} (hp : Advances t.planner p) :
    { t with planner := p }.Sound :=
  ⟨hp.served, h.names, fun o ho => (h.operands o ho).advance hp, fun q hq hop =>
    (h.results q hq hop).advance hp⟩

end Draft

namespace Drafting

variable {α β : Type} {t : Draft}

/-- An action leaves a sound draft, whether it succeeds or fails; where it succeeds, its
result meets a condition. -/
def Upholds (x : Drafting α) (t : Draft) (post : α → Draft → Prop) : Prop :=
  match x t with
  | .ok a t => t.Sound ∧ post a t
  | .error _ t => t.Sound

/-- An action leaves a sound draft behind a sound draft. -/
def Steady (x : Drafting α) : Prop := ∀ ⦃t : Draft⦄, t.Sound → Upholds x t fun _ _ => True

private theorem Upholds.bind {x : Drafting α} {f : α → Drafting β} {post : α → Draft → Prop}
    {post' : β → Draft → Prop} (hx : Upholds x t post)
    (hf : ∀ a t, t.Sound → post a t → Upholds (f a) t post') : Upholds (x >>= f) t post' := by
  rw [Upholds] at hx ⊢
  cases h : x t with
  | ok a t' =>
    rw [h] at hx
    rw [EStateM.bind_of_ok h]
    exact hf a t' hx.1 hx.2
  | error e t' =>
    rw [h] at hx
    rw [EStateM.bind_of_error h]
    exact hx

private theorem Upholds.forget {x : Drafting α} {post : α → Draft → Prop} (h : Upholds x t post) :
    Upholds x t fun _ _ => True := by
  rw [Upholds] at h ⊢
  cases hx : x t with
  | ok a t' =>
    rw [hx] at h
    exact ⟨h.1, trivial⟩
  | error e t' =>
    rw [hx] at h
    exact h

private theorem Steady.bind {x : Drafting α} {f : α → Drafting β} (hx : Steady x)
    (hf : ∀ a, Steady (f a)) :
    Steady (x >>= f) := fun _ h => (hx h).bind fun a _ h _ => hf a h

private theorem steady_pure (a : α) : Steady (pure a) := fun _ h => ⟨h, trivial⟩

private theorem steady_throw (e : Error) : Steady (throw e : Drafting α) := fun _ h => h

private theorem steady_broken (fault : ProtocolFault) : Steady (broken fault : Drafting α) :=
  fun _ h => h

/-- What stands behind a failure is not carried out. -/
theorem steady_throw_bind (e : Error) (f : α → Drafting β) : Steady (throw e >>= f) := fun _ h => h

private theorem steady_broken_bind (fault : ProtocolFault) (f : α → Drafting β) :
    Steady (broken fault >>= f) :=
  steady_throw_bind _ f

private theorem upholds_get (h : t.Sound) : Upholds get t fun a t' => a = t ∧ t' = t :=
  ⟨h, rfl, rfl⟩

private theorem steady_get : Steady get := fun _ h => ⟨h, trivial⟩

private theorem upholds_lift (h : t.Sound) (x : Except Error α) :
    Upholds (lift x) t fun a t' => x = .ok a ∧ t' = t := by
  cases x with
  | ok a => exact ⟨h, rfl, rfl⟩
  | error e => exact h

private theorem steady_lift (x : Except Error α) : Steady (lift x) :=
  fun _ h => (upholds_lift h x).forget

/-- A change of nothing that soundness looks at, but for operands that are taken away. -/
theorem steady_modify {f : Draft → Draft}
    (hf : ∀ t, (f t).planner = t.planner ∧ (f t).directory = t.directory ∧
    (f t).operands ⊆ t.operands ∧ (f t).code = t.code) : Steady (modify f) := by
  intro t h
  obtain ⟨hplanner, hdirectory, hoperands, hcode⟩ := hf t
  refine ⟨⟨?_, ?_, ?_, ?_⟩, trivial⟩
  · rw [hplanner]
    exact h.served
  · rw [hdirectory]
    exact h.names
  · rw [hplanner]
    exact fun o ho => h.operands o (hoperands ho)
  · rw [hplanner, hcode]
    exact h.results

/-- A cell of its own is handed out. -/
theorem upholds_place (h : t.Sound) (s : Segment) :
    Upholds (place fun p => p.assign s none) t fun a t' =>
      t'.planner.Owns a ∧ ∃ i, Segment.locate? a = some (s, i) := by
  refine (upholds_get h).bind ?_
  rintro _ t h ⟨rfl, rfl⟩
  refine (upholds_lift h _).bind ?_
  rintro ⟨a, p⟩ t h ⟨ha, rfl⟩
  obtain ⟨rs, hserved⟩ := h.served
  obtain ⟨hadvances, i, hi, hcount⟩ := hserved.assign ha
  refine ⟨h.advance hadvances, fun τ j hj => ?_, i, hi⟩
  cases hi.symm.trans hj
  exact (hcount (.inr rfl)).2

/-- The cell of a literal is handed out. -/
theorem upholds_constant (h : t.Sound) (l : Literal) :
    Upholds (place fun p => p.constant l) t fun a t' => t'.planner.Owns a := by
  refine (upholds_get h).bind ?_
  rintro _ t h ⟨rfl, rfl⟩
  refine (upholds_lift h _).bind ?_
  rintro ⟨a, p⟩ t h ⟨ha, rfl⟩
  obtain ⟨rs, hserved⟩ := h.served
  obtain ⟨hadvances, i, hi⟩ := hserved.constant ha
  exact ⟨h.advance hadvances, owns_of_locate? hi (by simp)⟩

private theorem upholds_pushOperand (h : t.Sound) {o : Operand} (ho : t.planner.Owns o.address) :
    Upholds (pushOperand o) t fun _ _ => True := by
  refine ⟨⟨h.served, h.names, ?_, h.results⟩, trivial⟩
  exact List.forall_mem_cons.mpr ⟨ho, h.operands⟩

private theorem steady_pushOperator (op : PendingOperator) : Steady (pushOperator op) :=
  steady_modify fun _ => ⟨rfl, rfl, List.Subset.refl _, rfl⟩

private theorem steady_pushJump (index : Nat) : Steady (pushJump index) :=
  steady_modify fun _ => ⟨rfl, rfl, List.Subset.refl _, rfl⟩

private theorem steady_popOperand : Steady popOperand := by
  intro t h
  refine (upholds_get h).bind ?_
  rintro _ t h ⟨rfl, rfl⟩
  split
  · next o os hos =>
    refine ⟨⟨h.served, h.names, fun o' ho' => h.operands o' ?_, h.results⟩, trivial⟩
    rw [hos]
    exact List.mem_cons_of_mem o ho'
  · exact h

private theorem steady_popOperator : Steady popOperator := Steady.bind steady_get fun t => by
  split
  · exact Steady.bind (steady_modify fun _ => ⟨rfl, rfl, List.Subset.refl _, rfl⟩)
      fun _ => steady_pure _
  · exact steady_broken _

private theorem steady_popJump : Steady popJump := Steady.bind steady_get fun t => by
  split
  · exact Steady.bind (steady_modify fun _ => ⟨rfl, rfl, List.Subset.refl _, rfl⟩)
      fun _ => steady_pure _
  · exact steady_broken _

private theorem steady_currentLevel : Steady currentLevel := Steady.bind steady_get fun t => by
  split
  · exact steady_pure _
  · exact steady_broken _

/-- A quadruple is emitted; an operator among them has a result that was handed out. -/
theorem upholds_emit (h : t.Sound) {op : Opcode} {left right result : Address}
    (hresult : op.isOperator = true → t.planner.Owns result) :
    Upholds (emit op left right result) t fun _ t' => t'.planner = t.planner := by
  refine ⟨⟨h.served, h.names, h.operands, fun q hq hop => ?_⟩, rfl⟩
  rcases Array.mem_push.mp hq with hq | rfl
  · exact h.results q hq hop
  · exact hresult hop

private theorem steady_emit {op : Opcode} (hop : op.isOperator = false)
    (left right result : Address) : Steady (emit op left right result) := by
  intro t h
  exact (upholds_emit h (by simp [hop])).forget

/-- A patch changes no operator. -/
theorem steady_patchToHere (index : Nat) : Steady (patchToHere index) := by
  intro t h
  refine (upholds_get h).bind ?_
  rintro _ _ h ⟨rfl, rfl⟩
  refine (upholds_get h).bind ?_
  rintro _ t h ⟨rfl, rfl⟩
  refine (upholds_lift h _).bind ?_
  rintro code t h ⟨hcode, rfl⟩
  obtain ⟨q, hq, hopen, rfl⟩ := Code.patch_eq_ok.mp hcode
  refine ⟨⟨h.served, h.names, h.operands, fun r hr hop => ?_⟩, trivial⟩
  rcases Array.mem_or_eq_of_mem_setIfInBounds hr with hr | rfl
  · exact h.results r hr hop
  · rw [Code.isOpen, Bool.and_eq_true] at hopen
    obtain ⟨op, x, y, z⟩ := q
    cases op with
    | goto | gotoFalse | gotoTrue | call => cases hop
    | _ => cases hopen.1

/-- Names may change as long as they are placed. -/
theorem upholds_updateDirectory (h : t.Sound) {f : Directory → Except Error Directory}
    (hf : ∀ d, f t.directory = .ok d → d.globals.Placed) :
    Upholds (updateDirectory f) t fun _ _ => True := by
  refine (upholds_get h).bind ?_
  rintro _ t h ⟨rfl, rfl⟩
  refine (upholds_lift h _).bind ?_
  rintro d t h ⟨hd, rfl⟩
  exact ⟨⟨h.served, hf d hd, h.operands, h.results⟩, trivial⟩

/-! ## Declarations -/

private theorem steady_programStart (name : String) : Steady (programStart name) := by
  refine Steady.bind steady_get fun _ => ?_
  split
  · exact steady_broken_bind _ _
  · have hstart : Steady
        (modify fun t : Draft => { t with directory := .ofProgram name, scopes := [.global] }) :=
      fun t h =>
        ⟨⟨h.served, fun s hs => (List.not_mem_nil hs).elim, h.operands, h.results⟩, trivial⟩
    exact hstart.bind fun _ => Steady.bind steady_get fun _ =>
      (steady_emit rfl _ _ _).bind fun _ => steady_pushJump _

/-- A variable that is declared is placed: its type can be declared, and its
cell is in the segment. -/
theorem steady_declare (level : Level) {s : Segment}
    (hs : s.lifetime = .global ∨ s.lifetime = .call) {kind : SymbolKind}
    (hkind : kind.type? = some s.type) (name : String) : Steady (declare level s kind name) := by
  have hdeclarable : requireDeclarable name s.type = throw (.typing (.undeclarable name s.type)) ∨
      requireDeclarable name s.type = pure () ∧ ∃ τ : Numeric, s.type = τ.type := by
    cases s.type with
    | int => exact .inr ⟨rfl, .int, rfl⟩
    | float => exact .inr ⟨rfl, .float, rfl⟩
    | _ => exact .inl rfl
  rw [declare]
  rcases hdeclarable with hthrow | ⟨hpure, τ, hτ⟩
  · rw [hthrow]
    exact steady_throw_bind _ _
  · rw [hpure]
    refine Steady.bind (steady_pure ()) fun _ => Steady.bind steady_get fun _ =>
      (steady_lift _).bind fun _ => ?_
    split
    · exact steady_throw_bind _ _
    · intro t h
      refine (upholds_place h s).bind ?_
      rintro a t h ⟨-, i, hi⟩
      refine upholds_updateDirectory h fun d hd => ?_
      refine Directory.placed_declare h.names ?_ (by rintro _ ⟨⟩) hd
      rintro type _ hvar ⟨⟩
      obtain rfl : s.type = type := Option.some.inj (hkind.symm.trans hvar)
      exact ⟨τ, s.lifetime, i, hτ, hs, hi⟩

private theorem steady_varName (name : String) : Steady (varName name) :=
  steady_modify fun _ => ⟨rfl, rfl, List.Subset.refl _, rfl⟩

/-- Actions on a list, one after the other. -/
theorem steady_forM {xs : List α} {f : α → Drafting Unit} (hf : ∀ a, Steady (f a)) :
    Steady (xs.forM f) := by
  induction xs with
  | nil => exact steady_pure _
  | cons x xs ih => exact (hf x).bind fun _ => ih

private theorem steady_varType (type : ValueType) : Steady (varType type) := by
  refine Steady.bind steady_currentLevel fun level => Steady.bind steady_get fun _ =>
    Steady.bind (steady_modify fun _ => ⟨rfl, rfl, List.Subset.refl _, rfl⟩) fun _ => steady_forM ?_
  intro name
  cases level with
  | global => exact steady_declare .global (.inl rfl) rfl name
  | function f => exact steady_declare (.function f) (.inr rfl) rfl name

private theorem steady_functionStart (name : String) : Steady (functionStart name) := by
  refine Steady.bind steady_get fun _ => ?_
  split
  · exact steady_broken_bind _ _
  · refine Steady.bind steady_get fun _ => ?_
    split
    · exact steady_throw_bind _ _
    · intro t h
      refine (upholds_place h ⟨.global, .void⟩).bind fun id t h _ => ?_
      refine (upholds_updateDirectory h fun d hd => ?_).bind fun _ t h _ => ?_
      · -- The symbol of a function is no variable, and nothing is declared inside it yet.
        refine Directory.placed_declare h.names (by rintro _ _ ⟨⟩) ?_ hd
        rintro _ ⟨⟩ r hr
        exact (List.not_mem_nil hr).elim
      · obtain ⟨rs, hserved⟩ := h.served
        have hentered : Advances t.planner (t.planner.enter id) :=
          ⟨⟨rs, hserved.congr rfl rfl⟩, fun _ => Nat.le_refl _⟩
        exact ⟨⟨hentered.served, h.names, fun o ho => (h.operands o ho).advance hentered,
          fun q hq hop => (h.results q hq hop).advance hentered⟩, trivial⟩

private theorem steady_param (name : String) (type : ValueType) : Steady (param name type) := by
  refine Steady.bind steady_currentLevel fun level => ?_
  cases level with
  | global => exact steady_broken _
  | function f => exact steady_declare (.function f) (.inr rfl) rfl name

private theorem steady_functionBodyStart : Steady functionBodyStart := by
  refine Steady.bind steady_currentLevel fun level => ?_
  cases level with
  | global => exact steady_broken _
  | function f =>
    refine Steady.bind steady_get fun _ => ?_
    intro t h
    refine upholds_updateDirectory h fun d hd => ?_
    refine Directory.placed_modifyFunction h.names ?_ hd
    exact fun _ hs => hs

private theorem steady_functionEnd : Steady functionEnd := by
  refine Steady.bind steady_get fun _ =>
    Steady.bind (steady_modify fun _ => ⟨rfl, rfl, List.Subset.refl _, rfl⟩) fun _ => ?_
  split
  · refine (steady_emit rfl _ _ _).bind fun _ t h => ?_
    obtain ⟨rs, hserved⟩ := h.served
    have hleft : Advances t.planner t.planner.leave :=
      ⟨⟨rs, hserved.congr rfl rfl⟩, fun _ => Nat.le_refl _⟩
    exact ⟨h.advance hleft, trivial⟩
  · exact steady_broken _

private theorem steady_mainStart : Steady mainStart := by
  refine Steady.bind steady_get fun _ => ?_
  split
  · exact steady_broken_bind _ _
  · refine Steady.bind steady_popJump fun jump => Steady.bind steady_get fun _ => ?_
    split
    · exact steady_broken_bind _ _
    · exact steady_patchToHere jump

/-! ## Expressions -/

/-- A variable is no temporary. -/
theorem steady_identifier (name : String) : Steady (identifier name) := by
  intro t h
  refine (upholds_get h).bind ?_
  rintro _ t h ⟨rfl, rfl⟩
  refine (upholds_lift h _).bind ?_
  rintro s t h ⟨hs, rfl⟩
  split
  · next type a htype ha =>
    obtain ⟨τ, l, i, -, hl, hi⟩ := Directory.placed_resolve h.names hs type a htype ha
    refine upholds_pushOperand h (owns_of_locate? hi ?_)
    rcases hl with rfl | rfl <;> simp
  · exact h

private theorem steady_literal (l : Literal) : Steady (literal l) :=
  fun _ h => (upholds_constant h l).bind fun _ _ h ha => upholds_pushOperand h ha

private theorem steady_operator (op : Operator) : Steady (operator op) := by
  rw [operator]
  split
  · exact steady_broken _
  · exact steady_pushOperator _

/-- The result of an operator is handed out before it is used. -/
theorem steady_apply (op : Operator) (left right : Operand) : Steady (apply op left right) := by
  refine (steady_lift _).bind fun type t h => ?_
  refine (upholds_place h ⟨.temporary, type⟩).bind fun a t h ha => ?_
  refine (upholds_emit h fun _ => ha.1).bind fun _ t' h ht => ?_
  refine upholds_pushOperand h ?_
  rw [ht]
  exact ha.1

private theorem steady_levelEnd (level : Operator → Bool) : Steady (levelEnd level) := by
  refine Steady.bind steady_get fun _ => ?_
  split
  · split
    · exact Steady.bind (steady_modify fun _ => ⟨rfl, rfl, List.Subset.refl _, rfl⟩) fun _ =>
        Steady.bind steady_popOperand fun right => Steady.bind steady_popOperand fun left =>
          steady_apply _ left right
    · exact steady_pure _
  · exact steady_pure _

private theorem steady_closeParen : Steady closeParen := by
  refine Steady.bind steady_popOperator fun op => ?_
  split
  · exact steady_pure _
  · exact steady_broken _

private theorem steady_unaryEnd : Steady unaryEnd := by
  refine Steady.bind steady_popOperator fun op => ?_
  split
  · exact Steady.bind steady_popOperand fun operand =>
      Steady.bind (fun _ h => (upholds_constant h _).forget) fun _ => steady_apply _ _ _
  · exact steady_broken _

private theorem steady_assignValue : Steady assignValue := by
  refine Steady.bind steady_popOperand fun value => Steady.bind steady_popOperator fun op => ?_
  split
  · exact steady_broken_bind _ _
  · exact Steady.bind steady_popOperand fun target =>
      (steady_lift _).bind fun _ => steady_emit rfl _ _ _

private theorem steady_printItem : Steady printItem :=
  Steady.bind steady_popOperand fun _ => steady_emit rfl _ _ _

/-! ## Branches, loops and calls -/

private theorem steady_popGuard (construct : String) : Steady (popGuard construct) := by
  refine Steady.bind steady_popOperand fun guard => ?_
  split
  · exact steady_throw_bind _ _
  · exact steady_pure _

private theorem steady_ifGuardEnd : Steady ifGuardEnd :=
  (steady_popGuard _).bind fun _ => Steady.bind steady_get fun _ =>
    (steady_emit rfl _ _ _).bind fun _ => steady_pushJump _

private theorem steady_elseBranch : Steady elseBranch :=
  Steady.bind steady_get fun _ => (steady_emit rfl _ _ _).bind fun _ =>
    Steady.bind steady_popJump fun jump =>
    (steady_patchToHere jump).bind fun _ => steady_pushJump _

private theorem steady_ifEnd : Steady ifEnd := Steady.bind steady_popJump steady_patchToHere

private theorem steady_loopStart : Steady loopStart :=
  Steady.bind steady_get fun _ => steady_pushJump _

private theorem steady_loopGuardEnd : Steady loopGuardEnd :=
  (steady_popGuard _).bind fun _ => Steady.bind steady_popJump fun _ => steady_emit rfl _ _ _

private theorem steady_callStart (name : String) : Steady (callStart name) := by
  refine Steady.bind steady_get fun _ => (steady_lift _).bind fun f => ?_
  split
  · exact steady_broken _
  · exact steady_modify fun _ => ⟨rfl, rfl, List.Subset.refl _, rfl⟩

private theorem steady_callOpen : Steady callOpen := by
  refine Steady.bind steady_get fun _ => ?_
  split
  · exact steady_emit rfl _ _ _
  · exact steady_broken _

private theorem steady_argument : Steady argument := by
  refine Steady.bind steady_popOperand fun value => Steady.bind steady_get fun _ => ?_
  split
  · exact Steady.bind (steady_modify fun _ => ⟨rfl, rfl, List.Subset.refl _, rfl⟩) fun _ =>
      steady_emit rfl _ _ _
  · exact steady_broken _

private theorem steady_matchArguments (name : String) (position : Nat)
    (parameters arguments : List ValueType) :
    Steady (matchArguments name position parameters arguments) := by
  fun_induction matchArguments name position parameters arguments with
  | case1 => exact steady_throw _
  | case2 _ _ _ _ _ _ ih => exact ih
  | case3 => exact steady_pure _

private theorem steady_callEnd : Steady callEnd := by
  refine Steady.bind steady_get fun _ => ?_
  split
  · exact steady_broken _
  · refine Steady.bind (steady_modify fun _ => ⟨rfl, rfl, List.Subset.refl _, rfl⟩) fun _ => ?_
    split
    · exact steady_throw_bind _ _
    · refine (steady_matchArguments _ _ _ _).bind fun _ => Steady.bind steady_get fun _ =>
        (steady_lift _).bind fun f => ?_
      split
      · exact steady_broken _
      · exact steady_emit rfl _ _ _

/-! ## Events -/

private theorem steady_perform (e : Event) : Steady (perform e) := by
  cases e with
  | programStart name => exact steady_programStart name
  | varName name => exact steady_varName name
  | varType type => exact steady_varType type
  | functionStart name => exact steady_functionStart name
  | param name type => exact steady_param name type
  | functionBodyStart => exact steady_functionBodyStart
  | functionEnd => exact steady_functionEnd
  | mainStart => exact steady_mainStart
  | programEnd => exact steady_modify fun _ => ⟨rfl, rfl, List.Subset.refl _, rfl⟩
  | assignTarget name | identifier name => exact steady_identifier name
  | assignOperator | openParen | unarySign negative => exact steady_pushOperator _
  | assignValue => exact steady_assignValue
  | intLiteral n | floatLiteral x | stringLiteral s => exact steady_literal _
  | operator op => exact steady_operator op
  | factorEnd | termEnd | relationalEnd => exact steady_levelEnd _
  | closeParen => exact steady_closeParen
  | unaryEnd => exact steady_unaryEnd
  | ifGuardEnd => exact steady_ifGuardEnd
  | elseBranch => exact steady_elseBranch
  | ifEnd => exact steady_ifEnd
  | loopStart => exact steady_loopStart
  | loopGuardEnd => exact steady_loopGuardEnd
  | callStart name => exact steady_callStart name
  | callOpen => exact steady_callOpen
  | argument => exact steady_argument
  | callEnd => exact steady_callEnd
  | printItem => exact steady_printItem

private theorem steady_handle (e : Event) : Steady (handle e) := by
  refine Steady.bind steady_get fun t => ?_
  dsimp only
  split
  · exact steady_broken_bind _ _
  · split
    · exact steady_broken_bind _ _
    · exact steady_perform e

end Drafting

namespace Draft

/-- One event, whether it succeeds or fails, leaves a sound draft. -/
theorem Sound.pass {t : Draft} (h : t.Sound) (e : Event) : (t.pass e).Sound := by
  have hupholds := Drafting.steady_handle e h
  rw [Drafting.Upholds] at hupholds
  rw [Draft.pass]
  cases hresult : Drafting.handle e t with
  | ok a s =>
    rw [hresult] at hupholds
    exact hupholds.1
  | error f s =>
    rw [hresult] at hupholds
    exact hupholds

/-- A draft is sound whatever events it was sent. -/
theorem sound_passAll (es : List Event) : (empty.passAll es).Sound := by
  have hall {t : Draft} (h : t.Sound) : (t.passAll es).Sound := by
    induction es generalizing t with
    | nil => exact h
    | cons e es ih => exact ih (h.pass e)
  exact hall sound_empty

end Draft

end Quadlet
