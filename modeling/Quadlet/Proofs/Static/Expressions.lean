import Quadlet.Proofs.Static.Cells

/-!
# Which expressions are lowered

An expression is lowered exactly if its names stand for variables and its cells fit. The operand
then has the type of the expression, and the planner has served the requests of the expression.
-/

namespace Quadlet

open Syntax Request Planner

/-- The operand that a variable is. -/
def Syntax.Variable.operand (v : Variable) : Operand := ⟨v.address, v.type.type⟩

/-- An environment in which names stand for the variables of a scope. -/
structure Environment.Knows (env : Environment) (Γ : Scope) : Prop where
  some : ∀ {x v}, Γ x = some v → env.operand x = .ok v.operand
  none : ∀ {x o}, Γ x = none → env.operand x ≠ .ok o

/-- A name with an operand stands for a variable. -/
theorem Environment.Knows.find {env : Environment} {Γ : Scope} (h : env.Knows Γ) {x : String}
    {o : Operand} (ho : env.operand x = .ok o) : ∃ v, Γ x = .some v ∧ o = v.operand := by
  cases hx : Γ x with
  | none => exact absurd ho (h.none hx)
  | some v => exact ⟨v, rfl, Except.ok.inj (ho.symm.trans (h.some hx))⟩

/-- An operator other than assignment has a result on operable types, and of an operable type. -/
theorem operable_result {op : Operator} (hop : op ≠ .assign) {τ υ : ValueType}
    (hτ : Typing.isOperable τ = true) (hυ : Typing.isOperable υ = true) :
    ∃ σ, Typing.result? op τ υ = some σ ∧ Typing.isOperable σ = true := by
  obtain ⟨σ, hσ⟩ := Option.isSome_iff_exists.mp ((Typing.result?_isSome_iff hop τ υ).mpr ⟨hτ, hυ⟩)
  refine ⟨σ, hσ, ?_⟩
  rw [Typing.result?.eq_def, hτ, hυ] at hσ
  cases op with
  | assign => exact absurd rfl hop
  | add | sub | mul =>
    simp only [Bool.and_self, Bool.not_true, Bool.false_eq_true, if_false, Option.some.injEq] at hσ
    subst hσ
    split <;> rfl
  | _ =>
    cases hσ
    rfl

namespace Syntax.Tree

variable {Γ : Scope}

private theorem operable_numeric (τ : Numeric) : Typing.isOperable τ.type = true := by
  cases τ <;> rfl

/-- An expression whose names stand for variables has a type that operators work on. -/
theorem operable_type {r : Rank} {e : Tree r} (h : e.Resolves Γ) :
    Typing.isOperable (e.type Γ) = true := by
  have hbinary {r₁ r₂ : Rank} {l : Tree r₁} {r : Tree r₂} {op : Operator} (hop : op ≠ .assign)
      (hl : Typing.isOperable (l.type Γ) = true) (hr : Typing.isOperable (r.type Γ) = true) :
      Typing.isOperable ((Typing.result? op (l.type Γ) (r.type Γ)).getD .void) = true := by
    obtain ⟨σ, hσ, hoperable⟩ := operable_result hop hl hr
    rw [hσ]
    exact hoperable
  induction e with
  | int n | float x => rfl
  | name x =>
    have hx := h x (List.mem_singleton.mpr rfl)
    rw [type]
    cases hv : Γ x with
    | none =>
      rw [hv] at hx
      cases hx
    | some v => exact operable_numeric v.type
  | group e ih | ofFactor e ih | ofTerm e ih | ofSum e ih => exact ih h
  | signed negative e ih =>
    have hmul : Operator.mul ≠ .assign := by decide
    obtain ⟨σ, hσ, hoperable⟩ := operable_result (υ := .int) hmul (ih h) rfl
    rw [type, hσ]
    exact hoperable
  | product l op hop r ihl ihr | addition l op hop r ihl ihr | comparison l op hop r ihl ihr =>
    refine hbinary ?_ (ihl fun x hx => h x (List.mem_append_left _ hx))
      (ihr fun x hx => h x (List.mem_append_right _ hx))
    rintro rfl
    cases hop

end Syntax.Tree

/-! ## Operators -/

/-- The segment of the results of a type that operators give. -/
theorem base?_temporary {τ : ValueType} (hτ : Typing.isOperable τ = true) :
    ∃ base, Segment.base? ⟨.temporary, τ⟩ = some base := by
  cases τ <;> first | exact ⟨_, rfl⟩ | cases hτ

/-- What an operator that is lowered has done. -/
theorem operation_eq_ok {p : Planner} {op : Operator} {left right : Operand} {code : List Quadruple}
    {a : Computed} : p.operation op left right code = .ok a ↔
      ∃ τ b p', Typing.result? op left.type right.type = some τ ∧
        p.assign ⟨.temporary, τ⟩ none = .ok (b, p') ∧
        a = ⟨code ++ [⟨op.opcode, left.address, right.address, b⟩], ⟨b, τ⟩, p'⟩ := by
  rw [operation, Typing.result]
  cases Typing.result? op left.type right.type with
  | none => simp
  | some τ =>
    simp only [Except.ok_bind, Except.bind_eq_ok, Except.pure_eq, Except.ok.injEq,
      Option.some.injEq]
    constructor
    · rintro ⟨⟨b, p'⟩, hb, rfl⟩
      exact ⟨τ, b, p', rfl, hb, rfl⟩
    · rintro ⟨_, b, p', rfl, hb, rfl⟩
      exact ⟨(b, p'), hb, rfl⟩

section

variable {rs : List Request} {p : Planner} {op : Operator} {left right : Operand}
  {code : List Quadruple}

/-- An operator on operable types serves the request for its result. -/
theorem served_operation {a : Computed} (hp : Served rs p) (hop : op ≠ .assign)
    (hl : Typing.isOperable left.type = true) (hr : Typing.isOperable right.type = true)
    (h : p.operation op left right code = .ok a) :
    a.operand.type = (Typing.result? op left.type right.type).getD .void ∧
      Served (rs ++ [Request.cell ⟨.temporary, a.operand.type⟩]) a.planner ∧ Kept p a.planner := by
  obtain ⟨τ, b, p', hτ, hb, rfl⟩ := operation_eq_ok.mp h
  obtain ⟨σ, hσ, hoperable⟩ := operable_result hop hl hr
  obtain rfl : σ = τ := Option.some.inj (hσ.symm.trans hτ)
  obtain ⟨base, hbase⟩ := base?_temporary hoperable
  obtain ⟨-, hserved, hkept⟩ := hp.cell (.inr rfl) hbase hb
  refine ⟨?_, hserved, hkept⟩
  rw [hσ]
  rfl

/-- An operator on operable types is lowered if its result fits. -/
theorem operation_of_fits (code : List Quadruple) (hp : Served rs p) (hop : op ≠ .assign)
    (hl : Typing.isOperable left.type = true) (hr : Typing.isOperable right.type = true)
    (hfits : Fits
      (rs ++ [Request.cell ⟨.temporary, (Typing.result? op left.type right.type).getD .void⟩])) :
    ∃ a, p.operation op left right code = .ok a := by
  obtain ⟨σ, hσ, hoperable⟩ := operable_result hop hl hr
  obtain ⟨base, hbase⟩ := base?_temporary hoperable
  rw [hσ, Option.getD_some] at hfits
  obtain ⟨b, p', hb⟩ := hp.cell_of_fits (.inr rfl) hbase hfits
  exact ⟨_, operation_eq_ok.mpr ⟨σ, b, p', hσ, hb, rfl⟩⟩

/-- A literal that is lowered serves its request. -/
theorem served_literal {l : Literal} {a : Computed} (hp : Served rs p) (h : p.literal l = .ok a) :
    a.operand.type = l.type ∧ Served (rs ++ [Request.literal l]) a.planner ∧ Kept p a.planner ∧
      a.code = [] ∧ ⟨a.operand.address, l⟩ ∈ a.planner.constants := by
  obtain ⟨⟨b, p'⟩, hb, h⟩ := Except.bind_eq_ok.mp h
  cases h
  obtain ⟨hmem, hserved, hkept⟩ := hp.literal hb
  exact ⟨rfl, hserved, hkept, rfl, hmem⟩

/-- A literal is lowered if it fits. -/
theorem literal_of_fits {l : Literal} (hp : Served rs p)
    (hfits : Fits (rs ++ [Request.literal l])) : ∃ a, p.literal l = .ok a := by
  obtain ⟨b, p', hb⟩ := hp.literal_of_fits hfits
  rw [Planner.literal, hb]
  exact ⟨_, rfl⟩

end

/-! ## Expressions -/

/-- What a lowered expression has found out and done. -/
structure Computes {r : Rank} (Γ : Scope) (rs : List Request) (p : Planner) (e : Tree r)
    (a : Computed) : Prop where
  resolves : e.Resolves Γ
  type_eq : a.operand.type = e.type Γ
  served : Served (rs ++ e.requests Γ) a.planner
  kept : Kept p a.planner

/-- Every value that an expression has can be computed with. -/
theorem Computes.operable {r : Rank} {Γ : Scope} {rs : List Request} {p : Planner} {e : Tree r}
    {a : Computed} (h : Computes Γ rs p e a) : Typing.isOperable a.operand.type = true := by
  rw [h.type_eq]
  exact Tree.operable_type h.resolves

/-- Two operands are lowered before their operator. -/
theorem computes_operation {r₁ r₂ : Rank} {Γ : Scope} {rs : List Request} {p : Planner}
    {l : Tree r₁} {r : Tree r₂} {op : Operator} {a b c : Computed} (hop : op ≠ .assign)
    (ha : Computes Γ rs p l a) (hb : Computes Γ (rs ++ l.requests Γ) a.planner r b)
    (hc : b.planner.operation op a.operand b.operand (a.code ++ b.code) = .ok c) :
    c.operand.type = (Typing.result? op (l.type Γ) (r.type Γ)).getD .void ∧
      Served (rs ++ (l.requests Γ ++ r.requests Γ ++ [Request.cell ⟨.temporary, c.operand.type⟩]))
        c.planner ∧
      Kept p c.planner := by
  obtain ⟨htype, hserved, hkept⟩ := served_operation hb.served hop ha.operable hb.operable hc
  refine ⟨?_, ?_, (ha.kept.trans hb.kept).trans hkept⟩
  · rw [htype, ha.type_eq, hb.type_eq]
  · simpa using hserved

/-- An expression that is lowered follows the rules and serves its requests. -/
theorem computes {r : Rank} {Γ : Scope} {env : Environment} (henv : env.Knows Γ) (e : Tree r)
    {rs : List Request} {p : Planner} {a : Computed} (hp : Served rs p)
    (h : e.lower env p = .ok a) : Computes Γ rs p e a := by
  induction e generalizing rs p a with
  | int n | float x =>
    obtain ⟨htype, hserved, hkept, -⟩ := served_literal hp h
    exact ⟨by simp [Tree.Resolves, Tree.names], htype, hserved, hkept⟩
  | name x =>
    obtain ⟨o, ho, h⟩ := Except.bind_eq_ok.mp h
    cases h
    obtain ⟨v, hx, rfl⟩ := henv.find ho
    refine ⟨?_, ?_, by simpa [Tree.requests] using hp, .refl p⟩
    · simp [Tree.Resolves, Tree.names, hx]
    · simp [Tree.type, hx, Variable.operand]
  | group e ih | ofFactor e ih | ofTerm e ih | ofSum e ih =>
    obtain ⟨hresolves, htype, hserved, hkept⟩ := ih hp h
    exact ⟨hresolves, htype, hserved, hkept⟩
  | signed negative e ih =>
    obtain ⟨b, hb, h⟩ := Except.bind_eq_ok.mp h
    obtain ⟨c, hc, h⟩ := Except.bind_eq_ok.mp h
    have hcomputes := ih hp hb
    obtain ⟨htype, hserved, hkept, -⟩ := served_literal hcomputes.served hc
    obtain ⟨htype', hserved', hkept'⟩ :=
      served_operation hserved (by decide) hcomputes.operable (by rw [htype]; rfl) h
    have hresult : a.operand.type = (Tree.signed negative e).type Γ := by
      rw [htype', hcomputes.type_eq, htype]
      rfl
    refine ⟨hcomputes.resolves, hresult, ?_, (hcomputes.kept.trans hkept).trans hkept'⟩
    rw [hresult] at hserved'
    simpa [Tree.requests] using hserved'
  | product l op hop r ihl ihr | addition l op hop r ihl ihr | comparison l op hop r ihl ihr =>
    obtain ⟨b, hb, h⟩ := Except.bind_eq_ok.mp h
    obtain ⟨c, hc, h⟩ := Except.bind_eq_ok.mp h
    have hl := ihl hp hb
    have hr := ihr hl.served hc
    obtain ⟨htype, hserved, hkept⟩ := computes_operation (by rintro rfl; cases hop) hl hr h
    refine ⟨?_, htype, ?_, hkept⟩
    · intro x hx
      exact (List.mem_append.mp hx).elim (hl.resolves x) (hr.resolves x)
    · rw [htype] at hserved
      exact hserved

/-- Being lowered wherever names stand for variables and cells fit. -/
def Lowerable {r : Rank} (Γ : Scope) (env : Environment) (e : Tree r) : Prop :=
  ∀ {rs : List Request} {p : Planner}, Served rs p → e.Resolves Γ → Fits (rs ++ e.requests Γ) →
    ∃ a, e.lower env p = .ok a

/-- Two operands are lowered first; their operator then finds operable types and a cell. -/
theorem lowerable_operation {r₁ r₂ : Rank} {Γ : Scope} {env : Environment} (henv : env.Knows Γ)
    {l : Tree r₁} {r : Tree r₂} {op : Operator} (hop : op ≠ .assign) (ihl : Lowerable Γ env l)
    (ihr : Lowerable Γ env r) {rs : List Request} {p : Planner} (hp : Served rs p)
    (hl : l.Resolves Γ) (hr : r.Resolves Γ)
    (hfits : Fits (rs ++ (l.requests Γ ++ r.requests Γ ++
      [Request.cell ⟨.temporary, (Typing.result? op (l.type Γ) (r.type Γ)).getD .void⟩]))) :
    ∃ c, (do
      let a ← l.lower env p
      let b ← r.lower env a.planner
      b.planner.operation op a.operand b.operand (a.code ++ b.code)) = .ok c := by
  rw [← List.append_assoc, ← List.append_assoc] at hfits
  obtain ⟨a, ha⟩ := ihl hp hl hfits.of_append.of_append
  have hca := computes henv l hp ha
  obtain ⟨b, hb⟩ := ihr hca.served hr hfits.of_append
  have hcb := computes henv r hca.served hb
  rw [← hca.type_eq, ← hcb.type_eq] at hfits
  obtain ⟨c, hc⟩ :=
    operation_of_fits (a.code ++ b.code) hcb.served hop hca.operable hcb.operable hfits
  exact ⟨c, by rw [ha, Except.ok_bind, hb, Except.ok_bind, hc]⟩

/-- An expression is lowered if its names stand for variables and its cells fit. -/
theorem lowerable {r : Rank} {Γ : Scope} {env : Environment} (henv : env.Knows Γ) (e : Tree r) :
    Lowerable Γ env e := by
  intro rs p hp hresolves hfits
  induction e generalizing rs p with
  | int n | float x => exact literal_of_fits hp hfits
  | name x =>
    have hx := hresolves x (List.mem_singleton.mpr rfl)
    obtain ⟨v, hv⟩ := Option.isSome_iff_exists.mp hx
    exact ⟨_, by rw [Tree.lower, henv.some hv]; rfl⟩
  | group e ih | ofFactor e ih | ofTerm e ih | ofSum e ih => exact ih hp hresolves hfits
  | signed negative e ih =>
    rw [Tree.requests, ← List.singleton_append, ← List.append_assoc, ← List.append_assoc] at hfits
    obtain ⟨a, ha⟩ := ih hp hresolves hfits.of_append.of_append
    have hca := computes henv e hp ha
    obtain ⟨b, hb⟩ := literal_of_fits hca.served hfits.of_append
    obtain ⟨htype, hserved, -⟩ := served_literal hca.served hb
    have htb : b.operand.type = .int := htype
    rw [Tree.type, ← hca.type_eq, ← htb] at hfits
    obtain ⟨c, hc⟩ :=
      operation_of_fits a.code hserved (by decide) hca.operable (by rw [htb]; rfl) hfits
    exact ⟨c, by rw [Tree.lower, ha, Except.ok_bind, hb, Except.ok_bind, hc]⟩
  | product l op hop r ihl ihr | addition l op hop r ihl ihr | comparison l op hop r ihl ihr =>
    exact lowerable_operation henv (by rintro rfl; cases hop) ihl ihr hp
      (fun x hx => hresolves x (List.mem_append_left _ hx))
      (fun x hx => hresolves x (List.mem_append_right _ hx)) hfits

end Quadlet
