import Quadlet.Proofs.Static.Expressions
import Quadlet.Proofs.Syntax.Formula

/-!
# Types and cells of formulas

The type of an expression and the cells that it asks for depend on its formula only: one cell for
each result of an operator or sign, and one for each literal that has none yet.
-/

namespace Quadlet

open Syntax Request

/-- The types of the names of a scope. -/
def Syntax.Scope.type? (Γ : Scope) : String → Option ValueType :=
  fun x => (Γ x).map fun v => v.type.type

namespace Syntax.Tree

variable {Γ : Scope}

theorem names_formula {r : Rank} (e : Tree r) : e.formula.names = e.names := by
  induction e with
  | int n | float x | name x => rfl
  | group e ih | ofFactor e ih | ofTerm e ih | ofSum e ih | signed negative e ih => exact ih
  | product l op hop r ihl ihr | addition l op hop r ihl ihr | comparison l op hop r ihl ihr =>
    rw [formula, Formula.names, ihl, ihr, names]

/-- The type of an expression is that of its formula. -/
theorem type?_formula {r : Rank} {e : Tree r} (h : e.Resolves Γ) :
    e.formula.type? Γ.type? = some (e.type Γ) := by
  have hresult {op : Operator} (hop : op ≠ .assign) {τ υ : ValueType}
      (hτ : Typing.isOperable τ = true) (hυ : Typing.isOperable υ = true) :
      Typing.result? op τ υ = some ((Typing.result? op τ υ).getD .void) := by
    obtain ⟨σ, hσ, -⟩ := operable_result hop hτ hυ
    rw [hσ]
    rfl
  induction e with
  | int n | float x => rfl
  | name x =>
    obtain ⟨v, hv⟩ := Option.isSome_iff_exists.mp (h x (List.mem_singleton.mpr rfl))
    simp [formula, Formula.type?, Scope.type?, type, hv]
  | group e ih | ofFactor e ih | ofTerm e ih | ofSum e ih => exact ih h
  | signed negative e ih =>
    rw [formula, Formula.type?, ih h]
    have hmul : Operator.mul ≠ .assign := by decide
    exact hresult hmul (operable_type (e := e) h) rfl
  | product l op hop r ihl ihr | addition l op hop r ihl ihr | comparison l op hop r ihl ihr =>
    have hl : l.Resolves Γ := fun x hx => h x (List.mem_append_left _ hx)
    have hr : r.Resolves Γ := fun x hx => h x (List.mem_append_right _ hx)
    rw [formula, Formula.type?, ihl hl, ihr hr]
    exact hresult (by rintro rfl; cases hop) (operable_type hl) (operable_type hr)

/-- The literals that an expression asks for are those of its formula. -/
theorem literals_requests (Γ : Scope) {r : Rank} (e : Tree r) :
    Request.literals (e.requests Γ) = e.formula.literals := by
  induction e with
  | int n | float x | name x => rfl
  | group e ih | ofFactor e ih | ofTerm e ih | ofSum e ih => exact ih
  | signed negative e ih =>
    rw [requests, literals_append, ih]
    rfl
  | product l op hop r ihl ihr | addition l op hop r ihl ihr | comparison l op hop r ihl ihr =>
    rw [requests, literals_append, literals_append, ihl, ihr]
    exact List.append_nil _

/-- The cells of its own that an expression asks for are for the results of its formula. -/
theorem count_requests {r : Rank} {e : Tree r} (h : e.Resolves Γ) (s : Segment) :
    (e.requests Γ).count (.cell s) =
      if s.lifetime = .temporary then (e.formula.results Γ.type?).count s.type else 0 := by
  have hlast (τ : ValueType) : [Request.cell ⟨.temporary, τ⟩].count (.cell s) =
      if s.lifetime = .temporary then [τ].count s.type else 0 := by
    obtain ⟨l, υ⟩ := s
    simp only [List.count_singleton, beq_iff_eq, Request.cell.injEq, Segment.mk.injEq,
      eq_comm (a := Lifetime.temporary)]
    by_cases hl : l = .temporary <;> simp [hl]
  have hbinary {r₁ r₂ : Rank} {l : Tree r₁} {r : Tree r₂} {τ : ValueType}
      (hl : (l.requests Γ).count (.cell s) =
        if s.lifetime = .temporary then (l.formula.results Γ.type?).count s.type else 0)
      (hr : (r.requests Γ).count (.cell s) =
        if s.lifetime = .temporary then (r.formula.results Γ.type?).count s.type else 0) :
      (l.requests Γ ++ r.requests Γ ++ [Request.cell ⟨.temporary, τ⟩]).count (.cell s) =
        if s.lifetime = .temporary then
          (l.formula.results Γ.type? ++ r.formula.results Γ.type? ++ [τ]).count s.type else 0 := by
    rw [List.count_append, List.count_append, hl, hr, hlast, List.count_append, List.count_append]
    split <;> rfl
  have htype := type?_formula h
  induction e with
  | int n | float x | name x => simp [requests, formula, Formula.results]
  | group e ih | ofFactor e ih | ofTerm e ih | ofSum e ih => exact ih h htype
  | signed negative e ih =>
    rw [formula] at htype
    rw [requests, formula, Formula.results, htype, Option.toList_some, List.count_append,
      List.count_cons_of_ne (by simp), hlast, ih h (type?_formula (e := e) h), List.count_append]
    split <;> rfl
  | product l op hop r ihl ihr | addition l op hop r ihl ihr | comparison l op hop r ihl ihr =>
    have hl : l.Resolves Γ := fun x hx => h x (List.mem_append_left _ hx)
    have hr : r.Resolves Γ := fun x hx => h x (List.mem_append_right _ hx)
    rw [formula] at htype
    rw [requests, formula, Formula.results, htype]
    exact hbinary (ihl hl (type?_formula hl)) (ihr hr (type?_formula hr))

end Syntax.Tree

/-- What requests demand behind others: their own cells, and those of the literals that are new. -/
theorem Syntax.Request.demand_append (rs ss : List Request) (s : Segment) :
    demand (rs ++ ss) s = demand rs s + (ss.count (.cell s) +
      ((literals ss).removeAll (literals rs)).eraseDups.countP fun l =>
        s = ⟨.constant, l.type⟩) := by
  simp only [demand, literals_append, List.count_append, List.eraseDups_append, List.countP_append]
  omega

end Quadlet
