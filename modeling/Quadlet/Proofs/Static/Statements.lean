import Quadlet.Proofs.Lowering.Program
import Quadlet.Proofs.Static.Expressions

/-!
# Which statements are lowered

A statement is lowered exactly if it follows the rules and its cells fit; the planner has then
served the requests of the statement.
-/

namespace Quadlet

open Syntax Request Planner

/-- A function with its identity and the place of its body. -/
structure Routine where
  function : Function
  id : Address
  start : Nat
  /-- The index behind the last quadruple of the body. -/
  past : Nat

/-- What a call needs to know of a routine. -/
def Routine.callee (r : Routine) : Callee := ⟨r.id, r.function.types, some r.start⟩

/-- An environment in which exactly some routines can be called. -/
structure Environment.Calls (env : Environment) (callable : List Routine) : Prop where
  known : ∀ {r}, r ∈ callable → env.callee r.function.name = .ok r.callee
  only : ∀ {f c}, env.callee f = .ok c → ∃ r ∈ callable, r.function.name = f

/-- Whatever can be called is a routine. -/
theorem Environment.Calls.find {env : Environment} {callable : List Routine}
    (h : env.Calls callable) {f : String} {c : Callee} (hc : env.callee f = .ok c) :
    ∃ r ∈ callable, f = r.function.name ∧ c = r.callee := by
  obtain ⟨r, hr, rfl⟩ := h.only hc
  exact ⟨r, hr, rfl, Except.ok.inj (hc.symm.trans (h.known hr))⟩

/-- Arguments of the right number are accepted exactly if their types are
those of the parameters. -/
theorem checkArguments_eq_ok {f : String} {position : Nat} {parameters arguments : List ValueType}
    (hlength : arguments.length = parameters.length) :
    checkArguments f position parameters arguments = .ok () ↔ arguments = parameters := by
  induction parameters generalizing position arguments with
  | nil =>
    cases arguments with
    | nil => simp [checkArguments]
    | cons found arguments => cases hlength
  | cons expected parameters ih =>
    cases arguments with
    | nil => cases hlength
    | cons found arguments =>
      by_cases hsame : expected = found
      · subst hsame
        simp [checkArguments, ih (Nat.succ.inj hlength)]
      · simp [checkArguments, hsame, Ne.symm hsame]

section

variable {Γ : Scope} {env : Environment} {callable : List Routine} {rs : List Request} {p : Planner}

/-- What lowered code has done to a planner. -/
structure Serves (p : Planner) (rs : List Request) (p' : Planner) : Prop where
  served : Served rs p'
  kept : Kept p p'

/-- A printed item that is lowered follows the rules. -/
theorem serves_item (henv : env.Knows Γ) {i : Item} {a : Computed} (hp : Served rs p)
    (h : i.computed env p = .ok a) : i.Resolves Γ ∧ Serves p (rs ++ i.requests Γ) a.planner := by
  cases i with
  | text s =>
    obtain ⟨-, hserved, hkept, -⟩ := served_literal hp h
    exact ⟨trivial, hserved, hkept⟩
  | value e =>
    have hcomputes := computes henv e hp h
    exact ⟨hcomputes.resolves, hcomputes.served, hcomputes.kept⟩

/-- Printed items that are lowered follow the rules. -/
theorem serves_items (henv : env.Knows Γ) {is : List Item} {l : Laid} (hp : Served rs p)
    (h : Item.Lowers env is p l) :
    (∀ i ∈ is, i.Resolves Γ) ∧ Serves p (rs ++ is.flatMap (Item.requests Γ)) l.planner := by
  induction h generalizing rs with
  | nil p => exact ⟨by simp, by simpa using hp, .refl p⟩
  | @cons i is p a l first more ih =>
    obtain ⟨hi, hitem⟩ := serves_item henv hp first
    obtain ⟨hresolves, hserved, hkept⟩ := ih hitem.served
    exact ⟨List.forall_mem_cons.mpr ⟨hi, hresolves⟩, by simpa using hserved, hitem.kept.trans hkept⟩

/-- Printed items are lowered if they follow the rules and fit. -/
theorem items_of_fits (henv : env.Knows Γ) (is : List Item) (hp : Served rs p)
    (hresolves : ∀ i ∈ is, i.Resolves Γ) (hfits : Fits (rs ++ is.flatMap (Item.requests Γ))) :
    ∃ l, Item.Lowers env is p l := by
  induction is generalizing rs p with
  | nil => exact ⟨_, .nil p⟩
  | cons i is ih =>
    rw [List.flatMap_cons, ← List.append_assoc] at hfits
    obtain ⟨hi, hresolves⟩ := List.forall_mem_cons.mp hresolves
    have hitem : ∃ a, i.computed env p = .ok a := by
      cases i with
      | text s => exact literal_of_fits hp hfits.of_append
      | value e => exact lowerable henv e hp hi hfits.of_append
    obtain ⟨a, ha⟩ := hitem
    obtain ⟨l, hl⟩ := ih (serves_item henv hp ha).2.served hresolves hfits
    exact ⟨_, .cons ha hl⟩

/-- Arguments that are lowered follow the rules. -/
theorem serves_arguments (henv : env.Knows Γ) {es : List Expression} {k : Nat} {l : Laid}
    {types : List ValueType} (hp : Served rs p) (h : Tree.LowersArguments env k es p l types) :
    (∀ e ∈ es, e.Resolves Γ) ∧ types = es.map (Tree.type Γ) ∧
      Serves p (rs ++ es.flatMap (Tree.requests Γ)) l.planner := by
  induction h generalizing rs with
  | nil k p => exact ⟨by simp, rfl, by simpa using hp, .refl p⟩
  | @cons k e es p a l types first more ih =>
    have hcomputes := computes henv e hp first
    obtain ⟨hresolves, htypes, hserved, hkept⟩ := ih hcomputes.served
    refine ⟨List.forall_mem_cons.mpr ⟨hcomputes.resolves, hresolves⟩, ?_, ?_,
      hcomputes.kept.trans hkept⟩
    · rw [List.map_cons, ← htypes, ← hcomputes.type_eq]
    · simpa using hserved

/-- Arguments are lowered if they follow the rules and fit. -/
theorem arguments_of_fits (henv : env.Knows Γ) (es : List Expression) (k : Nat) (hp : Served rs p)
    (hresolves : ∀ e ∈ es, e.Resolves Γ) (hfits : Fits (rs ++ es.flatMap (Tree.requests Γ))) :
    ∃ l types, Tree.LowersArguments env k es p l types := by
  induction es generalizing rs p k with
  | nil => exact ⟨_, _, .nil k p⟩
  | cons e es ih =>
    rw [List.flatMap_cons, ← List.append_assoc] at hfits
    obtain ⟨he, hresolves⟩ := List.forall_mem_cons.mp hresolves
    obtain ⟨a, ha⟩ := lowerable henv e hp he hfits.of_append
    obtain ⟨l, types, hl⟩ := ih (k + 1) (computes henv e hp ha).served hresolves hfits
    exact ⟨_, _, .cons ha hl⟩

/-- The rule for assigned values is that of the operator. -/
theorem assignable {σ : Numeric} {τ : ValueType} (hτ : Typing.isOperable τ = true) :
    (∃ υ, Typing.result .assign σ.type τ = .ok υ) ↔ τ ≠ .bool := by
  cases τ with
  | void | string => cases hτ
  | bool => cases σ <;> simp [Typing.result, Typing.result?, Numeric.type, Typing.isOperable]
  | int | float => exact ⟨fun _ => by decide, fun _ => by cases σ <;> exact ⟨_, rfl⟩⟩

/-- A statement or block that is lowered follows the rules and serves its requests. -/
theorem serves {r : Role} (henv : env.Knows Γ) (hcalls : env.Calls callable) {s : Phrase r}
    {start : Nat} {l : Laid} (hp : Served rs p) (h : s.Lowers env start p l) :
    s.WellTyped Γ (callable.map Routine.function) ∧ Serves p (rs ++ s.requests Γ) l.planner := by
  induction h generalizing rs with
  | assign name value type =>
    have he := computes henv _ hp value
    obtain ⟨v, hx, rfl⟩ := henv.find name
    rw [he.type_eq] at type
    refine ⟨⟨by simp [hx], he.resolves, ?_⟩, he.served, he.kept⟩
    exact (assignable (Tree.operable_type he.resolves)).mp ⟨_, type⟩
  | branch guard bool body ih =>
    have hg := computes henv _ hp guard
    obtain ⟨hb, hserved, hkept⟩ := ih hg.served
    refine ⟨⟨hg.resolves, hg.type_eq ▸ bool, hb⟩, ?_, hg.kept.trans hkept⟩
    rw [Phrase.requests, ← List.append_assoc]
    exact hserved
  | choice guard bool body other ihb iho =>
    have hg := computes henv _ hp guard
    obtain ⟨hb, hserved, hkept⟩ := ihb hg.served
    obtain ⟨ho, hserved', hkept'⟩ := iho hserved
    refine ⟨⟨hg.resolves, hg.type_eq ▸ bool, hb, ho⟩, ?_, (hg.kept.trans hkept).trans hkept'⟩
    rw [Phrase.requests, ← List.append_assoc, ← List.append_assoc]
    exact hserved'
  | loop body guard bool ih =>
    obtain ⟨hb, hserved, hkept⟩ := ih hp
    have hg := computes henv _ hserved guard
    refine ⟨⟨hb, hg.resolves, hg.type_eq ▸ bool⟩, ?_, hkept.trans hg.kept⟩
    rw [Phrase.requests, ← List.append_assoc]
    exact hg.served
  | call callee arguments count checked body =>
    obtain ⟨hresolves, rfl, hserves⟩ := serves_arguments henv hp arguments
    obtain ⟨g, hg, rfl, rfl⟩ := hcalls.find callee
    have htypes := (checkArguments_eq_ok count).mp checked
    exact ⟨⟨⟨g.function, List.mem_map_of_mem hg, rfl, htypes⟩, hresolves⟩, hserves⟩
  | print items => exact serves_items henv hp items
  | nil start p => exact ⟨trivial, by simpa [Phrase.requests] using hp, .refl p⟩
  | cons first more ihfirst ihmore =>
    obtain ⟨hs, hserved, hkept⟩ := ihfirst hp
    obtain ⟨hrest, hserved', hkept'⟩ := ihmore hserved
    refine ⟨⟨hs, hrest⟩, ?_, hkept.trans hkept'⟩
    rw [Phrase.requests, ← List.append_assoc]
    exact hserved'

/-- A statement or block is lowered if it follows the rules and its cells fit. -/
theorem phrase_of_fits {r : Role} (henv : env.Knows Γ) (hcalls : env.Calls callable) (s : Phrase r)
    (start : Nat) (hp : Served rs p) (hs : s.WellTyped Γ (callable.map Routine.function))
    (hfits : Fits (rs ++ s.requests Γ)) : ∃ l, s.Lowers env start p l := by
  induction s generalizing rs p start with
  | assign x e =>
    obtain ⟨hx, hresolves, htype⟩ := hs
    obtain ⟨v, hv⟩ := Option.isSome_iff_exists.mp hx
    obtain ⟨a, ha⟩ := lowerable henv e hp hresolves hfits
    obtain ⟨τ, hτ⟩ := (assignable (σ := v.type) (Tree.operable_type hresolves)).mpr htype
    rw [← (computes henv e hp ha).type_eq] at hτ
    exact ⟨_, .assign (henv.some hv) ha hτ⟩
  | branch g b ih =>
    obtain ⟨hresolves, htype, hb⟩ := hs
    rw [Phrase.requests, ← List.append_assoc] at hfits
    obtain ⟨a, ha⟩ := lowerable henv g hp hresolves hfits.of_append
    have hg := computes henv g hp ha
    obtain ⟨l, hl⟩ := ih (start + a.code.length + 1) hg.served hb hfits
    exact ⟨_, .branch ha (hg.type_eq.trans htype) hl⟩
  | choice g b c ihb ihc =>
    obtain ⟨hresolves, htype, hb, hc⟩ := hs
    rw [Phrase.requests, ← List.append_assoc, ← List.append_assoc] at hfits
    obtain ⟨a, ha⟩ := lowerable henv g hp hresolves hfits.of_append.of_append
    have hg := computes henv g hp ha
    obtain ⟨l, hl⟩ := ihb (start + a.code.length + 1) hg.served hb hfits.of_append
    obtain ⟨m, hm⟩ := ihc (start + a.code.length + 1 + l.code.length + 1)
      (serves henv hcalls hg.served hl).2.served hc hfits
    exact ⟨_, .choice ha (hg.type_eq.trans htype) hl hm⟩
  | loop b g ih =>
    obtain ⟨hb, hresolves, htype⟩ := hs
    rw [Phrase.requests, ← List.append_assoc] at hfits
    obtain ⟨l, hl⟩ := ih start hp hb hfits.of_append
    have hserved := (serves henv hcalls hp hl).2.served
    obtain ⟨a, ha⟩ := lowerable henv g hserved hresolves hfits
    exact ⟨_, .loop hl ha ((computes henv g hserved ha).type_eq.trans htype)⟩
  | call f es =>
    obtain ⟨⟨_, hmem, rfl, htypes⟩, hresolves⟩ := hs
    obtain ⟨g, hg, rfl⟩ := List.mem_map.mp hmem
    obtain ⟨l, types, hl⟩ := arguments_of_fits henv es 0 hp hresolves hfits
    obtain ⟨-, hfound, -⟩ := serves_arguments henv hp hl
    have hequal : types = g.callee.parameters := hfound.trans htypes
    have hcount := congrArg List.length hequal
    exact ⟨_, .call (hcalls.known hg) hl hcount ((checkArguments_eq_ok hcount).mpr hequal) rfl⟩
  | print i is =>
    obtain ⟨l, hl⟩ := items_of_fits henv (i :: is) hp hs hfits
    exact ⟨l, .print hl⟩
  | nil => exact ⟨_, .nil start p⟩
  | cons s rest ihs ihr =>
    obtain ⟨hs, hrest⟩ := hs
    rw [Phrase.requests, ← List.append_assoc] at hfits
    obtain ⟨l, hl⟩ := ihs start hp hs hfits.of_append
    obtain ⟨m, hm⟩ := ihr (start + l.code.length) (serves henv hcalls hp hl).2.served hrest hfits
    exact ⟨_, .cons hl hm⟩

end

end Quadlet
