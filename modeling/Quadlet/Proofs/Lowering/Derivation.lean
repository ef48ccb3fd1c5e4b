import Quadlet.Proofs.Lowering.Basic

/-!
# Rules of lowering

When printed items, arguments and statements are lowered, and to what, by one rule for each way to
succeed. Whatever holds of all lowered code is proved by induction over the rules, so that the
lowering of statements is opened here and nowhere else.
-/

namespace Quadlet.Syntax

variable {env : Environment}

/-! ## Printed items and arguments -/

/-- Printed items are lowered one by one. -/
inductive Item.Lowers (env : Environment) : List Item → Planner → Laid → Prop where
  | nil (p : Planner) : Lowers env [] p ⟨[], p⟩
  | cons {i : Item} {is : List Item} {p : Planner} {a : Computed} {l : Laid}
    (first : i.computed env p = .ok a) (more : Lowers env is a.planner l) :
    Lowers env (i :: is) p ⟨a.code ++ [⟨.print, a.operand.address, unused, unused⟩] ++ l.code,
      l.planner⟩

private theorem Item.lowerAll_eq_ok {is : List Item} {p : Planner} {l : Laid} :
    Item.lowerAll env is p = .ok l ↔ Item.Lowers env is p l := by
  constructor
  · intro h
    induction is generalizing p l with
    | nil =>
      cases h
      exact .nil p
    | cons i is ih =>
      obtain ⟨b, hb, h⟩ := Except.bind_eq_ok.mp h
      obtain ⟨l, hl, h⟩ := Except.bind_eq_ok.mp h
      cases h
      obtain ⟨a, ha, hb⟩ := Except.bind_eq_ok.mp hb
      cases hb
      exact .cons ha (ih hl)
  · intro h
    induction h with
    | nil p => rfl
    | cons first more ih =>
      refine Except.bind_eq_ok.mpr ⟨_, Except.bind_eq_ok.mpr ⟨_, first, rfl⟩, ?_⟩
      exact Except.bind_eq_ok.mpr ⟨_, ih, rfl⟩

/-- Arguments are lowered one by one, and counted on from a position. -/
inductive Tree.LowersArguments (env : Environment) :
    Nat → List Expression → Planner → Laid → List ValueType → Prop where
  | nil (k : Nat) (p : Planner) : LowersArguments env k [] p ⟨[], p⟩ []
  | cons {k : Nat} {e : Expression} {es : List Expression} {p : Planner} {a : Computed} {l : Laid}
    {types : List ValueType} (first : e.lower env p = .ok a)
    (more : LowersArguments env (k + 1) es a.planner l types) :
    LowersArguments env k (e :: es) p ⟨a.code ++ ⟨.param, a.operand.address, unused, k⟩ :: l.code,
        l.planner⟩
      (a.operand.type :: types)

theorem Tree.lowerArguments_eq_ok {k : Nat} {es : List Expression} {p : Planner} {l : Laid}
    {types : List ValueType} :
    Tree.lowerArguments env k es p = .ok (l, types) ↔ Tree.LowersArguments env k es p l types := by
  constructor
  · intro h
    induction es generalizing k p l types with
    | nil =>
      cases h
      exact .nil k p
    | cons e es ih =>
      obtain ⟨a, ha, h⟩ := Except.bind_eq_ok.mp h
      obtain ⟨⟨l, types⟩, hl, h⟩ := Except.bind_eq_ok.mp h
      cases h
      exact .cons ha (ih hl)
  · intro h
    induction h with
    | nil k p => rfl
    | cons first more ih =>
      exact Except.bind_eq_ok.mpr ⟨_, first, Except.bind_eq_ok.mpr ⟨_, ih, rfl⟩⟩

/-! ## Statements -/

/-- A guard is lowered exactly if it is as an expression, with the type `bool`. -/
theorem Tree.lowerGuard_eq_ok {construct : String} {g : Expression} {p : Planner} {a : Computed} :
    g.lowerGuard construct env p = .ok a ↔ g.lower env p = .ok a ∧ a.operand.type = .bool := by
  rw [Tree.lowerGuard, Except.bind_eq_ok]
  constructor
  · rintro ⟨b, hb, h⟩
    by_cases hbool : b.operand.type = .bool
    · simp only [hbool, ne_eq, not_true_eq_false, if_false, Except.pure_eq, Except.ok.injEq] at h
      exact ⟨h ▸ hb, h ▸ hbool⟩
    · simp [hbool] at h
  · rintro ⟨ha, hbool⟩
    exact ⟨a, ha, by simp [hbool]⟩

/-- A statement or a block is lowered from an index on. A jump is laid down with its target: in
front of the branch that it skips, or behind the body that it repeats. -/
inductive Phrase.Lowers (env : Environment) :
    {r : Role} → Phrase r → Nat → Planner → Laid → Prop where
  | assign {x : String} {e : Expression} {start : Nat} {p : Planner} {target : Operand}
    {a : Computed} {τ : ValueType} (name : env.operand x = .ok target)
    (value : e.lower env p = .ok a)
      (type : Typing.result .assign target.type a.operand.type = .ok τ) :
    Lowers env (.assign x e) start p
      ⟨a.code ++ [⟨.assign, a.operand.address, unused, target.address⟩], a.planner⟩
  | branch {g : Expression} {b : Block} {start : Nat} {p : Planner} {a : Computed} {l : Laid}
    (guard : g.lower env p = .ok a) (bool : a.operand.type = .bool)
    (body : Lowers env b (start + a.code.length + 1) a.planner l) :
    Lowers env (.branch g b) start p
      ⟨a.code ++ ⟨.gotoFalse, a.operand.address, unused,
        (start + a.code.length + 1 + l.code.length : Nat)⟩ :: l.code, l.planner⟩
  | choice {g : Expression} {b c : Block} {start : Nat} {p : Planner} {a : Computed} {l m : Laid}
    (guard : g.lower env p = .ok a) (bool : a.operand.type = .bool)
    (body : Lowers env b (start + a.code.length + 1) a.planner l)
    (other : Lowers env c (start + a.code.length + 1 + l.code.length + 1) l.planner m) :
    Lowers env (.choice g b c) start p
      ⟨a.code ++ ⟨.gotoFalse, a.operand.address, unused,
        (start + a.code.length + 1 + l.code.length + 1 : Nat)⟩ :: l.code ++ ⟨.goto, unused, unused,
        (start + a.code.length + 1 + l.code.length + 1 + m.code.length : Nat)⟩ :: m.code, m.planner⟩
  | loop {b : Block} {g : Expression} {start : Nat} {p : Planner} {l : Laid} {a : Computed}
    (body : Lowers env b start p l) (guard : g.lower env l.planner = .ok a)
    (bool : a.operand.type = .bool) :
    Lowers env (.loop b g) start p
      ⟨l.code ++ a.code ++ [⟨.gotoTrue, a.operand.address, unused, start⟩], a.planner⟩
  | call {f : String} {es : List Expression} {start : Nat} {p : Planner} {c : Callee} {l : Laid}
    {types : List ValueType} {entry : Nat} (callee : env.callee f = .ok c)
    (arguments : Tree.LowersArguments env 0 es p l types)
      (count : types.length = c.parameters.length)
    (checked : checkArguments f 1 c.parameters types = .ok ()) (body : c.start = some entry) :
    Lowers env (.call f es) start p
      ⟨⟨.allocate, c.id, unused, unused⟩ :: l.code ++ [⟨.call, c.id, unused, entry⟩], l.planner⟩
  | print {i : Item} {is : List Item} {start : Nat} {p : Planner} {l : Laid}
    (items : Item.Lowers env (i :: is) p l) : Lowers env (.print i is) start p l
  | nil (start : Nat) (p : Planner) : Lowers env .nil start p ⟨[], p⟩
  | cons {s : Statement} {rest : Block} {start : Nat} {p : Planner} {l m : Laid}
    (first : Lowers env s start p l) (more : Lowers env rest (start + l.code.length) l.planner m) :
    Lowers env (.cons s rest) start p ⟨l.code ++ m.code, m.planner⟩

namespace Phrase

/-- A call that is lowered has found a function with a body and with parameters of the
types of its arguments. -/
theorem lowers_call {f : String} {es : List Expression} {start : Nat} {p : Planner} {l : Laid}
    (h : (Phrase.call f es).lower env start p = .ok l) :
    (Phrase.call f es).Lowers env start p l := by
  obtain ⟨c, hc, h⟩ := Except.bind_eq_ok.mp h
  obtain ⟨⟨a, types⟩, ha, h⟩ := Except.bind_eq_ok.mp h
  by_cases hcount : types.length = c.parameters.length
  · simp only [hcount, ne_eq, not_true_eq_false, if_false] at h
    obtain ⟨⟨⟩, hchecked, h⟩ := Except.bind_eq_ok.mp h
    cases hbody : c.start with
    | none => simp [hbody] at h
    | some entry =>
      simp only [hbody, Except.pure_eq, Except.ok.injEq] at h
      rw [← h]
      exact .call hc (Tree.lowerArguments_eq_ok.mp ha) hcount hchecked hbody
  · simp [hcount] at h

theorem lowers_of_lower {r : Role} {s : Phrase r} {start : Nat} {p : Planner} {l : Laid}
    (h : s.lower env start p = .ok l) : s.Lowers env start p l := by
  induction s generalizing start p l with
  | assign x e =>
    obtain ⟨target, htarget, h⟩ := Except.bind_eq_ok.mp h
    obtain ⟨a, ha, h⟩ := Except.bind_eq_ok.mp h
    obtain ⟨τ, hτ, h⟩ := Except.bind_eq_ok.mp h
    cases h
    exact .assign htarget ha hτ
  | branch g b ih =>
    obtain ⟨a, ha, h⟩ := Except.bind_eq_ok.mp h
    obtain ⟨l, hl, h⟩ := Except.bind_eq_ok.mp h
    cases h
    obtain ⟨hguard, hbool⟩ := Tree.lowerGuard_eq_ok.mp ha
    exact .branch hguard hbool (ih hl)
  | choice g b c ihb ihc =>
    obtain ⟨a, ha, h⟩ := Except.bind_eq_ok.mp h
    obtain ⟨l, hl, h⟩ := Except.bind_eq_ok.mp h
    obtain ⟨m, hm, h⟩ := Except.bind_eq_ok.mp h
    cases h
    obtain ⟨hguard, hbool⟩ := Tree.lowerGuard_eq_ok.mp ha
    exact .choice hguard hbool (ihb hl) (ihc hm)
  | loop b g ih =>
    obtain ⟨l, hl, h⟩ := Except.bind_eq_ok.mp h
    obtain ⟨a, ha, h⟩ := Except.bind_eq_ok.mp h
    cases h
    obtain ⟨hguard, hbool⟩ := Tree.lowerGuard_eq_ok.mp ha
    exact .loop (ih hl) hguard hbool
  | call f es => exact lowers_call h
  | print i is => exact .print (Item.lowerAll_eq_ok.mp h)
  | nil =>
    cases h
    exact .nil start p
  | cons s rest ihs ihrest =>
    obtain ⟨l, hl, h⟩ := Except.bind_eq_ok.mp h
    obtain ⟨m, hm, h⟩ := Except.bind_eq_ok.mp h
    cases h
    exact .cons (ihs hl) (ihrest hm)

theorem Lowers.lower {r : Role} {s : Phrase r} {start : Nat} {p : Planner} {l : Laid}
    (h : s.Lowers env start p l) : s.lower env start p = .ok l := by
  induction h with
  | assign name value type =>
    exact Except.bind_eq_ok.mpr ⟨_, name,
      Except.bind_eq_ok.mpr ⟨_, value, Except.bind_eq_ok.mpr ⟨_, type, rfl⟩⟩⟩
  | branch guard bool body ih =>
    refine Except.bind_eq_ok.mpr ⟨_, Tree.lowerGuard_eq_ok.mpr ⟨guard, bool⟩, ?_⟩
    exact Except.bind_eq_ok.mpr ⟨_, ih, rfl⟩
  | choice guard bool body other ihb iho =>
    refine Except.bind_eq_ok.mpr ⟨_, Tree.lowerGuard_eq_ok.mpr ⟨guard, bool⟩, ?_⟩
    exact Except.bind_eq_ok.mpr ⟨_, ihb, Except.bind_eq_ok.mpr ⟨_, iho, rfl⟩⟩
  | loop body guard bool ih =>
    refine Except.bind_eq_ok.mpr ⟨_, ih, ?_⟩
    exact Except.bind_eq_ok.mpr ⟨_, Tree.lowerGuard_eq_ok.mpr ⟨guard, bool⟩, rfl⟩
  | call callee arguments count checked body =>
    refine Except.bind_eq_ok.mpr ⟨_, callee,
      Except.bind_eq_ok.mpr ⟨_, Tree.lowerArguments_eq_ok.mpr arguments, ?_⟩⟩
    simp [count, checked, body]
  | print items => exact Item.lowerAll_eq_ok.mpr items
  | nil start p => rfl
  | cons first more ihfirst ihmore =>
    exact Except.bind_eq_ok.mpr ⟨_, ihfirst, Except.bind_eq_ok.mpr ⟨_, ihmore, rfl⟩⟩

end Phrase

end Quadlet.Syntax
