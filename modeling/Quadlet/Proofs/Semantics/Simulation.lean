import Quadlet.Proofs.Semantics.Expressions

/-!
# Simulation of actions

What it means that the machine does what an action of the interpreter does: it goes on where the
action succeeds, fails where the action fails, and goes on for long where the bound cuts the action
off. Rows of actions are simulated if their parts are.
-/

namespace Quadlet

open Syntax Request Planner

/-- An object file and a printer that takes everything, in the state in which
the program finds it. -/
structure Session (ω : Type) where
  object : ObjectFile
  write : String → ω → ω
  out : ω

namespace Session

variable {ω α β : Type}

/-- The state of the printer when it has taken some lines. -/
def delivered (S : Session ω) (lines : List String) : ω := Printer.deliver S.write S.out lines

theorem delivered_append (S : Session ω) (lines : List String) (line : String) :
    S.delivered (lines ++ [line]) = S.write "\n" (S.write line (S.delivered lines)) := by
  rw [delivered, Printer.deliver, List.foldl_append]
  rfl

variable (S : Session ω)

/-- A number of steps lead from one place to another. -/
abbrev Goes (n : Nat) (c d : Config ω) : Prop :=
  Config.Goes (.total S.write) S.object.quadruples n c d

/-- A number of steps from a place, the last of them fails. -/
abbrev Fails (n : Nat) (c : Config ω) (e : Error) (out : ω) : Prop :=
  Config.Fails (.total S.write) S.object.quadruples n c e out

/-- From a place on, the machine does what an action does that has a result. If the action is cut
off, the machine takes at least `n` steps. -/
def Simulates (n : Nat) (c : Config ω) (post : α → World → Config ω → Prop) :
    EStateM.Result Stop World α → Prop
  | .ok a w => ∃ k d, S.Goes k c d ∧ post a w d
  | .error (.failed e) w => Trap S.object e ∧ ∃ k, S.Fails k c e (S.delivered w.lines)
  | .error .cut w => ∃ k d, n ≤ k ∧ S.Goes k c d ∧ d.ip < S.object.quadruples.size ∧
    d.out = S.delivered w.lines

variable {S} {n k : Nat} {c d : Config ω} {w : World}

namespace Simulates

variable {post : α → World → Config ω → Prop} {result : EStateM.Result Stop World α}

/-- Nothing is left to be done. -/
theorem ok {a : α} (h : post a w c) : S.Simulates n c post (.ok a w) := ⟨0, c, .refl c, h⟩

/-- Steps in front count. -/
theorem after (hgoes : S.Goes k c d) (h : S.Simulates n d post result) :
    S.Simulates (k + n) c post result := by
  cases result with
  | ok a w =>
    obtain ⟨k', d', hgoes', hpost⟩ := h
    exact ⟨k + k', d', hgoes.trans hgoes', hpost⟩
  | error stop w =>
    cases stop with
    | failed e =>
      obtain ⟨htrap, k', hfails⟩ := h
      exact ⟨htrap, k + k', hgoes.fails hfails⟩
    | cut =>
      obtain ⟨k', d', hn, hgoes', hrest⟩ := h
      exact ⟨k + k', d', Nat.add_le_add_left hn k, hgoes.trans hgoes', hrest⟩

/-- A bound may be lowered. -/
theorem mono {n' : Nat} (hn : n ≤ n') (h : S.Simulates n' c post result) :
    S.Simulates n c post result := by
  cases result with
  | ok a w => exact h
  | error stop w =>
    cases stop with
    | failed e => exact h
    | cut =>
      obtain ⟨k, d, hk, hrest⟩ := h
      exact ⟨k, d, Nat.le_trans hn hk, hrest⟩

/-- Steps in front need not count. -/
theorem behind (hgoes : S.Goes k c d) (h : S.Simulates n d post result) :
    S.Simulates n c post result :=
  (h.after hgoes).mono (Nat.le_add_left n k)

/-- Actions one after the other. -/
theorem bind {x : Action α} {f : α → Action β} {post' : β → World → Config ω → Prop}
    (h : S.Simulates n c post (x w)) (hnext : ∀ a w d, post a w d → S.Simulates n d post' (f a w)) :
    S.Simulates n c post' ((x >>= f) w) := by
  cases hx : x w with
  | ok a w' =>
    rw [hx] at h
    obtain ⟨k, d, hgoes, hpost⟩ := h
    rw [EStateM.bind_of_ok hx]
    exact (hnext a w' d hpost).behind hgoes
  | error stop w' =>
    rw [hx] at h
    rw [EStateM.bind_of_error hx]
    cases stop <;> exact h

/-- Steps behind an action that belong to nothing in it. -/
theorem finish {post' : α → World → Config ω → Prop} (h : S.Simulates n c post result)
    (hlast : ∀ a w d, post a w d → ∃ k e, S.Goes k d e ∧ post' a w e) :
    S.Simulates n c post' result := by
  cases result with
  | ok a w =>
    obtain ⟨k, d, hgoes, hpost⟩ := h
    obtain ⟨k', e, hgoes', hpost'⟩ := hlast a w d hpost
    exact ⟨k + k', e, hgoes.trans hgoes', hpost'⟩
  | error stop w => cases stop <;> exact h

end Simulates

/-! ## Places -/

variable (S)

/-- A place that shows a world, with the calls of some routines active and with frames that wait. -/
structure Stands (stack : List Routine) (waiting : List Frame) (w : World)
    (returns : List Nat) (ip : Nat) (c : Config ω) : Prop where
  mirrors : Mirrors S.object stack waiting w c.memory
  out : c.out = S.delivered w.lines
  returns : c.returns = returns
  ip : c.ip = ip

/-- A place in front of a quadruple that reads a value from an operand. -/
structure Ready (stack : List Routine) (waiting : List Frame) (w : World)
    (returns : List Nat) (ip : Nat) (a : Operand) (x : Value) (w' : World) (c : Config ω) :
    Prop where
  same : w' = w
  stands : S.Stands stack waiting w returns ip c
  value : c.memory.read a.address = .ok x
  type : x.type = a.type

variable {S} {stack : List Routine} {waiting : List Frame} {returns : List Nat} {ip : Nat}

/-- Another memory that shows the world, somewhere else in the program. -/
theorem Stands.move (h : S.Stands stack waiting w returns ip c) {stack' : List Routine}
    {waiting' : List Frame} {w' : World} {m : Memory} (hm : Mirrors S.object stack' waiting' w' m)
    (hlines : w'.lines = w.lines) (ip' : Nat) :
    S.Stands stack' waiting' w' returns ip' (c.move m ip') :=
  ⟨hm, hlines ▸ h.out, h.returns, rfl⟩

end Session

/-- A quadruple that fails where a value cannot be read. -/
def Quadruple.Consumes (q : Quadruple) (a : Address) : Prop :=
  ∀ (ω : Type) (printer : Printer ω) (m : Machine) (out : ω) (e : Error),
    m.memory.read a = .error e → Machine.step printer q (m, out) = .error e (m, out)

namespace Session

variable {ω : Type} {S : Session ω} {stack : List Routine} {waiting : List Frame} {w : World}
  {returns : List Nat} {ip n k : Nat} {c : Config ω} {rs rs' : List Request} {a : Operand}

/-- Code for something that can be read, in front of a quadruple that reads it, does what
asking for its value does. -/
theorem Stands.ask (hc : S.Stands stack waiting w returns ip c) {x : Except Error Reading}
    (hx : Yields (.total S.write) S.object c k (Evaluated S.object stack waiting w rs rs'
      c.memory a) x)
    {q : Quadruple} (hq : S.object.quadruples[ip + k]? = some q) (hconsumes : q.Consumes a.address)
    {f : World → Except Error Value} (hf : f w = x >>= w.fetch) :
    S.Simulates n c (S.Ready stack waiting w returns (ip + k) a) (Action.ask f w) := by
  rw [Action.ask, hf]
  cases x with
  | error e =>
    obtain ⟨htrap, j, hfails⟩ := hx
    exact ⟨htrap, j, hc.out ▸ hfails⟩
  | ok r =>
    obtain ⟨m, hgoes, hevaluated⟩ := hx
    rw [hc.ip] at hgoes
    have hstands := hc.move hevaluated.mirrors rfl (ip + k)
    have hread := hevaluated.leaves.read hevaluated.mirrors
    rw [Except.ok_bind]
    cases hr : w.fetch r with
    | error e =>
      rw [hr] at hread
      have hfails : S.Fails 1 (c.move m (ip + k)) e (S.delivered w.lines) := by
        rw [← hstands.out]
        exact Config.fails_step hq fun steps => hconsumes _ _ _ _ _ hread
      exact ⟨hevaluated.leaves.trap hr, k + 1, hgoes.fails hfails⟩
    | ok y =>
      rw [hr] at hread
      exact ⟨k, _, hgoes, rfl, hstands, hread, hevaluated.leaves.type hr⟩

/-- The code of an expression, in front of a quadruple that reads its operand, does what
asking for its value does. -/
theorem Stands.value (hc : S.Stands stack waiting w returns ip c) {rank : Rank} {Γ : Scope}
    {env : Environment} (henv : env.Knows Γ) (hΓ : ∀ {x v}, Γ x = some v → Placed S.object stack v)
    {e : Tree rank} {p : Planner} {a : Computed} (hp : Served rs p) (ha : e.lower env p = .ok a)
    (hsupplies : S.object.Supplies (rs ++ e.requests Γ)) {q : Quadruple} {code : List Quadruple}
    (hcode : CodeAt S.object.quadruples ip (a.code ++ q :: code))
    (hconsumes : q.Consumes a.operand.address) :
    S.Simulates n c (S.Ready stack waiting w returns (ip + a.code.length) a.operand)
      (Action.ask (e.value Γ) w) :=
  hc.ask (yields_expression henv hΓ e hp ha hsupplies (hc.ip.symm ▸ hcode.left) hc.mirrors)
    hcode.right.head hconsumes rfl

/-- A quadruple changes the memory and goes on with the next one. -/
theorem Stands.changed (hc : S.Stands stack waiting w returns ip c) {q : Quadruple}
    (hq : S.object.quadruples[ip]? = some q) (change : Memory → Except Error Memory)
    (hstep : ∀ m out, Machine.step (.total S.write) q (m, out) = m.changed out (change m.memory))
    {m : Memory} (h : change c.memory = .ok m) : S.Goes 1 c (c.move m (ip + 1)) := by
  rw [← hc.ip] at hq ⊢
  exact Config.goes_changed change hq hstep h

end Session

end Quadlet
