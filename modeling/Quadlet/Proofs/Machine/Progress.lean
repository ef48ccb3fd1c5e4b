import Quadlet.Proofs.Machine.Printing
import Quadlet.Proofs.Machine.Transitions

/-!
# How a run gets on

A run carries out quadruples one after the other until something stops it: the program ends, the
limit is reached, or a quadruple fails. Main statements: a run that is not cut off has carried out
some quadruples and has come to what stops it, and it comes to one thing only.
-/

namespace Quadlet.Machine

variable {ω : Type}

/-- A number of quadruples are carried out, one after the other, from one state of a machine and
its printer to another. -/
inductive Carries (printer : Printer ω) : Nat → Machine × ω → Machine × ω → Prop where
  | refl (s : Machine × ω) : Carries printer 0 s s
  | step {n : Nat} {m : Machine} {out : ω} {q : Quadruple} {s t : Machine × ω}
    (hq : m.program[m.ip]? = some q) (hlimit : m.exhausted = none)
    (hstep : step printer q (m, out) = .ok () s) (h : Carries printer n s t) :
    Carries printer (n + 1) (m, out) t

/-- What stops a run in a state, and what it ends with. -/
inductive Stops (printer : Printer ω) : Machine × ω → Outcome × Machine × ω → Prop where
  | halted {m : Machine} {out : ω} (hq : m.program[m.ip]? = none) :
    Stops printer (m, out) (.halted, m, out)
  | limit {m : Machine} {out : ω} {q : Quadruple} {k : Nat} (hq : m.program[m.ip]? = some q)
    (hlimit : m.exhausted = some k) : Stops printer (m, out) (.failed (.limit k), m, out)
  | failed {m m' : Machine} {out out' : ω} {q : Quadruple} {e : Error}
    (hq : m.program[m.ip]? = some q) (hlimit : m.exhausted = none)
    (hstep : step printer q (m, out) = .error e (m', out')) :
    Stops printer (m, out) (.failed e, m', out')

/-- What a run ends with if nobody cuts it off. -/
def Concludes (printer : Printer ω) (m : Machine) (out : ω) (r : Outcome × Machine × ω) : Prop :=
  r.1 ≠ .running ∧ ∃ fuel, run printer fuel m out = r

section

variable {printer : Printer ω} {m m' : Machine} {out out' : ω} {n : Nat}
  {r r' : Outcome × Machine × ω}

/-- A machine is loaded with the program and the limit, and has carried out nothing. -/
theorem load_keeps {object : ObjectFile} {limit : Option Nat} (h : load object limit = .ok m) :
    m.program = object.quadruples ∧ m.limit = limit ∧ m.steps = 0 := by
  obtain ⟨memory, -, hm⟩ := Except.bind_eq_ok.mp h
  cases hm
  exact ⟨rfl, rfl, rfl⟩

/-! ## Single steps -/

theorem le_steps_of_exhausted {k : Nat} (h : m.exhausted = some k) :
    m.limit = some k ∧ k ≤ m.steps := by
  rw [exhausted, Option.filter_eq_some_iff, decide_eq_true_eq] at h
  exact h

/-- A step that fails is not counted. -/
theorem steps_of_step_error {q : Quadruple} {e : Error}
    (h : step printer q (m, out) = .error e (m', out')) : m'.steps = m.steps := by
  have hstepped := stepped printer q m out
  rw [h] at hstepped
  cases hstepped with
  | failed _ hm =>
    rcases hm with rfl | ⟨-, hhalfway⟩
    · rfl
    · cases hhalfway <;> rfl
  | refused => rfl

/-! ## Rows of steps -/

/-- Quadruples that are carried out are counted, and follow transitions. -/
theorem Carries.follows {s t : Machine × ω} (h : Carries printer n s t) :
    s.1.Follows t.1 ∧ t.1.steps = s.1.steps + n := by
  induction h with
  | refl s => exact ⟨.refl _, rfl⟩
  | @step n m out q s t hq hlimit hstep h ih =>
    obtain ⟨c, hc, hs⟩ := exists_core_of_step hstep
    rw [hs] at ih
    have hfollows : m.Follows (m.stand c) := ⟨rfl, rfl, Core.Leads.refl.step hq hc⟩
    refine ⟨hfollows.trans ih.1, ih.2.trans ?_⟩
    change m.steps + 1 + n = m.steps + (n + 1)
    omega

/-- A run goes on behind the quadruples that are carried out. -/
theorem Carries.run {s t : Machine × ω} (h : Carries printer n s t) (fuel : Nat) :
    run printer (n + fuel) s.1 s.2 = run printer fuel t.1 t.2 := by
  induction h with
  | refl s => rw [Nat.zero_add]
  | step hq hlimit hstep h ih =>
    rw [Nat.add_right_comm, Machine.run, hq, hlimit]
    simp only [hstep]
    exact ih

private theorem Stops.run {s : Machine × ω} (h : Stops printer s r) (fuel : Nat) :
    run printer (fuel + 1) s.1 s.2 = r := by
  cases h with
  | halted hq => rw [Machine.run, hq]
  | limit hq hlimit => rw [Machine.run, hq, hlimit]
  | failed hq hlimit hstep =>
    rw [Machine.run, hq, hlimit]
    simp only [hstep]

private theorem Stops.ended {s : Machine × ω} (h : Stops printer s r) : r.1 ≠ .running := by
  cases h <;> simp

/-- A run carries out quadruples until it is stopped, or cut off. -/
theorem run_progress (printer : Printer ω) (fuel : Nat) (m : Machine) (out : ω) :
    ∃ n s, Carries printer n (m, out) s ∧ (n ≤ fuel ∧ Stops printer s (run printer fuel m out) ∨
      n = fuel ∧ run printer fuel m out = (.running, s)) := by
  induction fuel generalizing m out with
  | zero =>
    refine ⟨0, (m, out), .refl _, ?_⟩
    rw [run]
    cases hq : m.program[m.ip]? with
    | none => exact .inl ⟨Nat.le_refl _, .halted hq⟩
    | some q =>
      cases hlimit : m.exhausted with
      | some k => exact .inl ⟨Nat.le_refl _, .limit hq hlimit⟩
      | none => exact .inr ⟨rfl, rfl⟩
  | succ fuel ih =>
    rw [run]
    cases hq : m.program[m.ip]? with
    | none => exact ⟨0, (m, out), .refl _, .inl ⟨Nat.zero_le _, .halted hq⟩⟩
    | some q =>
      cases hlimit : m.exhausted with
      | some k => exact ⟨0, (m, out), .refl _, .inl ⟨Nat.zero_le _, .limit hq hlimit⟩⟩
      | none =>
        dsimp only
        cases hstep : step printer q (m, out) with
        | error e s => exact ⟨0, (m, out), .refl _, .inl ⟨Nat.zero_le _, .failed hq hlimit hstep⟩⟩
        | ok u s =>
          obtain ⟨n, t, hn, hend⟩ := ih s.1 s.2
          refine ⟨n + 1, t, .step hq hlimit hstep hn, ?_⟩
          exact hend.imp (And.imp_left Nat.succ_le_succ) (And.imp_left (congrArg (· + 1)))

/-! ## Conclusions -/

/-- A run concludes where the quadruples that are carried out lead to what stops it. -/
theorem concludes_iff :
    Concludes printer m out r ↔ ∃ n s, Carries printer n (m, out) s ∧ Stops printer s r := by
  constructor
  · rintro ⟨hended, fuel, rfl⟩
    obtain ⟨n, s, hn, ⟨-, hstops⟩ | ⟨-, hrunning⟩⟩ := run_progress printer fuel m out
    · exact ⟨n, s, hn, hstops⟩
    · rw [hrunning] at hended
      exact absurd rfl hended
  · rintro ⟨n, s, hn, hstops⟩
    exact ⟨hstops.ended, n + 1, (hn.run 1).trans (hstops.run 0)⟩

/-- A run has one conclusion. -/
theorem Concludes.unique (h : Concludes printer m out r) (h' : Concludes printer m out r') :
    r = r' := by
  obtain ⟨hended, fuel, rfl⟩ := h
  obtain ⟨hended', fuel', rfl⟩ := h'
  have hlong := run_add printer fuel fuel' m out
  rw [Nat.add_comm, run_add, resume, resume, if_neg hended, if_neg hended'] at hlong
  exact hlong.symm

/-- What a run concludes with, it concludes with from every state on its way. -/
theorem Carries.concludes_iff {s t : Machine × ω} (h : Carries printer n s t) :
    Concludes printer s.1 s.2 r ↔ Concludes printer t.1 t.2 r := by
  constructor
  · rintro ⟨hended, fuel, rfl⟩
    refine ⟨hended, fuel, ?_⟩
    rw [← h.run fuel, Nat.add_comm, run_add, resume, if_neg hended]
  · rintro ⟨hended, fuel, hr⟩
    exact ⟨hended, n + fuel, (h.run fuel).trans hr⟩

end

end Quadlet.Machine
