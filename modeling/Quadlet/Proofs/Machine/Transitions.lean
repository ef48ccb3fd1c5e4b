import Quadlet.Proofs.Machine.Steps

/-!
# Transitions

What a quadruple does to the memory, to the places to return to and to the place of execution,
whatever the printer, the limit and the number of steps. Main statements: a step makes the
transition, or fails where the transition fails, or is refused by the printer; and whatever runs
lead to, one after the other, is reached by transitions.
-/

namespace Quadlet

/-- Where the execution of a program stands. -/
structure Core where
  memory : Memory
  returns : List Nat
  ip : Nat

/-- Where a machine stands. -/
def Machine.core (m : Machine) : Core := ⟨m.memory, m.returns, m.ip⟩

/-- The machine behind a step that leads to a place. -/
def Machine.stand (m : Machine) (c : Core) : Machine :=
  { m with memory := c.memory, returns := c.returns, ip := c.ip, steps := m.steps + 1 }

namespace Core

/-- Behind the quadruple, with another memory. -/
def onward (c : Core) (memory : Memory) : Core := ⟨memory, c.returns, c.ip + 1⟩

/-- At the target of a jump. -/
def jump (q : Quadruple) (c : Core) : Except Error Core :=
  if q.result < 0 then .error (.machine (.badTarget q.result)) else
    .ok { c with ip := q.result.toNat }

/-- Where a quadruple leads. -/
def advance (q : Quadruple) (c : Core) : Except Error Core :=
  match q.op with
  | .add | .sub | .mul | .div | .lt | .gt | .le | .ge | .eq | .ne =>
    (c.memory.operate q.op q.left q.right q.result).map c.onward
  | .assign => (c.memory.copy q.left q.result).map c.onward
  | .print => (c.memory.read q.left).map fun _ => c.onward c.memory
  | .goto => c.jump q
  | .gotoFalse => do
    if (← c.memory.read q.left).truthy then return c.onward c.memory else c.jump q
  | .gotoTrue => do
    if (← c.memory.read q.left).truthy then c.jump q else return c.onward c.memory
  | .call => do
    let memory ← c.memory.enter
    jump q ⟨memory, (c.ip + 1) :: c.returns, c.ip⟩
  | .allocate => (c.memory.allocate q.left).map c.onward
  | .leave =>
    match c.returns with
    | r :: returns => c.memory.release.map fun memory => ⟨memory, returns, r⟩
    | [] => .error (.machine .noReturn)
  | .param => do
    let x ← c.memory.read q.left
    if q.result < 0 then throw (.machine (.badParameter q.result))
    (c.memory.param x).map c.onward

variable {c : Core} {x y z : Address}

theorem advance_call_error {e : Error} (h : c.memory.enter = .error e) :
    c.advance ⟨.call, x, y, z⟩ = .error e := by
  simp only [advance, h, Except.error_bind]

theorem advance_call_ok {memory : Memory} (h : c.memory.enter = .ok memory) :
    c.advance ⟨.call, x, y, z⟩ = jump ⟨.call, x, y, z⟩ ⟨memory, (c.ip + 1) :: c.returns, c.ip⟩ := by
  simp only [advance, h, Except.ok_bind]

theorem advance_leave_nil (h : c.returns = []) :
    c.advance ⟨.leave, x, y, z⟩ = .error (.machine .noReturn) := by
  simp only [advance, h]

theorem advance_leave_cons {r : Nat} {returns : List Nat} (h : c.returns = r :: returns) :
    c.advance ⟨.leave, x, y, z⟩ = c.memory.release.map fun memory => ⟨memory, returns, r⟩ := by
  simp only [advance, h]

/-- What a transition can do, and with which quadruples. -/
inductive Moves (q : Quadruple) (c : Core) : Core → Prop where
  | same : Moves q c (c.onward c.memory)
  | written {m : Memory} {a : Address} {v : Value} (h : c.memory.write a v = .ok m) :
    Moves q c (c.onward m)
  | allocated {m : Memory} {f : Address} (h : c.memory.allocate f = .ok m) : Moves q c (c.onward m)
  | handed {m : Memory} {v : Value} (h : c.memory.param v = .ok m) : Moves q c (c.onward m)
  | jumped {t : Nat} (hop : q.op.isJump = true) (ht : q.result = t) : Moves q c { c with ip := t }
  | entered {m : Memory} {t : Nat} (hop : q.op = .call) (ht : q.result = t)
    (h : c.memory.enter = .ok m) :
    Moves q c ⟨m, (c.ip + 1) :: c.returns, t⟩
  | left {m : Memory} {r : Nat} {returns : List Nat} (hop : q.op = .leave)
    (hreturns : c.returns = r :: returns) (h : c.memory.release = .ok m) : Moves q c ⟨m, returns, r⟩

variable {d : Core} {q : Quadruple}

/-- A jump that is made has a target. -/
theorem exists_target (h : c.jump q = .ok d) :
    ∃ t : Nat, q.result = t ∧ d = { c with ip := t } := by
  rw [jump] at h
  split at h
  · cases h
  · next hle =>
    cases h
    exact ⟨q.result.toNat, (Int.toNat_of_nonneg (Int.not_lt.mp hle)).symm, rfl⟩

private theorem moves_jump (hop : q.op.isJump = true) (h : c.jump q = .ok d) : c.Moves q d := by
  obtain ⟨t, ht, rfl⟩ := exists_target h
  exact .jumped hop ht

theorem moves (h : c.advance q = .ok d) : c.Moves q d := by
  obtain ⟨op, x, y, z⟩ := q
  cases op with
  | add | sub | mul | div | lt | gt | le | ge | eq | ne =>
    obtain ⟨m, hm, rfl⟩ := Except.map_eq_ok.mp h
    obtain ⟨u, -, hm⟩ := Except.bind_eq_ok.mp hm
    obtain ⟨v, -, hm⟩ := Except.bind_eq_ok.mp hm
    obtain ⟨w, -, hm⟩ := Except.bind_eq_ok.mp hm
    exact .written hm
  | assign =>
    obtain ⟨m, hm, rfl⟩ := Except.map_eq_ok.mp h
    obtain ⟨v, -, hm⟩ := Except.bind_eq_ok.mp hm
    exact .written hm
  | print =>
    obtain ⟨v, -, rfl⟩ := Except.map_eq_ok.mp h
    exact .same
  | goto => exact moves_jump rfl h
  | gotoFalse =>
    obtain ⟨v, -, h⟩ := Except.bind_eq_ok.mp h
    split at h
    · cases h
      exact .same
    · exact moves_jump rfl h
  | gotoTrue =>
    obtain ⟨v, -, h⟩ := Except.bind_eq_ok.mp h
    split at h
    · exact moves_jump rfl h
    · cases h
      exact .same
  | call =>
    obtain ⟨m, hm, h⟩ := Except.bind_eq_ok.mp h
    obtain ⟨t, ht, rfl⟩ := exists_target h
    exact .entered rfl ht hm
  | allocate =>
    obtain ⟨m, hm, rfl⟩ := Except.map_eq_ok.mp h
    exact .allocated hm
  | leave =>
    cases hreturns : c.returns with
    | nil =>
      rw [advance_leave_nil hreturns] at h
      cases h
    | cons r returns =>
      rw [advance_leave_cons hreturns] at h
      obtain ⟨m, hm, rfl⟩ := Except.map_eq_ok.mp h
      exact .left rfl hreturns hm
  | param =>
    obtain ⟨v, -, h⟩ := Except.bind_eq_ok.mp h
    dsimp only at h
    split at h
    · cases h
    · obtain ⟨m, hm, rfl⟩ := Except.map_eq_ok.mp h
      exact .handed hm

end Core

namespace Machine

variable {ω : Type}

/-! ## Single steps -/

/-- The errors of a transition that is found impossible when a part of it has been made. -/
inductive Late (q : Quadruple) : Error → Prop where
  | badTarget (h : q.op = .call) : Late q (.machine (.badTarget q.result))
  | returnUnframed (h : q.op = .leave) : Late q (.machine .returnUnframed)

/-- What a transition that is found impossible leaves of a machine when a
part of it has been made. -/
inductive Halfway (m : Machine) : Machine → Prop where
  | entered {memory : Memory} (h : m.memory.enter = .ok memory) :
    Halfway m { m with memory := memory, returns := (m.ip + 1) :: m.returns }
  | unframed {r : Nat} {returns : List Nat} (hreturns : m.returns = r :: returns)
    (h : m.memory.frames = []) :
    Halfway m { m with returns := returns }

/-- What can come of a step. -/
inductive Stepped (printer : Printer ω) (q : Quadruple) (m : Machine) (out : ω) :
    EStateM.Result Error (Machine × ω) Unit → Prop where
  | moved {c : Core} {out' : ω} (h : m.core.advance q = .ok c) :
    Stepped printer q m out (.ok () (m.stand c, out'))
  | failed {e : Error} {m' : Machine} (h : m.core.advance q = .error e)
    (hm : m' = m ∨ Late q e ∧ m.Halfway m') :
    Stepped printer q m out (.error e (m', out))
  /-- The printer refuses a piece, and the machine stays where it is. -/
  | refused {piece reason : String} {s s' out' : ω} (h : printer.put piece s = .error reason s') :
    Stepped printer q m out (.error (.output reason) (m, out'))

section

variable {printer : Printer ω} {q : Quadruple} {m : Machine} {out : ω}

/-- A step that only changes the memory. -/
theorem stepped_changed {x : Except Error Memory}
    (hstep : step printer q (m, out) = m.changed out x)
    (h : m.core.advance q = x.map m.core.onward) :
    Stepped printer q m out (step printer q (m, out)) := by
  rw [hstep]
  cases x with
  | ok memory => exact .moved h
  | error e => exact .failed h (.inl rfl)

private theorem stepped_of_error {e : Error} (hstep : step printer q (m, out) = .error e (m, out))
    (h : m.core.advance q = .error e) : Stepped printer q m out (step printer q (m, out)) := by
  rw [hstep]
  exact .failed h (.inl rfl)

/-- A step that goes elsewhere, if the target is none below zero. -/
theorem stepped_jump (hperform : perform printer q (m, out) = target q (m, out))
    (h : m.core.advance q = m.core.jump q) : Stepped printer q m out (step printer q (m, out)) := by
  by_cases ht : q.result < 0
  · rw [target, if_pos ht] at hperform
    rw [Core.jump, if_pos ht] at h
    exact stepped_of_error (step_of_error m out hperform) h
  · rw [target, if_neg ht] at hperform
    rw [Core.jump, if_neg ht] at h
    rw [step_of_ok m out hperform]
    exact .moved h

/-- A step behind a value that is read. -/
theorem stepped_read {a : Address} {f : Value → Execution ω Nat} {g : Value → Except Error Core}
    (hperform : perform printer q (m, out) = (read a >>= f) (m, out))
    (h : m.core.advance q = m.memory.read a >>= g)
    (hnext : ∀ x, m.memory.read a = .ok x → perform printer q (m, out) = f x (m, out) →
      m.core.advance q = g x → Stepped printer q m out (step printer q (m, out))) :
    Stepped printer q m out (step printer q (m, out)) := by
  cases hx : m.memory.read a with
  | error e =>
    rw [hx] at h
    exact stepped_of_error (step_of_error m out (hperform.trans (read_bind_error hx f))) h
  | ok x =>
    rw [hx] at h
    exact hnext x hx (hperform.trans (read_bind_ok hx f)) h

private theorem stepped_onward (hperform : perform printer q (m, out) = .ok (m.ip + 1) (m, out))
    (h : m.core.advance q = .ok (m.core.onward m.memory)) :
    Stepped printer q m out (step printer q (m, out)) := by
  rw [step_of_ok m out hperform]
  exact .moved h

theorem put_of_ok (m : Machine) {piece : String} {s s' : ω} {u : Unit}
    (h : printer.put piece s = .ok u s') : put printer piece (m, s) = .ok () (m, s') := by
  simp only [put, h]

theorem put_of_error (m : Machine) {piece reason : String} {s s' : ω}
    (h : printer.put piece s = .error reason s') :
    put printer piece (m, s) = .error (.output reason) (m, s') := by
  simp only [put, h]

/-- A line is printed in two pieces. -/
theorem stepped_print {line : String}
    (hperform : perform printer q (m, out) =
      (put printer line >>= fun _ => put printer "\n" >>= fun _ => pure (m.ip + 1)) (m, out))
    (h : m.core.advance q = .ok (m.core.onward m.memory)) :
    Stepped printer q m out (step printer q (m, out)) := by
  cases hline : printer.put line out with
  | error reason out' =>
    rw [step_of_error m out (hperform.trans (EStateM.bind_of_error (put_of_error m hline)))]
    exact .refused hline
  | ok u out' =>
    rw [EStateM.bind_of_ok (put_of_ok m hline)] at hperform
    cases hfeed : printer.put "\n" out' with
    | error reason out'' =>
      rw [step_of_error m out (hperform.trans (EStateM.bind_of_error (put_of_error m hfeed)))]
      exact .refused hfeed
    | ok v out'' =>
      rw [EStateM.bind_of_ok (put_of_ok m hfeed)] at hperform
      rw [step_of_ok m out hperform]
      exact .moved h

private theorem stepped_operation {op : Operator} (hop : op ≠ .assign) (a b c : Address) :
    Stepped printer ⟨op.opcode, a, b, c⟩ m out (step printer ⟨op.opcode, a, b, c⟩ (m, out)) := by
  apply stepped_changed (step_operation m out hop a b c)
  cases op with
  | assign => exact absurd rfl hop
  | _ => rfl

/-- A call is entered before its target is looked at. -/
theorem stepped_call (a b c : Address) :
    Stepped printer ⟨.call, a, b, c⟩ m out (step printer ⟨.call, a, b, c⟩ (m, out)) := by
  cases hmemory : m.memory.enter with
  | error e =>
    have hadvance : m.core.advance ⟨.call, a, b, c⟩ = .error e := Core.advance_call_error hmemory
    exact stepped_of_error (step_of_error m out (updateMemory_bind_error hmemory _)) hadvance
  | ok memory =>
    have hadvance : m.core.advance ⟨.call, a, b, c⟩ =
        Core.jump ⟨.call, a, b, c⟩ ⟨memory, (m.ip + 1) :: m.returns, m.ip⟩ :=
      Core.advance_call_ok hmemory
    have hperform : perform printer ⟨.call, a, b, c⟩ (m, out) = target ⟨.call, a, b, c⟩
        ({ m with memory := memory, returns := (m.ip + 1) :: m.returns }, out) :=
      updateMemory_bind_ok hmemory _
    by_cases hc : c < 0
    · rw [target, if_pos hc] at hperform
      rw [Core.jump, if_pos hc] at hadvance
      rw [step_of_error m out hperform]
      exact .failed hadvance (.inr ⟨.badTarget rfl, .entered hmemory⟩)
    · rw [target, if_neg hc] at hperform
      rw [Core.jump, if_neg hc] at hadvance
      rw [step_of_ok m out hperform]
      exact .moved hadvance

/-- The place to return to is taken before the frame is dropped. -/
theorem stepped_leave (a b c : Address) :
    Stepped printer ⟨.leave, a, b, c⟩ m out (step printer ⟨.leave, a, b, c⟩ (m, out)) := by
  cases hreturns : m.returns with
  | nil =>
    have hpop : popReturn (m, out) = .error (.machine .noReturn) (m, out) := by
      change (match m.returns with | r :: returns => _ | [] => _ : Execution ω Nat) (m, out) = _
      rw [hreturns]
      rfl
    have hperform : perform printer ⟨.leave, a, b, c⟩ (m, out) =
        .error (.machine .noReturn) (m, out) :=
      EStateM.bind_of_error (x := popReturn) hpop
    exact stepped_of_error (step_of_error m out hperform) (Core.advance_leave_nil hreturns)
  | cons r returns =>
    have hpop : popReturn (m, out) = .ok r ({ m with returns := returns }, out) := by
      change (match m.returns with | r :: returns => _ | [] => _ : Execution ω Nat) (m, out) = _
      rw [hreturns]
      rfl
    let popped : Machine := { m with returns := returns }
    have hperform : perform printer ⟨.leave, a, b, c⟩ (m, out) =
        (updateMemory Memory.release >>= fun _ => pure r) (popped, out) := EStateM.bind_of_ok hpop
    have hadvance : m.core.advance ⟨.leave, a, b, c⟩ =
        m.memory.release.map fun memory => ⟨memory, returns, r⟩ := Core.advance_leave_cons hreturns
    cases hmemory : m.memory.release with
    | error e =>
      rw [hmemory] at hadvance
      rw [step_of_error m out (hperform.trans (updateMemory_bind_error (m := popped) hmemory _))]
      refine .failed hadvance (.inr ?_)
      cases hframes : m.memory.frames with
      | nil =>
        rw [Memory.release, hframes] at hmemory
        cases hmemory
        exact ⟨.returnUnframed rfl, .unframed hreturns hframes⟩
      | cons f below =>
        rw [Memory.release, hframes] at hmemory
        cases hmemory
    | ok memory =>
      rw [hmemory] at hadvance
      rw [step_of_ok m out (hperform.trans (updateMemory_bind_ok (m := popped) hmemory _))]
      exact .moved hadvance

/-- A step makes the transition, or fails where the transition fails, or is
refused by the printer. -/
theorem stepped (printer : Printer ω) (q : Quadruple) (m : Machine) (out : ω) :
    Stepped printer q m out (step printer q (m, out)) := by
  obtain ⟨op, a, b, c⟩ := q
  cases op with
  | add => exact stepped_operation (show Operator.add ≠ .assign from nofun) a b c
  | sub => exact stepped_operation (show Operator.sub ≠ .assign from nofun) a b c
  | mul => exact stepped_operation (show Operator.mul ≠ .assign from nofun) a b c
  | div => exact stepped_operation (show Operator.div ≠ .assign from nofun) a b c
  | lt => exact stepped_operation (show Operator.lt ≠ .assign from nofun) a b c
  | gt => exact stepped_operation (show Operator.gt ≠ .assign from nofun) a b c
  | le => exact stepped_operation (show Operator.le ≠ .assign from nofun) a b c
  | ge => exact stepped_operation (show Operator.ge ≠ .assign from nofun) a b c
  | eq => exact stepped_operation (show Operator.eq ≠ .assign from nofun) a b c
  | ne => exact stepped_operation (show Operator.ne ≠ .assign from nofun) a b c
  | assign => exact stepped_changed (step_assign m out a b c) rfl
  | allocate => exact stepped_changed (step_allocate m out a b c) rfl
  | call => exact stepped_call a b c
  | leave => exact stepped_leave a b c
  | goto => exact stepped_jump rfl rfl
  | print =>
    refine stepped_read (a := a) rfl (g := fun _ => .ok (m.core.onward m.memory)) ?_ ?_
    · change Except.map _ (m.memory.read a) = _
      cases m.memory.read a <;> rfl
    · intro x _ hperform hadvance
      exact stepped_print hperform hadvance
  | gotoFalse =>
    refine stepped_read (a := a) rfl rfl ?_
    intro x _ hperform hadvance
    cases hx : x.truthy with
    | true =>
      rw [hx] at hperform hadvance
      exact stepped_onward hperform hadvance
    | false =>
      rw [hx] at hperform hadvance
      exact stepped_jump hperform hadvance
  | gotoTrue =>
    refine stepped_read (a := a) rfl rfl ?_
    intro x _ hperform hadvance
    cases hx : x.truthy with
    | true =>
      rw [hx] at hperform hadvance
      exact stepped_jump hperform hadvance
    | false =>
      rw [hx] at hperform hadvance
      exact stepped_onward hperform hadvance
  | param =>
    refine stepped_read (a := a) rfl rfl ?_
    intro x _ hperform hadvance
    by_cases hc : c < 0
    · simp only [if_pos hc] at hperform hadvance
      exact stepped_of_error (step_of_error m out hperform) hadvance
    · simp only [if_neg hc] at hperform hadvance
      cases hmemory : m.memory.param x with
      | error e =>
        refine stepped_of_error
          (step_of_error m out (hperform.trans (updateMemory_bind_error hmemory _))) ?_
        rw [hadvance]
        change Except.map _ (m.memory.param x) = _
        rw [hmemory]
        rfl
      | ok memory =>
        rw [step_of_ok m out (hperform.trans (updateMemory_bind_ok hmemory _))]
        apply Stepped.moved (c := m.core.onward memory)
        rw [hadvance]
        change Except.map _ (m.memory.param x) = _
        rw [hmemory]
        rfl

/-- A step that succeeds makes a transition. -/
theorem exists_core_of_step {s : Machine × ω} (h : step printer q (m, out) = .ok () s) :
    ∃ c, m.core.advance q = .ok c ∧ s.1 = m.stand c := by
  have hstepped := stepped printer q m out
  rw [h] at hstepped
  cases hstepped with
  | moved hc => exact ⟨_, hc, rfl⟩

/-- A call that can be made is made by a step, whatever the printer. -/
theorem step_of_advance_call (hop : q.op = .call) {c : Core} (h : m.core.advance q = .ok c)
    (printer : Printer ω) (out : ω) : step printer q (m, out) = .ok () (m.stand c, out) := by
  obtain ⟨op, x, y, z⟩ := q
  obtain rfl : op = .call := hop
  obtain ⟨memory, hmemory, h⟩ := Except.bind_eq_ok.mp h
  obtain ⟨t, rfl, rfl⟩ := Core.exists_target h
  exact step_call m out x y t hmemory

end

end Machine

/-! ## Runs -/

/-- Transitions of a program lead from one place to another. -/
inductive Core.Leads (program : Array Quadruple) (c : Core) : Core → Prop where
  | refl : Leads program c c
  | step {d d' : Core} {q : Quadruple} (h : Leads program c d) (hq : program[d.ip]? = some q)
    (hd : d.advance q = .ok d') : Leads program c d'

private theorem Core.Leads.trans {program : Array Quadruple} {c d e : Core} (h : Leads program c d)
    (h' : Leads program d e) : Leads program c e := by
  induction h' with
  | refl => exact h
  | step _ hq hd ih => exact ih.step hq hd

namespace Machine

variable {ω : Type}

/-- A run, transition by transition, and what comes of it. -/
inductive Runs (printer : Printer ω) : Nat → Machine → ω → Outcome × Machine × ω → Prop where
  | halted {fuel : Nat} {m : Machine} {out : ω} (hq : m.program[m.ip]? = none) :
    Runs printer fuel m out (.halted, m, out)
  | limit {fuel n : Nat} {m : Machine} {out : ω} {q : Quadruple} (hq : m.program[m.ip]? = some q)
    (h : m.exhausted = some n) : Runs printer fuel m out (.failed (.limit n), m, out)
  | running {m : Machine} {out : ω} {q : Quadruple} (hq : m.program[m.ip]? = some q) :
    Runs printer 0 m out (.running, m, out)
  | moved {fuel : Nat} {m : Machine} {out out' : ω} {q : Quadruple} {c : Core}
    {r : Outcome × Machine × ω} (hq : m.program[m.ip]? = some q) (hlimit : m.exhausted = none)
    (hc : m.core.advance q = .ok c) (h : Runs printer fuel (m.stand c) out' r) :
      Runs printer (fuel + 1) m out r
  | failed {fuel : Nat} {m m' : Machine} {out : ω} {q : Quadruple} {e : Error}
    (hq : m.program[m.ip]? = some q) (he : m.core.advance q = .error e)
    (hm : m' = m ∨ Late q e ∧ m.Halfway m') : Runs printer (fuel + 1) m out (.failed e, m', out)
  | refused {fuel : Nat} {m : Machine} {out out' s s' : ω} {piece reason : String}
    (h : printer.put piece s = .error reason s') :
    Runs printer (fuel + 1) m out (.failed (.output reason), m, out')

theorem runs (printer : Printer ω) (fuel : Nat) (m : Machine) (out : ω) :
    Runs printer fuel m out (run printer fuel m out) := by
  induction fuel generalizing m out with
  | zero =>
    rw [run]
    cases hq : m.program[m.ip]? with
    | none => exact .halted hq
    | some q =>
      cases hlimit : m.exhausted with
      | some n => exact .limit hq hlimit
      | none => exact .running hq
  | succ fuel ih =>
    rw [run]
    cases hq : m.program[m.ip]? with
    | none => exact .halted hq
    | some q =>
      cases hlimit : m.exhausted with
      | some n => exact .limit hq hlimit
      | none =>
        have hstepped := stepped printer q m out
        dsimp only
        generalize step printer q (m, out) = result at hstepped ⊢
        cases hstepped with
        | moved hc => exact .moved hq hlimit hc (ih _ _)
        | failed he hm => exact .failed hq he hm
        | refused hput => exact .refused hput

/-- No transition that is reached is found impossible when a part of it has been made. -/
def Prompt (m : Machine) : Prop := ∀ d q e, m.core.Leads m.program d → m.program[d.ip]? = some q →
  d.advance q = .error e → ¬Late q e

/-- A step that fails leaves such a machine as it was. -/
theorem Prompt.step_error {m m' : Machine} (h : m.Prompt) {printer : Printer ω} {q : Quadruple}
    {e : Error} {out out' : ω} (hq : m.program[m.ip]? = some q)
    (hstep : step printer q (m, out) = .error e (m', out')) : m' = m := by
  have hstepped := stepped printer q m out
  rw [hstep] at hstepped
  cases hstepped with
  | failed he hm =>
    rcases hm with rfl | ⟨hlate, -⟩
    · rfl
    · exact absurd hlate (h _ _ _ .refl hq he)
  | refused => rfl

/-- What a run ends with, and where the machine then stands. -/
inductive Ends (printer : Printer ω) (m : Machine) : Outcome → Prop where
  | halted (h : m.program[m.ip]? = none) : Ends printer m .halted
  | running : Ends printer m .running
  | limit {n : Nat} (h : m.limit = some n) : Ends printer m (.failed (.limit n))
  | refused {piece reason : String} {s s' : ω} (h : printer.put piece s = .error reason s') :
    Ends printer m (.failed (.output reason))
  | failed {q : Quadruple} {e : Error} (hq : m.program[m.ip]? = some q)
    (h : m.core.advance q = .error e) :
    Ends printer m (.failed e)

/-- A machine that stands where transitions lead from another. -/
structure Follows (m m' : Machine) : Prop where
  program : m'.program = m.program
  limit : m'.limit = m.limit
  leads : m.core.Leads m.program m'.core

theorem Follows.refl (m : Machine) : m.Follows m := ⟨rfl, rfl, .refl⟩

theorem Follows.trans {m m' m'' : Machine} (h : m.Follows m') (h' : m'.Follows m'') :
    m.Follows m'' := by
  refine ⟨h'.program.trans h.program, h'.limit.trans h.limit, h.leads.trans ?_⟩
  rw [← h.program]
  exact h'.leads

theorem Follows.prompt {m m' : Machine} (h : m.Follows m') (hm : m.Prompt) : m'.Prompt := by
  intro d q e hd hq he
  rw [h.program] at hd hq
  exact hm d q e (h.leads.trans hd) hq he

/-- A run follows transitions, and says what it ends with. -/
theorem run_follows (printer : Printer ω) (fuel : Nat) {m : Machine} (hm : m.Prompt) (out : ω) :
    m.Follows (run printer fuel m out).2.1 ∧
      Ends printer (run printer fuel m out).2.1 (run printer fuel m out).1 := by
  have hruns := runs printer fuel m out
  generalize run printer fuel m out = r at hruns ⊢
  induction hruns with
  | halted hq => exact ⟨.refl _, .halted hq⟩
  | limit _ hlimit => exact ⟨.refl _, .limit (Option.eq_some_of_filter_eq_some hlimit)⟩
  | running => exact ⟨.refl _, .running⟩
  | @moved _ m _ _ _ c _ hq _ hc _ ih =>
    have hfollows : m.Follows (m.stand c) := ⟨rfl, rfl, Core.Leads.refl.step hq hc⟩
    obtain ⟨hrest, hends⟩ := ih (hfollows.prompt hm)
    exact ⟨hfollows.trans hrest, hends⟩
  | failed hq he hsame =>
    rcases hsame with rfl | ⟨hlate, -⟩
    · exact ⟨.refl _, .failed hq he⟩
    · exact absurd hlate (hm _ _ _ .refl hq he)
  | refused hput => exact ⟨.refl _, .refused hput⟩

/-- The machines that runs lead to, one after the other: every run has a printer of its own, and
may be cut off anywhere. -/
inductive Reached (m : Machine) : Machine → Prop where
  | start : Reached m m
  | run {m' : Machine} (h : Reached m m') {ω : Type} (printer : Printer ω) (fuel : Nat) (out : ω) :
    Reached m (run printer fuel m' out).2.1

/-- What is reached follows transitions. -/
theorem Reached.follows {m m' : Machine} (h : m.Reached m') (hm : m.Prompt) : m.Follows m' := by
  induction h with
  | start => exact .refl m
  | run _ printer fuel out ih => exact ih.trans (run_follows printer fuel (ih.prompt hm) out).1

end Machine

end Quadlet
