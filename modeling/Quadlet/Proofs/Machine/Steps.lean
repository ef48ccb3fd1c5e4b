import Quadlet.Machine.Basic
import Quadlet.Proofs.Effects

/-!
# Runs of the machine

What every quadruple does to a machine without a limit whose printer takes everything, and how
such steps add up to runs.
-/

namespace Quadlet

/-- A printer that takes everything, by what it makes of a piece of text. -/
def Printer.total {ω : Type} (write : String → ω → ω) : Printer ω :=
  ⟨fun piece => modify (write piece)⟩

/-- What such a printer makes of lines. -/
def Printer.deliver {ω : Type} (write : String → ω → ω) (out : ω) (lines : List String) : ω :=
  lines.foldl (fun out line => write "\n" (write line out)) out

namespace Memory

/-- What an operator does: it reads its left operand first. -/
def operate (op : Opcode) (a b c : Address) (m : Memory) : Except Error Memory := do
  let x ← m.read a
  let y ← m.read b
  m.write c (← Value.binary op x y)

/-- What an assignment does. -/
def copy (a c : Address) (m : Memory) : Except Error Memory := do
  m.write c (← m.read a)

/-- What handing an argument over does. -/
def pass (a : Address) (m : Memory) : Except Error Memory := do
  m.param (← m.read a)

end Memory

namespace Machine

variable {ω α : Type} {printer : Printer ω}

/-! ## Single actions -/

section

variable {m : Machine} {out : ω} {a : Address} {x : Value} {e : Error}

theorem read_bind_ok (h : m.memory.read a = .ok x) (f : Value → Execution ω α) :
    (read a >>= f) (m, out) = f x (m, out) := by
  apply EStateM.bind_of_ok
  change lift (m.memory.read a) (m, out) = _
  rw [h]
  rfl

theorem read_bind_error (h : m.memory.read a = .error e) (f : Value → Execution ω α) :
    (read a >>= f) (m, out) = .error e (m, out) := by
  apply EStateM.bind_of_error
  change lift (m.memory.read a) (m, out) = _
  rw [h]
  rfl

theorem updateMemory_bind_ok {g : Memory → Except Error Memory} {memory : Memory}
    (h : g m.memory = .ok memory) (f : Unit → Execution ω α) :
    (updateMemory g >>= f) (m, out) = f () ({ m with memory := memory }, out) := by
  apply EStateM.bind_of_ok
  change (lift (g m.memory) >>= _) (m, out) = _
  rw [h]
  rfl

theorem updateMemory_bind_error {g : Memory → Except Error Memory} (h : g m.memory = .error e)
    (f : Unit → Execution ω α) : (updateMemory g >>= f) (m, out) = .error e (m, out) := by
  apply EStateM.bind_of_error
  change (lift (g m.memory) >>= _) (m, out) = _
  rw [h]
  rfl

end

/-! ## Single quadruples -/

/-- The machine behind a quadruple that changes the memory and goes on elsewhere. -/
def moved (m : Machine) (memory : Memory) (ip : Nat) : Machine :=
  { m with memory := memory, ip := ip, steps := m.steps + 1 }

/-- The result of a quadruple that goes on with the next one if a change of the memory succeeds. -/
def changed (m : Machine) (out : ω) : Except Error Memory → EStateM.Result Error (Machine × ω) Unit
  | .ok memory => .ok () (m.moved memory (m.ip + 1), out)
  | .error e => .error e (m, out)

section

variable (m : Machine) (out : ω)

theorem step_of_ok {q : Quadruple} {m' : Machine} {out' : ω} {next : Nat}
    (h : perform printer q (m, out) = .ok next (m', out')) :
    step printer q (m, out) = .ok () (m'.moved m'.memory next, out') := by
  rw [step, EStateM.bind_of_ok h]
  rfl

private theorem step_of_change {q : Quadruple} {memory : Memory}
    (h : perform printer q (m, out) = .ok (m.ip + 1) ({ m with memory := memory }, out)) :
    step printer q (m, out) = m.changed out (.ok memory) := step_of_ok m out h

theorem step_of_error {q : Quadruple} {s : Machine × ω} {e : Error}
    (h : perform printer q (m, out) = .error e s) : step printer q (m, out) = .error e s := by
  rw [step, EStateM.bind_of_error h]

/-- What the operators have in common. -/
def operate (op : Opcode) (a b c : Address) (next : Nat) : Execution ω Nat := do
  let x ← read a
  let y ← read b
  let v ← lift (Value.binary op x y)
  updateMemory fun m => m.write c v
  return next

theorem step_operation {op : Operator} (hop : op ≠ .assign) (a b c : Address) :
    step printer ⟨op.opcode, a, b, c⟩ (m, out) =
      m.changed out (m.memory.operate op.opcode a b c) := by
  have hperform : perform printer ⟨op.opcode, a, b, c⟩ (m, out) =
      operate op.opcode a b c (m.ip + 1) (m, out) := by
    cases op <;> first | exact absurd rfl hop | rfl
  rw [Memory.operate]
  cases hx : m.memory.read a with
  | error e => exact step_of_error m out (hperform.trans (read_bind_error hx _))
  | ok x =>
    cases hy : m.memory.read b with
    | error e =>
      apply step_of_error m out
      rw [hperform, operate, read_bind_ok hx]
      exact read_bind_error hy _
    | ok y =>
      simp only [Except.ok_bind]
      cases hv : Value.binary op.opcode x y with
      | error e =>
        apply step_of_error m out
        rw [hperform, operate, read_bind_ok hx, read_bind_ok hy, hv]
        rfl
      | ok v =>
        simp only [Except.ok_bind]
        cases hw : m.memory.write c v with
        | error e =>
          apply step_of_error m out
          rw [hperform, operate, read_bind_ok hx, read_bind_ok hy, hv]
          exact updateMemory_bind_error hw _
        | ok memory =>
          apply step_of_change m out
          rw [hperform, operate, read_bind_ok hx, read_bind_ok hy, hv]
          exact updateMemory_bind_ok hw _

theorem step_assign (a b c : Address) :
    step printer ⟨.assign, a, b, c⟩ (m, out) = m.changed out (m.memory.copy a c) := by
  rw [Memory.copy]
  cases hx : m.memory.read a with
  | error e => exact step_of_error m out (read_bind_error hx _)
  | ok x =>
    simp only [Except.ok_bind]
    cases hw : m.memory.write c x with
    | error e =>
      apply step_of_error m out
      exact (read_bind_ok hx _).trans (updateMemory_bind_error hw _)
    | ok memory =>
      apply step_of_change m out
      exact (read_bind_ok hx _).trans (updateMemory_bind_ok hw _)

/-- A frame is made. -/
theorem step_allocate (a b c : Address) :
    step printer ⟨.allocate, a, b, c⟩ (m, out) = m.changed out (m.memory.allocate a) := by
  cases h : m.memory.allocate a with
  | error e => exact step_of_error m out (updateMemory_bind_error h _)
  | ok memory =>
    apply step_of_change m out
    exact updateMemory_bind_ok h _

theorem step_param (a b : Address) (k : Nat) :
    step printer ⟨.param, a, b, k⟩ (m, out) = m.changed out (m.memory.pass a) := by
  have hk : ¬(k : Address) < 0 := by
    change ¬(k : Int) < 0
    omega
  rw [Memory.pass]
  cases hx : m.memory.read a with
  | error e => exact step_of_error m out (read_bind_error hx _)
  | ok x =>
    have hperform : perform printer ⟨.param, a, b, k⟩ (m, out) =
        (updateMemory (fun m => m.param x) >>= fun _ => pure (m.ip + 1)) (m, out) := by
      refine (read_bind_ok hx _).trans ?_
      simp only [if_neg hk]
    simp only [Except.ok_bind]
    cases hw : m.memory.param x with
    | error e => exact step_of_error m out (hperform.trans (updateMemory_bind_error hw _))
    | ok memory => exact step_of_change m out (hperform.trans (updateMemory_bind_ok hw _))

/-- A value is printed on a line of its own. -/
theorem step_print_ok (write : String → ω → ω) {a : Address} (b c : Address) {x : Value}
    (h : m.memory.read a = .ok x) : step (.total write) ⟨.print, a, b, c⟩ (m, out) =
      .ok () (m.moved m.memory (m.ip + 1), write "\n" (write x.text out)) :=
  step_of_ok m out (read_bind_ok h _)

/-- A value that is not there is not printed. -/
theorem step_print_error {a : Address} (b c : Address) {e : Error}
    (h : m.memory.read a = .error e) :
    step printer ⟨.print, a, b, c⟩ (m, out) = .error e (m, out) :=
  step_of_error m out (read_bind_error h _)

private theorem target_eq (op : Opcode) (a b : Address) (t : Nat) (s : Machine × ω) :
    target ⟨op, a, b, t⟩ s = .ok t s := by
  have ht : ¬(t : Address) < 0 := by
    change ¬(t : Int) < 0
    omega
  rw [target, if_neg ht]
  rfl

/-- A jump. -/
theorem step_goto (a b : Address) (t : Nat) :
    step printer ⟨.goto, a, b, t⟩ (m, out) = .ok () (m.moved m.memory t, out) :=
  step_of_ok m out (target_eq .goto a b t (m, out))

/-- A jump that is taken unless a value is true. -/
theorem step_gotoFalse_ok {a : Address} (b : Address) (t : Nat) {x : Value}
    (h : m.memory.read a = .ok x) :
    step printer ⟨.gotoFalse, a, b, t⟩ (m, out) =
      .ok () (m.moved m.memory (if x.truthy then m.ip + 1 else t), out) := by
  apply step_of_ok m out
  refine (read_bind_ok h _).trans ?_
  cases x.truthy with
  | true => rfl
  | false => exact target_eq .gotoFalse a b t (m, out)

theorem step_gotoFalse_error {a : Address} (b : Address) (t : Address) {e : Error}
    (h : m.memory.read a = .error e) :
    step printer ⟨.gotoFalse, a, b, t⟩ (m, out) = .error e (m, out) :=
  step_of_error m out (read_bind_error h _)

/-- A jump that is taken if a value is true. -/
theorem step_gotoTrue_ok {a : Address} (b : Address) (t : Nat) {x : Value}
    (h : m.memory.read a = .ok x) :
    step printer ⟨.gotoTrue, a, b, t⟩ (m, out) =
      .ok () (m.moved m.memory (if x.truthy then t else m.ip + 1), out) := by
  apply step_of_ok m out
  refine (read_bind_ok h _).trans ?_
  cases x.truthy with
  | true => exact target_eq .gotoTrue a b t (m, out)
  | false => rfl

theorem step_gotoTrue_error {a : Address} (b : Address) (t : Address) {e : Error}
    (h : m.memory.read a = .error e) :
    step printer ⟨.gotoTrue, a, b, t⟩ (m, out) = .error e (m, out) :=
  step_of_error m out (read_bind_error h _)

/-- A call is entered. -/
theorem step_call (a b : Address) (t : Nat) {memory : Memory} (h : m.memory.enter = .ok memory) :
    step printer ⟨.call, a, b, t⟩ (m, out) =
      .ok () ({ m with returns := (m.ip + 1) :: m.returns }.moved memory t, out) := by
  have hperform : perform printer ⟨.call, a, b, t⟩ (m, out) =
      .ok t ({ m with memory := memory, returns := (m.ip + 1) :: m.returns }, out) := by
    refine (updateMemory_bind_ok h _).trans ?_
    exact target_eq .call a b t _
  exact step_of_ok m out hperform

/-- A call is left. -/
theorem step_leave (a b c : Address) {memory : Memory} {r : Nat} {returns : List Nat}
    (hreturns : m.returns = r :: returns) (h : m.memory.release = .ok memory) :
    step printer ⟨.leave, a, b, c⟩ (m, out) =
      .ok () ({ m with returns := returns }.moved memory r, out) := by
  have hpop : popReturn (m, out) = .ok r ({ m with returns := returns }, out) := by
    cases m
    cases hreturns
    rfl
  have hperform : perform printer ⟨.leave, a, b, c⟩ (m, out) =
      .ok r ({ m with returns := returns, memory := memory }, out) := by
    refine (EStateM.bind_of_ok hpop).trans ?_
    have hrelease : ({ m with returns := returns } : Machine).memory.release = .ok memory := h
    exact updateMemory_bind_ok hrelease _
  exact step_of_ok m out hperform

end

end Machine

/-! ## Places in a program -/

/-- A program has some quadruples from an index on. -/
def CodeAt (program : Array Quadruple) (i : Nat) (code : List Quadruple) : Prop :=
  ∃ front back, program.toList = front ++ code ++ back ∧ front.length = i

namespace CodeAt

variable {program : Array Quadruple} {i : Nat} {code more : List Quadruple} {q : Quadruple}

theorem left (h : CodeAt program i (code ++ more)) : CodeAt program i code := by
  obtain ⟨front, back, hprogram, hi⟩ := h
  exact ⟨front, more ++ back, by simp [hprogram], hi⟩

theorem right (h : CodeAt program i (code ++ more)) : CodeAt program (i + code.length) more := by
  obtain ⟨front, back, hprogram, rfl⟩ := h
  exact ⟨front ++ code, back, by simp [hprogram], by simp⟩

theorem head (h : CodeAt program i (q :: code)) : program[i]? = some q := by
  obtain ⟨front, back, hprogram, rfl⟩ := h
  rw [← Array.getElem?_toList, hprogram]
  simp

theorem tail (h : CodeAt program i (q :: code)) : CodeAt program (i + 1) code := by
  have happend : CodeAt program i ([q] ++ code) := h
  exact happend.right

/-- Where code stands, the program has not ended. -/
theorem lt_size (h : CodeAt program i (code ++ q :: more)) : i < program.size := by
  obtain ⟨front, back, hprogram, rfl⟩ := h
  rw [← Array.length_toList, hprogram]
  simp only [List.length_append, List.length_cons]
  omega

end CodeAt

/-! ## Runs -/

/-- Where a machine without a limit stands, the number of its steps apart. -/
structure Config (ω : Type) where
  memory : Memory
  returns : List Nat
  ip : Nat
  out : ω

namespace Config

variable {ω : Type}

/-- The machine of a program that stands there. -/
def machine (c : Config ω) (program : Array Quadruple) (steps : Nat) : Machine :=
  ⟨program, c.memory, c.returns, c.ip, steps, none⟩

/-- The same place with another memory, and somewhere else in the program. -/
def move (c : Config ω) (memory : Memory) (ip : Nat) : Config ω :=
  { c with memory := memory, ip := ip }

variable (printer : Printer ω) (program : Array Quadruple)

/-- A number of steps lead from one place to another. -/
def Goes (n : Nat) (c d : Config ω) : Prop := ∀ steps fuel,
  Machine.run printer (n + fuel) (c.machine program steps) c.out =
    Machine.run printer fuel (d.machine program (steps + n)) d.out

/-- A number of steps from a place, the last of them fails, and leaves the printer in a state. -/
def Fails (n : Nat) (c : Config ω) (e : Error) (out : ω) : Prop := ∀ steps fuel, ∃ m,
  Machine.run printer (n + fuel) (c.machine program steps) c.out = (.failed e, m, out)

variable {printer program} {c d d' : Config ω} {n n' : Nat} {e : Error} {out : ω} {q : Quadruple}

theorem Goes.refl (c : Config ω) : Goes printer program 0 c c := by
  intro steps fuel
  rw [Nat.zero_add, Nat.add_zero]

theorem Goes.trans (h : Goes printer program n c d) (h' : Goes printer program n' d d') :
    Goes printer program (n + n') c d' := by
  intro steps fuel
  rw [Nat.add_assoc, h, h', Nat.add_assoc]

theorem Goes.fails (h : Goes printer program n c d) (h' : Fails printer program n' d e out) :
    Fails printer program (n + n') c e out := by
  intro steps fuel
  rw [Nat.add_assoc, h]
  exact h' (steps + n) fuel

/-- A step that succeeds. -/
theorem goes_step (hq : program[c.ip]? = some q)
    (h : ∀ steps, Machine.step printer q (c.machine program steps, c.out) =
      .ok () (d.machine program (steps + 1), d.out)) : Goes printer program 1 c d := by
  intro steps fuel
  have hq' : (c.machine program steps).program[(c.machine program steps).ip]? = some q := hq
  have hlimit : (c.machine program steps).exhausted = none := rfl
  rw [Nat.add_comm, Machine.run, hq', hlimit]
  simp only [h]

/-- A step that fails. -/
theorem fails_step (hq : program[c.ip]? = some q)
    (h : ∀ steps, Machine.step printer q (c.machine program steps, c.out) =
      .error e (c.machine program steps, c.out)) : Fails printer program 1 c e c.out := by
  intro steps fuel
  have hq' : (c.machine program steps).program[(c.machine program steps).ip]? = some q := hq
  have hlimit : (c.machine program steps).exhausted = none := rfl
  rw [Nat.add_comm, Machine.run, hq', hlimit]
  simp only [h]
  exact ⟨_, rfl⟩

/-- A change of the memory that succeeds. -/
theorem goes_changed (change : Memory → Except Error Memory) {memory : Memory}
    (hq : program[c.ip]? = some q)
    (hstep : ∀ m (out : ω), Machine.step printer q (m, out) = m.changed out (change m.memory))
    (h : change c.memory = .ok memory) : Goes printer program 1 c (c.move memory (c.ip + 1)) := by
  apply goes_step hq
  intro steps
  have hchange : change (c.machine program steps).memory = .ok memory := h
  rw [hstep, hchange]
  rfl

/-- A change of the memory that fails. -/
theorem fails_changed (change : Memory → Except Error Memory) (hq : program[c.ip]? = some q)
    (hstep : ∀ m (out : ω), Machine.step printer q (m, out) = m.changed out (change m.memory))
    (h : change c.memory = .error e) : Fails printer program 1 c e c.out := by
  apply fails_step hq
  intro steps
  have hchange : change (c.machine program steps).memory = .error e := h
  rw [hstep, hchange]
  rfl

/-- A machine whose place has left the program has halted. -/
theorem run_halted (hq : program[c.ip]? = none) (steps fuel : Nat) :
    Machine.run printer fuel (c.machine program steps) c.out =
      (.halted, c.machine program steps, c.out) := by
  have hq' : (c.machine program steps).program[(c.machine program steps).ip]? = none := hq
  rw [Machine.run, hq']

/-- A machine that is given no more steps is cut off. -/
theorem run_running (hq : program[c.ip]? = some q) (steps : Nat) :
    Machine.run printer 0 (c.machine program steps) c.out =
      (.running, c.machine program steps, c.out) := by
  have hq' : (c.machine program steps).program[(c.machine program steps).ip]? = some q := hq
  rw [Machine.run, hq']
  rfl

end Config

end Quadlet
