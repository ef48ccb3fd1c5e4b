import Quadlet.Proofs.Machine.Steps

/-!
# What a run shows

A machine looks at its printer only to print, so how it goes on and which lines it prints do
not depend on a printer that takes everything. Main statements: within every number of steps
a machine shows an outcome and lines, exactly one of each; what has ended stays as it is,
and lines are only added.
-/

namespace Quadlet

namespace Machine

variable {ω α β : Type}

/-! ## Actions that do not print -/

/-- An action that leaves the printer alone. -/
def beside (x : EStateM Error Machine α) : Execution ω α := fun (m, out) =>
  match x m with
  | .ok a m => .ok a (m, out)
  | .error e m => .error e (m, out)

private theorem beside_bind (y : EStateM Error Machine α) (z : α → EStateM Error Machine β) :
    (beside y >>= fun a => beside (z a) : Execution ω β) = beside (y >>= z) := by
  funext ⟨m, out⟩
  cases h : y m with
  | ok a m' =>
    have hy : (beside y : Execution ω α) (m, out) = .ok a (m', out) := by
      rw [beside, h]
    rw [EStateM.bind_of_ok hy, beside, beside, EStateM.bind_of_ok h]
  | error e m' =>
    have hy : (beside y : Execution ω α) (m, out) = .error e (m', out) := by
      rw [beside, h]
    rw [EStateM.bind_of_error hy, beside, EStateM.bind_of_error h]

/-- An action that leaves every printer alone. -/
def Silent (x : ∀ ω : Type, Printer ω → Execution ω α) : Prop :=
  ∃ y : EStateM Error Machine α, ∀ ω printer, x ω printer = beside y

private theorem Silent.bind {x : ∀ ω, Printer ω → Execution ω α}
    {f : ∀ ω, Printer ω → α → Execution ω β} (hx : Silent x)
    (hf : ∀ a, Silent fun ω printer => f ω printer a) :
    Silent fun ω printer => x ω printer >>= f ω printer := by
  obtain ⟨y, hy⟩ := hx
  obtain ⟨z, hz⟩ := Classical.skolem.mp hf
  refine ⟨y >>= z, fun ω printer => ?_⟩
  dsimp only
  rw [← beside_bind, hy]
  congr 1
  funext a
  exact hz a ω printer

/-- It is enough to look at each machine on its own. -/
theorem silent_of_machine {x : ∀ ω, Printer ω → Execution ω α}
    (h : ∀ m, ∃ y : EStateM Error Machine α, ∀ ω printer out, x ω printer (m, out) =
      beside y (m, out)) : Silent x := by
  obtain ⟨z, hz⟩ := Classical.skolem.mp h
  refine ⟨fun m => z m m, fun ω printer => ?_⟩
  funext ⟨m, out⟩
  exact hz m ω printer out

theorem silent_pure (a : α) : Silent fun _ _ => (pure a) := ⟨pure a, fun _ _ => rfl⟩

theorem silent_modify (f : Machine → Machine) :
    Silent fun ω _ => (modify fun (m, out) => (f m, out) : Execution ω PUnit) :=
  ⟨modify f, fun _ _ => rfl⟩

private theorem silent_lift (x : Except Error α) : Silent fun ω _ => (lift x : Execution ω α) := by
  cases x with
  | ok a => exact silent_pure a
  | error e => exact ⟨throw e, fun _ _ => rfl⟩

theorem silent_read (a : Address) : Silent fun ω _ => (read a : Execution ω Value) := by
  apply silent_of_machine
  intro m
  obtain ⟨y, hy⟩ := silent_lift (m.memory.read a)
  exact ⟨y, fun ω printer out => congrFun (hy ω printer) (m, out)⟩

private theorem silent_updateMemory (change : Memory → Except Error Memory) :
    Silent fun ω _ => (updateMemory change : Execution ω Unit) := by
  apply silent_of_machine
  intro m
  obtain ⟨y, hy⟩ := (silent_lift (change m.memory)).bind fun memory =>
    silent_modify fun m => { m with memory := memory }
  exact ⟨y, fun ω printer out => congrFun (hy ω printer) (m, out)⟩

private theorem silent_target (q : Quadruple) : Silent fun ω _ => (target q : Execution ω Nat) := by
  by_cases h : q.result < 0
  · refine ⟨throw (.machine (.badTarget q.result)), fun ω printer => ?_⟩
    dsimp only
    rw [target, if_pos h]
    rfl
  · refine ⟨pure q.result.toNat, fun ω printer => ?_⟩
    dsimp only
    rw [target, if_neg h]
    rfl

private theorem silent_popReturn : Silent fun ω _ => (popReturn : Execution ω Nat) := by
  apply silent_of_machine
  intro m
  obtain ⟨program, memory, returns, ip, steps, limit⟩ := m
  cases returns with
  | nil => exact ⟨throw (.machine .noReturn), fun _ _ _ => rfl⟩
  | cons r returns =>
    exact ⟨modify (fun m => { m with returns }) >>= fun _ => pure r, fun _ _ _ => rfl⟩

private theorem silent_operate (op : Opcode) (a b c : Address) (next : Nat) :
    Silent fun ω _ => (operate op a b c next : Execution ω Nat) :=
  (silent_read a).bind fun x => (silent_read b).bind fun y =>
    (silent_lift (Value.binary op x y)).bind fun v =>
    (silent_updateMemory fun m => m.write c v).bind fun _ => silent_pure next

/-- A quadruple other than a printing one leaves the printer alone. -/
theorem silent_perform {q : Quadruple} (hq : q.op ≠ .print) :
    Silent fun _ printer => perform printer q := by
  apply silent_of_machine
  intro m
  -- The machine is asked first for the next index; what comes behind is a row of silent actions.
  suffices h : ∃ x : ∀ ω, Printer ω → Execution ω Nat, Silent x ∧
      ∀ ω (printer : Printer ω) out, perform printer q (m, out) = x ω printer (m, out) by
    obtain ⟨x, ⟨y, hy⟩, hx⟩ := h
    exact ⟨y, fun ω printer out => (hx ω printer out).trans (congrFun (hy ω printer) (m, out))⟩
  obtain ⟨op, a, b, c⟩ := q
  have hoperate := silent_operate op a b c (m.ip + 1)
  have htarget := silent_target ⟨op, a, b, c⟩
  have hnext := silent_pure (m.ip + 1)
  cases op with
  | print => exact absurd rfl hq
  | add | sub | mul | div | lt | gt | le | ge | eq | ne =>
    exact ⟨_, hoperate, fun _ _ _ => rfl⟩
  | assign =>
    exact ⟨_, (silent_read a).bind fun v =>
      (silent_updateMemory fun m => m.write c v).bind fun _ => hnext, fun _ _ _ => rfl⟩
  | goto => exact ⟨_, htarget, fun _ _ _ => rfl⟩
  | gotoFalse =>
    refine ⟨fun _ _ =>
      read a >>= fun x => if x.truthy then pure (m.ip + 1) else target ⟨.gotoFalse, a, b, c⟩,
        (silent_read a).bind fun x => ?_, fun _ _ _ => rfl⟩
    cases x.truthy with
    | true => exact hnext
    | false => exact htarget
  | gotoTrue =>
    refine ⟨fun _ _ =>
      read a >>= fun x => if x.truthy then target ⟨.gotoTrue, a, b, c⟩ else pure (m.ip + 1),
        (silent_read a).bind fun x => ?_, fun _ _ _ => rfl⟩
    cases x.truthy with
    | true => exact htarget
    | false => exact hnext
  | call =>
    exact ⟨_, (silent_updateMemory Memory.enter).bind fun _ =>
      (silent_modify fun s => { s with returns := (m.ip + 1) :: s.returns }).bind fun _ => htarget,
      fun _ _ _ => rfl⟩
  | allocate =>
    exact ⟨_, (silent_updateMemory fun m => m.allocate a).bind fun _ => hnext, fun _ _ _ => rfl⟩
  | leave =>
    exact ⟨_, silent_popReturn.bind fun r =>
      (silent_updateMemory Memory.release).bind fun _ => silent_pure r, fun _ _ _ => rfl⟩
  | param =>
    refine ⟨fun _ _ => read a >>= fun x => do
        if c < 0 then throw (.machine (.badParameter c))
        updateMemory fun m => m.param x
        return m.ip + 1,
      (silent_read a).bind fun x => ?_, fun _ _ _ => rfl⟩
    by_cases hc : c < 0
    · refine ⟨throw (.machine (.badParameter c)), fun ω printer => ?_⟩
      simp only [hc, if_true]
      rfl
    · simp only [hc, if_false]
      exact (silent_updateMemory fun m => m.param x).bind fun _ => hnext

theorem silent_step {q : Quadruple} (hq : q.op ≠ .print) : Silent fun _ printer => step printer q :=
  (silent_perform hq).bind fun next => silent_modify fun m =>
    { m with ip := next, steps := m.steps + 1 }

/-! ## Printers that take everything -/

/-- A quadruple does the same beside every printer that takes everything, and
prints the same lines. -/
theorem step_total (q : Quadruple) (m : Machine) :
    (∃ m' lines, ∀ (ω : Type) (write : String → ω → ω) (out : ω),
      step (.total write) q (m, out) = .ok () (m', Printer.deliver write out lines)) ∨
    ∃ e m', ∀ (ω : Type) (write : String → ω → ω) (out : ω),
      step (.total write) q (m, out) = .error e (m', out) := by
  by_cases hq : q.op = .print
  · obtain ⟨op, a, b, c⟩ := q
    obtain rfl : op = .print := hq
    cases hx : m.memory.read a with
    | ok x => exact .inl ⟨_, [x.text], fun ω write out => step_print_ok m out write b c hx⟩
    | error e => exact .inr ⟨e, m, fun ω write out => step_print_error m out b c hx⟩
  · obtain ⟨y, hy⟩ := silent_step hq
    cases hm : y m with
    | ok _ m' =>
      refine .inl ⟨m', [], fun ω write out => (congrFun (hy ω _) (m, out)).trans ?_⟩
      rw [beside, hm]
      rfl
    | error e m' =>
      refine .inr ⟨e, m', fun ω write out => (congrFun (hy ω _) (m, out)).trans ?_⟩
      rw [beside, hm]

/-- Within a number of quadruples, a machine prints some lines on whatever takes everything. -/
def Shows (m : Machine) (k : Nat) (outcome : Outcome) (lines : List String) : Prop :=
  ∃ m', ∀ (ω : Type) (write : String → ω → ω) (out : ω),
    run (.total write) k m out = (outcome, m', Printer.deliver write out lines)

/-- A run in two parts: what has ended stays as it is. -/
def resume (printer : Printer ω) (k : Nat) (r : Outcome × Machine × ω) : Outcome × Machine × ω :=
  if r.1 = .running then run printer k r.2.1 r.2.2 else r

theorem run_add (printer : Printer ω) (k j : Nat) (m : Machine) (out : ω) :
    run printer (k + j) m out = resume printer j (run printer k m out) := by
  induction k generalizing m out with
  | zero =>
    rw [Nat.zero_add, run.eq_def printer 0]
    cases hq : m.program[m.ip]? with
    | none =>
      rw [run, hq]
      rfl
    | some q =>
      cases hlimit : m.exhausted with
      | some limit =>
        rw [run, hq]
        simp only [hlimit]
        rfl
      | none => rfl
  | succ k ih =>
    rw [Nat.add_right_comm, run, run]
    cases m.program[m.ip]? with
    | none => rfl
    | some q =>
      cases m.exhausted with
      | some limit => rfl
      | none =>
        dsimp only
        cases step printer q (m, out) with
        | ok _ s => exact ih s.1 s.2
        | error e s => rfl

/-- A machine always shows something. -/
theorem exists_shows (m : Machine) (k : Nat) : ∃ outcome lines, m.Shows k outcome lines := by
  induction k generalizing m with
  | zero =>
    obtain ⟨outcome, hrun⟩ : ∃ outcome, ∀ (ω : Type) (printer : Printer ω) (out : ω),
        run printer 0 m out = (outcome, m, out) := by
      cases hq : m.program[m.ip]? with
      | none => exact ⟨.halted, fun ω printer out => by rw [run, hq]⟩
      | some q =>
        cases hlimit : m.exhausted with
        | some limit => exact ⟨.failed (.limit limit), fun ω printer out => by rw [run, hq, hlimit]⟩
        | none => exact ⟨.running, fun ω printer out => by rw [run, hq, hlimit]⟩
    exact ⟨outcome, [], m, fun ω write out => hrun ω _ out⟩
  | succ k ih =>
    cases hq : m.program[m.ip]? with
    | none => exact ⟨.halted, [], m, fun ω write out => by rw [run, hq]; rfl⟩
    | some q =>
      cases hlimit : m.exhausted with
      | some limit =>
        exact ⟨.failed (.limit limit), [], m, fun ω write out => by rw [run, hq, hlimit]; rfl⟩
      | none =>
        rcases step_total q m with ⟨m', lines, hstep⟩ | ⟨e, m', hstep⟩
        · obtain ⟨outcome, rest, m'', hrun⟩ := ih m'
          refine ⟨outcome, lines ++ rest, m'', fun ω write out => ?_⟩
          rw [run, hq, hlimit]
          simp only [hstep, hrun, Printer.deliver, List.foldl_append]
        · refine ⟨.failed e, [], m', fun ω write out => ?_⟩
          rw [run, hq, hlimit]
          simp only [hstep]
          rfl

/-- Takes text and line feeds in turn, and keeps the text of full lines. -/
def collect (piece : String) : Option String × List String → Option String × List String
  | (none, lines) => (some piece, lines)
  | (some line, lines) => (none, lines ++ [line])

theorem deliver_collect (before lines : List String) :
    Printer.deliver collect (none, before) lines = (none, before ++ lines) := by
  induction lines generalizing before with
  | nil => rw [Printer.deliver, List.foldl_nil, List.append_nil]
  | cons line lines ih =>
    have hrest := ih (before ++ [line])
    rw [List.append_assoc, List.singleton_append] at hrest
    exact hrest

namespace Shows

variable {m : Machine} {k j : Nat} {outcome outcome' : Outcome} {lines lines' : List String}

/-- A machine shows one thing only. -/
theorem unique (h : m.Shows k outcome lines) (h' : m.Shows k outcome' lines') :
    outcome = outcome' ∧ lines = lines' := by
  obtain ⟨s, hs⟩ := h
  obtain ⟨s', hs'⟩ := h'
  have hrun := hs _ collect (none, [])
  rw [hs' _ collect (none, []), deliver_collect, deliver_collect] at hrun
  cases hrun
  exact ⟨rfl, rfl⟩

/-- What has ended stays as it is. -/
theorem ended (h : m.Shows k outcome lines) (hended : outcome ≠ .running) (j : Nat) :
    m.Shows (k + j) outcome lines := by
  obtain ⟨s, hs⟩ := h
  refine ⟨s, fun ω write out => ?_⟩
  rw [run_add, hs, resume, if_neg hended]

/-- Lines are only added. -/
theorem added (h : m.Shows k outcome lines) (h' : m.Shows (k + j) outcome' lines') :
    lines <+: lines' := by
  by_cases hended : outcome = .running
  · subst hended
    obtain ⟨s, hs⟩ := h
    obtain ⟨outcome'', rest, s', hs'⟩ := s.exists_shows j
    have hboth : m.Shows (k + j) outcome'' (lines ++ rest) := by
      refine ⟨s', fun ω write out => ?_⟩
      rw [run_add, hs, resume, if_pos rfl, hs', Printer.deliver, Printer.deliver, Printer.deliver,
        List.foldl_append]
    have hsame := (h'.unique hboth).2
    exact hsame ▸ List.prefix_append lines rest
  · have hsame := (h'.unique (h.ended hended j)).2
    exact hsame ▸ List.prefix_refl lines

end Shows

end Machine

end Quadlet
