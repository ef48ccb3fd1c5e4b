import Quadlet.Proofs.Shape.Frames

/-!
# Compiled programs do not go wrong

Whatever stops a compiled program is either the program's own doing, an operator that fails or a
variable that was not written, or comes from outside, the limit or the printer. Main statement:
this holds of every run of a compiled program and of every further run behind it, and the
constants stay in their cells.
-/

namespace Quadlet

open Syntax

/-! ## Transitions and runs -/

namespace Machine

variable {ω : Type}

/-- A step makes its transition if the printer takes everything. -/
theorem step_of_advance {m : Machine} {q : Quadruple} {c : Core} (h : m.core.advance q = .ok c)
    (write : String → ω → ω) (out : ω) :
    ∃ out', step (.total write) q (m, out) = .ok () (m.stand c, out') := by
  have hstepped := stepped (.total write) q m out
  generalize step (.total write) q (m, out) = result at hstepped ⊢
  cases hstepped with
  | moved hc =>
    obtain rfl := Except.ok.inj (h.symm.trans hc)
    exact ⟨_, rfl⟩
  | failed he =>
    rw [h] at he
    cases he
  | refused hput => cases hput

/-- A step fails where its transition fails if the printer takes everything. -/
theorem step_of_advance_error {m : Machine} {q : Quadruple} {e : Error}
    (h : m.core.advance q = .error e) (write : String → ω → ω) (out : ω) :
    ∃ s, step (.total write) q (m, out) = .error e s := by
  have hstepped := stepped (.total write) q m out
  generalize step (.total write) q (m, out) = result at hstepped ⊢
  cases hstepped with
  | moved hc =>
    rw [h] at hc
    cases hc
  | failed he =>
    obtain rfl := Except.error.inj (h.symm.trans he)
    exact ⟨_, rfl⟩
  | refused hput => cases hput

theorem run_of_step {printer : Printer ω} {m m' : Machine} {q : Quadruple} {out out' : ω}
    (hlimit : m.limit = none) (hq : m.program[m.ip]? = some q)
    (hstep : step printer q (m, out) = .ok () (m', out')) (n : Nat) :
    run printer (n + 1) m out = run printer n m' out' := by
  rw [run, hq, exhausted, hlimit]
  dsimp only [Option.filter]
  rw [hstep]

private theorem run_of_step_error {printer : Printer ω} {m : Machine} {q : Quadruple}
    {out : ω} {e : Error} {s : Machine × ω} (hlimit : m.limit = none)
    (hq : m.program[m.ip]? = some q) (hstep : step printer q (m, out) = .error e s) (n : Nat) :
    run printer (n + 1) m out = (.failed e, s) := by
  rw [run, hq, exhausted, hlimit]
  dsimp only [Option.filter]
  rw [hstep]

/-- A machine without a limit goes wherever transitions lead. -/
theorem run_of_leads {m : Machine} (hlimit : m.limit = none) {d : Core}
    (hd : m.core.Leads m.program d) :
    ∃ k m', m.Follows m' ∧ m'.core = d ∧ ∀ {ω : Type} (write : String → ω → ω) (out : ω),
      ∃ out', ∀ n, run (.total write) (k + n) m out = run (.total write) n m' out' := by
  induction hd with
  | refl => exact ⟨0, m, .refl m, rfl, fun write out => ⟨out, fun n => by rw [Nat.zero_add]⟩⟩
  | @step d d' q _ hq hd ih =>
    obtain ⟨k, m', hfollows, rfl, hruns⟩ := ih
    rw [← hfollows.program] at hq
    have hnext : m'.Follows (m'.stand d') := ⟨rfl, rfl, Core.Leads.refl.step hq hd⟩
    refine ⟨k + 1, m'.stand d', hfollows.trans hnext, rfl, fun write out => ?_⟩
    obtain ⟨out₁, hrun⟩ := hruns write out
    obtain ⟨out₂, hstep⟩ := step_of_advance hd write out₁
    refine ⟨out₂, fun n => ?_⟩
    rw [Nat.add_assoc, hrun, Nat.add_comm 1 n]
    exact run_of_step (hfollows.limit.trans hlimit) hq hstep n

/-- A machine without a limit shows the error of a transition that is reached. -/
theorem shows_of_leads {m : Machine} (hlimit : m.limit = none) {d : Core}
    {q : Quadruple} {e : Error} (hd : m.core.Leads m.program d) (hq : m.program[d.ip]? = some q)
    (he : d.advance q = .error e) : ∃ k lines, m.Shows k (.failed e) lines := by
  obtain ⟨k, m', hfollows, rfl, hruns⟩ := run_of_leads hlimit hd
  obtain ⟨outcome, lines, m'', hshows⟩ := m.exists_shows (k + 1)
  refine ⟨k + 1, lines, m'', ?_⟩
  obtain ⟨out, hrun⟩ := hruns (fun _ u => u) ()
  obtain ⟨s, hstep⟩ := step_of_advance_error he (fun _ u => u) out
  rw [← hfollows.program] at hq
  have hfailed := (hrun 1).trans (run_of_step_error (hfollows.limit.trans hlimit) hq hstep 0)
  rw [hshows] at hfailed
  obtain rfl := (Prod.mk.inj hfailed).1
  exact hshows

end Machine

/-- Where a linked program fails, it fails in a way in which compiled code can fail. -/
theorem Linked.trap {a : Program} {o : ObjectFile} {routines : List Routine}
    (h : Linked a o routines) {memory : Memory} (hmemory : Mirrors o [] [] .start memory) {d : Core}
    {q : Quadruple} {e : Error} (hd : Core.Leads o.quadruples ⟨memory, [], 0⟩ d)
    (hq : o.quadruples[d.ip]? = some q) (he : d.advance q = .error e) : Trap o e := by
  let m : Machine := ⟨o.quadruples, memory, [], 0, 0, none⟩
  obtain ⟨k, lines, hshows⟩ := Machine.shows_of_leads (m := m) rfl hd hq he
  have hdescribes : a.Describes m := describes_of_shows fun n => (h.shows hmemory n).1
  obtain ⟨n, hn⟩ := (hdescribes.ends (.failed e) lines nofun).mpr ⟨k, hshows⟩
  exact (h.shows hmemory n).2 e (by rw [hn])

/-! ## Constants -/

namespace Memory

variable {m m' : Memory} {a : Address} {s : Segment} {i : Nat} {x : Value}

/-- Writing changes the cells of one segment. -/
theorem peek_write (h : m.write a x = .ok m') (ha : Segment.locate? a = some (s, i)) {t : Segment}
    (ht : t ≠ s) (j : Nat) : m'.peek t j = m.peek t j := by
  rw [write, locate, ha, Except.ok_bind] at h
  cases hs : s.isLocal with
  | true =>
    simp only [hs, if_true, writeLocal] at h
    cases hentered : m.entered with
    | nil =>
      rw [hentered] at h
      cases h
    | cons f below =>
      rw [hentered] at h
      obtain ⟨g, -, rfl⟩ := Except.map_eq_ok.mp h
      rfl
  | false =>
    simp only [hs, Bool.false_eq_true, if_false, writeGlobal] at h
    cases hb : m.globals.lookup s with
    | none =>
      rw [hb] at h
      cases h
    | some b =>
      rw [hb] at h
      obtain ⟨c, -, rfl⟩ := Except.map_eq_ok.mp h
      rw [peek, peek]
      exact congrArg
        (fun o : Option Cells => o.bind fun b => b.get? j) (lookup_replace_of_ne ht m.globals c)

/-- A constant stays in its cell while other segments are written. -/
theorem Stores.write {k : Constant} (h : m.Stores k) (hm : m.write a x = .ok m')
    (ha : Segment.locate? a = some (s, i)) (hs : s.lifetime ≠ .constant) : m'.Stores k := by
  obtain ⟨j, hj, hvalue⟩ := h
  refine ⟨j, hj, (peek_write hm ha ?_ j).trans hvalue⟩
  rintro rfl
  exact hs rfl

private theorem Stores.of_globals {k : Constant} (h : m.Stores k) (hm : m'.globals = m.globals) :
    m'.Stores k := by
  obtain ⟨j, hj, hvalue⟩ := h
  refine ⟨j, hj, ?_⟩
  rw [peek, hm]
  exact hvalue

private theorem globals_allocate {f : Address} (h : m.allocate f = .ok m') :
    m'.globals = m.globals := by
  obtain ⟨size, -, rfl⟩ := allocate_eq_ok.mp h
  rfl

private theorem globals_param (h : m.param x = .ok m') : m'.globals = m.globals := by
  obtain ⟨f, below, g, -, -, -, rfl⟩ := param_eq_ok.mp h
  rfl

private theorem globals_enter (h : m.enter = .ok m') : m'.globals = m.globals := by
  obtain ⟨f, below, -, -, rfl⟩ := enter_eq_ok.mp h
  rfl

private theorem globals_release (h : m.release = .ok m') : m'.globals = m.globals := by
  obtain ⟨f, below, -, rfl⟩ := release_eq_ok.mp h
  rfl

end Memory

private theorem Core.advance_of_isOperator {q : Quadruple} {c : Core} (h : q.op.isOperator = true) :
    c.advance q = (c.memory.operate q.op q.left q.right q.result).map c.onward := by
  obtain ⟨op, x, y, z⟩ := q
  cases op with
  | add | sub | mul | div | lt | gt | le | ge | eq | ne => rfl
  | _ => cases h

/-- Quadruples other than operators and assignments keep the cells of the program. -/
theorem Core.globals_advance {q : Quadruple} {c d : Core} (hop : q.op.isOperator = false)
    (hassign : q.op ≠ .assign) (hd : c.advance q = .ok d) :
    d.memory.globals = c.memory.globals := by
  have hjump {c : Core} (hd : c.jump q = .ok d) : d.memory = c.memory := by
    rw [Core.jump] at hd
    split at hd
    · cases hd
    · cases hd
      rfl
  obtain ⟨op, x, y, z⟩ := q
  cases op with
  | add | sub | mul | div | lt | gt | le | ge | eq | ne => cases hop
  | assign => exact absurd rfl hassign
  | print =>
    obtain ⟨v, -, rfl⟩ := Except.map_eq_ok.mp hd
    rfl
  | goto => rw [hjump hd]
  | gotoFalse | gotoTrue =>
    obtain ⟨v, -, hd⟩ := Except.bind_eq_ok.mp hd
    split at hd
    all_goals first | rw [hjump hd] | (cases hd; rfl)
  | call =>
    obtain ⟨m, hm, hd⟩ := Except.bind_eq_ok.mp hd
    rw [hjump hd]
    exact Memory.globals_enter hm
  | allocate =>
    obtain ⟨m, hm, rfl⟩ := Except.map_eq_ok.mp hd
    exact Memory.globals_allocate hm
  | leave =>
    cases hreturns : c.returns with
    | nil =>
      rw [Core.advance_leave_nil hreturns] at hd
      cases hd
    | cons r returns =>
      rw [Core.advance_leave_cons hreturns] at hd
      obtain ⟨m, hm, rfl⟩ := Except.map_eq_ok.mp hd
      exact Memory.globals_release hm
  | param =>
    obtain ⟨v, -, hd⟩ := Except.bind_eq_ok.mp hd
    split at hd
    · cases hd
    · obtain ⟨m, hm, rfl⟩ := Except.map_eq_ok.mp hd
      exact Memory.globals_param hm

section

variable {o : ObjectFile} {routines : List Routine} {main : Nat} {c d : Core} {q : Quadruple}
  {k : Constant}

/-- A transition keeps the constants in their cells. -/
theorem Shaped.stores_advance (h : Shaped o routines main) (hq : o.quadruples[c.ip]? = some q)
    (hd : c.advance q = .ok d) (hk : c.memory.Stores k) : d.memory.Stores k := by
  cases hop : q.op.isOperator with
  | true =>
    rw [Core.advance_of_isOperator hop] at hd
    obtain ⟨m, hm, rfl⟩ := Except.map_eq_ok.mp hd
    obtain ⟨frame, hsized⟩ := h.exists_sized hq (by rintro hgoto; rw [hgoto] at hop; cases hop)
    obtain ⟨τ, i, hplace⟩ := hsized.operator hop
    obtain ⟨u, -, hm⟩ := Except.bind_eq_ok.mp hm
    obtain ⟨v, -, hm⟩ := Except.bind_eq_ok.mp hm
    obtain ⟨w, -, hm⟩ := Except.bind_eq_ok.mp hm
    exact hk.write hm hplace nofun
  | false =>
    by_cases hassign : q.op = .assign
    · rw [Core.advance, hassign] at hd
      obtain ⟨m, hm, rfl⟩ := Except.map_eq_ok.mp hd
      obtain ⟨frame, hsized⟩ := h.exists_sized hq (by rw [hassign]; decide)
      obtain ⟨s, i, hplace, hs⟩ := hsized.assign hassign
      obtain ⟨u, -, hm⟩ := Except.bind_eq_ok.mp hm
      refine hk.write hm hplace ?_
      rcases hs with hs | hs <;> rw [hs] <;> decide
    · exact hk.of_globals (Core.globals_advance hop hassign hd)

/-- Whatever transitions lead to keeps the constants in their cells. -/
theorem Shaped.stores_leads (h : Shaped o routines main) (hd : c.Leads o.quadruples d)
    (hk : c.memory.Stores k) : d.memory.Stores k := by
  induction hd with
  | refl => exact hk
  | step _ hq hd ih => exact h.stores_advance hq hd ih

end

/-! ## Outcomes -/

/-- The outcomes of runs of a compiled program under a limit. -/
inductive Machine.Admissible {ω : Type} (limit : Option Nat) (printer : Printer ω) :
    Outcome → Prop where
  | halted : Admissible limit printer .halted
  /-- The run was cut off. -/
  | running : Admissible limit printer .running
  | divisionByZero : Admissible limit printer (.failed .divisionByZero)
  | overflow (op : Opcode) (left right : Int64) :
    Admissible limit printer (.failed (.machine (.overflow op left right)))
  /-- A variable of the program or of the active call was not written. -/
  | unwritten {a : Address} {l : Lifetime} {τ : Numeric} {i : Nat} (hl : l = .global ∨ l = .call)
    (place : Segment.locate? a = some (⟨l, τ.type⟩, i)) :
    Admissible limit printer (.failed (.unwritten a))
  | limit {n : Nat} (h : limit = some n) : Admissible limit printer (.failed (.limit n))
  | output {piece reason : String} {s s' : ω} (h : printer.put piece s = .error reason s') :
    Admissible limit printer (.failed (.output reason))

private theorem Trap.admissible {ω : Type} {o : ObjectFile} {e : Error} (h : Trap o e)
    (limit : Option Nat) (printer : Printer ω) : Machine.Admissible limit printer (.failed e) := by
  cases h with
  | operation h =>
    cases h with
    | divisionByZero => exact .divisionByZero
    | overflow op left right => exact .overflow op left right
  | @unwritten stack v h =>
    refine .unwritten (l := v.lifetime) (τ := v.type) ?_ h.locate?
    cases h with
    | global lifetime => exact .inl lifetime
    | call lifetime => exact .inr lifetime

/-- A compiled program is loaded under every limit. Runs of it, one after the other and with
whatever printers, keep the constants in their cells, and have admissible outcomes only. -/
theorem compile_safe {source : String} {strict : Bool} {c : Compilation}
    (h : compile source strict = .ok c) (limit : Option Nat) :
    ∃ m, Machine.load c.object limit = .ok m ∧ ∀ m', m.Reached m' →
      (∀ k ∈ c.object.constants, m'.memory.read k.address = .ok k.literal.value) ∧
      ∀ {ω : Type} (printer : Printer ω) (fuel : Nat) (out : ω),
        Machine.Admissible limit printer (Machine.run printer fuel m' out).1 := by
  obtain ⟨a, -, hlower⟩ := lower_of_compile h
  obtain ⟨routines, hlinked⟩ := linked_of_lower hlower
  obtain ⟨main, hshaped⟩ := hlinked.shaped
  obtain ⟨memory, hload, hmirrors⟩ := hlinked.load limit
  have hstart := hmirrors.framed routines main
  have hprompt := hshaped.prompt (m := ⟨c.object.quadruples, memory, [], 0, 0, limit⟩) rfl hstart
  refine ⟨_, hload, fun m' hm' => ?_⟩
  have hfollows := hm'.follows hprompt
  constructor
  · intro k hk
    exact (hshaped.stores_leads hfollows.leads (hmirrors.constants hk)).read
  · intro ω printer fuel out
    obtain ⟨hfollows', hends⟩ := Machine.run_follows printer fuel (hfollows.prompt hprompt) out
    have hall := hfollows.trans hfollows'
    generalize Machine.run printer fuel m' out = result at hall hends ⊢
    generalize result.1 = outcome at hends ⊢
    cases hends with
    | halted => exact .halted
    | running => exact .running
    | limit hlimit => exact .limit (hall.limit.symm.trans hlimit)
    | refused hput => exact .output hput
    | failed hq he =>
      rw [hall.program] at hq
      exact (hlinked.trap hmirrors hall.leads hq he).admissible limit printer

/-- The theorem at a program with a loop, a recursive function and a division by zero. -/
theorem compile_safe_countdown : ∃ c, compile countdown true = .ok c ∧
    ∃ m, Machine.load c.object (some 100) = .ok m ∧ ∀ m', m.Reached m' →
      (∀ k ∈ c.object.constants, m'.memory.read k.address = .ok k.literal.value) ∧
      ∀ {ω : Type} (printer : Printer ω) (fuel : Nat) (out : ω),
        Machine.Admissible (some 100) printer (Machine.run printer fuel m' out).1 := by
  obtain ⟨c, hc⟩ := countdown_compiles
  exact ⟨c, hc, compile_safe hc (some 100)⟩

end Quadlet
