import Quadlet.Proofs.Machine.Integrity
import Quadlet.Proofs.Machine.Progress

/-!
# A quadruple that fails changes nothing

Calls and returns are carried out in several parts, and either of them can be found impossible when
a part has been made. The target of a call is written in the program; that a return finds a frame
follows from what holds along all runs. Main statement: if no call has a target below zero, a run
that ends with an error stands exactly where it stood before the quadruple that failed.
-/

namespace Quadlet

/-- No call has a target below zero. -/
def TargetedCalls (program : Array Quadruple) : Prop := ∀ q ∈ program, q.op = .call → 0 ≤ q.result

/-- A call with a target fails only where there is no frame to enter. -/
theorem Core.enter_of_advance_call {c : Core} {q : Quadruple} {e : Error} (hop : q.op = .call)
    (ht : 0 ≤ q.result) (h : c.advance q = .error e) : c.memory.enter = .error e := by
  obtain ⟨op, x, y, z⟩ := q
  obtain rfl : op = .call := hop
  cases henter : c.memory.enter with
  | error e' =>
    rw [advance_call_error henter] at h
    cases h
    rfl
  | ok memory =>
    rw [advance_call_ok henter, jump, if_neg (Int.not_lt.mpr ht)] at h
    cases h

namespace Memory

private theorem enter_eq_error {m : Memory} {e : Error} (h : m.enter = .error e) :
    e = .machine .callUnframed := by
  rw [enter] at h
  split at h
  · split at h
    · cases h
    · cases h
      rfl
  · cases h
    rfl

end Memory

namespace Machine

variable {ω : Type} {map : MemoryMap} {m m' : Machine}

/-- Wherever transitions lead, the memory is intact and there is a frame for
every place to return to. -/
theorem Intact.leads (h : m.Intact map) {d : Core} (hd : m.core.Leads m.program d) :
    ({ m with memory := d.memory, returns := d.returns } : Machine).Intact map := by
  induction hd with
  | refl => exact h
  | step _ _ hadvance ih =>
    apply ih.touched
    exact Core.touched_advance hadvance

/-- No transition of such a program is found impossible when a part of it has been made. -/
theorem Intact.prompt (h : m.Intact map) (hcalls : TargetedCalls m.program) : m.Prompt := by
  intro d q e hd hq he hlate
  cases hlate with
  | badTarget hop =>
    have henter := Core.enter_of_advance_call hop (hcalls q (Array.mem_of_getElem? hq) hop) he
    cases Memory.enter_eq_error henter
  | returnUnframed hop =>
    have hframed := (h.leads hd).framed
    exact (Core.ordinary_advance hframed q _ he).2 rfl

/-- How a run goes on behind a step. -/
def proceed (printer : Printer ω) (fuel : Nat) :
    EStateM.Result Error (Machine × ω) Unit → Outcome × Machine × ω
  | .ok _ s => run printer fuel s.1 s.2
  | .error e s => (.failed e, s)

/-- A run starts with the quadruple at which the machine stands. -/
theorem run_succ {printer : Printer ω} {q : Quadruple} (hq : m.program[m.ip]? = some q)
    (hlimit : m.exhausted = none) (fuel : Nat) (out : ω) :
    run printer (fuel + 1) m out = proceed printer fuel (step printer q (m, out)) := by
  rw [run, hq, hlimit]
  dsimp only
  cases step printer q (m, out) <;> rfl

private theorem run_exhausted {printer : Printer ω} {q : Quadruple} {k : Nat}
    (hq : m.program[m.ip]? = some q) (hlimit : m.exhausted = some k) (fuel : Nat) (out : ω) :
    run printer fuel m out = (.failed (.limit k), m, out) := by
  rw [run.eq_def, hq, hlimit]

/-- A run that fails stands exactly where it stood before the quadruple that failed, or
before the one that the limit refused: its memory, its places to return to, its place and its
count of steps are those behind the quadruples that were carried out. Whoever runs it again
starts with that quadruple. -/
theorem failure_changes_nothing {object : ObjectFile} {limit : Option Nat} {m₀ : Machine}
    {printer : Printer ω} {fuel : Nat} {out out' : ω} {e : Error}
    (hcalls : TargetedCalls object.quadruples) (hload : load object limit = .ok m₀)
    (hm : m₀.Reached m) (hrun : run printer fuel m out = (.failed e, m', out')) :
    ∃ n before q, Carries printer n (m, out) (m', before) ∧ m'.steps = m.steps + n ∧
      object.quadruples[m'.ip]? = some q ∧
      (m'.exhausted = none ∧ step printer q (m', before) = .error e (m', out') ∧
        (∀ {ω' : Type} (printer' : Printer ω') (fuel' : Nat) (s : ω'),
          run printer' (fuel' + 1) m' s = proceed printer' fuel' (step printer' q (m', s))) ∨
      (∃ k, limit = some k ∧ k ≤ m'.steps ∧ e = .limit k) ∧ out' = before ∧
        ∀ {ω' : Type} (printer' : Printer ω') (fuel' : Nat) (s : ω'),
          run printer' fuel' m' s = (.failed e, m', s)) := by
  obtain ⟨hprogram, hlimit₀, -⟩ := load_keeps hload
  rw [← hprogram] at hcalls
  have hprompt : m₀.Prompt := (intact_load hload).prompt hcalls
  have hreached : m₀.Follows m := hm.follows hprompt
  obtain ⟨n, s, hn, hend⟩ := run_progress printer fuel m out
  rw [hrun] at hend
  have hfollows : m₀.Follows s.1 := hreached.trans hn.follows.1
  rw [← hprogram, ← hlimit₀]
  rcases hend with ⟨-, hstops⟩ | ⟨-, hrunning⟩
  · cases hstops with
    | @limit _ _ q k hq hlimit =>
      obtain ⟨hk, hle⟩ := le_steps_of_exhausted hlimit
      refine ⟨n, out', q, hn, hn.follows.2, hfollows.program ▸ hq, .inr ⟨?_, rfl, ?_⟩⟩
      · exact ⟨k, hfollows.limit.symm.trans hk, hle, rfl⟩
      · intro ω' printer' fuel' s
        exact run_exhausted hq hlimit fuel' s
    | @failed m₁ _ before _ q _ hq hlimit hstep =>
      obtain rfl : m' = m₁ := (hfollows.prompt hprompt).step_error hq hstep
      refine ⟨n, before, q, hn, hn.follows.2, hfollows.program ▸ hq, .inl ⟨hlimit, hstep, ?_⟩⟩
      intro ω' printer' fuel' s
      exact run_succ hq hlimit fuel' s
  · cases hrunning

/-- A call whose argument does not fit into the cells of the function. -/
def overfullCall : ObjectFile :=
  ⟨⟨[⟨⟨.constant, .int⟩, 1⟩], [⟨1000, 1, 0⟩]⟩, [⟨7000, .int 5⟩],
    #[⟨.allocate, 1000, -1, -1⟩, ⟨.param, 7000, -1, 0⟩, ⟨.param, 7000, -1, 1⟩,
      ⟨.call, 1000, -1, 4⟩]⟩

theorem overfull_call_changes_nothing : ∃ m m' : Machine, TargetedCalls overfullCall.quadruples ∧
    load overfullCall (some 5) = .ok m ∧ m'.ip = 2 ∧ m'.memory.depth = 1 ∧
    run .endless 9 m "" = (.failed (.machine (.outsideCells 1 1)), m', "") ∧
    ∃ n before q, Carries .endless n (m, "") (m', before) ∧ m'.steps = m.steps + n ∧
      overfullCall.quadruples[m'.ip]? = some q ∧
      (m'.exhausted = none ∧ step .endless q (m', before) =
        .error (.machine (.outsideCells 1 1)) (m', "") ∧
        (∀ {ω' : Type} (printer' : Printer ω') (fuel' : Nat) (s : ω'),
          run printer' (fuel' + 1) m' s = proceed printer' fuel' (step printer' q (m', s))) ∨
      (∃ k, some 5 = some k ∧ k ≤ m'.steps ∧ Error.machine (.outsideCells 1 1) = .limit k) ∧
      "" = before ∧
        ∀ {ω' : Type} (printer' : Printer ω') (fuel' : Nat) (s : ω'),
          run printer' fuel' m' s = (.failed (.machine (.outsideCells 1 1)), m', s)) := by
  have hcalls : TargetedCalls overfullCall.quadruples := by
    intro q hq
    simp only [overfullCall, List.mem_toArray, List.mem_cons, List.not_mem_nil, or_false] at hq
    rcases hq with rfl | rfl | rfl | rfl <;> simp
  obtain ⟨m, m', hload, hip, hdepth, hrun⟩ :
      ∃ m m', load overfullCall (some 5) = .ok m ∧ m'.ip = 2 ∧ m'.memory.depth = 1 ∧
        run .endless 9 m "" = (.failed (.machine (.outsideCells 1 1)), m', "") :=
    ⟨_, _, rfl, rfl, rfl, rfl⟩
  exact ⟨m, m', hcalls, hload, hip, hdepth, hrun, failure_changes_nothing hcalls hload .start hrun⟩

end Machine

end Quadlet
