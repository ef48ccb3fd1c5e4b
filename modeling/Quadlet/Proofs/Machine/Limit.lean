import Quadlet.Proofs.Machine.Progress

/-!
# Limits

A limit is looked at between two quadruples and nowhere else. Main statement: a run that ends within
a limit ends in the same way under it, and every other run is stopped when it has carried out as
many quadruples as the limit allows; a run under a higher limit only adds to what is printed.
-/

namespace Quadlet.Machine

variable {ω α β : Type}

/-- A machine under a limit. -/
def limited (m : Machine) (limit : Nat) : Machine := { m with limit := some limit }

/-- The limit has no part in loading. -/
theorem load_limited {object : ObjectFile} {m : Machine} {old : Option Nat}
    (h : load object old = .ok m) (limit : Nat) :
    load object (some limit) = .ok (m.limited limit) := by
  obtain ⟨memory, hmemory, hm⟩ := Except.bind_eq_ok.mp h
  cases hm
  rw [load, hmemory]
  rfl

/-! ## Steps do not look at the limit -/

/-- The result of an action, with the machine under a limit. -/
def under (limit : Nat) :
    EStateM.Result Error (Machine × ω) α → EStateM.Result Error (Machine × ω) α
  | .ok a s => .ok a (s.1.limited limit, s.2)
  | .error e s => .error e (s.1.limited limit, s.2)

/-- An action that does the same under every limit. -/
def Unaware (x : Execution ω α) : Prop :=
  ∀ limit m out, x (m.limited limit, out) = under limit (x (m, out))

private theorem Unaware.bind {x : Execution ω α} {f : α → Execution ω β} (hx : Unaware x)
    (hf : ∀ a, Unaware (f a)) : Unaware (x >>= f) := by
  intro limit m out
  have hlimited := hx limit m out
  cases h : x (m, out) with
  | ok a s =>
    rw [h] at hlimited
    rw [EStateM.bind_of_ok hlimited, EStateM.bind_of_ok h]
    exact hf a limit s.1 s.2
  | error e s =>
    rw [h] at hlimited
    rw [EStateM.bind_of_error hlimited, EStateM.bind_of_error h]
    rfl

private theorem unaware_pure (a : α) : Unaware (pure a : Execution ω α) := fun _ _ _ => rfl

private theorem unaware_throw (e : Error) : Unaware (throw e : Execution ω α) := fun _ _ _ => rfl

private theorem unaware_lift (x : Except Error α) : Unaware (lift x : Execution ω α) := by
  cases x with
  | ok a => exact unaware_pure a
  | error e => exact unaware_throw e

private theorem unaware_modify (f : Machine → Machine)
    (hf : ∀ limit m, f (m.limited limit) = (f m).limited limit) :
    Unaware (modify fun s => (f s.1, s.2) : Execution ω PUnit) := by
  intro limit m out
  change EStateM.Result.ok _ (f (m.limited limit), out) = _
  rw [hf]
  rfl

/-- Looking at the machine is harmless if what is looked at is the same under every limit. -/
theorem unaware_get_bind {f : Machine × ω → Execution ω α}
    (hf : ∀ limit s, f (s.1.limited limit, s.2) = f s) (h : ∀ s, Unaware (f s)) :
    Unaware (get >>= f) := by
  intro limit m out
  change f (m.limited limit, out) (m.limited limit, out) = under limit (f (m, out) (m, out))
  rw [hf limit (m, out)]
  exact h (m, out) limit m out

private theorem unaware_read (a : Address) : Unaware (read a : Execution ω Value) :=
  unaware_get_bind (fun _ _ => rfl) fun _ => unaware_lift _

private theorem unaware_updateMemory (change : Memory → Except Error Memory) :
    Unaware (updateMemory change : Execution ω Unit) :=
  unaware_get_bind (fun _ _ => rfl) fun _ => (unaware_lift _).bind fun memory =>
    unaware_modify (fun m => { m with memory := memory }) fun _ _ => rfl

private theorem unaware_put (printer : Printer ω) (piece : String) :
    Unaware (put printer piece) := by
  intro limit m out
  cases h : printer.put piece out with
  | ok u out' =>
    rw [put_of_ok _ h, put_of_ok _ h]
    rfl
  | error reason out' =>
    rw [put_of_error _ h, put_of_error _ h]
    rfl

private theorem unaware_target (q : Quadruple) : Unaware (target q : Execution ω Nat) := by
  rw [target]
  split
  · exact unaware_throw _
  · exact unaware_pure _

private theorem unaware_popReturn : Unaware (popReturn : Execution ω Nat) := by
  apply unaware_get_bind
  · intros; rfl
  · rintro ⟨m, out⟩
    dsimp only
    split
    · next r returns _ =>
      exact (unaware_modify (fun m => { m with returns := returns }) fun _ _ => rfl).bind
        fun _ => unaware_pure r
    · exact unaware_throw _

/-- Nothing that a quadruple does depends on the limit. -/
theorem unaware_perform (printer : Printer ω) (q : Quadruple) : Unaware (perform printer q) := by
  obtain ⟨op, a, b, c⟩ := q
  have hwrite (v : Value) := unaware_updateMemory (ω := ω) fun m => m.write c v
  have htarget := unaware_target (ω := ω) ⟨op, a, b, c⟩
  apply unaware_get_bind
  · intros; rfl
  intro s
  have hnext := unaware_pure (ω := ω) (s.1.ip + 1)
  cases op with
  | add | sub | mul | div | lt | gt | le | ge | eq | ne =>
    refine (unaware_read a).bind fun x => (unaware_read b).bind fun y => ?_
    exact (unaware_lift _).bind fun v => (hwrite v).bind fun _ => hnext
  | assign => exact (unaware_read a).bind fun v => (hwrite v).bind fun _ => hnext
  | print =>
    refine (unaware_read a).bind fun v => (unaware_put printer v.text).bind fun _ => ?_
    exact (unaware_put printer "\n").bind fun _ => hnext
  | goto => exact htarget
  | gotoFalse =>
    refine (unaware_read a).bind fun v => ?_
    split
    · exact hnext
    · exact htarget
  | gotoTrue =>
    refine (unaware_read a).bind fun v => ?_
    split
    · exact htarget
    · exact hnext
  | call =>
    refine (unaware_updateMemory Memory.enter).bind fun _ => Unaware.bind ?_ fun _ => htarget
    exact unaware_modify (fun m => { m with returns := (s.1.ip + 1) :: m.returns }) fun _ _ => rfl
  | allocate => exact (unaware_updateMemory fun m => m.allocate a).bind fun _ => hnext
  | leave =>
    refine unaware_popReturn.bind fun r => ?_
    exact (unaware_updateMemory Memory.release).bind fun _ => unaware_pure r
  | param =>
    refine (unaware_read a).bind fun v => ?_
    dsimp only
    split
    · exact unaware_throw _
    · exact (unaware_updateMemory fun m => m.param v).bind fun _ => hnext

private theorem unaware_step (printer : Printer ω) (q : Quadruple) : Unaware (step printer q) :=
  (unaware_perform printer q).bind fun next =>
    unaware_modify (fun m => { m with ip := next, steps := m.steps + 1 }) fun _ _ => rfl

/-! ## Runs under a limit -/

/-- Whether a run that ended was within a limit: a quadruple that fails must have been allowed. -/
def Within (limit : Nat) : Outcome × Machine × ω → Prop
  | (.halted, m, _) => m.steps ≤ limit
  | (.failed _, m, _) => m.steps < limit
  | (.running, _, _) => False

private theorem Within.mono {limit limit' : Nat} (hle : limit ≤ limit') {r : Outcome × Machine × ω}
    (h : Within limit r) : Within limit' r := by
  obtain ⟨outcome, m, out⟩ := r
  cases outcome with
  | halted => exact Nat.le_trans h hle
  | failed e => exact Nat.lt_of_lt_of_le h hle
  | running => exact h

section

variable {printer : Printer ω} {m : Machine} {out : ω} {n limit : Nat} {r : Outcome × Machine × ω}

private theorem exhausted_of_lt (h : m.steps < limit) : (m.limited limit).exhausted = none :=
  Option.filter_some_neg (decide_eq_false (Nat.not_le_of_lt h))

private theorem exhausted_of_le (h : limit ≤ m.steps) : (m.limited limit).exhausted = some limit :=
  Option.filter_some_pos (decide_eq_true h)

/-- Quadruples that the limit allows are carried out under it. -/
theorem Carries.limited {s t : Machine × ω} (h : Carries printer n s t)
    (hle : s.1.steps + n ≤ limit) :
    Carries printer n (s.1.limited limit, s.2) (t.1.limited limit, t.2) := by
  induction h with
  | refl s => exact .refl _
  | @step n m out q s t hq hlimit hstep h ih =>
    have hone : s.1.steps = m.steps + 1 := (Carries.step hq hlimit hstep (.refl s)).follows.2
    have hlimited := unaware_step printer q limit m out
    rw [hstep] at hlimited
    change m.steps + (n + 1) ≤ limit at hle
    have hlt : m.steps < limit := by omega
    exact .step hq (exhausted_of_lt hlt) hlimited (ih (by omega))

/-- What stops a run within the limit also stops it under the limit. -/
theorem Stops.limited {s : Machine × ω} (h : Stops printer s r) (hs : s.1.limit = none)
    (hr : Within limit r) :
    Stops printer (s.1.limited limit, s.2) (r.1, r.2.1.limited limit, r.2.2) := by
  cases h with
  | halted hq => exact .halted hq
  | limit _ hlimit =>
    rw [(le_steps_of_exhausted hlimit).1] at hs
    cases hs
  | @failed m m' out out' q e hq _ hstep =>
    have hlt : m.steps < limit := by
      rw [← steps_of_step_error hstep]
      exact hr
    have hlimited := unaware_step printer q limit m out
    rw [hstep] at hlimited
    exact .failed hq (exhausted_of_lt hlt) hlimited

/-- A run that does not end within the limit carries out as many quadruples as the limit allows,
and there is one more. -/
theorem exists_carries (hlimit : m.limit = none) (hsteps : m.steps = 0)
    (h : ∀ r, Concludes printer m out r → ¬Within limit r) :
    ∃ s q, Carries printer limit (m, out) s ∧ s.1.program[s.1.ip]? = some q := by
  obtain ⟨n, s, hn, hend⟩ := run_progress printer limit m out
  have hcount : s.1.steps = n := by
    rw [hn.follows.2, hsteps, Nat.zero_add]
  rcases hend with ⟨hle, hstops⟩ | ⟨rfl, -⟩
  · have hwithin := h _ (concludes_iff.mpr ⟨n, s, hn, hstops⟩)
    generalize run printer limit m out = r at hstops hwithin
    cases hstops with
    | halted hq =>
      rw [← hcount] at hle
      exact absurd hle hwithin
    | limit _ hexhausted =>
      have hnone := hn.follows.1.limit.trans hlimit
      rw [(le_steps_of_exhausted hexhausted).1] at hnone
      cases hnone
    | @failed _ m' _ out' q e hq _ hstep =>
      have hge : ¬m'.steps < limit := hwithin
      rw [steps_of_step_error hstep, hcount] at hge
      obtain rfl : n = limit := Nat.le_antisymm hle (Nat.not_lt.mp hge)
      exact ⟨_, q, hn, hq⟩
  · cases hq : s.1.program[s.1.ip]? with
    | none =>
      have hconcludes : Concludes printer m out (.halted, s) :=
        concludes_iff.mpr ⟨n, s, hn, .halted hq⟩
      exact absurd (Nat.le_of_eq hcount) (h _ hconcludes)
    | some q => exact ⟨s, q, hn, hq⟩

end

/-! ## What is printed -/

/-- The state behind an action, whether it succeeded or failed. -/
def behind : EStateM.Result Error (Machine × ω) α → Machine × ω
  | .ok _ s => s
  | .error _ s => s

/-- A way to tell what a printer has taken: whatever it is handed, it only takes more. -/
structure Taken (printer : Printer ω) (α : Type) where
  toList : ω → List α
  grows_of_ok {piece : String} {s s' : ω} {u : Unit} (h : printer.put piece s = .ok u s') :
    toList s <+: toList s'
  grows_of_error {piece reason : String} {s s' : ω} (h : printer.put piece s = .error reason s') :
    toList s <+: toList s'

namespace Taken

variable {printer : Printer ω} {γ : Type}

/-- An action that takes nothing back. -/
def Grows (taken : Taken printer γ) (x : Execution ω α) : Prop :=
  ∀ m out, taken.toList out <+: taken.toList (behind (x (m, out))).2

private theorem Grows.bind {taken : Taken printer γ} {x : Execution ω α} {f : α → Execution ω β}
    (hx : taken.Grows x) (hf : ∀ a, taken.Grows (f a)) : taken.Grows (x >>= f) := by
  intro m out
  have hgrows := hx m out
  cases h : x (m, out) with
  | ok a s =>
    rw [h] at hgrows
    rw [EStateM.bind_of_ok h]
    exact hgrows.trans (hf a s.1 s.2)
  | error e s =>
    rw [h] at hgrows
    rw [EStateM.bind_of_error h]
    exact hgrows

variable (taken : Taken printer γ)

private theorem grows_put (piece : String) : taken.Grows (put printer piece) := by
  intro m out
  cases h : printer.put piece out with
  | ok u out' =>
    rw [put_of_ok m h]
    exact taken.grows_of_ok h
  | error reason out' =>
    rw [put_of_error m h]
    exact taken.grows_of_error h

private theorem grows_of_silent {x : ∀ ω : Type, Printer ω → Execution ω α} (h : Silent x) :
    taken.Grows (x ω printer) := by
  intro m out
  obtain ⟨y, hy⟩ := h
  rw [hy, beside]
  cases y m <;> exact List.prefix_refl _

private theorem grows_step (q : Quadruple) : taken.Grows (step printer q) := by
  by_cases hq : q.op = .print
  · obtain ⟨op, a, b, c⟩ := q
    obtain rfl : op = .print := hq
    have hget : taken.Grows (get : Execution ω (Machine × ω)) := fun _ _ => List.prefix_refl _
    have hread : taken.Grows (read a) := taken.grows_of_silent (silent_read a)
    refine Grows.bind (hget.bind fun s => hread.bind fun v => ?_) fun next => ?_
    · refine (taken.grows_put v.text).bind fun _ => (taken.grows_put "\n").bind fun _ => ?_
      exact taken.grows_of_silent (silent_pure _)
    · exact taken.grows_of_silent (silent_modify fun m =>
        { m with ip := next, steps := m.steps + 1 })
  · exact taken.grows_of_silent (silent_step hq)

/-- Along a run nothing is taken back. -/
theorem grows_carries {n : Nat} {s t : Machine × ω} (h : Carries printer n s t) :
    taken.toList s.2 <+: taken.toList t.2 := by
  induction h with
  | refl s => exact List.prefix_refl _
  | @step _ m out q s t _ _ hstep _ ih =>
    have hgrows := taken.grows_step q m out
    rw [hstep] at hgrows
    exact hgrows.trans ih

private theorem grows_concludes {m : Machine} {out : ω} {r : Outcome × Machine × ω}
    (h : Concludes printer m out r) : taken.toList out <+: taken.toList r.2.2 := by
  obtain ⟨n, s, hn, hstops⟩ := concludes_iff.mp h
  refine (taken.grows_carries hn).trans ?_
  cases hstops with
  | halted | limit => exact List.prefix_refl _
  | @failed m _ out _ q _ _ _ hstep =>
    have hgrows := taken.grows_step q m out
    rw [hstep] at hgrows
    exact hgrows

end Taken

/-! ## The limit -/

section

variable {printer : Printer ω} {m : Machine} {out : ω} {limit : Nat} {r : Outcome × Machine × ω}

private theorem Stops.steps_le {s : Machine × ω} (h : Stops printer s r) (hr : Within limit r) :
    s.1.steps ≤ limit := by
  cases h with
  | halted => exact hr
  | limit => exact Nat.le_of_lt hr
  | failed _ _ hstep =>
    rw [← steps_of_step_error hstep]
    exact Nat.le_of_lt hr

/-- A run that ends within the limit ends in the same way under it. -/
theorem Concludes.limited (h : Concludes printer m out r) (hm : m.limit = none)
    (hr : Within limit r) :
    Concludes printer (m.limited limit) out (r.1, r.2.1.limited limit, r.2.2) := by
  obtain ⟨n, s, hn, hstops⟩ := concludes_iff.mp h
  obtain ⟨hfollows, hcount⟩ := hn.follows
  have hle := hstops.steps_le hr
  rw [hcount] at hle
  exact concludes_iff.mpr ⟨n, _, hn.limited hle, hstops.limited (hfollows.limit.trans hm) hr⟩

/-- Every other run is stopped by the limit. -/
theorem concludes_limit (hm : m.limit = none) (hsteps : m.steps = 0)
    (h : ∀ r, Concludes printer m out r → ¬Within limit r) :
    ∃ m' out', Carries printer limit (m, out) (m', out') ∧ m'.steps = limit ∧
      Concludes printer (m.limited limit) out (.failed (.limit limit), m'.limited limit, out') := by
  obtain ⟨⟨m', out'⟩, q, hn, hq⟩ := exists_carries hm hsteps h
  have hcount : m'.steps = limit := by
    rw [← Nat.zero_add limit, ← hsteps]
    exact hn.follows.2
  refine ⟨m', out', hn, hcount, concludes_iff.mpr ⟨limit, _, hn.limited ?_, .limit hq ?_⟩⟩
  · change m.steps + limit ≤ limit
    omega
  · exact exhausted_of_le (Nat.le_of_eq hcount.symm)

end

/-- A limit only cuts a run off: what ends within it ends with the same outcome, the same memory,
places and steps, and the same printed; every other run is stopped behind as many quadruples as the
limit allows, with all as these quadruples left it. What is printed under a limit is the beginning
of what is printed under a higher one. -/
theorem limit_only_cuts_off {object : ObjectFile} {m : Machine} (h : load object none = .ok m)
    (printer : Printer ω) (out : ω) (limit : Nat) :
    load object (some limit) = .ok (m.limited limit) ∧
    (∀ r, Concludes printer m out r → Within limit r →
      Concludes printer (m.limited limit) out (r.1, r.2.1.limited limit, r.2.2)) ∧
    ((∀ r, Concludes printer m out r → ¬Within limit r) →
      ∃ m' out', Carries printer limit (m, out) (m', out') ∧ m'.steps = limit ∧
        Concludes printer (m.limited limit) out (.failed (.limit limit), m'.limited limit, out')) ∧
    ∀ {α : Type} (taken : Taken printer α) (limit' : Nat) (r r' : Outcome × Machine × ω),
      limit ≤ limit' → Concludes printer (m.limited limit) out r →
      Concludes printer (m.limited limit') out r' → taken.toList r.2.2 <+: taken.toList r'.2.2 := by
  obtain ⟨-, hnone, hsteps⟩ := load_keeps h
  refine ⟨load_limited h limit, fun r hr => hr.limited hnone, concludes_limit hnone hsteps, ?_⟩
  intro α taken limit' r r' hle hr hr'
  by_cases hended : ∃ u, Concludes printer m out u ∧ Within limit u
  · obtain ⟨u, hu, hwithin⟩ := hended
    obtain rfl := hr.unique (hu.limited hnone hwithin)
    obtain rfl := hr'.unique (hu.limited hnone (hwithin.mono hle))
    exact List.prefix_refl _
  · -- the run under the higher limit passes through the state in which the lower one stops it
    have hother (u) (hu : Concludes printer m out u) : ¬Within limit u :=
      fun hwithin => hended ⟨u, hu, hwithin⟩
    obtain ⟨m', out', hn, -, hlimit⟩ := concludes_limit hnone hsteps hother
    rw [hr.unique hlimit]
    have hallowed : m.steps + limit ≤ limit' := by omega
    exact taken.grows_concludes ((hn.limited hallowed).concludes_iff.mp hr')

private theorem put_lines (limit : Nat) (piece text : String) :
    (Printer.lines limit).put piece text =
      if limit ≤ text.toList.count '\n' then .error "sink full" text
      else .ok () (text ++ piece) := by
  change (if _ then _ else _ : EStateM String String Unit) text = _
  split <;> rfl

/-- What a printer that holds a number of lines has taken. -/
def Taken.ofLines (limit : Nat) : Taken (.lines limit) Char where
  toList := String.toList
  grows_of_ok := by
    intro piece text text' u h
    rw [put_lines] at h
    split at h
    · cases h
    · cases h
      rw [String.toList_append]
      exact List.prefix_append ..
  grows_of_error := by
    intro piece reason text text' h
    rw [put_lines] at h
    split at h
    · cases h
      exact List.prefix_refl _
    · cases h

/-- Prints the same line again and again. -/
def ticking : ObjectFile :=
  ⟨⟨[⟨⟨.constant, .int⟩, 1⟩], []⟩, [⟨7000, .int 5⟩], #[⟨.print, 7000, -1, -1⟩, ⟨.goto, -1, -1, 0⟩]⟩

/-- A line that the printer would refuse is not tried if the limit is reached in front of it. -/
theorem limit_only_cuts_off_ticking : ∃ m : Machine, load ticking none = .ok m ∧
    (run (.lines 1) 9 m "").1 = .failed (.output "sink full") ∧
    (run (.lines 1) 9 m "").2.2 = "5\n" ∧
    (run (.lines 1) 9 (m.limited 2) "").1 = .failed (.limit 2) ∧
    load ticking (some 2) = .ok (m.limited 2) ∧
    (∀ r, Concludes (.lines 1) m "" r → Within 2 r →
      Concludes (.lines 1) (m.limited 2) "" (r.1, r.2.1.limited 2, r.2.2)) ∧
    ((∀ r, Concludes (.lines 1) m "" r → ¬Within 2 r) →
      ∃ m' out', Carries (.lines 1) 2 (m, "") (m', out') ∧ m'.steps = 2 ∧
        Concludes (.lines 1) (m.limited 2) "" (.failed (.limit 2), m'.limited 2, out')) ∧
    ∀ (limit' : Nat) (r r' : Outcome × Machine × String), 2 ≤ limit' →
      Concludes (.lines 1) (m.limited 2) "" r → Concludes (.lines 1) (m.limited limit') "" r' →
      r.2.2.toList <+: r'.2.2.toList := by
  obtain ⟨m, hload, hfull, hprinted, hlimit⟩ : ∃ m, load ticking none = .ok m ∧
      (run (.lines 1) 9 m "").1 = .failed (.output "sink full") ∧
      (run (.lines 1) 9 m "").2.2 = "5\n" ∧
        (run (.lines 1) 9 (m.limited 2) "").1 = .failed (.limit 2) :=
    ⟨_, rfl, by decide +kernel, by decide +kernel, by decide +kernel⟩
  obtain ⟨hlimited, hwithin, hother, hbegin⟩ := limit_only_cuts_off hload (.lines 1) "" 2
  exact ⟨m, hload, hfull, hprinted, hlimit, hlimited, hwithin, hother, hbegin (.ofLines 1)⟩

end Quadlet.Machine
