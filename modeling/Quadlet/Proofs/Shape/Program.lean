import Quadlet.Proofs.Lowering.Source
import Quadlet.Proofs.Semantics.Program
import Quadlet.Proofs.Shape.Addresses

/-!
# The shape of compiled programs

A compiled program is a jump to its main part, the bodies of its functions and its main part. Main
statement: this holds of every source text that is compiled, and jumps, calls, addresses and
constants are where they belong.
-/

namespace Quadlet

open Syntax Request Planner

/-! ## Parts of a program -/

/-- A place in the body of a routine, or in or right behind the main part. -/
inductive InPart (routines : List Routine) (main size : Nat) : Option Routine → Nat → Prop where
  | body {r : Routine} {i : Nat} (hr : r ∈ routines) (hstart : r.start ≤ i) (hpast : i < r.past) :
    InPart routines main size (some r) i
  | main {i : Nat} (hmain : main ≤ i) (hsize : i ≤ size) : InPart routines main size none i

namespace Routine.Consecutive

variable {routines : List Routine} {lo hi i : Nat}

theorem le (h : Consecutive lo routines hi) : lo ≤ hi := by
  induction h with
  | nil => exact Nat.le_refl _
  | cons hlt _ ih => exact Nat.le_trans (Nat.le_of_lt hlt) ih

theorem bounds (h : Consecutive lo routines hi) {r : Routine} (hr : r ∈ routines) :
    lo ≤ r.start ∧ r.start < r.past ∧ r.past ≤ hi := by
  induction h with
  | nil => cases hr
  | cons hlt rest ih =>
    rcases List.mem_cons.mp hr with rfl | hr
    · exact ⟨Nat.le_refl _, hlt, rest.le⟩
    · obtain ⟨hstart, hbody, hpast⟩ := ih hr
      exact ⟨by omega, hbody, hpast⟩

/-- Every place between the first body and the end of the last one is in a body. -/
theorem exists_mem (h : Consecutive lo routines hi) (hlo : lo ≤ i) (hhi : i < hi) :
    ∃ r ∈ routines, r.start ≤ i ∧ i < r.past := by
  induction h with
  | nil => omega
  | @cons r rs n hlt rest ih =>
    rcases Nat.lt_or_ge i r.past with hi | hi
    · exact ⟨r, List.mem_cons_self .., hlo, hi⟩
    · obtain ⟨s, hs, hplace⟩ := ih hi hhi
      exact ⟨s, List.mem_cons_of_mem _ hs, hplace⟩

/-- No place is in two bodies. -/
theorem unique (h : Consecutive lo routines hi) {r s : Routine} (hr : r ∈ routines)
    (hs : s ∈ routines) (hri : r.start ≤ i ∧ i < r.past) (hsi : s.start ≤ i ∧ i < s.past) :
    r = s := by
  induction h with
  | nil => cases hr
  | cons hlt rest ih =>
    rcases List.mem_cons.mp hr with rfl | hr' <;> rcases List.mem_cons.mp hs with rfl | hs'
    · rfl
    · have hstart := (rest.bounds hs').1
      omega
    · have hstart := (rest.bounds hr').1
      omega
    · exact ih hr' hs'

/-- A body starts where the first one does, or where another ends. -/
theorem start_eq (h : Consecutive lo routines hi) {r : Routine} (hr : r ∈ routines) :
    r.start = lo ∨ ∃ s ∈ routines, s.past = r.start := by
  induction h with
  | nil => cases hr
  | @cons t rs n hlt rest ih =>
    rcases List.mem_cons.mp hr with rfl | hr
    · exact .inl rfl
    · rcases ih hr with heq | ⟨s, hs, heq⟩
      · exact .inr ⟨t, List.mem_cons_self .., heq.symm⟩
      · exact .inr ⟨s, List.mem_cons_of_mem _ hs, heq⟩

/-- The last body ends where all do. -/
theorem past_eq (h : Consecutive lo routines hi) : hi = lo ∨ ∃ s ∈ routines, s.past = hi := by
  induction h with
  | nil => exact .inl rfl
  | @cons t rs n hlt rest ih =>
    rcases ih with heq | ⟨s, hs, heq⟩
    · exact .inr ⟨t, List.mem_cons_self .., heq.symm⟩
    · exact .inr ⟨s, List.mem_cons_of_mem _ hs, heq⟩

end Routine.Consecutive

/-- The shape of an object file with the bodies of some routines, and with a main
part from an index on. -/
structure Shaped (o : ObjectFile) (routines : List Routine) (main : Nat) : Prop where
  /-- The program starts with a jump to the main part. -/
  entry : o.quadruples[0]? = some ⟨.goto, unused, unused, main⟩
  /-- Behind it are the bodies and then the main part. -/
  consecutive : Routine.Consecutive 1 routines main
  main_le : main ≤ o.quadruples.size
  frames : o.memory.functions = routines.map Routine.frame
  /-- A body ends with the only quadruple in it that leaves a function, and
  the main part has none. -/
  leaves : ∀ i, (∃ q, o.quadruples[i]? = some q ∧ q.op = .leave) ↔ ∃ r ∈ routines, r.past = i + 1
  forward : ∀ (i : Nat) (q : Quadruple), 0 < i → o.quadruples[i]? = some q → q.op = .goto ∨
    q.op = .gotoFalse →
      ∃ t : Nat, q.result = t ∧ i < t ∧ ∃ part, InPart routines main o.quadruples.size part i ∧
      InPart routines main o.quadruples.size part t
  backward : ∀ (i : Nat) (q : Quadruple), o.quadruples[i]? = some q → q.op = .gotoTrue →
    ∃ t : Nat, q.result = t ∧ t < i ∧ ∃ part, InPart routines main o.quadruples.size part i ∧
      InPart routines main o.quadruples.size part t
  calls : ∀ (k : Nat) (q : Quadruple), o.quadruples[k]? = some q → q.op = .call →
    ∃ r ∈ routines, ∃ j, CallSite o.quadruples r j k
  /-- Frames are made and arguments are handed over in calls only. -/
  allocates : ∀ (j : Nat) (q : Quadruple), o.quadruples[j]? = some q → q.op = .allocate →
    ∃ r ∈ routines, ∃ k, CallSite o.quadruples r j k
  params : ∀ (i : Nat) (q : Quadruple), o.quadruples[i]? = some q → q.op = .param →
    ∃ r ∈ routines, ∃ j k, CallSite o.quadruples r j k ∧ j < i ∧ i < k
  /-- Nothing jumps into an expression or a call. -/
  landing : ∀ (i : Nat) (q : Quadruple), o.quadruples[i]? = some q → q.op.isJump = true →
    ∃ t : Nat, q.result = t ∧ Landing o.quadruples t
  /-- Every address has a cell, and no constant is written. -/
  sized : ∀ (i : Nat) (q : Quadruple) part, InPart routines main o.quadruples.size part i →
    o.quadruples[i]? = some q → q.Sized o (part.map Routine.frame)
  /-- The constants of a type have the cells of its segment, one behind the other. -/
  constants : ∀ τ base, Segment.base? ⟨.constant, τ⟩ = some base →
    (o.constants.filter fun c => c.literal.type = τ).map Constant.address =
      (List.range (o.memory.cells ⟨.constant, τ⟩)).map fun i : Nat => base + i

/-! ## Parts of a linked program -/

/-- What may be called from a part may be called from the program. -/
theorem Quadruple.Flows.mono {program : Array Quadruple} {callable routines : List Routine}
    {lo hi i : Nat} {q : Quadruple} (hsub : callable ⊆ routines)
    (h : q.Flows program callable lo hi i) : q.Flows program routines lo hi i := by
  obtain ⟨op, a, b, c⟩ := q
  cases op with
  | allocate | param | call =>
    obtain ⟨r, hr, h⟩ := h
    exact ⟨r, hsub hr, h⟩
  | _ => exact h

/-- Jumps lead to where a statement can start, if the bodies of routines start there. -/
theorem Quadruple.Flows.landing {program : Array Quadruple} {callable : List Routine}
    {lo hi i : Nat} {q : Quadruple} (h : q.Flows program callable lo hi i)
    (hq : program[i]? = some q) (hjump : q.op.isJump = true)
    (hstart : ∀ r ∈ callable, Landing program r.start) :
    ∃ t : Nat, q.result = t ∧ Landing program t := by
  obtain ⟨op, a, b, c⟩ := q
  cases op with
  | goto | gotoFalse =>
    obtain ⟨t, ht, -, -, hlanding⟩ := h
    exact ⟨t, ht, hlanding⟩
  | gotoTrue =>
    obtain ⟨t, ht, -, -, hlanding⟩ := h
    exact ⟨t, ht, hlanding⟩
  | call =>
    obtain ⟨r, hr, j, hsite⟩ := h
    cases Option.some.inj (hq.symm.trans hsite.last)
    exact ⟨r.start, rfl, hstart r hr⟩
  | _ => cases hjump

private theorem CodeFlows.mono {program : Array Quadruple} {callable routines : List Routine}
    {lo hi start : Nat} {code : List Quadruple} (hsub : callable ⊆ routines)
    (h : CodeFlows program callable lo hi start code) :
    CodeFlows program routines lo hi start code :=
  ⟨h.landing, fun i q hi hlt hq => (h.flowing i q hi hlt hq).mono hsub⟩

section

variable {o : ObjectFile} {routines callable : List Routine} {Γ : Scope} {role : Role}
  {s : Phrase role} {start : Nat} {env : Environment} {rs : List Request} {p : Planner} {l : Laid}

/-- A part of the code leads to its own quadruples, to its end and to routines. -/
theorem Embedded.flows (h : Embedded o routines Γ s start env callable rs p l)
    (hlanding : Landing o.quadruples start) {hi : Nat} (hhi : start + l.code.length ≤ hi) :
    CodeFlows o.quadruples routines start hi start l.code :=
  (flows_phrase h.knows h.calls h.lowers h.codeAt hlanding (Nat.le_refl _) hhi).mono h.subset

/-- A part of the code has the cells that it names. -/
theorem Embedded.sized (h : Embedded o routines Γ s start env callable rs p l)
    {stack : List Routine} (hΓ : ∀ {x v}, Γ x = some v → Placed o stack v)
    (hids : ∀ r ∈ routines, o.Covers (stack.head?.map Routine.frame) r.id) :
    ∀ q ∈ l.code, q.Sized o (stack.head?.map Routine.frame) := by
  have hserves := (serves h.knows h.calls h.served h.lowers).2
  exact sized_phrase h.knows h.calls hΓ (fun r hr => hids r (h.subset hr)) h.served h.lowers
    (h.supplies.within hserves.served)

end

namespace Linked

variable {a : Program} {o : ObjectFile} {routines : List Routine}

/-- The identity of a routine has a cell. -/
theorem covers_id (h : Linked a o routines) {r : Routine} (hr : r ∈ routines)
    (frame : Option FrameSize) : o.Covers frame r.id := by
  obtain ⟨i, hi, hlt⟩ := h.below r hr
  obtain ⟨hcells, hsize⟩ := h.supplies.demand_le (s := ⟨.global, .void⟩) (by decide)
  refine ⟨⟨.global, .void⟩, i, ?_, Nat.lt_of_lt_of_le hlt hcells⟩
  rw [hi]
  exact Segment.locate?_base rfl (Nat.lt_of_lt_of_le hlt hsize)

/-- The body of a routine. -/
theorem body (h : Linked a o routines) {r : Routine} (hr : r ∈ routines) :
    ∃ code, CodeAt o.quadruples r.start (code ++ [⟨.leave, unused, unused, unused⟩]) ∧
      r.past = r.start + code.length + 1 ∧
      (Landing o.quadruples r.start →
        CodeFlows o.quadruples routines r.start (r.start + code.length) r.start code) ∧
      ∀ q ∈ code, q.Sized o (some r.frame) := by
  obtain ⟨env, callable, rs, p, body, hbody, hcode, hpast⟩ := h.embedded_body hr
  refine ⟨body.code, hcode, hpast, fun hlanding => ?_, ?_⟩
  · exact hbody.flows hlanding (Nat.le_refl _)
  · have hsized : ∀ q ∈ body.code, q.Sized o ([r].head?.map Routine.frame) :=
      hbody.sized (fun hv => h.placed_routine hr hv []) fun s hs => h.covers_id hs _
    exact hsized

/-- A function is left at the end of every body. -/
theorem leave_at (h : Linked a o routines) {r : Routine} (hr : r ∈ routines) {i : Nat}
    (hi : r.past = i + 1) : o.quadruples[i]? = some ⟨.leave, unused, unused, unused⟩ := by
  obtain ⟨code, hcode, hpast, -⟩ := h.body hr
  obtain rfl : r.start + code.length = i := by omega
  exact hcode.right.head

end Linked

/-- The main part of a linked program. -/
structure MainPart (o : ObjectFile) (routines : List Routine) (main : Nat) (code : List Quadruple) :
    Prop where
  entry : o.quadruples[0]? = some ⟨.goto, unused, unused, main⟩
  consecutive : Routine.Consecutive 1 routines main
  codeAt : CodeAt o.quadruples main code
  size : o.quadruples.size = main + code.length
  flows : Landing o.quadruples main →
    CodeFlows o.quadruples routines main o.quadruples.size main code
  sized : ∀ q ∈ code, q.Sized o none

namespace Linked

variable {a : Program} {o : ObjectFile} {routines : List Routine}

private theorem mainPart (h : Linked a o routines) :
    ∃ main code, MainPart o routines main code := by
  obtain ⟨start, env, rs, p, main, hmain, hentry, hsize, hconsecutive⟩ := h.embedded_main
  refine ⟨start, main.code, hentry, hconsecutive, hmain.codeAt, hsize, fun hlanding => ?_, ?_⟩
  · exact hmain.flows hlanding (Nat.le_of_eq hsize.symm)
  · have hsized : ∀ q ∈ main.code, q.Sized o (([] : List Routine).head?.map Routine.frame) :=
      hmain.sized (fun hv => h.placed_global hv []) fun s hs => h.covers_id hs _
    exact hsized

variable {main : Nat} {code : List Quadruple}

/-- Parts start behind the first quadruple or behind a body. -/
theorem landing (h : Linked a o routines) (hmain : MainPart o routines main code) {n : Nat}
    (hn : n = 1 ∨ ∃ r ∈ routines, r.past = n) : Landing o.quadruples n := by
  rcases hn with rfl | ⟨r, hr, rfl⟩
  · exact .behind hmain.entry rfl
  · obtain ⟨body, hcode, hpast, -⟩ := h.body hr
    rw [hpast]
    exact .behind hcode.right.head rfl

/-- Every quadruple but the first leaves a function at the end of its body, or leads to a
place in its own part. -/
theorem flows (h : Linked a o routines) (hmain : MainPart o routines main code) {i : Nat}
    {q : Quadruple} (hi : 0 < i) (hq : o.quadruples[i]? = some q) :
    (q.op = .leave ∧ ∃ r ∈ routines, r.past = i + 1) ∨
      ∃ part lo hi, lo ≤ i ∧ i ≤ hi ∧
        (∀ t, lo ≤ t → t ≤ hi → InPart routines main o.quadruples.size part t) ∧
        q.Flows o.quadruples routines lo hi i := by
  rcases Nat.lt_or_ge i main with hlt | hge
  · obtain ⟨r, hr, hstart, hpast⟩ := hmain.consecutive.exists_mem hi hlt
    obtain ⟨body, hcode, hlength, hflows, -⟩ := h.body hr
    rcases Nat.lt_or_ge i (r.start + body.length) with hinner | hend
    · have hbody := hflows (h.landing hmain (hmain.consecutive.start_eq hr))
      refine .inr ⟨some r, _, _, hstart, Nat.le_of_lt hinner, fun t hlo hhi => ?_,
        hbody.flowing i q hstart hinner hq⟩
      exact .body hr hlo (by omega)
    · have hlast : r.past = i + 1 := by omega
      obtain rfl := Option.some.inj (hq.symm.trans (h.leave_at hr hlast))
      exact .inl ⟨rfl, r, hr, hlast⟩
  · have hlt : i < o.quadruples.size := (Array.getElem?_eq_some_iff.mp hq).1
    have hflows := hmain.flows (h.landing hmain hmain.consecutive.past_eq)
    refine .inr ⟨none, _, _, hge, Nat.le_of_lt hlt, fun t hlo hhi => .main hlo hhi, ?_⟩
    exact hflows.flowing i q hge (hmain.size ▸ hlt) hq

/-- Every quadruple but the first is sized in its part. -/
theorem sized (h : Linked a o routines) (hmain : MainPart o routines main code) {i : Nat}
    {q : Quadruple} {part : Option Routine} (hpart : InPart routines main o.quadruples.size part i)
    (hq : o.quadruples[i]? = some q) : q.Sized o (part.map Routine.frame) := by
  cases hpart with
  | body hr hstart hpast =>
    obtain ⟨body, hcode, hlength, -, hsized⟩ := h.body hr
    obtain ⟨n, rfl⟩ := Nat.exists_eq_add_of_le hstart
    rcases Nat.lt_or_ge n body.length with hn | hn
    · rw [hcode.left.getElem? hn] at hq
      exact hsized q (List.mem_of_getElem? hq)
    · obtain rfl := Option.some.inj (hq.symm.trans (h.leave_at hr (by omega)))
      exact ⟨by simp [Quadruple.addresses], nofun, nofun⟩
  | main hge hle =>
    obtain ⟨n, rfl⟩ := Nat.exists_eq_add_of_le hge
    have hlt : main + n < o.quadruples.size := (Array.getElem?_eq_some_iff.mp hq).1
    rw [hmain.codeAt.getElem? (by have := hmain.size; omega)] at hq
    exact hmain.sized q (List.mem_of_getElem? hq)

end Linked

/-! ## Constants -/

/-- The literals of a type are numbered one behind the other. -/
theorem Constant.number_filter (before ls : List Literal) (τ : ValueType) :
    ((number before ls).filter fun c => c.literal.type = τ).map Constant.address =
      (List.range' (before.countP fun l => l.type = τ) (ls.countP fun l => l.type = τ)).map
        fun i : Nat => base τ + i := by
  induction ls generalizing before with
  | nil => rfl
  | cons l ls ih =>
    have hrest := ih (before ++ [l])
    rw [List.countP_append] at hrest
    by_cases hl : l.type = τ
    · subst hl
      have hcount : ((l :: ls).countP fun m => m.type = l.type) =
          (ls.countP fun m => m.type = l.type) + 1 :=
        List.countP_cons_of_pos (by simp)
      rw [number, List.filter_cons_of_pos (by simp), List.map_cons, hrest, hcount, List.range'_succ,
        List.map_cons]
      simp
    · rw [number, List.filter_cons_of_neg (by simpa using hl), hrest,
        List.countP_cons_of_neg (by simpa using hl)]
      simp [hl]

/-- Constants have the cells of their segments, one behind the other. -/
theorem ObjectFile.Supplies.constants_filter {o : ObjectFile} {rs : List Request}
    (h : o.Supplies rs) {τ : ValueType} {base : Address}
    (hbase : Segment.base? ⟨.constant, τ⟩ = some base) :
    (o.constants.filter fun c => c.literal.type = τ).map Constant.address =
      (List.range (o.memory.cells ⟨.constant, τ⟩)).map fun i : Nat => base + i := by
  obtain ⟨more, p, hserved, hmemory, hconstants⟩ := h
  have hwide : ⟨.constant, τ⟩ ∈ Segment.programWide := by
    cases τ <;> first | decide | cases hbase
  have hsame : Constant.base τ = base := by
    rw [Constant.base, hbase]
    rfl
  rw [hconstants, hserved.constants, Constant.number_filter, hmemory, cells_memoryMap hwide,
    hserved.count_constant, List.range_eq_range', hsame]
  rfl

/-! ## Compiled programs -/

/-- A linked program has the shape of a compiled program. -/
theorem Linked.shaped {a : Program} {o : ObjectFile} {routines : List Routine}
    (h : Linked a o routines) : ∃ main, Shaped o routines main := by
  obtain ⟨main, code, hmain⟩ := h.mainPart
  have hsize := hmain.size
  -- All quadruples but the first and those that leave a function lead on in their part.
  have hflows {i : Nat} {q : Quadruple} (hi : 0 < i) (hq : o.quadruples[i]? = some q)
      (hop : q.op ≠ .leave) :
      ∃ part lo hi, lo ≤ i ∧ i ≤ hi ∧
        (∀ t, lo ≤ t → t ≤ hi → InPart routines main o.quadruples.size part t) ∧
        q.Flows o.quadruples routines lo hi i :=
    (h.flows hmain hi hq).resolve_left fun hleave => hop hleave.1
  have hpos {i : Nat} {q : Quadruple} (hq : o.quadruples[i]? = some q)
      (hop : q.op ≠ .goto) : 0 < i := by
    apply Nat.pos_of_ne_zero
    rintro rfl
    obtain rfl := Option.some.inj (hq.symm.trans hmain.entry)
    exact hop rfl
  refine ⟨main, hmain.entry, hmain.consecutive, by omega, h.frames, fun i => ⟨?_, ?_⟩, ?_, ?_, ?_,
    ?_, ?_, ?_, ?_, fun τ base => h.supplies.constants_filter⟩
  · rintro ⟨q, hq, hop⟩
    rcases h.flows hmain (hpos hq (by rw [hop]; decide)) hq with ⟨-, hlast⟩ | ⟨_, _, _, -, -, -, hq⟩
    · exact hlast
    · rw [Quadruple.Flows, hop] at hq
      exact hq.elim
  · rintro ⟨r, hr, hlast⟩
    exact ⟨_, h.leave_at hr hlast, rfl⟩
  · intro i q hi hq hop
    obtain ⟨part, lo, hi', hlo, hhi, hpart, hq⟩ :=
      hflows hi hq (by rcases hop with hop | hop <;> simp [hop])
    have htarget : ∃ t : Nat, q.result = t ∧ i < t ∧ t ≤ hi' ∧ Landing o.quadruples t := by
      rcases hop with hop | hop
      all_goals
        rw [Quadruple.Flows, hop] at hq
        exact hq
    obtain ⟨t, ht, hlt, hle, -⟩ := htarget
    exact ⟨t, ht, hlt, part, hpart i hlo hhi, hpart t (by omega) hle⟩
  · intro i q hq hop
    obtain ⟨part, lo, hi, hlo, hhi, hpart, hq⟩ :=
      hflows (hpos hq (by simp [hop])) hq (by simp [hop])
    rw [Quadruple.Flows, hop] at hq
    obtain ⟨t, ht, hle, hlt, -⟩ := hq
    exact ⟨t, ht, hlt, part, hpart i hlo hhi, hpart t hle (by omega)⟩
  · intro k q hq hop
    obtain ⟨part, lo, hi, -, -, -, hq⟩ := hflows (hpos hq (by simp [hop])) hq (by simp [hop])
    rw [Quadruple.Flows, hop] at hq
    exact hq
  · intro j q hq hop
    obtain ⟨part, lo, hi, -, -, -, hq⟩ := hflows (hpos hq (by simp [hop])) hq (by simp [hop])
    rw [Quadruple.Flows, hop] at hq
    exact hq
  · intro i q hq hop
    obtain ⟨part, lo, hi, -, -, -, hq⟩ := hflows (hpos hq (by simp [hop])) hq (by simp [hop])
    rw [Quadruple.Flows, hop] at hq
    exact hq
  · intro i q hq hjump
    rcases Nat.eq_zero_or_pos i with rfl | hi
    · obtain rfl := Option.some.inj (hq.symm.trans hmain.entry)
      exact ⟨main, rfl, h.landing hmain hmain.consecutive.past_eq⟩
    · obtain ⟨part, lo, hi', -, -, -, hflow⟩ :=
        hflows hi hq (by rintro hop; rw [hop] at hjump; cases hjump)
      exact hflow.landing hq hjump fun r hr => h.landing hmain (hmain.consecutive.start_eq hr)
  · intro i q part
    exact h.sized hmain

/-- The object file of a source text that is compiled has the bodies of the functions of its syntax
tree, in their order, and the shape of a compiled program. -/
theorem compile_shaped {source : String} {strict : Bool} {c : Compilation}
    (h : compile source strict = .ok c) :
    ∃ (a : Program) (routines : List Routine) (main : Nat), a.IsTreeOf source strict ∧
      Linked a c.object routines ∧ Shaped c.object routines main := by
  obtain ⟨a, htree, hlower⟩ := lower_of_compile h
  obtain ⟨routines, hlinked⟩ := linked_of_lower hlower
  obtain ⟨main, hshaped⟩ := hlinked.shaped
  exact ⟨a, routines, main, htree, hlinked, hshaped⟩

/-- The theorem at a program with a loop, a recursive function and a division by zero. -/
theorem compile_shaped_countdown : ∃ c, compile countdown true = .ok c ∧
    ∃ (a : Program) (routines : List Routine) (main : Nat), a.IsTreeOf countdown true ∧
      Linked a c.object routines ∧ Shaped c.object routines main := by
  obtain ⟨c, hc⟩ := countdown_compiles
  exact ⟨c, hc, compile_shaped hc⟩

end Quadlet
