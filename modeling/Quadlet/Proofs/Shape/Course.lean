import Quadlet.Proofs.Machine.Integrity
import Quadlet.Proofs.Shape.Frames

/-!
# The course of a call

Execution enters the code of a call at its first quadruple only, and goes through it to the end.
Once the call is entered, everything happens above the frames of the calls beneath it. Main
statements: whoever stands in the code of a call came through its first quadruple; and the frames
beneath a call stay as they are until execution goes on behind it.
-/

namespace Quadlet

/-! ## In front of a call -/

/-- An object file without its quadruples from an index on. -/
def ObjectFile.upTo (o : ObjectFile) (n : Nat) : ObjectFile :=
  { o with quadruples := (o.quadruples.toList.take n).toArray }

namespace ObjectFile

variable {o : ObjectFile} {i n : Nat}

private theorem getElem?_upTo (h : i < n) : (o.upTo n).quadruples[i]? = o.quadruples[i]? := by
  rw [upTo, List.getElem?_toArray, List.getElem?_take_of_lt h, Array.getElem?_toList]

theorem getElem?_upTo_eq_none (h : n ≤ i) : (o.upTo n).quadruples[i]? = none := by
  rw [upTo, List.getElem?_toArray, List.getElem?_take_eq_none h]

end ObjectFile

section

variable {o : ObjectFile} {routines : List Routine} {main : Nat} {c d : Core} {q : Quadruple}

/-- A call is left for a place at which a statement can start, and its frame was entered. -/
theorem Framed.left (hc : Framed o.quadruples routines main c) (h : Shaped o routines main)
    (hq : o.quadruples[c.ip]? = some q) (hop : q.op = .leave) {r : Nat} {returns : List Nat}
    (hreturns : c.returns = r :: returns) :
    Landing o.quadruples r ∧ ∃ f below, c.memory.frames = f :: below ∧ f.pending = false := by
  cases hc with
  | start ip => exact absurd (h.pos hq (by simp [hop])) (by omega)
  | @inside waiting entered frames waits matched =>
    obtain rfl : waiting = [] := waits.eq_nil hq (by rw [hop]; rfl) (by simp [hop]) (by simp [hop])
    rw [hreturns] at matched
    cases matched with
    | call place function entered site rest => exact ⟨.behind site.last rfl, _, _, frames, entered⟩

/-- A transition leads to the next quadruple, or to a place at which a statement can start. -/
theorem Framed.onward_or_landing (hc : Framed o.quadruples routines main c)
    (h : Shaped o routines main) (hq : o.quadruples[c.ip]? = some q) (hd : c.advance q = .ok d) :
    d.ip = c.ip + 1 ∨ Landing o.quadruples d.ip := by
  cases Core.moves hd with
  | same | written | allocated | handed => exact .inl rfl
  | jumped hop ht =>
    obtain ⟨t, ht', hlanding⟩ := h.landing _ _ hq hop
    obtain rfl := Int.ofNat.inj (ht.symm.trans ht')
    exact .inr hlanding
  | entered hop ht =>
    obtain ⟨t, ht', hlanding⟩ := h.landing _ _ hq (by rw [hop]; rfl)
    obtain rfl := Int.ofNat.inj (ht.symm.trans ht')
    exact .inr hlanding
  | left hop hreturns => exact .inr (hc.left h hq hop hreturns).1

/-- Whoever stands in the code of a call came through its first quadruple, and from there
without leaving the code. -/
theorem Core.Leads.through (hd : c.Leads o.quadruples d) (hc : Framed o.quadruples routines main c)
    (h : Shaped o routines main) (hip : c.ip = 0) {r : Routine} {j k : Nat}
    (hsite : CallSite o.quadruples r j k) (hj : j < d.ip) (hk : d.ip ≤ k) :
    ∃ e e', c.Leads o.quadruples e ∧ e.ip = j ∧
    e.advance ⟨.allocate, r.id, unused, unused⟩ = .ok e' ∧
      e'.Leads (o.upTo k).quadruples d := by
  induction hd with
  | refl => omega
  | @step d d' q hd hq hstep ih =>
    -- nothing but the quadruple in front leads into the code of a call
    rcases (hc.leads h hd).onward_or_landing h hq hstep with honward | hlanding
    · rw [honward] at hj hk
      rcases Nat.lt_or_eq_of_le (Nat.le_of_lt_succ hj) with hlt | rfl
      · obtain ⟨e, e', he, hfirst, hallocate, hleads⟩ := ih hlt (by omega)
        refine ⟨e, e', he, hfirst, hallocate, hleads.step ?_ hstep⟩
        rw [ObjectFile.getElem?_upTo hk]
        exact hq
      · obtain rfl := Option.some.inj (hq.symm.trans hsite.first)
        exact ⟨d, d', hd, rfl, hstep, .refl⟩
    · exact absurd hlanding (hsite.not_landing hj hk)

end

/-! ## Beneath a call -/

/-- Frames and places to return to above those of the calls beneath an entered call, which
goes back to a place. -/
inductive Above (beneath : List Frame) (returns : List Nat) (back : Nat) :
    List Frame → List Nat → Prop where
  | call {f : Frame} (h : f.pending = false) :
    Above beneath returns back (f :: beneath) (back :: returns)
  | waiting {f : Frame} {fs : List Frame} {rs : List Nat} (h : f.pending = true)
    (rest : Above beneath returns back fs rs) : Above beneath returns back (f :: fs) rs
  | entered {f : Frame} {fs : List Frame} {r : Nat} {rs : List Nat} (h : f.pending = false)
    (rest : Above beneath returns back fs rs) : Above beneath returns back (f :: fs) (r :: rs)

namespace Above

variable {beneath fs : List Frame} {returns rs : List Nat} {back : Nat} {m m' : Memory}

theorem suffix (h : Above beneath returns back fs rs) : beneath <:+ fs := by
  induction h with
  | call => exact List.suffix_cons ..
  | waiting _ _ ih | entered _ _ ih => exact ih.trans (List.suffix_cons ..)

theorem ne (h : Above beneath returns back fs rs) : fs ≠ beneath := by
  suffices hlt : beneath.length < fs.length from fun heq =>
      absurd (congrArg List.length heq) (by omega)
  induction h with
  | call => exact Nat.lt_succ_self _
  | waiting _ _ ih | entered _ _ ih => exact Nat.lt_succ_of_lt ih

/-- Whichever of the topmost frames is changed, it is above those beneath the call. -/
theorem replace {front below : List Frame} {f g : Frame}
    (h : Above beneath returns back (front ++ f :: below) rs)
    (hfront : ∀ x ∈ front, x.pending = true) (hg : g.pending = f.pending) :
    Above beneath returns back (front ++ g :: below) rs := by
  induction front with
  | nil =>
    cases h with
    | call h => exact .call (hg.trans h)
    | waiting h rest => exact .waiting (hg.trans h) rest
    | entered h rest => exact .entered (hg.trans h) rest
  | cons x front ih =>
    obtain ⟨hx, hfront⟩ := List.forall_mem_cons.mp hfront
    have hwaiting : ∀ {ys ts}, Above beneath returns back (x :: ys) ts →
        Above beneath returns back ys ts := by
      intro ys ts h
      cases h with
      | waiting _ rest => exact rest
      | call h | entered h => simp [hx] at h
    exact .waiting hx (ih (hwaiting h) hfront)

private theorem write (h : Above beneath returns back m.frames rs) {a : Address} {v : Value}
    (hm : m.write a v = .ok m') : Above beneath returns back m'.frames rs := by
  obtain ⟨s, b, c, i, -, -, rfl⟩ | ⟨s, i, f, g, below, hentered, hg, rfl⟩ := Memory.write_cases hm
  · exact h
  · rw [Memory.frames_of_entered hentered] at h
    have htag := Frame.tag_write hg
    exact h.replace (List.all_eq_true.mp List.all_takeWhile) (Prod.mk.inj htag).2

private theorem allocate (h : Above beneath returns back m.frames rs) {f : Address}
    (hm : m.allocate f = .ok m') : Above beneath returns back m'.frames rs := by
  obtain ⟨size, -, rfl⟩ := Memory.allocate_eq_ok.mp hm
  exact .waiting rfl h

private theorem param (h : Above beneath returns back m.frames rs) {v : Value}
    (hm : m.param v = .ok m') : Above beneath returns back m'.frames rs := by
  obtain ⟨f, below, g, hframes, -, hg, rfl⟩ := Memory.param_eq_ok.mp hm
  have htag := Frame.tag_param hg
  rw [hframes, ← List.nil_append (f :: below)] at h
  exact h.replace (by simp) (Prod.mk.inj htag).2

private theorem enter (h : Above beneath returns back m.frames rs)
    (hm : m.enter = .ok m') (r : Nat) : Above beneath returns back m'.frames (r :: rs) := by
  obtain ⟨f, below, hframes, hpending, rfl⟩ := Memory.enter_eq_ok.mp hm
  rw [hframes] at h
  cases h with
  | waiting _ rest => exact .entered rfl rest
  | call h | entered h => simp [hpending] at h

/-- A transition stays above the frames beneath a call, or ends the call. -/
theorem step {o : ObjectFile} {routines : List Routine} {main : Nat} {c d : Core} {q : Quadruple}
    (h : Above beneath returns back c.memory.frames c.returns) (hshaped : Shaped o routines main)
    (hc : Framed o.quadruples routines main c) (hq : o.quadruples[c.ip]? = some q)
    (hd : c.advance q = .ok d) :
    Above beneath returns back d.memory.frames d.returns ∨
      d.memory.frames = beneath ∧ d.returns = returns ∧ d.ip = back := by
  cases Core.moves hd with
  | same | jumped => exact .inl h
  | written hm => exact .inl (h.write hm)
  | allocated hm => exact .inl (h.allocate hm)
  | handed hm => exact .inl (h.param hm)
  | entered _ _ hm => exact .inl (h.enter hm _)
  | left hop hreturns hm =>
    obtain ⟨-, f, below, hframes, hentered⟩ := hc.left hshaped hq hop hreturns
    rw [Memory.release, hframes] at hm
    cases hm
    rw [hframes, hreturns] at h
    cases h with
    | call => exact .inr ⟨rfl, rfl, rfl⟩
    | entered _ rest => exact .inl rest
    | waiting h => simp [hentered] at h

end Above

/-- Steps lead on while there are more than `n` frames; the last of them may drop the frame above.
Every step has a printer of its own, and steps that fail are among them. -/
inductive Machine.Inside (n : Nat) (m : Machine) : Machine → Prop where
  | refl : Inside n m m
  | moved {m' m'' : Machine} {q : Quadruple} {ω : Type} {printer : Printer ω} {out out' : ω}
    (h : Inside n m m') (hdepth : n < m'.memory.depth) (hq : m'.program[m'.ip]? = some q)
    (hstep : step printer q (m', out) = .ok () (m'', out')) : Inside n m m''
  | failed {m' m'' : Machine} {q : Quadruple} {ω : Type} {printer : Printer ω}
    {out out' : ω} {e : Error} (h : Inside n m m') (hdepth : n < m'.memory.depth)
    (hq : m'.program[m'.ip]? = some q) (hstep : step printer q (m', out) = .error e (m'', out')) :
      Inside n m m''

namespace Machine.Inside

variable {m m' : Machine}

private theorem follows {n : Nat} (h : m.Inside n m') (hm : m.Prompt) : m.Follows m' := by
  induction h with
  | refl => exact .refl m
  | moved _ _ hq hstep ih =>
    obtain ⟨c, hc, rfl⟩ := exists_core_of_step hstep
    exact ih.trans ⟨rfl, rfl, Core.Leads.refl.step hq hc⟩
  | failed _ _ hq hstep ih =>
    obtain rfl := (ih.prompt hm).step_error hq hstep
    exact ih

/-- Until a call ends, everything happens above the frames beneath it; then
execution goes on behind it. -/
theorem above {o : ObjectFile} {routines : List Routine} {main : Nat} {beneath : List Frame}
    {returns : List Nat} {back : Nat} (h : m.Inside beneath.length m')
    (hprogram : m.program = o.quadruples) (hm : m.Prompt) (hshaped : Shaped o routines main)
    (hc : Framed o.quadruples routines main m.core)
    (habove : Above beneath returns back m.memory.frames m.returns) :
    Above beneath returns back m'.memory.frames m'.returns ∨
      m'.memory.frames = beneath ∧ m'.returns = returns ∧ m'.ip = back := by
  induction h with
  | refl => exact .inl habove
  | moved h hdepth hq hstep ih =>
    obtain ⟨d, hd, rfl⟩ := exists_core_of_step hstep
    have hfollows := h.follows hm
    have hleads := hfollows.leads
    rw [hfollows.program] at hq
    rw [hprogram] at hq hleads
    rcases ih with habove | ⟨hframes, -⟩
    · exact habove.step hshaped (hc.leads hshaped hleads) hq hd
    · rw [Memory.depth, hframes] at hdepth
      omega
  | failed h _ hq hstep ih =>
    obtain rfl := ((h.follows hm).prompt hm).step_error hq hstep
    exact ih

end Machine.Inside

end Quadlet
