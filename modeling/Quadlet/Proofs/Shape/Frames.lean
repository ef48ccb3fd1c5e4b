import Quadlet.Proofs.Machine.Transitions
import Quadlet.Proofs.Shape.Program

/-!
# Frames and places to return to

While a compiled program runs, the frames of the entered calls, the places to return to and the
place of execution fit together, and a frame waits to be entered only inside the code of its call.
Main statement: this holds of every machine that runs lead to, however often they are cut off, so
nothing is left when the program ends.
-/

namespace Quadlet

open Syntax

/-! ## Matching frames -/

/-- The frames of entered calls, the places to return to and a place fit together,
innermost call first. -/
inductive Matched (program : Array Quadruple) (routines : List Routine) (main : Nat) :
    List Frame → List Nat → Nat → Prop where
  | main {i : Nat} (place : InPart routines main program.size none i) :
    Matched program routines main [] [] i
  /-- The call returns behind its quadruple, into the function of the frame beneath. -/
  | call {r : Routine} {f : Frame} {frames : List Frame} {returns : List Nat} {i j k : Nat}
    (place : InPart routines main program.size (some r) i) (function : f.function = r.id)
    (entered : f.pending = false) (site : CallSite program r j k)
    (rest : Matched program routines main frames returns (k + 1)) :
    Matched program routines main (f :: frames) ((k + 1) :: returns) i

/-- The frames that wait to be entered: there is one exactly inside the code of a call. -/
inductive Waiting (program : Array Quadruple) (routines : List Routine) (i : Nat) :
    List Frame → Prop where
  | none (outside : ∀ {r j k}, CallSite program r j k → j < i → ¬i ≤ k) :
    Waiting program routines i []
  | one {r : Routine} {f : Frame} {j k : Nat} (callable : r ∈ routines)
    (site : CallSite program r j k) (allocated : j < i) (uncalled : i ≤ k)
    (function : f.function = r.id) (pending : f.pending = true) :
    Waiting program routines i [f]

/-- The frames and the places to return to fit the place of execution. -/
inductive Framed (program : Array Quadruple) (routines : List Routine) (main : Nat) (c : Core) :
    Prop where
  | start (ip : c.ip = 0) (frames : c.memory.frames = []) (returns : c.returns = []) :
    Framed program routines main c
  | inside {waiting entered : List Frame} (frames : c.memory.frames = waiting ++ entered)
    (waits : Waiting program routines c.ip waiting)
    (matched : Matched program routines main entered c.returns c.ip) :
      Framed program routines main c

/-- What the frames have to do with the flow of a program. -/
def Frame.tag (f : Frame) : Address × Bool := (f.function, f.pending)

section

variable {program : Array Quadruple} {routines : List Routine} {main i i' : Nat}
  {frames frames' : List Frame} {returns : List Nat}

private theorem Matched.congr (h : Matched program routines main frames returns i)
    (htags : frames'.map Frame.tag = frames.map Frame.tag) :
    Matched program routines main frames' returns i := by
  induction h generalizing frames' with
  | main place =>
    rw [List.map_nil, List.map_eq_nil_iff] at htags
    rw [htags]
    exact .main place
  | call place function entered site rest ih =>
    obtain ⟨f, fs, rfl, hf, hfs⟩ := List.map_eq_cons_iff.mp htags
    obtain ⟨hfunction, hpending⟩ := Prod.mk.inj hf
    exact .call place (hfunction.trans function) (hpending.trans entered) site (ih hfs)

private theorem Matched.move (h : Matched program routines main frames returns i)
    (hmove : ∀ part, InPart routines main program.size part i →
      InPart routines main program.size part i') :
    Matched program routines main frames returns i' := by
  cases h with
  | main place => exact .main (hmove _ place)
  | call place function entered site rest => exact .call (hmove _ place) function entered site rest

private theorem Waiting.congr (h : Waiting program routines i frames)
    (htags : frames'.map Frame.tag = frames.map Frame.tag) :
    Waiting program routines i frames' := by
  cases h with
  | none outside =>
    rw [List.map_nil, List.map_eq_nil_iff] at htags
    rw [htags]
    exact .none outside
  | one callable site allocated uncalled function pending =>
    obtain ⟨f, fs, rfl, hf, hfs⟩ := List.map_eq_cons_iff.mp htags
    rw [List.map_nil, List.map_eq_nil_iff] at hfs
    obtain ⟨hfunction, hpending⟩ := Prod.mk.inj hf
    rw [hfs]
    exact .one callable site allocated uncalled (hfunction.trans function) (hpending.trans pending)

/-- No frame waits where a statement can start. -/
theorem Landing.waiting (h : Landing program i) : Waiting program routines i [] :=
  .none fun hsite hj hk => hsite.not_landing hj hk h

/-- No frame waits where a statement can start, so all were entered. -/
theorem Landing.framed {c : Core} (h : Landing program c.ip)
    (hc : Matched program routines main c.memory.frames c.returns c.ip) :
    Framed program routines main c :=
  .inside (List.nil_append _).symm h.waiting hc

private theorem Matched.exists_part (h : Matched program routines main frames returns i) :
    ∃ part, InPart routines main program.size part i := by
  cases h with
  | main place => exact ⟨_, place⟩
  | call place => exact ⟨_, place⟩

/-- Inside the code of a call there are operators, arguments and the call itself. -/
theorem Waiting.eq_nil (h : Waiting program routines i frames) {q : Quadruple}
    (hq : program[i]? = some q) (hop : q.op.isOperator = false) (hparam : q.op ≠ .param)
    (hcall : q.op ≠ .call) : frames = [] := by
  cases h with
  | none => rfl
  | @one r f j k _ site allocated uncalled =>
    rcases Nat.lt_or_eq_of_le uncalled with hlt | rfl
    · obtain ⟨q', hq', hinner⟩ := site.between allocated hlt
      obtain rfl := Option.some.inj (hq.symm.trans hq')
      rcases hinner with hinner | hinner
      · rw [hop] at hinner
        cases hinner
      · exact absurd hinner hparam
    · obtain rfl := Option.some.inj (hq.symm.trans site.last)
      exact absurd rfl hcall

/-- Frames wait on until the next frame is made or the call is entered. -/
theorem Waiting.onward (h : Waiting program routines i frames) {q : Quadruple}
    (hq : program[i]? = some q) (hallocate : q.op ≠ .allocate) (hcall : q.op ≠ .call) :
    Waiting program routines (i + 1) frames := by
  cases h with
  | none outside =>
    refine .none fun {r j k} site hj hk => ?_
    rcases Nat.lt_or_eq_of_le (Nat.le_of_lt_succ hj) with hlt | rfl
    · exact outside site hlt (by omega)
    · obtain rfl := Option.some.inj (hq.symm.trans site.first)
      exact hallocate rfl
  | @one r f j k callable site allocated uncalled function pending =>
    rcases Nat.lt_or_eq_of_le uncalled with hlt | rfl
    · exact .one callable site (by omega) hlt function pending
    · obtain rfl := Option.some.inj (hq.symm.trans site.last)
      exact absurd rfl hcall

end

/-! ## Changes of the memory -/

/-- A written frame is the frame of the same call. -/
theorem Frame.tag_write {f g : Frame} {s : Segment} {i : Nat} {x : Value}
    (h : f.write s i x = .ok g) : g.tag = f.tag := by
  obtain ⟨lifetime, τ⟩ := s
  cases τ with
  | int | float =>
    obtain ⟨b, -, rfl⟩ := Except.map_eq_ok.mp h
    rfl
  | _ => cases h

/-- A frame with one more argument is the frame of the same call. -/
theorem Frame.tag_param {f g : Frame} {x : Value} (h : f.param x = .ok g) : g.tag = f.tag := by
  cases x with
  | int | bool | float =>
    obtain ⟨b, -, rfl⟩ := Except.map_eq_ok.mp h
    rfl
  | string => cases h

namespace Memory

variable {m m' : Memory}

/-- Writing keeps the frames of all calls. -/
theorem tags_write {a : Address} {x : Value} (h : m.write a x = .ok m') :
    m'.frames.map Frame.tag = m.frames.map Frame.tag := by
  obtain ⟨⟨s, i⟩, -, h⟩ := Except.bind_eq_ok.mp h
  cases hs : s.isLocal with
  | false =>
    simp only [hs, Bool.false_eq_true, if_false, writeGlobal] at h
    cases hb : m.globals.lookup s with
    | none =>
      rw [hb] at h
      cases h
    | some b =>
      rw [hb] at h
      obtain ⟨c, -, rfl⟩ := Except.map_eq_ok.mp h
      rfl
  | true =>
    simp only [hs, if_true, writeLocal] at h
    cases hentered : m.entered with
    | nil =>
      rw [hentered] at h
      cases h
    | cons f below =>
      rw [hentered] at h
      obtain ⟨g, hg, rfl⟩ := Except.map_eq_ok.mp h
      rw [List.map_append, List.map_cons, Frame.tag_write hg, ← List.map_cons, ← hentered,
        ← List.map_append]
      exact congrArg (List.map Frame.tag) List.takeWhile_append_dropWhile

private theorem tags_operate {op : Opcode} {a b c : Address} (h : m.operate op a b c = .ok m') :
    m'.frames.map Frame.tag = m.frames.map Frame.tag := by
  obtain ⟨x, -, h⟩ := Except.bind_eq_ok.mp h
  obtain ⟨y, -, h⟩ := Except.bind_eq_ok.mp h
  obtain ⟨z, -, h⟩ := Except.bind_eq_ok.mp h
  exact tags_write h

private theorem tags_copy {a c : Address} (h : m.copy a c = .ok m') :
    m'.frames.map Frame.tag = m.frames.map Frame.tag := by
  obtain ⟨x, -, h⟩ := Except.bind_eq_ok.mp h
  exact tags_write h

private theorem tags_param {x : Value} (h : m.param x = .ok m') :
    m'.frames.map Frame.tag = m.frames.map Frame.tag := by
  obtain ⟨f, below, g, hframes, -, hg, rfl⟩ := param_eq_ok.mp h
  rw [hframes, List.map_cons, List.map_cons, Frame.tag_param hg]

end Memory

/-! ## Steps -/

/-- No part contains the first quadruple. -/
theorem InPart.pos {routines : List Routine} {main size i : Nat} {part : Option Routine}
    (hi : InPart routines main size part i) (h : Routine.Consecutive 1 routines main) : 0 < i := by
  cases hi with
  | body hr hstart hpast => exact Nat.lt_of_lt_of_le (h.bounds hr).1 hstart
  | main hge => exact Nat.lt_of_lt_of_le h.le hge

/-- No place is in two parts. -/
theorem InPart.unique {routines : List Routine} {main size i : Nat} {part part' : Option Routine}
    (hi : InPart routines main size part i) (h : Routine.Consecutive 1 routines main)
    (hi' : InPart routines main size part' i) : part = part' := by
  cases hi with
  | body hr hstart hpast =>
    cases hi' with
    | body hs hstart' hpast' => rw [h.unique hr hs ⟨hstart, hpast⟩ ⟨hstart', hpast'⟩]
    | main hge =>
      have hle := (h.bounds hr).2.2
      omega
  | main hge =>
    cases hi' with
    | body hs hstart hpast =>
      have hle := (h.bounds hs).2.2
      omega
    | main => rfl

section

variable {o : ObjectFile} {routines : List Routine} {main : Nat} {c d : Core} {q : Quadruple}

/-- A part goes on behind every quadruple that does not leave a function. -/
theorem Shaped.onward (h : Shaped o routines main) {i : Nat} (hq : o.quadruples[i]? = some q)
    (hop : q.op ≠ .leave) {part : Option Routine}
    (hpart : InPart routines main o.quadruples.size part i) :
    InPart routines main o.quadruples.size part (i + 1) := by
  cases hpart with
  | body hr hstart hpast =>
    rcases Nat.lt_or_eq_of_le (Nat.succ_le_of_lt hpast) with hlt | heq
    · exact .body hr (Nat.le_succ_of_le hstart) hlt
    · obtain ⟨q', hq', hleave⟩ := (h.leaves i).mpr ⟨_, hr, heq.symm⟩
      obtain rfl := Option.some.inj (hq.symm.trans hq')
      exact absurd hleave hop
  | main hge hle => exact .main (Nat.le_succ_of_le hge) (Array.getElem?_eq_some_iff.mp hq).1

/-- A program starts with a jump. -/
theorem Shaped.pos (h : Shaped o routines main) {i : Nat} (hq : o.quadruples[i]? = some q)
    (hop : q.op ≠ .goto) : 0 < i := by
  apply Nat.pos_of_ne_zero
  rintro rfl
  obtain rfl := Option.some.inj (hq.symm.trans h.entry)
  exact hop rfl

/-- Every place behind the first quadruple is in a part. -/
theorem Shaped.exists_part (h : Shaped o routines main) {i : Nat} (hi : 0 < i)
    (hsize : i < o.quadruples.size) : ∃ part, InPart routines main o.quadruples.size part i := by
  rcases Nat.lt_or_ge i main with hlt | hge
  · obtain ⟨r, hr, hstart, hpast⟩ := h.consecutive.exists_mem hi hlt
    exact ⟨some r, .body hr hstart hpast⟩
  · exact ⟨none, .main hge (Nat.le_of_lt hsize)⟩

theorem Shaped.exists_sized (h : Shaped o routines main) {i : Nat} (hq : o.quadruples[i]? = some q)
    (hop : q.op ≠ .goto) : ∃ frame, q.Sized o frame := by
  obtain ⟨part, hpart⟩ := h.exists_part (h.pos hq hop) (Array.getElem?_eq_some_iff.mp hq).1
  exact ⟨_, h.sized _ _ _ hpart hq⟩

/-- Frames match on behind a quadruple that leads to the next one. -/
theorem Framed.onward (hc : Framed o.quadruples routines main c) (h : Shaped o routines main)
    (hq : o.quadruples[c.ip]? = some q) (hgoto : q.op ≠ .goto) (hallocate : q.op ≠ .allocate)
    (hcall : q.op ≠ .call) (hleave : q.op ≠ .leave) {m : Memory}
    (hm : m.frames.map Frame.tag = c.memory.frames.map Frame.tag) :
    Framed o.quadruples routines main (c.onward m) := by
  cases hc with
  | start ip => exact absurd (h.pos hq hgoto) (by omega)
  | inside frames waits matched =>
    rw [frames, List.map_append] at hm
    obtain ⟨waiting', entered', hframes, hwaiting, hentered⟩ := List.map_eq_append_iff.mp hm
    exact .inside hframes ((waits.congr hwaiting).onward hq hallocate hcall)
      ((matched.congr hentered).move fun part => h.onward hq hleave)

/-- A jump leads to a place of its own part at which a statement can start. -/
theorem Shaped.jumps (h : Shaped o routines main) {i : Nat} (hi : 0 < i)
    (hq : o.quadruples[i]? = some q) (hop : q.op = .goto ∨ q.op = .gotoFalse ∨ q.op = .gotoTrue) :
    ∃ t : Nat, q.result = t ∧ Landing o.quadruples t ∧
    ∃ part, InPart routines main o.quadruples.size part i ∧
      InPart routines main o.quadruples.size part t := by
  obtain ⟨t, ht, hlanding⟩ :=
    h.landing i q hq (by rcases hop with hop | hop | hop <;> rw [hop] <;> rfl)
  have hpart : ∃ u : Nat, q.result = u ∧ ∃ part, InPart routines main o.quadruples.size part i ∧
      InPart routines main o.quadruples.size part u := by
    rw [← or_assoc] at hop
    rcases hop with hop | hop
    · obtain ⟨u, hu, -, hpart⟩ := h.forward i q hi hq hop
      exact ⟨u, hu, hpart⟩
    · obtain ⟨u, hu, -, hpart⟩ := h.backward i q hq hop
      exact ⟨u, hu, hpart⟩
  obtain ⟨u, hu, hpart⟩ := hpart
  obtain rfl : t = u := Int.ofNat.inj (ht.symm.trans hu)
  exact ⟨t, ht, hlanding, hpart⟩

theorem Core.jump_eq {t : Nat} (ht : q.result = t) : c.jump q = .ok { c with ip := t } := by
  rw [Core.jump, ht, if_neg (Int.not_lt.mpr (Int.natCast_nonneg t))]
  rfl

/-- Frames match on behind a jump. -/
theorem Framed.jump (hc : Framed o.quadruples routines main c) (h : Shaped o routines main)
    (hq : o.quadruples[c.ip]? = some q) (hop : q.op = .goto ∨ q.op = .gotoFalse ∨ q.op = .gotoTrue)
    (hd : c.jump q = .ok d) : Framed o.quadruples routines main d := by
  cases hc with
  | start ip frames returns =>
    rw [ip] at hq
    obtain rfl := Option.some.inj (hq.symm.trans h.entry)
    rw [Core.jump_eq rfl] at hd
    cases hd
    obtain ⟨t, ht, hlanding⟩ := h.landing 0 _ hq rfl
    obtain rfl : main = t := Int.ofNat.inj ht
    refine Landing.framed hlanding ?_
    rw [frames, returns]
    exact .main (.main (Nat.le_refl _) h.main_le)
  | @inside waiting entered frames waits matched =>
    obtain rfl : waiting = [] := by
      apply waits.eq_nil hq <;> rcases hop with hop | hop | hop <;> rw [hop] <;> decide
    obtain ⟨part, hpart⟩ := matched.exists_part
    obtain ⟨t, ht, hlanding, part', hplace, htarget⟩ := h.jumps (hpart.pos h.consecutive) hq hop
    rw [Core.jump_eq ht] at hd
    cases hd
    refine Landing.framed hlanding ?_
    rw [frames]
    refine matched.move fun part'' hplace' => ?_
    rw [hplace'.unique h.consecutive hplace]
    exact htarget

/-- The frame that is made waits for its call. -/
theorem Framed.allocate (hc : Framed o.quadruples routines main c) (h : Shaped o routines main)
    {x y z : Address} (hq : o.quadruples[c.ip]? = some ⟨.allocate, x, y, z⟩) {m : Memory}
    (hm : c.memory.allocate x = .ok m) : Framed o.quadruples routines main (c.onward m) := by
  obtain ⟨size, hsize, rfl⟩ := Memory.allocate_eq_ok.mp hm
  have hfunction : size.function = x := by
    rw [MemoryMap.lastFrame?] at hsize
    simpa using List.find?_some hsize
  cases hc with
  | start ip => exact absurd (h.pos hq (by simp)) (by omega)
  | @inside waiting entered frames waits matched =>
    obtain rfl : waiting = [] := waits.eq_nil hq rfl (by simp) (by simp)
    obtain ⟨r, hr, k, hsite⟩ := h.allocates _ _ hq rfl
    obtain ⟨rfl, -⟩ : x = r.id ∧ _ :=
      Quadruple.mk.inj (Option.some.inj (hq.symm.trans hsite.first)) |>.2
    have hframes : Frame.ofSize size :: c.memory.frames = [Frame.ofSize size] ++ entered := by
      rw [frames]
      rfl
    exact .inside hframes (.one hr hsite (Nat.lt_succ_self _) hsite.lt hfunction rfl)
      (matched.move fun part => h.onward hq (by simp))

/-- The frame that waits is entered, and its call returns behind itself. -/
theorem Framed.call (hc : Framed o.quadruples routines main c) (h : Shaped o routines main)
    {x y z : Address} (hq : o.quadruples[c.ip]? = some ⟨.call, x, y, z⟩)
    (hd : c.advance ⟨.call, x, y, z⟩ = .ok d) : Framed o.quadruples routines main d := by
  obtain ⟨m, hm, hd⟩ := Except.bind_eq_ok.mp hd
  cases hc with
  | start ip => exact absurd (h.pos hq (by simp)) (by omega)
  | inside frames waits matched =>
    cases waits with
    | none outside =>
      obtain ⟨r, -, j, hsite⟩ := h.calls _ _ hq rfl
      exact absurd (Nat.le_refl _) (outside hsite hsite.lt)
    | @one r f j k callable site allocated uncalled function pending =>
      rcases Nat.lt_or_eq_of_le uncalled with hlt | rfl
      · obtain ⟨q, hq', hinner⟩ := site.between allocated hlt
        obtain rfl := Option.some.inj (hq.symm.trans hq')
        rcases hinner with hinner | hinner <;> cases hinner
      · cases Option.some.inj (hq.symm.trans site.last)
        rw [Memory.enter, frames, List.singleton_append] at hm
        simp only [pending, if_true] at hm
        cases hm
        obtain ⟨t, ht, hlanding⟩ := h.landing _ _ hq rfl
        obtain rfl : r.start = t := Int.ofNat.inj ht
        rw [Core.jump_eq rfl] at hd
        cases hd
        refine Landing.framed hlanding ?_
        exact .call (.body callable (Nat.le_refl _) (h.consecutive.bounds callable).2.1)
          function rfl site (matched.move fun part => h.onward hq (by simp))

/-- The innermost call is left for the place behind it. -/
theorem Framed.leave (hc : Framed o.quadruples routines main c) (h : Shaped o routines main)
    {x y z : Address} (hq : o.quadruples[c.ip]? = some ⟨.leave, x, y, z⟩)
    (hd : c.advance ⟨.leave, x, y, z⟩ = .ok d) : Framed o.quadruples routines main d := by
  cases hc with
  | start ip => exact absurd (h.pos hq (by simp)) (by omega)
  | @inside waiting entered frames waits matched =>
    obtain rfl : waiting = [] := waits.eq_nil hq rfl (by simp) (by simp)
    rw [List.nil_append] at frames
    generalize hreturns : c.returns = returns at matched
    cases matched with
    | main =>
      rw [Core.advance_leave_nil hreturns] at hd
      cases hd
    | call place function entered' site rest =>
      rw [Core.advance_leave_cons hreturns] at hd
      obtain ⟨m, hm, rfl⟩ := Except.map_eq_ok.mp hd
      rw [Memory.release, frames] at hm
      cases hm
      exact Landing.framed (.behind site.last rfl) rest

/-- One transition keeps the frames and the places to return to matched. -/
theorem Framed.step (hc : Framed o.quadruples routines main c) (h : Shaped o routines main)
    (hq : o.quadruples[c.ip]? = some q) (hd : c.advance q = .ok d) :
    Framed o.quadruples routines main d := by
  obtain ⟨op, x, y, z⟩ := q
  cases op with
  | add | sub | mul | div | lt | gt | le | ge | eq | ne =>
    obtain ⟨m, hm, rfl⟩ := Except.map_eq_ok.mp hd
    exact hc.onward h hq (by simp) (by simp) (by simp) (by simp) (Memory.tags_operate hm)
  | assign =>
    obtain ⟨m, hm, rfl⟩ := Except.map_eq_ok.mp hd
    exact hc.onward h hq (by simp) (by simp) (by simp) (by simp) (Memory.tags_copy hm)
  | print =>
    obtain ⟨v, -, rfl⟩ := Except.map_eq_ok.mp hd
    exact hc.onward h hq (by simp) (by simp) (by simp) (by simp) rfl
  | goto => exact hc.jump h hq (.inl rfl) hd
  | gotoFalse =>
    obtain ⟨v, -, hd⟩ := Except.bind_eq_ok.mp hd
    cases hv : v.truthy with
    | true =>
      rw [hv] at hd
      cases hd
      exact hc.onward h hq (by simp) (by simp) (by simp) (by simp) rfl
    | false =>
      rw [hv] at hd
      exact hc.jump h hq (.inr (.inl rfl)) hd
  | gotoTrue =>
    obtain ⟨v, -, hd⟩ := Except.bind_eq_ok.mp hd
    cases hv : v.truthy with
    | true =>
      rw [hv] at hd
      exact hc.jump h hq (.inr (.inr rfl)) hd
    | false =>
      rw [hv] at hd
      cases hd
      exact hc.onward h hq (by simp) (by simp) (by simp) (by simp) rfl
  | call => exact hc.call h hq hd
  | allocate =>
    obtain ⟨m, hm, rfl⟩ := Except.map_eq_ok.mp hd
    exact hc.allocate h hq hm
  | leave => exact hc.leave h hq hd
  | param =>
    obtain ⟨v, -, hd⟩ := Except.bind_eq_ok.mp hd
    by_cases hz : z < 0
    · simp [hz] at hd
    · simp only [hz, if_false] at hd
      obtain ⟨m, hm, rfl⟩ := Except.map_eq_ok.mp hd
      exact hc.onward h hq (by simp) (by simp) (by simp) (by simp) (Memory.tags_param hm)

/-- No transition is found impossible when a part of it has been made. -/
theorem Framed.not_late (hc : Framed o.quadruples routines main c) (h : Shaped o routines main)
    (hq : o.quadruples[c.ip]? = some q) {e : Error} (he : c.advance q = .error e) :
    ¬Machine.Late q e := by
  obtain ⟨op, x, y, z⟩ := q
  intro hlate
  cases hlate with
  | badTarget hop =>
    obtain rfl : op = .call := hop
    obtain ⟨t, ht, -⟩ := h.landing _ _ hq rfl
    change (c.memory.enter >>= _) = _ at he
    cases hm : c.memory.enter with
    | ok m =>
      rw [hm, Except.ok_bind, Core.jump_eq ht] at he
      cases he
    | error e' =>
      rw [hm] at he
      cases he
      cases hframes : c.memory.frames with
      | nil =>
        rw [Memory.enter, hframes] at hm
        cases hm
      | cons f below => cases hf : f.pending <;> simp [Memory.enter, hframes, hf] at hm
  | returnUnframed hop =>
    obtain rfl : op = .leave := hop
    cases hc with
    | start ip => exact absurd (h.pos hq (by simp)) (by omega)
    | @inside waiting entered frames waits matched =>
      generalize hreturns : c.returns = returns at matched
      cases matched with
      | main =>
        rw [Core.advance_leave_nil hreturns] at he
        cases he
      | call =>
        obtain rfl : waiting = [] := waits.eq_nil hq rfl (by simp) (by simp)
        rw [Core.advance_leave_cons hreturns, Memory.release, frames] at he
        cases he

/-- Whatever transitions lead to keeps the frames and the places to return to matched. -/
theorem Framed.leads (hc : Framed o.quadruples routines main c) (h : Shaped o routines main)
    (hd : c.Leads o.quadruples d) : Framed o.quadruples routines main d := by
  induction hd with
  | refl => exact hc
  | step _ hq hd ih => exact ih.step h hq hd

/-- No call is active behind the end of a program. -/
theorem Framed.halted (hc : Framed o.quadruples routines main c) (h : Shaped o routines main)
    (hend : o.quadruples[c.ip]? = none) : c.memory.depth = 0 ∧ c.returns = [] := by
  have hsize : o.quadruples.size ≤ c.ip := Array.getElem?_eq_none_iff.mp hend
  cases hc with
  | start ip frames returns =>
    rw [ip, h.entry] at hend
    cases hend
  | inside frames waits matched =>
    cases waits with
    | one _ site _ uncalled =>
      have hlt := (Array.getElem?_eq_some_iff.mp site.last).1
      omega
    | none =>
      generalize hreturns : c.returns = returns at matched
      cases matched with
      | main => exact ⟨congrArg List.length frames, rfl⟩
      | call place =>
        cases place with
        | body hr _ hpast =>
          have hpast' := (h.consecutive.bounds hr).2.2
          have hmain := h.main_le
          omega

/-- There are as many entered calls as places to return to. -/
theorem Framed.countP_entered {program : Array Quadruple} (hc : Framed program routines main c) :
    (c.memory.frames.countP fun f => !f.pending) = c.returns.length := by
  have hmatched {frames : List Frame} {returns : List Nat} {i : Nat}
      (hm : Matched program routines main frames returns i) :
      (frames.countP fun f => !f.pending) = returns.length := by
    induction hm with
    | main => rfl
    | call _ _ entered _ _ ih =>
      rw [List.countP_cons_of_pos (by simp [entered]), ih, List.length_cons]
  cases hc with
  | start _ frames returns =>
    rw [frames, returns]
    rfl
  | inside frames waits matched =>
    rw [frames, List.countP_append, hmatched matched]
    cases waits with
    | none => simp
    | one _ _ _ _ _ pending => simp [pending]

end

/-! ## Compiled programs -/

/-- A machine that runs a shaped program never stops in the midst of a transition. -/
theorem Shaped.prompt {o : ObjectFile} {routines : List Routine} {main : Nat}
    (h : Shaped o routines main) {m : Machine} (hprogram : m.program = o.quadruples)
    (hm : Framed o.quadruples routines main m.core) : m.Prompt := by
  intro d q e hd hq he
  rw [hprogram] at hd hq
  exact (hm.leads h hd).not_late h hq he

/-- A linked program is loaded, and then shows the start of the program. -/
theorem Linked.load {a : Program} {o : ObjectFile} {routines : List Routine}
    (h : Linked a o routines) (limit : Option Nat) :
    ∃ memory, Machine.load o limit = .ok ⟨o.quadruples, memory, [], 0, 0, limit⟩ ∧
      Mirrors o [] [] .start memory := by
  obtain ⟨memory, hload, hmirrors⟩ := h.supplies.load
  refine ⟨memory, ?_, hmirrors⟩
  rw [Machine.load, hload]
  rfl

/-- No call is active when a program starts. -/
theorem Mirrors.framed {o : ObjectFile} {memory : Memory} (h : Mirrors o [] [] .start memory)
    (routines : List Routine) (main : Nat) : Framed o.quadruples routines main ⟨memory, [], 0⟩ := by
  obtain ⟨frames, hframes, hstacked⟩ := h.frames
  cases hstacked
  exact .start rfl hframes rfl

/-- The frames and the places to return to fit together in every machine that runs of a compiled
program lead to, and nothing is left of them when a run ends. -/
theorem compile_framed {source : String} {strict : Bool} {c : Compilation}
    (h : compile source strict = .ok c) :
    ∃ routines main, Shaped c.object routines main ∧
      ∀ limit, ∃ m, Machine.load c.object limit = .ok m ∧ ∀ m', m.Reached m' →
        Framed c.object.quadruples routines main m'.core ∧
        (m'.memory.frames.countP fun f => !f.pending) = m'.returns.length ∧
        ∀ {ω : Type} (printer : Printer ω) (fuel : Nat) (out : ω) (m'' : Machine) (out' : ω),
          Machine.run printer fuel m' out = (.halted, m'', out') → m''.memory.depth = 0 ∧
          m''.returns = [] := by
  obtain ⟨a, -, hlower⟩ := lower_of_compile h
  obtain ⟨routines, hlinked⟩ := linked_of_lower hlower
  obtain ⟨main, hshaped⟩ := hlinked.shaped
  refine ⟨routines, main, hshaped, fun limit => ?_⟩
  obtain ⟨memory, hload, hmirrors⟩ := hlinked.load limit
  have hstart := hmirrors.framed routines main
  have hprompt := hshaped.prompt (m := ⟨c.object.quadruples, memory, [], 0, 0, limit⟩) rfl hstart
  refine ⟨_, hload, fun m' hm' => ?_⟩
  have hfollows := hm'.follows hprompt
  have hframed := hstart.leads hshaped hfollows.leads
  refine ⟨hframed, hframed.countP_entered, fun printer fuel out m'' out' hrun => ?_⟩
  obtain ⟨hfollows', hends⟩ := Machine.run_follows printer fuel (hfollows.prompt hprompt) out
  have hall := hfollows.trans hfollows'
  rw [hrun] at hall hends
  cases hends with
  | halted hend =>
    rw [hall.program] at hend
    exact (hstart.leads hshaped hall.leads).halted hshaped hend

/-- The theorem at a program with a loop, a recursive function and a division by zero. -/
theorem compile_framed_countdown : ∃ c, compile countdown true = .ok c ∧
    ∃ routines main, Shaped c.object routines main ∧
      ∀ limit, ∃ m, Machine.load c.object limit = .ok m ∧ ∀ m', m.Reached m' →
        Framed c.object.quadruples routines main m'.core ∧
        (m'.memory.frames.countP fun f => !f.pending) = m'.returns.length ∧
        ∀ {ω : Type} (printer : Printer ω) (fuel : Nat) (out : ω) (m'' : Machine) (out' : ω),
          Machine.run printer fuel m' out = (.halted, m'', out') → m''.memory.depth = 0 ∧
          m''.returns = [] := by
  obtain ⟨c, hc⟩ := countdown_compiles
  exact ⟨c, hc, compile_framed hc⟩

end Quadlet
