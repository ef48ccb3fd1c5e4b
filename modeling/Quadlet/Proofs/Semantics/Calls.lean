import Quadlet.Proofs.Semantics.Simulation

/-!
# Code of calls

A call makes a frame, fills it with its arguments one after the other while the caller is still
active, and enters it. Main statement: the code of the arguments fills a frame as the
interpreter fills slots.
-/

namespace Quadlet

open Syntax Request Planner

/-! ## Frames that wait -/

/-- A frame that waits shows slots into which arguments for some parameters were put. -/
structure Filled (r : Routine) (before : List Parameter) (s : Slots) (f : Frame) : Prop where
  holds : Holds r s f
  pending : f.pending = true
  next : ∀ τ, f.next τ = before.countP fun x => x.type = τ

/-- A new frame is empty. -/
theorem filled_ofSize (r : Routine) : Filled r [] .empty (.ofSize r.frame) := by
  refine ⟨⟨?_, ?_, ?_⟩, rfl, ?_⟩
  · intro τ
    cases τ <;> rfl
  · intro τ
    cases τ <;> exact Array.size_replicate
  · intro τ i
    cases τ <;> exact Cells.get?_unwritten ..
  · intro τ
    cases τ <;> rfl

/-- An argument of the type of the next parameter is put into the cell of the parameter. -/
theorem Filled.param {r : Routine} {before rest : List Parameter} {x : Parameter}
    {s : Slots} {f : Frame} (h : Filled r before s f)
    (hnames : r.function.names = before ++ x :: rest) {y : Value} (hy : y.type = x.type.type) :
    ∃ t g, s.set x.type (before.countP fun z => z.type = x.type) y = .ok t ∧ f.param y = .ok g ∧
      Filled r (before ++ [x]) t g := by
  have hi : (before.countP fun z => z.type = x.type) <
      r.function.names.countP fun z => z.type = x.type := by
    rw [hnames, List.countP_append, List.countP_cons_of_pos (by simp)]
    omega
  have hcoerce : y.coerce x.type.type = .ok y := hy ▸ y.coerce_type
  obtain ⟨t, ht, hwrite, hholds⟩ := h.holds.write hi hcoerce
  rw [← h.next] at hwrite hholds
  refine ⟨t, (f.withBlock ((f.block x.type).put (f.next x.type) y) x.type).advance x.type, ht, ?_,
    hholds.congr (Frame.block_advance _ _), ?_, ?_⟩
  · rw [f.param_eq hy, hwrite]
    rfl
  · rw [Frame.pending_advance, Frame.pending_withBlock]
    exact h.pending
  · intro τ
    rw [Frame.next_advance, Frame.next_withBlock, h.next, List.countP_append, List.countP_singleton]
    simp [eq_comm]

namespace Mirrors

variable {o : ObjectFile} {stack : List Routine} {w : World} {m : Memory} {f : Frame}

/-- Making a frame leaves the world as it is. -/
theorem allocate (h : Mirrors o stack [] w m) {id : Address} {size : FrameSize}
    (hsize : o.memory.lastFrame? id = some size) :
    ∃ m', m.allocate id = .ok m' ∧ Mirrors o stack [.ofSize size] w m' := by
  obtain ⟨fs, hfs, hstacked⟩ := h.frames
  refine ⟨{ m with frames := .ofSize size :: m.frames }, ?_, h.map, h.block, h.globals,
    h.constants, ?_, fs, ?_, hstacked⟩
  · exact Memory.allocate_eq_ok.mpr ⟨size, h.map ▸ hsize, rfl⟩
  · intro f hf
    rw [List.mem_singleton.mp hf]
    rfl
  · rw [hfs]
    rfl

/-- Handing an argument over leaves the world as it is. -/
theorem param (h : Mirrors o stack [f] w m) {g : Frame} {x : Value} (hg : f.param x = .ok g)
    (hpending : g.pending = true) : ∃ m', m.param x = .ok m' ∧ Mirrors o stack [g] w m' := by
  obtain ⟨fs, hfs, hstacked⟩ := h.frames
  rw [List.singleton_append] at hfs
  refine ⟨{ m with frames := g :: fs }, ?_, h.map, h.block, h.globals, h.constants, ?_, fs,
    rfl, hstacked⟩
  · exact Memory.param_eq_ok.mpr ⟨f, fs, g, hfs, h.pending f (List.mem_singleton.mpr rfl), hg, rfl⟩
  · intro f hf
    rw [List.mem_singleton.mp hf]
    exact hpending

/-- Entering a call makes its slots those of the innermost call. -/
theorem enter (h : Mirrors o stack [f] w m) {r : Routine} {s : Slots} (hf : Holds r s f) :
    ∃ m', m.enter = .ok m' ∧ Mirrors o (r :: stack) [] { w with frames := s :: w.frames } m' := by
  obtain ⟨fs, hfs, hstacked⟩ := h.frames
  rw [List.singleton_append] at hfs
  refine ⟨{ m with frames := { f with pending := false } :: fs }, ?_, h.map, h.block, h.globals,
    h.constants, by simp, { f with pending := false } :: fs, rfl, .cons (hf.congr ?_) rfl hstacked⟩
  · exact Memory.enter_eq_ok.mpr ⟨f, fs, hfs, h.pending f (List.mem_singleton.mpr rfl), rfl⟩
  · intro τ
    cases τ <;> rfl

/-- Leaving a call uncovers the slots of the call beneath. -/
theorem release {r : Routine} (h : Mirrors o (r :: stack) [] w m) :
    ∃ m', m.release = .ok m' ∧ Mirrors o stack [] w.leave m' := by
  obtain ⟨fs, hfs, hstacked⟩ := h.frames
  rw [List.nil_append] at hfs
  generalize hss : w.frames = ss at hstacked
  cases hstacked with
  | @cons _ s f _ ss fs _ _ rest =>
    refine ⟨{ m with frames := fs }, ?_, h.map, h.block, h.globals, h.constants, by simp,
      fs, rfl, ?_⟩
    · exact Memory.release_eq_ok.mpr ⟨f, fs, hfs, rfl⟩
    · rw [World.leave, hss]
      exact rest

/-- A printed line is not part of the mirror. -/
theorem print {waiting : List Frame} (h : Mirrors o stack waiting w m) (line : String) :
    Mirrors o stack waiting (w.print line) m :=
  ⟨h.map, h.block, h.globals, h.constants, h.pending, h.frames⟩

end Mirrors

/-! ## Arguments -/

theorem Syntax.Slots.fill_nil (s : Slots) (vs : List Variable) : s.fill vs [] = .ok s := by
  cases vs <;> rfl

private theorem consumes_param (a b : Address) (k : Nat) :
    Quadruple.Consumes ⟨.param, a, b, k⟩ a := by
  intro ω printer m out e h
  rw [Machine.step_param, Memory.pass, h]
  rfl

namespace Session

variable {ω : Type} {S : Session ω} {stack : List Routine} {w : World} {returns : List Nat}
  {ip n : Nat} {c : Config ω} {rs : List Request} {p : Planner} {Γ : Scope} {env : Environment}

/-- What is known behind the code of arguments: the frame that waits shows the slots with the
values of the arguments. -/
def Passed (S : Session ω) (stack : List Routine) (w : World) (returns : List Nat) (ip : Nat)
    (r : Routine) (s : Slots) (vs : List Variable) (xs : List Value) (w' : World) (c : Config ω) :
    Prop :=
  w' = w ∧ ∃ t f, s.fill vs xs = .ok t ∧ Holds r t f ∧ S.Stands stack [f] w returns ip c

/-- The code of arguments fills a frame as the interpreter fills slots. -/
theorem simulates_arguments (henv : env.Knows Γ)
    (hΓ : ∀ {x v}, Γ x = some v → Placed S.object stack v) {r : Routine} {es : List Expression}
    {before ps rest : List Parameter} {k : Nat} {s : Slots} {f : Frame} {l : Laid}
    {types : List ValueType} (hp : Served rs p) (hl : Tree.LowersArguments env k es p l types)
    (hsupplies : S.object.Supplies (rs ++ es.flatMap (Tree.requests Γ)))
    (hcode : CodeAt S.object.quadruples ip l.code)
    (hnames : r.function.names = before ++ ps ++ rest)
    (htypes : es.map (Tree.type Γ) = ps.map fun x => x.type.type) (hf : Filled r before s f)
    (hc : S.Stands stack [f] w returns ip c) :
    S.Simulates n c
      (S.Passed stack w returns (ip + l.code.length) r s
        (Variable.number .call before (ps ++ rest)))
      (es.mapM (fun e => Action.ask (e.value Γ)) w) := by
  induction hl generalizing before ps s f rs ip c with
  | nil k p => exact .ok ⟨rfl, s, f, s.fill_nil _, hf.holds, hc⟩
  | @cons k e es p a l types first more ih =>
    cases ps with
    | nil => cases htypes
    | cons x ps =>
      obtain ⟨hx, hxs⟩ := List.cons.inj htypes
      have hcomputes := computes henv e hp first
      rw [List.flatMap_cons, ← List.append_assoc] at hsupplies
      rw [List.mapM_cons]
      apply (hc.value henv hΓ hp first hsupplies.of_append hcode (consumes_param _ _ k)).bind
      rintro y w' d ⟨rfl, hstands, hread, htype⟩
      have hrest : r.function.names = before ++ x :: (ps ++ rest) := by
        rw [hnames, List.append_assoc, List.cons_append]
      obtain ⟨t, g, hset, hparam, hfilled⟩ :=
        hf.param hrest (htype.trans (hcomputes.type_eq.trans hx))
      obtain ⟨m, hm, hmirrors⟩ := hstands.mirrors.param hparam hfilled.pending
      have hgoes := hstands.changed hcode.right.head (Memory.pass a.operand.address)
        (fun m out => Machine.step_param m out ..) (by rw [Memory.pass, hread]; exact hm)
      apply Simulates.behind hgoes
      apply (ih hcomputes.served hsupplies hcode.right.tail (by simp [hrest]) hxs hfilled
        (hstands.move hmirrors rfl _)).bind
      rintro ys w' d' ⟨rfl, t', f', hfill, hholds, hstands'⟩
      refine .ok ⟨rfl, t', f', ?_, hholds, ?_⟩
      · rw [List.cons_append, Variable.number, Slots.fill, hset]
        exact hfill
      · simpa [Nat.add_assoc, Nat.add_comm 1] using hstands'

end Session

end Quadlet
