import Quadlet.Proofs.Machine.Memory
import Quadlet.Proofs.Machine.Transitions

/-!
# Memory stays intact

A machine checks nothing of its program, which may be any row of quadruples. Main statement:
whatever the program, wherever runs lead and whatever errors stop them, cells hold values of their
types, blocks and frames keep their sizes, and there is a frame for every place to return to.
-/

namespace Quadlet

/-! ## Blocks and frames -/

/-- What is written in a block has the type of the block. -/
def Cells.Typed (b : Cells) : Prop := ∀ i v, b.get? i = some v → v.type = b.type

namespace Cells

variable {b c : Cells} {i : Nat} {v : Value}

private theorem typed_unwritten (type : ValueType) (n : Nat) : (unwritten type n).Typed := by
  intro i v h
  rw [get?_unwritten] at h
  cases h

private theorem Typed.set (h : b.Typed) (hc : b.set i v = .ok c) : c.Typed := by
  obtain ⟨x, hx, hi, rfl⟩ := set_eq_ok.mp hc
  intro j w hw
  rw [get?_put x hi] at hw
  split at hw
  · cases hw
    exact Value.type_of_coerce hx
  · exact h j w hw

/-- A write needs its cell. -/
theorem lt_of_set (hc : b.set i v = .ok c) : i < b.size := by
  obtain ⟨x, -, hi, -⟩ := set_eq_ok.mp hc
  exact hi

end Cells

/-- A block of a type, with a number of cells and with values of its type. -/
structure Cells.Of (type : ValueType) (n : Nat) (b : Cells) : Prop where
  type : b.type = type
  size : b.size = n
  typed : b.Typed

namespace Cells

variable {b c : Cells} {i n : Nat} {v : Value} {type : ValueType}

private theorem of_unwritten (type : ValueType) (n : Nat) : Of type n (unwritten type n) :=
  ⟨rfl, by simp [unwritten, size], typed_unwritten type n⟩

private theorem Of.set (h : Of type n b) (hc : b.set i v = .ok c) : Of type n c :=
  ⟨(type_set hc).trans h.type, (size_set hc).trans h.size, h.typed.set hc⟩

/-- No cell without a type of values is written. -/
theorem Of.get?_void (h : Of .void n b) (i : Nat) : b.get? i = none := by
  cases hv : b.get? i with
  | none => rfl
  | some v =>
    have htype := (h.typed i v hv).trans h.type
    cases v <;> cases htype

end Cells

/-- A frame has the cells that a function needs, and no more of them are filled by arguments. -/
structure Frame.Fits (s : FrameSize) (f : Frame) : Prop where
  ints : Cells.Of .int s.ints f.ints
  floats : Cells.Of .float s.floats f.floats
  nextInt : f.nextInt ≤ s.ints
  nextFloat : f.nextFloat ≤ s.floats

namespace Frame

variable {f g : Frame} {s : FrameSize} {v : Value}

theorem fits_ofSize (s : FrameSize) : (ofSize s).Fits s :=
  ⟨Cells.of_unwritten .int s.ints, Cells.of_unwritten .float s.floats, Nat.zero_le _, Nat.zero_le _⟩

/-- Writing keeps a frame in shape; it stays the frame of its call. -/
theorem Fits.write (h : f.Fits s) {t : Segment} {i : Nat} (hg : f.write t i v = .ok g) :
    g.Fits s ∧ g.function = f.function ∧ g.pending = f.pending := by
  rw [Frame.write] at hg
  split at hg
  · obtain ⟨b, hb, rfl⟩ := Except.map_eq_ok.mp hg
    exact ⟨⟨h.ints.set hb, h.floats, h.nextInt, h.nextFloat⟩, rfl, rfl⟩
  · obtain ⟨b, hb, rfl⟩ := Except.map_eq_ok.mp hg
    exact ⟨⟨h.ints, h.floats.set hb, h.nextInt, h.nextFloat⟩, rfl, rfl⟩
  · cases hg

/-- An argument is stored in a cell that is there, so the next one is at most the end. -/
theorem Fits.param (h : f.Fits s) (hg : f.param v = .ok g) :
    g.Fits s ∧ g.function = f.function ∧ g.pending = f.pending := by
  cases v with
  | int n | bool n =>
    obtain ⟨b, hb, rfl⟩ := Except.map_eq_ok.mp hg
    have hlt := Cells.lt_of_set hb
    rw [h.ints.size] at hlt
    exact ⟨⟨h.ints.set hb, h.floats, hlt, h.nextFloat⟩, rfl, rfl⟩
  | float x =>
    obtain ⟨b, hb, rfl⟩ := Except.map_eq_ok.mp hg
    have hlt := Cells.lt_of_set hb
    rw [h.floats.size] at hlt
    exact ⟨⟨h.ints, h.floats.set hb, h.nextInt, hlt⟩, rfl, rfl⟩
  | string t => cases hg

end Frame

/-! ## Memory -/

/-- Memory of the shape that a map states. -/
structure Memory.Intact (map : MemoryMap) (m : Memory) : Prop where
  planned : m.map = map
  /-- There is one block for every program-wide segment. -/
  segments : m.globals.map Prod.fst = Segment.programWide
  /-- The block of a segment has the type of the segment and the size that the map states. -/
  globals : ∀ e ∈ m.globals, Cells.Of e.1.type (map.cells e.1) e.2
  /-- A frame has the size that the map states for its function. -/
  frames : ∀ f ∈ m.frames, ∃ s, map.lastFrame? f.function = some s ∧ f.Fits s

/-- The number of frames of calls that were entered. -/
def Memory.calls (m : Memory) : Nat := m.frames.countP fun f => !f.pending

namespace Memory

variable {map : MemoryMap} {m m' : Memory}

theorem intact_ofMap (map : MemoryMap) : (ofMap map).Intact map := by
  refine ⟨rfl, ?_, ?_, fun f hf => by cases hf⟩
  · rw [ofMap, List.map_map]
    exact List.map_id _
  · intro e he
    obtain ⟨s, -, rfl⟩ := List.mem_map.mp he
    exact Cells.of_unwritten _ _

/-- The frames above the topmost call, that call, and those beneath it. -/
theorem frames_of_entered {f : Frame} {below : List Frame} (h : m.entered = f :: below) :
    m.frames = m.frames.takeWhile Frame.pending ++ f :: below := by
  rw [← h, entered, List.takeWhile_append_dropWhile]

theorem write_cases {a : Address} {v : Value} (h : m.write a v = .ok m') :
    (∃ s b c i, m.globals.lookup s = some b ∧ b.set i v = .ok c ∧
      m' = { m with globals := replace m.globals s c }) ∨
    ∃ s i f g below, m.entered = f :: below ∧ f.write s i v = .ok g ∧
      m' = { m with frames := m.frames.takeWhile Frame.pending ++ g :: below } := by
  obtain ⟨⟨s, i⟩, -, h⟩ := Except.bind_eq_ok.mp h
  dsimp only at h
  split at h
  · rw [writeLocal] at h
    split at h
    · cases h
    · next f below hentered =>
      obtain ⟨g, hg, rfl⟩ := Except.map_eq_ok.mp h
      exact .inr ⟨s, i, f, g, below, hentered, hg, rfl⟩
  · rw [writeGlobal] at h
    split at h
    · cases h
    · next b hb =>
      obtain ⟨c, hc, rfl⟩ := Except.map_eq_ok.mp h
      exact .inl ⟨s, b, c, i, hb, hc, rfl⟩

private theorem calls_eq {fs : List Frame} (h : m.frames = fs) :
    m.calls = fs.countP fun f => !f.pending := by
  rw [calls, h]

/-- Memory with another frame in the place of one of the same call. -/
theorem Intact.replace_frame (h : m.Intact map) (above : List Frame) {below : List Frame}
    {f g : Frame} (hframes : m.frames = above ++ f :: below) (hg : ∀ {s}, f.Fits s → g.Fits s)
    (hfunction : g.function = f.function) :
    Intact map { m with frames := above ++ g :: below } := by
  refine ⟨h.planned, h.segments, h.globals, fun k hk => ?_⟩
  rcases List.mem_append.mp hk with hk | hk
  · exact h.frames k (by rw [hframes]; exact List.mem_append_left _ hk)
  rcases List.mem_cons.mp hk with rfl | hk
  · obtain ⟨s, hs, hf⟩ :=
      h.frames f (by rw [hframes]; exact List.mem_append_right _ (List.mem_cons_self ..))
    exact ⟨s, hfunction ▸ hs, hg hf⟩
  · exact h.frames k (by rw [hframes]; exact List.mem_append_right _ (List.mem_cons_of_mem _ hk))

/-- Writing keeps memory intact, and no call is entered or left. -/
theorem Intact.write (h : m.Intact map) {a : Address} {v : Value} (hm : m.write a v = .ok m') :
    m'.Intact map ∧ m'.calls = m.calls := by
  obtain ⟨s, b, c, i, hb, hc, rfl⟩ | ⟨s, i, f, g, below, hentered, hg, rfl⟩ := write_cases hm
  · refine ⟨⟨h.planned, ?_, ?_, h.frames⟩, rfl⟩
    · rw [← h.segments, replace, List.map_map]
      refine List.map_congr_left fun e _ => ?_
      rw [Function.comp_apply]
      split
      · next hs => exact hs.symm
      · rfl
    · intro e he
      obtain ⟨e, hold, rfl⟩ := List.mem_map.mp he
      split
      · obtain ⟨front, back, hglobals, -⟩ := List.lookup_eq_some_iff.mp hb
        have hmem : (s, b) ∈ m.globals := by simp [hglobals]
        exact (h.globals (s, b) hmem).set hc
      · exact h.globals e hold
  · have hframes := frames_of_entered hentered
    obtain ⟨s', -, hf⟩ := h.frames f (by rw [hframes]; simp)
    obtain ⟨-, hfunction, hpending⟩ := hf.write hg
    refine ⟨h.replace_frame _ hframes (fun hf => (hf.write hg).1) hfunction, ?_⟩
    rw [calls_eq hframes, calls]
    simp only [List.countP_append, List.countP_cons, hpending]

theorem Intact.allocate (h : m.Intact map) {f : Address} (hm : m.allocate f = .ok m') :
    m'.Intact map ∧ m'.calls = m.calls := by
  obtain ⟨s, hs, rfl⟩ := allocate_eq_ok.mp hm
  rw [h.planned] at hs
  have hfunction : s.function = f := by simpa using List.find?_some hs
  refine ⟨⟨h.planned, h.segments, h.globals, ?_⟩, List.countP_cons_of_neg (by simp [Frame.ofSize])⟩
  intro g hg
  rcases List.mem_cons.mp hg with rfl | hg
  · exact ⟨s, by rw [Frame.ofSize, hfunction]; exact hs, Frame.fits_ofSize s⟩
  · exact h.frames g hg

theorem Intact.param (h : m.Intact map) {v : Value} (hm : m.param v = .ok m') :
    m'.Intact map ∧ m'.calls = m.calls := by
  obtain ⟨f, below, g, hframes, -, hg, rfl⟩ := param_eq_ok.mp hm
  obtain ⟨s, -, hf⟩ := h.frames f (by simp [hframes])
  obtain ⟨-, hfunction, hpending⟩ := hf.param hg
  refine ⟨h.replace_frame [] hframes (fun hf => (hf.param hg).1) hfunction, ?_⟩
  rw [calls_eq hframes, calls]
  simp only [List.countP_cons, hpending]

/-- One more call is entered. -/
theorem Intact.enter (h : m.Intact map) (hm : m.enter = .ok m') :
    m'.Intact map ∧ m'.calls = m.calls + 1 := by
  obtain ⟨f, below, hframes, hpending, rfl⟩ := enter_eq_ok.mp hm
  refine ⟨h.replace_frame [] hframes ?_ rfl, ?_⟩
  · intro s hf
    exact ⟨hf.ints, hf.floats, hf.nextInt, hf.nextFloat⟩
  · rw [calls_eq hframes, calls]
    simp [hpending]

/-- The frame that is dropped may be that of a call that was entered. -/
theorem Intact.release (h : m.Intact map) (hm : m.release = .ok m') :
    m'.Intact map ∧ m.calls ≤ m'.calls + 1 := by
  obtain ⟨f, below, hframes, rfl⟩ := release_eq_ok.mp hm
  refine ⟨⟨h.planned, h.segments, h.globals, fun g hg => h.frames g ?_⟩, ?_⟩
  · rw [hframes]
    exact List.mem_cons_of_mem f hg
  · rw [calls_eq hframes, List.countP_cons, calls]
    dsimp only
    split <;> omega

/-- Nothing is written without a type. -/
theorem Intact.peek_void (h : m.Intact map) (i : Nat) : m.peek ⟨.global, .void⟩ i = none := by
  rw [peek]
  cases hb : m.globals.lookup ⟨.global, .void⟩ with
  | none => rfl
  | some b =>
    obtain ⟨before, after, hglobals, -⟩ := List.lookup_eq_some_iff.mp hb
    have hblock := h.globals (⟨.global, .void⟩, b) (by simp [hglobals])
    exact hblock.get?_void i

/-- Writing constants keeps memory intact. -/
theorem Intact.constants (h : m.Intact map) {constants : List Constant}
    (hm : constants.foldlM (fun m c => m.write c.address c.literal.value) m = .ok m') :
    m'.Intact map := by
  induction constants generalizing m with
  | nil =>
    cases hm
    exact h
  | cons c cs ih =>
    rw [List.foldlM_cons] at hm
    obtain ⟨m₁, hm₁, hm⟩ := Except.bind_eq_ok.mp hm
    exact ih (h.write hm₁).1 hm

end Memory

/-! ## Steps -/

/-- What a step can do to the memory and to the places to return to, whether
it succeeds or fails. -/
inductive Touched (m : Memory) (returns : List Nat) : Memory → List Nat → Prop where
  | same : Touched m returns m returns
  | written {m' : Memory} {a : Address} {v : Value} (h : m.write a v = .ok m') :
    Touched m returns m' returns
  | allocated {m' : Memory} {f : Address} (h : m.allocate f = .ok m') : Touched m returns m' returns
  | handed {m' : Memory} {v : Value} (h : m.param v = .ok m') : Touched m returns m' returns
  | entered {m' : Memory} (h : m.enter = .ok m') (r : Nat) : Touched m returns m' (r :: returns)
  | released {m' : Memory} {r : Nat} {rest : List Nat} (hreturns : returns = r :: rest)
    (h : m.release = .ok m') : Touched m returns m' rest
  /-- The place to return to is taken, but there is no frame to drop. -/
  | unframed {r : Nat} {rest : List Nat} (hreturns : returns = r :: rest) (h : m.frames = []) :
    Touched m returns m rest

namespace Core

variable {c d : Core} {q : Quadruple}

theorem touched_advance (h : c.advance q = .ok d) :
    Touched c.memory c.returns d.memory d.returns := by
  cases moves h with
  | same | jumped => exact .same
  | written hm => exact .written hm
  | allocated hm => exact .allocated hm
  | handed hm => exact .handed hm
  | entered _ _ hm => exact .entered hm _
  | left _ hreturns hm => exact .released hreturns hm

end Core

namespace Machine

variable {map : MemoryMap} {m m' : Machine} {ω : Type}

private theorem Halfway.touched (h : m.Halfway m') :
    Touched m.memory m.returns m'.memory m'.returns := by
  cases h with
  | entered hm => exact .entered hm _
  | unframed hreturns hm => exact .unframed hreturns hm

/-- The memory is intact, and there is a frame for every place to return to. -/
structure Intact (map : MemoryMap) (m : Machine) : Prop where
  memory : m.memory.Intact map
  returns : m.returns.length ≤ m.memory.calls

/-- Without frames there is no place to return to. -/
theorem Intact.framed (h : m.Intact map) (hframes : m.memory.frames = []) : m.returns = [] := by
  have hreturns := h.returns
  rw [Memory.calls_eq hframes, List.countP_nil] at hreturns
  exact List.length_eq_zero_iff.mp (Nat.le_zero.mp hreturns)

/-- A machine is loaded intact. -/
theorem intact_load {object : ObjectFile} {limit : Option Nat} (h : load object limit = .ok m) :
    m.Intact object.memory := by
  obtain ⟨memory, hmemory, hm⟩ := Except.bind_eq_ok.mp h
  cases hm
  exact ⟨(Memory.intact_ofMap _).constants hmemory, Nat.zero_le _⟩

/-- Whatever a step can do leaves a machine intact. -/
theorem Intact.touched (h : m.Intact map) (ht : Touched m.memory m.returns m'.memory m'.returns) :
    m'.Intact map := by
  obtain ⟨hmemory, hcalls⟩ := h
  generalize hr : m.returns = returns at ht hcalls
  generalize hr' : m'.returns = returns' at ht
  generalize hm' : m'.memory = memory' at ht
  suffices hgoal : memory'.Intact map ∧ returns'.length ≤ memory'.calls by
    rw [← hm', ← hr'] at hgoal
    exact ⟨hgoal.1, hgoal.2⟩
  cases ht with
  | same => exact ⟨hmemory, hcalls⟩
  | written hm =>
    obtain ⟨hnew, hsame⟩ := hmemory.write hm
    exact ⟨hnew, by omega⟩
  | allocated hm =>
    obtain ⟨hnew, hsame⟩ := hmemory.allocate hm
    exact ⟨hnew, by omega⟩
  | handed hm =>
    obtain ⟨hnew, hsame⟩ := hmemory.param hm
    exact ⟨hnew, by omega⟩
  | entered hm r =>
    obtain ⟨hnew, hmore⟩ := hmemory.enter hm
    refine ⟨hnew, ?_⟩
    rw [List.length_cons]
    omega
  | released hreturns hm =>
    -- the frame that is dropped may be one that was never entered
    obtain ⟨hnew, hless⟩ := hmemory.release hm
    rw [hreturns, List.length_cons] at hcalls
    exact ⟨hnew, by omega⟩
  | unframed hreturns hm =>
    rw [hreturns, Memory.calls_eq hm] at hcalls
    simp at hcalls

theorem Intact.stand (h : m.Intact map) {q : Quadruple} {c : Core} (hc : m.core.advance q = .ok c) :
    (m.stand c).Intact map := by
  have htouched := Core.touched_advance hc
  exact h.touched htouched

/-- A run leaves a machine intact, wherever it is cut off and whatever stops it. -/
theorem Intact.run (h : m.Intact map) (printer : Printer ω) (fuel : Nat) (out : ω) :
    (run printer fuel m out).2.1.Intact map := by
  have hruns := runs printer fuel m out
  generalize Machine.run printer fuel m out = r at hruns ⊢
  induction hruns with
  | halted | limit | running | refused => exact h
  | moved _ _ hc _ ih => exact ih (h.stand hc)
  | failed _ _ hsame =>
    rcases hsame with rfl | ⟨-, hhalfway⟩
    · exact h
    · exact h.touched hhalfway.touched

private theorem Intact.reached (h : m.Intact map) (hm : m.Reached m') : m'.Intact map := by
  induction hm with
  | start => exact h
  | run _ printer fuel out ih => exact ih.run printer fuel out

end Machine

/-! ## Errors -/

/-- An error of an operation on memory: not that of a limit, and not that of a
return without a frame. -/
def Error.Ordinary (e : Error) : Prop := (∀ n, e ≠ .limit n) ∧ e ≠ .machine .returnUnframed

/-- A computation fails with such errors only. -/
def Ordinary {α : Type} (x : Except Error α) : Prop := ∀ e, x = .error e → e.Ordinary

section

variable {α β : Type}

private theorem ordinary_ok (a : α) : Ordinary (.ok a) := by simp [Ordinary, Error.Ordinary]

private theorem Ordinary.bind {x : Except Error α} {f : α → Except Error β} (hx : Ordinary x)
    (hf : ∀ a, Ordinary (f a)) : Ordinary (x >>= f) := by
  cases x with
  | error e' =>
    intro e h
    cases h
    exact hx e' rfl
  | ok a => exact hf a

private theorem Ordinary.map {x : Except Error α} (hx : Ordinary x) (f : α → β) :
    Ordinary (x.map f) := by
  cases x with
  | error e' =>
    intro e h
    cases h
    exact hx e' rfl
  | ok a => exact ordinary_ok (f a)

end

namespace Value

private theorem ordinary_toInt (v : Value) : Ordinary v.toInt := by
  cases v <;> simp [Ordinary, Error.Ordinary, toInt]

private theorem ordinary_toFloat (v : Value) : Ordinary v.toFloat := by
  cases v <;> simp [Ordinary, Error.Ordinary, toFloat]

private theorem ordinary_coerce (v : Value) (type : ValueType) : Ordinary (v.coerce type) := by
  cases type with
  | int => exact (ordinary_toInt v).map _
  | float => exact (ordinary_toFloat v).map _
  | bool => exact ordinary_ok _
  | string => cases v <;> simp [Ordinary, Error.Ordinary, coerce]
  | void => simp [Ordinary, Error.Ordinary, coerce]

private theorem ordinary_arithmetic (op : Opcode) (exact : Int → Int → Int)
    (rounded : Float → Float → Float) (v w : Value) :
    Ordinary (arithmetic op exact rounded v w) := by
  rw [arithmetic]
  split
  · rw [fit]
    split <;> simp [Ordinary, Error.Ordinary]
  · exact (ordinary_toFloat v).bind fun _ => (ordinary_toFloat w).bind fun _ => ordinary_ok _

private theorem ordinary_relation (holds : Ordering → Bool) (unordered : Bool) (v w : Value) :
    Ordinary (relation holds unordered v w) := by
  rw [relation]
  split
  · exact ordinary_ok _
  · refine (ordinary_toFloat v).bind fun _ => (ordinary_toFloat w).bind fun _ => ?_
    split <;> exact ordinary_ok _

private theorem ordinary_binary (v : Value) (op : Opcode) (w : Value) :
    Ordinary (binary op v w) := by
  cases op with
  | add | sub | mul => exact ordinary_arithmetic _ _ _ v w
  | lt | gt | le | ge | eq | ne => exact ordinary_relation _ _ v w
  | div =>
    refine (ordinary_toFloat v).bind fun a => (ordinary_toFloat w).bind fun b => ?_
    dsimp only
    split <;> simp [Ordinary, Error.Ordinary]
  | _ => simp [Ordinary, Error.Ordinary, binary]

end Value

private theorem Cells.ordinary_set (b : Cells) (i : Nat) (v : Value) : Ordinary (b.set i v) := by
  refine (v.ordinary_coerce b.type).bind fun w => ?_
  split <;> simp [Ordinary, Error.Ordinary]

namespace Memory

variable (m : Memory)

private theorem ordinary_locate (a : Address) : Ordinary (locate a) := by
  rw [locate]
  split <;> simp [Ordinary, Error.Ordinary]

private theorem ordinary_read (a : Address) : Ordinary (m.read a) := by
  refine (ordinary_locate a).bind fun p => ?_
  dsimp only
  split
  · refine Ordinary.bind ?_ fun v => ?_
    · rw [readLocal?]
      split <;> simp [Ordinary, Error.Ordinary]
    · cases v <;> simp [Ordinary, Error.Ordinary]
  · refine (ordinary_ok _).bind fun v => ?_
    cases v <;> simp [Ordinary, Error.Ordinary]

private theorem ordinary_write (a : Address) (v : Value) : Ordinary (m.write a v) := by
  refine (ordinary_locate a).bind fun p => ?_
  dsimp only
  split
  · rw [writeLocal]
    split
    · simp [Ordinary, Error.Ordinary]
    · refine Ordinary.map ?_ _
      rw [Frame.write]
      split
      · exact (Cells.ordinary_set _ _ _).map _
      · exact (Cells.ordinary_set _ _ _).map _
      · simp [Ordinary, Error.Ordinary]
  · rw [writeGlobal]
    split
    · simp [Ordinary, Error.Ordinary]
    · exact (Cells.ordinary_set _ _ _).map _

private theorem ordinary_allocate (f : Address) : Ordinary (m.allocate f) := by
  rw [allocate]
  split <;> simp [Ordinary, Error.Ordinary]

private theorem ordinary_param (v : Value) : Ordinary (m.param v) := by
  rw [param]
  split
  · split
    · refine Ordinary.map ?_ _
      cases v with
      | int n | bool n | float n => exact (Cells.ordinary_set _ _ _).map _
      | string t => simp [Ordinary, Error.Ordinary, Frame.param]
    · simp [Ordinary, Error.Ordinary]
  · simp [Ordinary, Error.Ordinary]

private theorem ordinary_enter : Ordinary m.enter := by
  rw [enter]
  split
  · split <;> simp [Ordinary, Error.Ordinary]
  · simp [Ordinary, Error.Ordinary]

end Memory

namespace Core

private theorem ordinary_jump (c : Core) (q : Quadruple) : Ordinary (c.jump q) := by
  rw [jump]
  split <;> simp [Ordinary, Error.Ordinary]

variable {c : Core}

/-- Whoever returns drops a frame, if there is one. -/
theorem ordinary_leave (h : c.memory.frames = [] → c.returns = []) (x y z : Address) :
    Ordinary (c.advance ⟨.leave, x, y, z⟩) := by
  cases hreturns : c.returns with
  | nil =>
    rw [advance_leave_nil hreturns]
    simp [Ordinary, Error.Ordinary]
  | cons r returns =>
    rw [advance_leave_cons hreturns, Memory.release]
    refine Ordinary.map ?_ _
    split
    · exact ordinary_ok _
    · next hframes =>
      rw [h hframes] at hreturns
      cases hreturns

/-- A transition fails like an operation on memory, unless a call returns without a frame. -/
theorem ordinary_advance (h : c.memory.frames = [] → c.returns = []) (q : Quadruple) :
    Ordinary (c.advance q) := by
  obtain ⟨op, x, y, z⟩ := q
  have hread := c.memory.ordinary_read
  cases op with
  | add | sub | mul | div | lt | gt | le | ge | eq | ne =>
    refine Ordinary.map ?_ _
    refine (hread x).bind fun v => (hread y).bind fun w => ?_
    exact (v.ordinary_binary _ w).bind fun r => c.memory.ordinary_write z r
  | assign =>
    refine Ordinary.map ?_ _
    exact (hread x).bind fun v => c.memory.ordinary_write z v
  | print => exact (hread x).map _
  | goto => exact c.ordinary_jump _
  | gotoFalse =>
    refine (hread x).bind fun v => ?_
    split
    · exact ordinary_ok _
    · exact c.ordinary_jump _
  | gotoTrue =>
    refine (hread x).bind fun v => ?_
    split
    · exact c.ordinary_jump _
    · exact ordinary_ok _
  | call => exact c.memory.ordinary_enter.bind fun memory => ordinary_jump _ _
  | allocate => exact (c.memory.ordinary_allocate x).map _
  | leave => exact ordinary_leave h x y z
  | param =>
    refine (hread x).bind fun v => ?_
    dsimp only
    split
    · simp [Ordinary, Error.Ordinary]
    · exact (c.memory.ordinary_param v).map _

end Core

/-- Wherever runs of a program lead, cells hold values of their types, blocks and frames keep their
sizes, nothing is written without a type, and there is a frame for every place to return to: no step
fails because a call returns without one. -/
theorem Machine.reached_intact {object : ObjectFile} {limit : Option Nat} {m m' : Machine}
    (h : load object limit = .ok m) (hm : m.Reached m') :
    m'.Intact object.memory ∧ (∀ i, m'.memory.peek ⟨.global, .void⟩ i = none) ∧
      ∀ {ω : Type} (printer : Printer ω) (q : Quadruple) (out : ω) (e : Error) (s : Machine × ω),
        step printer q (m', out) = .error e s → e ≠ .machine .returnUnframed := by
  have hintact : m'.Intact object.memory := (intact_load h).reached hm
  refine ⟨hintact, hintact.memory.peek_void, ?_⟩
  intro ω printer q out e s hs
  have hstepped := stepped printer q m' out
  rw [hs] at hstepped
  cases hstepped with
  | failed he =>
    exact (Core.ordinary_advance hintact.framed q e he).2
  | refused => simp

/-- A call that is entered although its target is none. -/
def strayCall : ObjectFile :=
  ⟨⟨[⟨⟨.global, .void⟩, 1⟩], [⟨3000, 2, 1⟩]⟩, [],
    #[⟨.allocate, 3000, -1, -1⟩, ⟨.call, 3000, -1, -1⟩]⟩

theorem Machine.reached_intact_stray_call : ∃ m m', load strayCall none = .ok m ∧ m.Reached m' ∧
    m'.returns = [2] ∧ m'.Intact strayCall.memory ∧
    (∀ i, m'.memory.peek ⟨.global, .void⟩ i = none) ∧
      ∀ {ω : Type} (printer : Printer ω) (q : Quadruple) (out : ω) (e : Error) (s : Machine × ω),
        step printer q (m', out) = .error e s → e ≠ .machine .returnUnframed := by
  obtain ⟨m, hm, hreturns⟩ : ∃ m, load strayCall none = .ok m ∧
      (run .endless 5 m "").2.1.returns = [2] := ⟨_, rfl, rfl⟩
  have hreached : m.Reached (run .endless 5 m "").2.1 := .run .start _ _ _
  exact ⟨m, _, hm, hreached, hreturns, reached_intact hm hreached⟩

end Quadlet
