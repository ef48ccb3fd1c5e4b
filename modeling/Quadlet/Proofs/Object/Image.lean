import Quadlet.Proofs.Lowering.Postorder
import Quadlet.Proofs.Machine.Integrity
import Quadlet.Proofs.Object.Text
import Quadlet.Proofs.Semantics.Loading

/-!
# The memory of a program that was read

A persisted program may list a segment, a function or a constant more than once, in any order. Main
statement: its memory is made exactly if every constant has a cell by the first entry for its
segment, holds the last literal that is listed for an address and nothing else, and gives a call the
cells of the last entry for its function.
-/

namespace Quadlet

/-! ## Constants -/

/-- The last literal that is listed for an address. -/
def Constant.last? (cs : List Constant) (a : Address) : Option Literal :=
  (cs.reverse.find? fun c => c.address == a).map Constant.literal

/-- A constant has an address that lives as long as the program, and the type of its segment. -/
structure Constant.Housed (c : Constant) (s : Segment) (i : Nat) : Prop where
  place : Segment.locate? c.address = some (s, i)
  wide : s ∈ Segment.programWide
  type : c.literal.type = s.type

private theorem Constant.last?_cons (c : Constant) (cs : List Constant) (a : Address) :
    last? (c :: cs) a = (last? cs a).or (if c.address = a then some c.literal else none) := by
  rw [last?, List.reverse_cons, List.find?_append, last?]
  cases cs.reverse.find? fun c => c.address == a with
  | some c' => rfl
  | none =>
    by_cases h : c.address = a
    · simp [h]
    · simp [h]

/-- Two addresses of the same cell are the same. -/
theorem Segment.locate?_injective {a b : Address} {s : Segment} {i : Nat}
    (ha : locate? a = some (s, i)) (hb : locate? b = some (s, i)) : a = b :=
  (eq_of_locate? ha).trans (eq_of_locate? hb).symm

namespace Constant.Housed

variable {c : Constant} {s : Segment} {i : Nat}

private theorem isLocal (h : c.Housed s i) : s.isLocal = false := by
  simpa using (List.mem_filter.mp h.wide).2

/-- The literal of a constant is stored as it is. -/
theorem coerce (h : c.Housed s i) : c.literal.value.coerce s.type = .ok c.literal.value := by
  rw [← h.type]
  cases c.literal <;> rfl

end Constant.Housed

/-- The constants of a program that was read are housed. -/
theorem ObjectFile.Storable.housed {o : ObjectFile} (h : o.Storable) {c : Constant}
    (hc : c ∈ o.constants) : ∃ s i, c.Housed s i := by
  obtain ⟨s, hs, hlifetime, htype⟩ := h.constants c hc
  have hwide : s ∈ Segment.programWide := by
    refine List.mem_filter.mpr ⟨Segment.mem_layout_of_ofAddress? hs, ?_⟩
    simp [Segment.isLocal, hlifetime]
  obtain ⟨⟨_, i⟩, hplace, rfl⟩ := Option.map_eq_some_iff.mp hs
  exact ⟨_, i, hplace, hwide, htype⟩

namespace Memory

variable {m m' : Memory} {a : Address} {s : Segment} {i n : Nat} {v x : Value}

/-- A write that succeeds needs its cell, and changes it only. -/
theorem wrote_of_write (ha : Segment.locate? a = some (s, i)) (hs : s.isLocal = false)
    (hblock : m.Block s n) (hx : v.coerce s.type = .ok x) (h : m.write a v = .ok m') :
    i < n ∧ m.Wrote s i x m' := by
  have hlt : i < n := by
    obtain ⟨b, hb, -, rfl⟩ := hblock
    simp only [write, locate, ha, Except.ok_bind, hs, Bool.false_eq_true, if_false,
      writeGlobal, hb] at h
    obtain ⟨c, hc, -⟩ := Except.map_eq_ok.mp h
    exact Cells.lt_of_set hc
  obtain ⟨m'', hm'', hwrote⟩ := write_global ha hs hblock hlt hx
  rw [h] at hm''
  cases hm''
  exact ⟨hlt, hwrote⟩

/-- Writes constants in their order. -/
def store (cs : List Constant) (m : Memory) : Except Error Memory :=
  cs.foldlM (fun m c => m.write c.address c.literal.value) m

private theorem store_cons (c : Constant) (cs : List Constant) (m : Memory) :
    m.store (c :: cs) = m.write c.address c.literal.value >>= fun m => m.store cs :=
  List.foldlM_cons ..

variable {cells : Segment → Nat} {cs : List Constant}

/-- Constants are stored if each of them has a cell. -/
theorem exists_store (hcs : ∀ c ∈ cs, ∃ s i, c.Housed s i ∧ i < cells s)
    (hblock : ∀ s ∈ Segment.programWide, m.Block s (cells s)) : ∃ m', m.store cs = .ok m' := by
  induction cs generalizing m with
  | nil => exact ⟨m, rfl⟩
  | cons c cs ih =>
    obtain ⟨⟨s, i, hc, hlt⟩, hcs⟩ := List.forall_mem_cons.mp hcs
    obtain ⟨m₁, hm₁, hwrote⟩ := write_global hc.place hc.isLocal (hblock s hc.wide) hlt hc.coerce
    rw [store_cons, hm₁, Except.ok_bind]
    exact ih hcs fun t ht => hwrote.block (hblock t ht)

/-- Constants that are stored have their cells, and the last one for an address is found there. -/
theorem stored (hcs : ∀ c ∈ cs, ∃ s i, c.Housed s i)
    (hblock : ∀ s ∈ Segment.programWide, m.Block s (cells s)) (h : m.store cs = .ok m') :
    (∀ c ∈ cs, ∀ s i, c.Housed s i → i < cells s) ∧
      ∀ {a s i}, Segment.locate? a = some (s, i) →
        m'.peek s i = ((Constant.last? cs a).map Literal.value).or (m.peek s i) := by
  induction cs generalizing m with
  | nil =>
    cases h
    exact ⟨by simp, fun _ => rfl⟩
  | cons c cs ih =>
    obtain ⟨⟨s, i, hc⟩, hcs⟩ := List.forall_mem_cons.mp hcs
    rw [store_cons] at h
    obtain ⟨m₁, hm₁, h⟩ := Except.bind_eq_ok.mp h
    obtain ⟨hlt, hwrote⟩ := wrote_of_write hc.place hc.isLocal (hblock s hc.wide) hc.coerce hm₁
    obtain ⟨hcells, hpeek⟩ := ih hcs (fun t ht => hwrote.block (hblock t ht)) h
    constructor
    · refine List.forall_mem_cons.mpr ⟨?_, hcells⟩
      intro t j ht
      cases hc.place.symm.trans ht.place
      exact hlt
    · intro a t j ha
      rw [hpeek ha, Constant.last?_cons]
      cases Constant.last? cs a with
      | some l => rfl
      | none =>
        by_cases heq : c.address = a
        · subst heq
          cases hc.place.symm.trans ha
          rw [if_pos rfl]
          exact hwrote.here
        · rw [if_neg heq]
          refine hwrote.elsewhere ?_
          rintro ⟨rfl, rfl⟩
          exact heq (Segment.locate?_injective hc.place ha)

variable {map : MemoryMap}

/-- Memory is made exactly if every constant has a cell. -/
theorem exists_load_iff (hcs : ∀ c ∈ cs, ∃ s i, c.Housed s i) : (∃ m, load map cs = .ok m) ↔
    ∀ c ∈ cs, ∀ s i, Segment.locate? c.address = some (s, i) → i < map.cells s := by
  have hblock (s) (hs : s ∈ Segment.programWide) := block_ofMap map hs
  constructor
  · rintro ⟨m, hm⟩ c hc s i hplace
    obtain ⟨t, j, hhoused⟩ := hcs c hc
    cases hhoused.place.symm.trans hplace
    exact (stored hcs hblock hm).1 c hc s i hhoused
  · intro hcells
    refine exists_store (fun c hc => ?_) hblock
    obtain ⟨s, i, hhoused⟩ := hcs c hc
    exact ⟨s, i, hhoused, hcells c hc s i hhoused.place⟩

/-- Memory that was made holds the last literal for every address, and nothing else. -/
theorem read_load (hcs : ∀ c ∈ cs, ∃ s i, c.Housed s i) (h : load map cs = .ok m)
    (ha : Segment.locate? a = some (s, i)) (hs : s.isLocal = false) :
    m.read a = (Constant.last? cs a).elim (.error (.unwritten a)) fun l => .ok l.value := by
  have hpeek := (stored hcs (fun s hs => block_ofMap map hs) h).2 ha
  rw [peek_ofMap, Option.or_none] at hpeek
  rw [read_global ha hs, hpeek]
  cases Constant.last? cs a <;> rfl

end Memory

/-! ## Frames -/

namespace MemoryMap

variable {map : MemoryMap} {id : Address} {size : FrameSize}

/-- A function has a first entry if it has a last one. -/
theorem exists_lastFrame?_iff :
    (∃ size, map.lastFrame? id = some size) ↔ ∃ size, map.frame? id = some size := by
  rw [← Option.isSome_iff_exists, ← Option.isSome_iff_exists, lastFrame?, frame?, List.find?_isSome,
    List.find?_isSome]
  simp only [List.mem_reverse]

private theorem function_of_frame? (h : map.frame? id = some size) : size.function = id := by
  simpa using List.find?_some h

private theorem function_of_lastFrame? (h : map.lastFrame? id = some size) :
    size.function = id := by
  simpa using List.find?_some h

end MemoryMap

namespace Memory

/-- What operations make of a memory, one after the other. -/
inductive Becomes (m : Memory) : Memory → Prop where
  | refl : Becomes m m
  | write {m' m'' : Memory} {a : Address} {v : Value} (h : Becomes m m')
    (hm : m'.write a v = .ok m'') : Becomes m m''
  | allocate {m' m'' : Memory} {id : Address} (h : Becomes m m') (hm : m'.allocate id = .ok m'') :
    Becomes m m''
  | param {m' m'' : Memory} {v : Value} (h : Becomes m m') (hm : m'.param v = .ok m'') :
    Becomes m m''
  | enter {m' m'' : Memory} (h : Becomes m m') (hm : m'.enter = .ok m'') : Becomes m m''
  | release {m' m'' : Memory} (h : Becomes m m') (hm : m'.release = .ok m'') : Becomes m m''

variable {m m' m'' : Memory} {map : MemoryMap} {id : Address} {size : FrameSize}

private theorem Intact.becomes (h : m.Intact map) (hm : m.Becomes m') : m'.Intact map := by
  induction hm with
  | refl => exact h
  | write _ hm ih => exact (ih.write hm).1
  | allocate _ hm ih => exact (ih.allocate hm).1
  | param _ hm ih => exact (ih.param hm).1
  | enter _ hm ih => exact (ih.enter hm).1
  | release _ hm ih => exact (ih.release hm).1

private theorem exists_allocate_iff :
    (∃ m', m.allocate id = .ok m') ↔ ∃ size, m.map.lastFrame? id = some size := by
  constructor
  · rintro ⟨m', hm'⟩
    obtain ⟨size, hsize, -⟩ := allocate_eq_ok.mp hm'
    exact ⟨size, hsize⟩
  · rintro ⟨size, hsize⟩
    exact ⟨_, allocate_eq_ok.mpr ⟨size, hsize, rfl⟩⟩

end Memory

/-- A frame has the sizes of one entry for its function only. -/
theorem Frame.Fits.sizes_iff {f : Frame} {size last : FrameSize} (h : f.Fits last)
    (hfunction : size.function = last.function) :
    f.ints.size = size.ints ∧ f.floats.size = size.floats ↔ size = last := by
  rw [h.ints.size, h.floats.size]
  obtain ⟨id, ints, floats⟩ := size
  obtain ⟨id', ints', floats'⟩ := last
  obtain rfl : id = id' := hfunction
  simp [eq_comm]

/-- The memory of a program that was read is what its text states: it can be made exactly if every
constant has a cell, an address that lives as long as the program gives the last literal that is
listed for it or was never written, and whatever operations follow, a call of a function finds cells
exactly if the function is listed. They are those of its last entry, and those of the first one only
if the two are the same. -/
theorem ObjectFile.image_mirrors_map {text : String} {o : ObjectFile} (h : ofText text = .ok o) :
    ((∃ m, Memory.load o.memory o.constants = .ok m) ↔
      ∀ c ∈ o.constants, ∀ s i, Segment.locate? c.address = some (s, i) → i < o.memory.cells s) ∧
    ∀ m, Memory.load o.memory o.constants = .ok m →
      (∀ a s i, Segment.locate? a = some (s, i) → s.isLocal = false →
        m.read a = (Constant.last? o.constants a).elim (.error (.unwritten a))
          fun l => .ok l.value) ∧
      ∀ m' id, m.Becomes m' →
        ((∃ m'', m'.allocate id = .ok m'') ↔ ∃ size, o.memory.frame? id = some size) ∧
        ∀ m'' size, m'.allocate id = .ok m'' → o.memory.frame? id = some size →
          ∃ f last, m''.frames = f :: m'.frames ∧ m''.globals = m'.globals ∧
          o.memory.lastFrame? id = some last ∧
            (f.ints.size = last.ints ∧ f.floats.size = last.floats) ∧
            (f.ints.size = size.ints ∧ f.floats.size = size.floats ↔ size = last) := by
  have hcs (c) (hc : c ∈ o.constants) := (storable_of_ofText h).housed hc
  refine ⟨Memory.exists_load_iff hcs,
    fun m hm => ⟨fun a s i => Memory.read_load hcs hm, fun m' id hm' => ?_⟩⟩
  have hintact : m.Intact o.memory := (Memory.intact_ofMap o.memory).constants hm
  have hmap : m'.map = o.memory := (hintact.becomes hm').planned
  constructor
  · rw [← MemoryMap.exists_lastFrame?_iff, ← hmap]
    exact Memory.exists_allocate_iff
  · intro m'' size hallocate hsize
    obtain ⟨last, hlast, rfl⟩ := Memory.allocate_eq_ok.mp hallocate
    rw [hmap] at hlast
    have hfits := Frame.fits_ofSize last
    have hfunction : size.function = last.function :=
      (MemoryMap.function_of_frame? hsize).trans (MemoryMap.function_of_lastFrame? hlast).symm
    exact ⟨.ofSize last, last, rfl, rfl, hlast, ⟨hfits.ints.size, hfits.floats.size⟩,
      hfits.sizes_iff hfunction⟩

/-- Lists a segment, a function and a constant twice. -/
def repeatedText : String :=
  "const.int 1\nconst.int 0\nfunction 1000 0 0\nfunction 1000 1 0\n%%\n7000, 5\n7000, 6\n%%\n" ++
  "17 1000 -1 -1\n16 1000 -1 2\n11 7000 -1 10000\n%%\n"

def repeatedObject : ObjectFile :=
  ⟨⟨[⟨⟨.constant, .int⟩, 1⟩, ⟨⟨.constant, .int⟩, 0⟩], [⟨1000, 0, 0⟩, ⟨1000, 1, 0⟩]⟩,
    [⟨7000, .int 5⟩, ⟨7000, .int 6⟩],
    #[⟨.allocate, 1000, -1, -1⟩, ⟨.call, 1000, -1, 2⟩, ⟨.assign, 7000, -1, 10000⟩]⟩

private theorem ObjectFile.ofText_repeatedText : ofText repeatedText = .ok repeatedObject :=
  Except.toOption_eq_some.mp (by decide +kernel)

theorem ObjectFile.image_of_repeatedText : ∃ o m m' f, ofText repeatedText = .ok o ∧
    Memory.load o.memory o.constants = .ok m ∧ m.read 7000 = .ok (.int 6) ∧
    m.read 2000 = .error (.unwritten 2000) ∧ m.allocate 1000 = .ok m' ∧ m'.frames.head? = some f ∧
    f.ints.size = 1 ∧ f.floats.size = 0 := by
  obtain ⟨hload, hmemory⟩ := image_mirrors_map ofText_repeatedText
  have hcells : ∀ c ∈ repeatedObject.constants, ∀ s i, Segment.locate? c.address = some (s, i) →
      i < repeatedObject.memory.cells s := by
    intro c hc s i hplace
    have haddress : c.address = 7000 := by
      simp only [repeatedObject, List.mem_cons, List.not_mem_nil, or_false] at hc
      rcases hc with rfl | rfl <;> rfl
    rw [haddress] at hplace
    cases (show Segment.locate? 7000 = some (⟨.constant, .int⟩, 0) from rfl).symm.trans hplace
    decide
  obtain ⟨m, hm⟩ := hload.mpr hcells
  obtain ⟨hread, hallocate⟩ := hmemory m hm
  obtain ⟨hlisted, hframe⟩ := hallocate m 1000 .refl
  obtain ⟨m', hm'⟩ := hlisted.mpr ⟨⟨1000, 0, 0⟩, rfl⟩
  obtain ⟨f, last, hframes, -, hlast, ⟨hints, hfloats⟩, -⟩ := hframe m' ⟨1000, 0, 0⟩ hm' rfl
  cases hlast
  refine ⟨repeatedObject, m, m', f, ofText_repeatedText, hm, hread 7000 _ _ rfl rfl,
    hread 2000 _ _ rfl rfl, hm', ?_, hints, hfloats⟩
  rw [hframes]
  rfl

/-- The first entry for the function states that a call has no cells, and a call has one. -/
theorem ObjectFile.call_exceeds_first_entry : ∃ o m m' size, ofText repeatedText = .ok o ∧
    Memory.load o.memory o.constants = .ok m ∧ o.memory.frame? 1000 = some size ∧
    m.allocate 1000 = .ok m' ∧ m'.frames.map (fun f => f.ints.size) ≠ [size.ints] :=
  ⟨repeatedObject, _, _, ⟨1000, 0, 0⟩, ofText_repeatedText, rfl, rfl, rfl, by decide⟩

end Quadlet
