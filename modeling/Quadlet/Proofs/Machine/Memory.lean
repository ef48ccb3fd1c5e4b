import Quadlet.Machine.Memory
import Quadlet.Proofs.Effects

/-!
# Cells and frames

What one write does to the cells: it changes the cell that it names and no other. Cells of
program-wide segments are seen through `peek`, cells of calls through the frames. Each operation on
frames has a lemma that says when it succeeds and what it leaves.
-/

namespace Quadlet

namespace Cells

variable {b c : Cells} {i : Nat} {v : Value}

/-- The block behind a write. -/
def put (b : Cells) (i : Nat) (x : Value) : Cells := ⟨b.type, b.cells.setIfInBounds i (some x)⟩

/-- A write succeeds exactly if the value can be converted and the cell is there. -/
theorem set_eq_ok :
    b.set i v = .ok c ↔ ∃ x, v.coerce b.type = .ok x ∧ i < b.size ∧ c = b.put i x := by
  rw [set, Except.bind_eq_ok]
  refine exists_congr fun x => and_congr_right fun _ => ?_
  by_cases h : i < b.size
  · simp [h, put, eq_comm]
  · simp [h]

theorem size_put (b : Cells) (i : Nat) (x : Value) : (b.put i x).size = b.size := by
  simp [put, size]

/-- A write changes one cell. -/
theorem get?_put (x : Value) (h : i < b.size) (j : Nat) :
    (b.put i x).get? j = if j = i then some x else b.get? j := by
  rw [get?, put, Array.getElem?_setIfInBounds]
  by_cases hj : j = i
  · subst hj
    have hsize : j < b.cells.size := h
    simp [hsize]
  · rw [if_neg (Ne.symm hj), if_neg hj]
    rfl

theorem get?_unwritten (type : ValueType) (n i : Nat) : (unwritten type n).get? i = none := by
  rw [get?, unwritten, Array.getElem?_replicate]
  by_cases h : i < n <;> simp [h]

end Cells

namespace Memory

variable {m m' : Memory} {a : Address} {s : Segment} {i n : Nat} {v x : Value}

/-- The value of a cell of a program-wide segment. -/
def peek (m : Memory) (s : Segment) (i : Nat) : Option Value :=
  (m.globals.lookup s).bind fun b => b.get? i

/-- A segment has a block of its type with a number of cells. -/
def Block (m : Memory) (s : Segment) (n : Nat) : Prop :=
  ∃ b, m.globals.lookup s = some b ∧ b.type = s.type ∧ b.size = n

/-- A cell of a program-wide segment is read. -/
theorem read_global (ha : Segment.locate? a = some (s, i)) (hs : s.isLocal = false) :
    m.read a = (m.peek s i).elim (.error (.unwritten a)) .ok := by
  simp only [read, locate, ha, Except.ok_bind, hs, Bool.false_eq_true, if_false,
    Except.pure_eq, peek]
  cases (m.globals.lookup s).bind fun b => b.get? i <;> rfl

/-- A cell of a call is read in the topmost call, or else in the one beneath. -/
theorem read_local {f : Frame} {below : List Frame} (ha : Segment.locate? a = some (s, i))
    (hs : s.isLocal = true) (hentered : m.entered = f :: below) :
    m.read a = ((f.read? s i).or (below.head?.bind fun g => g.read? s i)).elim
      (.error (.unwritten a)) .ok := by
  simp only [read, locate, ha, Except.ok_bind, hs, if_true, readLocal?, hentered]
  cases (f.read? s i).or (below.head?.bind fun g => g.read? s i) <;> rfl

/-- A memory with one cell of a program-wide segment written. -/
structure Wrote (m : Memory) (s : Segment) (i : Nat) (x : Value) (m' : Memory) : Prop where
  frames : m'.frames = m.frames
  map : m'.map = m.map
  block : ∀ {s' n}, m.Block s' n → m'.Block s' n
  here : m'.peek s i = some x
  elsewhere : ∀ {s' j}, ¬(s' = s ∧ j = i) → m'.peek s' j = m.peek s' j

/-- The blocks with one of them replaced. -/
def replace (blocks : List (Segment × Cells)) (s : Segment) (b : Cells) : List (Segment × Cells) :=
  blocks.map fun e => if e.1 = s then (s, b) else e

private theorem lookup_replace_self {blocks : List (Segment × Cells)} {b : Cells}
    (hb : blocks.lookup s = some b) (c : Cells) : (replace blocks s c).lookup s = some c := by
  induction blocks with
  | nil => cases hb
  | cons e blocks ih =>
    rw [replace, List.map_cons]
    by_cases he : e.1 = s
    · rw [if_pos he, List.lookup_cons_self]
    · rw [if_neg he, List.lookup_cons, beq_eq_false_iff_ne.mpr (Ne.symm he)]
      rw [List.lookup_cons, beq_eq_false_iff_ne.mpr (Ne.symm he)] at hb
      exact ih hb

theorem lookup_replace_of_ne {s' : Segment} (hs : s' ≠ s)
    (blocks : List (Segment × Cells)) (c : Cells) :
    (replace blocks s c).lookup s' = blocks.lookup s' := by
  induction blocks with
  | nil => rfl
  | cons e blocks ih =>
    rw [replace, List.map_cons]
    by_cases he : e.1 = s
    · have hne : s' ≠ e.1 := fun h => hs (h.trans he)
      rw [if_pos he, List.lookup_cons, beq_eq_false_iff_ne.mpr hs, List.lookup_cons,
        beq_eq_false_iff_ne.mpr hne]
      exact ih
    · rw [if_neg he, List.lookup_cons, List.lookup_cons]
      cases s' == e.1 with
      | true => rfl
      | false => exact ih

/-- A value that can be converted is written to a cell that is there. -/
theorem write_global (ha : Segment.locate? a = some (s, i)) (hs : s.isLocal = false)
    (hblock : m.Block s n) (hi : i < n) (hx : v.coerce s.type = .ok x) :
    ∃ m', m.write a v = .ok m' ∧ m.Wrote s i x m' := by
  obtain ⟨b, hb, htype, rfl⟩ := hblock
  have hset : b.set i v = .ok (b.put i x) := Cells.set_eq_ok.mpr ⟨x, htype ▸ hx, hi, rfl⟩
  have hself := lookup_replace_self hb (b.put i x)
  refine ⟨{ m with globals := replace m.globals s (b.put i x) }, ?_, rfl, rfl, ?_, ?_, ?_⟩
  · simp only [write, locate, ha, Except.ok_bind, hs, Bool.false_eq_true, if_false,
      writeGlobal, hb, hset]
    rfl
  · rintro s' n ⟨c, hc, hctype, hcsize⟩
    by_cases hs' : s' = s
    · subst hs'
      rw [hb] at hc
      cases hc
      exact ⟨_, hself, htype, (Cells.size_put ..).trans hcsize⟩
    · exact ⟨c, (lookup_replace_of_ne hs' _ _).trans hc, hctype, hcsize⟩
  · rw [peek, hself, Option.bind_some, Cells.get?_put x hi, if_pos rfl]
  · intro s' j hother
    rw [peek, peek]
    by_cases hs' : s' = s
    · subst hs'
      have hj : j ≠ i := fun hj => hother ⟨rfl, hj⟩
      rw [hself, hb, Option.bind_some, Option.bind_some, Cells.get?_put x hi, if_neg hj]
    · rw [lookup_replace_of_ne hs']

/-- A cell of the topmost call is written. -/
theorem write_local {f f' : Frame} {below : List Frame} (ha : Segment.locate? a = some (s, i))
    (hs : s.isLocal = true) (hentered : m.entered = f :: below) (hf : f.write s i v = .ok f') :
    m.write a v = .ok { m with frames := m.frames.takeWhile Frame.pending ++ f' :: below } := by
  simp only [write, locate, ha, Except.ok_bind, hs, if_true, writeLocal, hentered, hf]
  rfl

/-! A frame is put on top, filled while it waits, entered and dropped. -/

theorem allocate_eq_ok {id : Address} : m.allocate id = .ok m' ↔
    ∃ size, m.map.lastFrame? id = some size ∧
    m' = { m with frames := .ofSize size :: m.frames } := by
  rw [allocate]
  cases m.map.lastFrame? id with
  | none => simp
  | some size => simp [eq_comm]

theorem param_eq_ok : m.param v = .ok m' ↔
    ∃ f below g, m.frames = f :: below ∧ f.pending = true ∧ f.param v = .ok g ∧
      m' = { m with frames := g :: below } := by
  constructor
  · intro h
    rw [param] at h
    split at h
    · next f below hframes =>
      split at h
      · next hpending =>
        obtain ⟨g, hg, rfl⟩ := Except.map_eq_ok.mp h
        exact ⟨f, below, g, hframes, hpending, hg, rfl⟩
      · cases h
    · cases h
  · rintro ⟨f, below, g, hframes, hpending, hg, rfl⟩
    simp only [param, hframes, hpending, if_true, hg]
    rfl

theorem enter_eq_ok : m.enter = .ok m' ↔
    ∃ f below, m.frames = f :: below ∧ f.pending = true ∧
      m' = { m with frames := { f with pending := false } :: below } := by
  constructor
  · intro h
    rw [enter] at h
    split at h
    · next f below hframes =>
      split at h
      · next hpending =>
        cases h
        exact ⟨f, below, hframes, hpending, rfl⟩
      · cases h
    · cases h
  · rintro ⟨f, below, hframes, hpending, rfl⟩
    simp only [enter, hframes, hpending, if_true]

theorem release_eq_ok : m.release = .ok m' ↔
    ∃ f below, m.frames = f :: below ∧ m' = { m with frames := below } := by
  constructor
  · intro h
    rw [release] at h
    split at h
    · next f below hframes =>
      cases h
      exact ⟨f, below, hframes, rfl⟩
    · cases h
  · rintro ⟨f, below, hframes, rfl⟩
    rw [release, hframes]

end Memory

end Quadlet
