import Quadlet.Proofs.Semantics.Expressions

/-!
# Loading of object files

The memory of a loaded object file: the constants are in their cells and nothing else is
written. Main statement: the object file of a lowered program is loaded, and shows the world
in which a program starts.
-/

namespace Quadlet

open Syntax Request Planner

namespace Memory

/-! ## Empty memory -/

/-- Blocks that are made for some segments are found for those segments only. -/
theorem lookup_map (make : Segment → Cells) (ss : List Segment) (s : Segment) :
    (ss.map fun t => (t, make t)).lookup s = if s ∈ ss then some (make s) else none := by
  induction ss with
  | nil => simp
  | cons t ss ih =>
    rw [List.map_cons, List.lookup_cons]
    by_cases h : s = t
    · subst h
      simp
    · rw [beq_eq_false_iff_ne.mpr h]
      simp only [List.mem_cons, h, false_or]
      exact ih

/-- Every program-wide segment has a block of the stated size. -/
theorem block_ofMap (map : MemoryMap) {s : Segment} (hs : s ∈ Segment.programWide) :
    (ofMap map).Block s (map.cells s) := by
  refine ⟨.unwritten s.type (map.cells s), ?_, rfl, Array.size_replicate⟩
  rw [ofMap, lookup_map, if_pos hs]

/-- Nothing is written at first. -/
theorem peek_ofMap (map : MemoryMap) (s : Segment) (i : Nat) : (ofMap map).peek s i = none := by
  rw [peek, ofMap, lookup_map]
  by_cases hs : s ∈ Segment.programWide
  · rw [if_pos hs]
    exact Cells.get?_unwritten ..
  · rw [if_neg hs]
    rfl

/-! ## Constants -/

/-- A memory in which constants were put behind the literals `before`, and
nothing else was written. -/
structure Extends (before : List Literal) (m m' : Memory) : Prop where
  frames : m'.frames = m.frames
  map : m'.map = m.map
  block : ∀ {s n}, m.Block s n → m'.Block s n
  keep : ∀ {s i}, (s.lifetime = .constant → i < before.countP fun l => l.type = s.type) →
    m'.peek s i = m.peek s i

/-- The cells of constants are written one behind the other. -/
theorem store_number (before ls : List Literal) {m : Memory}
    (hroom : ∀ l : Literal, ((before ++ ls).countP fun k => k.type = l.type) ≤ Segment.size ∧
      ∃ n, m.Block ⟨.constant, l.type⟩ n ∧ ((before ++ ls).countP fun k => k.type = l.type) ≤ n) :
    ∃ m', (Constant.number before ls).foldlM (fun m c => m.write c.address c.literal.value)
      m = .ok m' ∧ m.Extends before m' ∧ ∀ c ∈ Constant.number before ls, m'.Stores c := by
  induction ls generalizing before m with
  | nil => exact ⟨m, rfl, ⟨rfl, rfl, id, fun _ => rfl⟩, by simp [Constant.number]⟩
  | cons l ls ih =>
    obtain ⟨hsize, n, hblock, hn⟩ := hroom l
    have hfull : (before.countP fun k => k.type = l.type) <
        (before ++ l :: ls).countP fun k => k.type = l.type := by
      rw [List.countP_append, List.countP_cons_of_pos (by simp)]
      omega
    have hplace := Segment.locate?_base (base?_literal l) (Nat.lt_of_lt_of_le hfull hsize)
    have hcoerce : l.value.coerce l.type = .ok l.value := by
      cases l <;> rfl
    obtain ⟨m₁, hm₁, hwrote⟩ := write_global hplace rfl hblock (Nat.lt_of_lt_of_le hfull hn) hcoerce
    rw [List.append_cons] at hroom
    obtain ⟨m', hm', hextends, hstores⟩ := ih (before ++ [l]) (m := m₁) (by
      intro k
      obtain ⟨hk, n, hblock, hn⟩ := hroom k
      exact ⟨hk, n, hwrote.block hblock, hn⟩)
    have hmore {type : ValueType} {i : Nat} (hi : i < before.countP fun k => k.type = type) :
        i < (before ++ [l]).countP fun k => k.type = type := by
      rw [List.countP_append]
      omega
    refine ⟨m', ?_, ⟨hextends.frames.trans hwrote.frames, hextends.map.trans hwrote.map,
      fun h => hextends.block (hwrote.block h), ?_⟩, ?_⟩
    · rw [Constant.number, List.foldlM_cons, hm₁]
      exact hm'
    · intro s i hi
      rw [hextends.keep fun hs => hmore (hi hs), hwrote.elsewhere]
      rintro ⟨rfl, rfl⟩
      exact absurd (hi rfl) (Nat.lt_irrefl _)
    · intro c hc
      rcases List.mem_cons.mp hc with rfl | hc
      · refine ⟨_, hplace, ?_⟩
        rw [hextends.keep, hwrote.here]
        intro _
        simp
      · exact hstores c hc

end Memory

/-- The object file of a lowered program is loaded. -/
theorem ObjectFile.Supplies.load {o : ObjectFile} {rs : List Request} (h : o.Supplies rs) :
    ∃ m, Memory.load o.memory o.constants = .ok m ∧ Mirrors o [] [] .start m := by
  obtain ⟨more, p, hserved, hmemory, hconstants⟩ := h
  rw [hserved.constants] at hconstants
  have hwide (l : Literal) : ⟨.constant, l.type⟩ ∈ Segment.programWide := by
    cases l <;> exact of_decide_eq_true rfl
  have hcount (l : Literal) : ((literals (rs ++ more)).eraseDups.countP fun k => k.type = l.type) =
      o.memory.cells ⟨.constant, l.type⟩ := by
    rw [hmemory, cells_memoryMap (hwide l), hserved.count_constant]
  have hroom (l : Literal) : ((literals (rs ++ more)).eraseDups.countP fun k => k.type = l.type) ≤
      Segment.size ∧ ∃ n, (Memory.ofMap o.memory).Block ⟨.constant, l.type⟩ n ∧
        ((literals (rs ++ more)).eraseDups.countP fun k => k.type = l.type) ≤ n := by
    refine ⟨?_, _, Memory.block_ofMap o.memory (hwide l), Nat.le_of_eq (hcount l)⟩
    rw [← hserved.count_constant, hserved.count]
    exact hserved.fits _
  obtain ⟨m, hm, hextends, hstores⟩ :=
    Memory.store_number [] (literals (rs ++ more)).eraseDups hroom
  refine ⟨m, by rw [Memory.load, hconstants, hm], hextends.map,
    fun hs => hextends.block (Memory.block_ofMap _ hs), ?_, ?_, by simp, [], hextends.frames, .nil⟩
  · intro τ i
    rw [hextends.keep (by simp), Memory.peek_ofMap]
    cases τ <;> rfl
  · intro c hc
    rw [hconstants] at hc
    exact hstores c hc

end Quadlet
