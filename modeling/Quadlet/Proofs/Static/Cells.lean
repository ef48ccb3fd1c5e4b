import Quadlet.Proofs.Lowering.Basic
import Quadlet.Proofs.Static.WellFormed

/-!
# The planner serves requests

What a planner has handed out is a function of the requests so far: it has counted exactly the cells
that they demand, and its constants are their literals in order, each once. It goes on serving as
long as the requests fit.
-/

namespace Quadlet

open Syntax Request

/-! ## Demands -/

namespace Syntax.Request

theorem literals_append (rs ss : List Request) : literals (rs ++ ss) = literals rs ++ literals ss :=
  List.filterMap_append

/-- A cell of its own counts in its segment only. -/
theorem demand_cell (rs : List Request) (s s' : Segment) :
    demand (rs ++ [Request.cell s]) s' = demand rs s' + if s = s' then 1 else 0 := by
  have hliterals : literals (rs ++ [Request.cell s]) = literals rs := by
    simp [literals]
  simp only [demand, hliterals, List.count_append, List.count_singleton]
  by_cases h : s = s' <;> simp [h] <;> omega

theorem eraseDups_append_of_mem {α : Type} [DecidableEq α] {ls : List α} {l : α} (h : l ∈ ls) :
    (ls ++ [l]).eraseDups = ls.eraseDups := by
  rw [List.eraseDups_append]
  simp [List.cons_removeAll, h]

theorem eraseDups_append_of_not_mem {α : Type} [DecidableEq α] {ls : List α} {l : α} (h : l ∉ ls) :
    (ls ++ [l]).eraseDups = ls.eraseDups ++ [l] := by
  rw [List.eraseDups_append]
  simp [List.cons_removeAll, h, List.eraseDups_cons]

/-- A literal that was asked for before counts nowhere. -/
theorem demand_literal_of_mem {rs : List Request} {l : Literal} (h : l ∈ literals rs)
    (s : Segment) : demand (rs ++ [Request.literal l]) s = demand rs s := by
  have hliterals : literals (rs ++ [Request.literal l]) = literals rs ++ [l] := by
    simp [literals]
  simp [demand, hliterals, eraseDups_append_of_mem h]

/-- A literal that was not asked for before counts in the segment of its type. -/
theorem demand_literal_of_not_mem {rs : List Request} {l : Literal} (h : l ∉ literals rs)
    (s : Segment) :
    demand (rs ++ [Request.literal l]) s =
      demand rs s + if s = ⟨.constant, l.type⟩ then 1 else 0 := by
  have hliterals : literals (rs ++ [Request.literal l]) = literals rs ++ [l] := by
    simp [literals]
  simp only [demand, hliterals, eraseDups_append_of_not_mem h, List.count_append,
    List.countP_append, List.countP_singleton]
  by_cases hs : s = ⟨.constant, l.type⟩ <;> simp [hs] <;> omega

/-- More requests demand no less. -/
theorem demand_le_append (rs ss : List Request) (s : Segment) :
    demand rs s ≤ demand (rs ++ ss) s := by
  induction ss generalizing rs with
  | nil => simp
  | cons r ss ih =>
    have hstep : demand rs s ≤ demand (rs ++ [r]) s := by
      cases r with
      | cell s' =>
        rw [demand_cell]
        omega
      | literal l =>
        by_cases h : l ∈ literals rs
        · exact Nat.le_of_eq (demand_literal_of_mem h s).symm
        · rw [demand_literal_of_not_mem h]
          omega
    have hrest := ih (rs ++ [r])
    rw [List.append_assoc, List.singleton_append] at hrest
    omega

/-- What comes first fits where all fits. -/
theorem Fits.of_append {rs ss : List Request} (h : Fits (rs ++ ss)) : Fits rs := fun s =>
  Nat.le_trans (demand_le_append rs ss s) (h s)

end Syntax.Request

/-! ## Counting -/

/-- The first address of the literals of a type. -/
def Constant.base (type : ValueType) : Address := (Segment.base? ⟨.constant, type⟩).getD 0

/-- Literals with their addresses: the place of each is the number of literals
of its type before it. -/
def Constant.number : List Literal → List Literal → List Constant
  | _, [] => []
  | before, l :: ls =>
    ⟨base l.type + (before.countP fun m => m.type = l.type : Nat), l⟩ :: number (before ++ [l]) ls

/-- Further literals are put behind the others. -/
theorem Constant.number_append (before ls ms : List Literal) :
    number before (ls ++ ms) = number before ls ++ number (before ++ ls) ms := by
  induction ls generalizing before with
  | nil => simp [number]
  | cons l ls ih => simp [number, ih]

/-- Numbering keeps the literals. -/
theorem Constant.map_literal_number (before ls : List Literal) :
    (number before ls).map Constant.literal = ls := by
  induction ls generalizing before with
  | nil => rfl
  | cons l ls ih => simp [number, ih]

namespace Planner

/-- One more cell of a segment is counted in that segment only. -/
theorem count_countOne (p : Planner) (s s' : Segment) :
    ({ p with used := countOne s p.used } : Planner).count s' =
      p.count s' + if s = s' then 1 else 0 := by
  have hlist (es : List SegmentSize) :
      (((countOne s es).find? fun e => e.segment == s').map SegmentSize.cells).getD 0 =
        ((es.find? fun e => e.segment == s').map SegmentSize.cells).getD 0 +
          if s = s' then 1 else 0 := by
    induction es with
    | nil => by_cases h : s = s' <;> simp [countOne, h]
    | cons e es ih =>
      by_cases he : e.segment = s
      · by_cases h : s = s' <;> simp [countOne, he, h]
      · by_cases h : e.segment = s'
        · have hne : s ≠ s' := fun hs => he (h.trans hs.symm)
          simp [countOne, h, hne, hne.symm]
        · simp only [countOne, if_neg he, List.find?_cons, beq_eq_false_iff_ne.mpr h]
          exact ih
  exact hlist p.used

/-- A cell of a program-wide segment is handed out exactly if one is left. -/
theorem place_eq_ok {p p' : Planner} {s : Segment} {base a : Address} :
    p.place s base = .ok (a, p') ↔
      p.count s < Segment.size ∧ a = base + p.count s ∧
      p' = { p with used := countOne s p.used } := by
  rw [place]
  by_cases h : p.count s < Segment.size
  · simp [h, eq_comm]
  · simp [h]

/-- A planner that has served some requests; none of them was for a cell among the literals. -/
structure Served (rs : List Request) (p : Planner) : Prop where
  count : ∀ s, p.count s = demand rs s
  constants : p.constants.toList = Constant.number [] (literals rs).eraseDups
  fits : Fits rs
  plain : ∀ type, .cell ⟨.constant, type⟩ ∉ rs

theorem served_empty : Served [] empty := ⟨fun _ => rfl, rfl, fun _ => Nat.zero_le _, by simp⟩

/-- What a planner keeps when it hands out cells that live as long as the program. -/
structure Kept (p p' : Planner) : Prop where
  frames : p'.frames = p.frames
  current : p'.current = p.current

theorem Kept.refl (p : Planner) : Kept p p := ⟨rfl, rfl⟩

theorem Kept.trans {p q r : Planner} (h : Kept p q) (h' : Kept q r) : Kept p r :=
  ⟨h'.frames.trans h.frames, h'.current.trans h.current⟩

/-- The segments of variables, of function identities and of results. -/
def isOwned (s : Segment) : Prop := s.lifetime = .global ∨ s.lifetime = .temporary

theorem assign_of_owned {p : Planner} {s : Segment} {base : Address} (hs : isOwned s)
    (hbase : s.base? = some base) : p.assign s none = p.place s base := by
  rw [assign, hbase]
  obtain h | h := hs <;> rw [h]

/-- A cell of its own is handed out next to those before it. -/
theorem Served.cell {rs : List Request} {p p' : Planner} {s : Segment} {base a : Address}
    (h : Served rs p) (hs : isOwned s) (hbase : s.base? = some base)
    (ha : p.assign s none = .ok (a, p')) :
    a = base + demand rs s ∧ Served (rs ++ [Request.cell s]) p' ∧ Kept p p' := by
  rw [assign_of_owned hs hbase, place_eq_ok] at ha
  obtain ⟨hlt, rfl, rfl⟩ := ha
  refine ⟨by rw [h.count], ⟨fun s' => ?_, ?_, fun s' => ?_, fun type => ?_⟩, ⟨rfl, rfl⟩⟩
  · rw [count_countOne, demand_cell, h.count]
  · have hliterals : literals (rs ++ [Request.cell s]) = literals rs := by
      simp [literals]
    rw [hliterals]
    exact h.constants
  · rw [demand_cell, ← h.count]
    by_cases hs' : s = s'
    · subst hs'
      simp only [if_true]
      omega
    · simp only [if_neg hs', h.count]
      exact h.fits s'
  · have hne : s ≠ ⟨.constant, type⟩ := by
      rintro rfl
      obtain h | h := hs <;> cases h
    simp [h.plain type, hne.symm]

/-- A cell of its own is handed out if it fits. -/
theorem Served.cell_of_fits {rs : List Request} {p : Planner} {s : Segment} {base : Address}
    (h : Served rs p) (hs : isOwned s) (hbase : s.base? = some base)
    (hfits : Fits (rs ++ [Request.cell s])) : ∃ a p', p.assign s none = .ok (a, p') := by
  have hlt : p.count s < Segment.size := by
    have hle := hfits s
    rw [demand_cell, if_pos rfl, ← h.count] at hle
    omega
  rw [assign_of_owned hs hbase]
  exact ⟨_, _, place_eq_ok.mpr ⟨hlt, rfl, rfl⟩⟩

/-- The segment of a literal is in the layout. -/
theorem base?_literal (l : Literal) :
    Segment.base? ⟨.constant, l.type⟩ = some (Constant.base l.type) := by
  cases l <;> rfl

/-- A literal is found under its address, or put behind the others. -/
theorem constant_eq (p : Planner) (l : Literal) :
    p.constant l = match p.constants.find? fun c => c.literal == l with
      | some c => .ok (c.address, p)
      | none => p.place ⟨.constant, l.type⟩ (Constant.base l.type) >>= fun r =>
        .ok (r.1, { r.2 with constants := r.2.constants.push ⟨r.1, l⟩ }) := by
  simp only [constant, assign, base?_literal, placeLiteral, ne_eq, not_true_eq_false, if_false]
  cases p.constants.find? fun c => c.literal == l <;> rfl

/-- The demand for literals is the number of different ones. -/
theorem Served.count_constant {rs : List Request} {p : Planner} (h : Served rs p)
    (type : ValueType) :
    p.count ⟨.constant, type⟩ = (literals rs).eraseDups.countP fun m => m.type = type := by
  have hcell : rs.count (.cell ⟨.constant, type⟩) = 0 := List.count_eq_zero.mpr (h.plain type)
  rw [h.count, demand, hcell, Nat.zero_add]
  congr 1
  funext m
  simp [eq_comm]

/-- A literal is known to a planner exactly if it was asked for. -/
theorem Served.find?_eq_none {rs : List Request} {p : Planner} (h : Served rs p) {l : Literal} :
    (p.constants.find? fun c => c.literal == l) = none ↔ l ∉ literals rs := by
  have hmem : l ∈ literals rs ↔ ∃ c ∈ p.constants, c.literal = l := by
    rw [← List.mem_eraseDups, ← Constant.map_literal_number [] (literals rs).eraseDups,
      ← h.constants]
    simp
  rw [hmem]
  simp

/-- A literal is handed out next to those before it, unless it has a cell. -/
theorem Served.literal {rs : List Request} {p p' : Planner} {l : Literal} {a : Address}
    (h : Served rs p) (ha : p.constant l = .ok (a, p')) :
    ⟨a, l⟩ ∈ p'.constants ∧ Served (rs ++ [Request.literal l]) p' ∧ Kept p p' := by
  have hliterals : literals (rs ++ [Request.literal l]) = literals rs ++ [l] := by
    simp [literals]
  have hplain (type : ValueType) : Request.cell ⟨.constant, type⟩ ∉ rs ++ [Request.literal l] := by
    simp [h.plain type]
  rw [constant_eq] at ha
  cases hfind : p.constants.find? fun c => c.literal == l with
  | some c =>
    have hmem : l ∈ literals rs := by
      by_cases hmem : l ∈ literals rs
      · exact hmem
      · rw [h.find?_eq_none.mpr hmem] at hfind
        cases hfind
    rw [hfind] at ha
    cases ha
    have hc : c.literal = l := by simpa using Array.find?_some hfind
    refine ⟨?_, ⟨fun s => ?_, ?_, fun s => ?_, hplain⟩, .refl p⟩
    · rw [← hc]
      exact Array.mem_of_find?_eq_some hfind
    · rw [demand_literal_of_mem hmem, h.count]
    · rw [hliterals, eraseDups_append_of_mem hmem]
      exact h.constants
    · rw [demand_literal_of_mem hmem]
      exact h.fits s
  | none =>
    have hmem := h.find?_eq_none.mp hfind
    rw [hfind] at ha
    obtain ⟨⟨a', p₁⟩, hplace, ha⟩ := Except.bind_eq_ok.mp ha
    obtain ⟨hlt, rfl, rfl⟩ := place_eq_ok.mp hplace
    cases ha
    refine ⟨by simp, ⟨fun s => ?_, ?_, fun s => ?_, hplain⟩, ⟨rfl, rfl⟩⟩
    · rw [demand_literal_of_not_mem hmem, ← h.count]
      refine (count_countOne p ⟨.constant, l.type⟩ s).trans ?_
      simp only [eq_comm]
    · rw [hliterals, eraseDups_append_of_not_mem hmem, Constant.number_append, ← h.constants,
        h.count_constant]
      simp [Constant.number]
    · rw [demand_literal_of_not_mem hmem, ← h.count]
      by_cases hs : s = ⟨.constant, l.type⟩
      · subst hs
        simp only [if_true]
        omega
      · simp only [if_neg hs, h.count]
        exact h.fits s

/-- A literal is handed out if it fits. -/
theorem Served.literal_of_fits {rs : List Request} {p : Planner} {l : Literal} (h : Served rs p)
    (hfits : Fits (rs ++ [Request.literal l])) : ∃ a p', p.constant l = .ok (a, p') := by
  rw [constant_eq]
  cases hfind : p.constants.find? fun c => c.literal == l with
  | some c => exact ⟨_, _, rfl⟩
  | none =>
    have hlt : p.count ⟨.constant, l.type⟩ < Segment.size := by
      have hle := hfits ⟨.constant, l.type⟩
      rw [demand_literal_of_not_mem (h.find?_eq_none.mp hfind), if_pos rfl, ← h.count] at hle
      omega
    rw [place_eq_ok.mpr ⟨hlt, rfl, rfl⟩]
    exact ⟨_, _, rfl⟩

end Planner

end Quadlet
