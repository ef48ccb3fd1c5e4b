import Quadlet.Proofs.Object.Text
import Quadlet.Proofs.Static.Cells

/-!
# The books of a planner

A planner is told to hand out cells, to enter functions and to leave them, in any order, and some
of its orders fail. Beside it books are kept of what was handed out. Main statement: the books
always balance, that is, no cell is handed out twice, none is left out, and the planner's own
counts are those of the books.
-/

namespace Quadlet

open Syntax

namespace Planner

/-! ## Orders -/

/-- What a planner is told to do. -/
inductive Order where
  | assign (s : Segment) (literal : Option Literal)
  | constant (l : Literal)
  | enter (function : Address)
  | leave
  deriving DecidableEq

/-- A cell that was handed out. -/
structure Grant where
  /-- The segment that was asked for. -/
  segment : Segment
  /-- The literal that was asked for. -/
  literal : Option Literal
  /-- The function that was entered. -/
  function : Option Address
  address : Address
  deriving DecidableEq

/-- The function that a cell belongs to; none if it lives as long as the program. -/
def Grant.owner (g : Grant) : Option Address := if g.segment.isLocal then g.function else none

/-- The constant that a cell of a literal is for. -/
def Grant.constant? (g : Grant) : Option Constant :=
  if g.segment.lifetime = .constant then g.literal.map fun l => ⟨g.address, l⟩ else none

/-- A planner and what was seen from outside while it followed orders. -/
structure Books where
  planner : Planner
  /-- The function that was entered last and was not left. -/
  active : Option Address
  /-- The functions that were entered, once for each time. -/
  entered : List Address
  /-- The cells that were handed out, in order. -/
  grants : List Grant

namespace Books

/-- Books without entries. -/
def blank : Books := ⟨.empty, none, [], []⟩

/-- Writes down the answer to an order for a cell; an order that fails leaves no trace. -/
def receive (b : Books) (s : Segment) (literal : Option Literal) :
    Except Error (Address × Planner) → Books
  | .ok (a, p) => { b with planner := p, grants := b.grants ++ [⟨s, literal, b.active, a⟩] }
  | .error _ => b

/-- Lets the planner follow an order. -/
def follow (b : Books) : Order → Books
  | .assign s literal => b.receive s literal (b.planner.assign s literal)
  | .constant l => b.receive ⟨.constant, l.type⟩ (some l) (b.planner.constant l)
  | .enter f =>
    { b with planner := b.planner.enter f, active := some f, entered := b.entered ++ [f] }
  | .leave => { b with planner := b.planner.leave, active := none }

/-- The books behind some orders. -/
def after (orders : List Order) : Books := orders.foldl follow blank

/-- The addresses that were handed out in a segment for an owner, in order. -/
def cells (b : Books) (s : Segment) (owner : Option Address) : List Address :=
  (b.grants.filter fun g => g.segment = s ∧ g.owner = owner).map Grant.address

/-- The number of different cells that were handed out in a segment for an owner. -/
def size (b : Books) (s : Segment) (owner : Option Address) : Nat :=
  (b.cells s owner).eraseDups.length

/-- The constants that cells were handed out for. -/
def constants (b : Books) : List Constant := (b.grants.filterMap Grant.constant?).eraseDups

/-- The owner of the next cell of a segment. -/
def owner (b : Books) (s : Segment) : Option Address := if s.isLocal then b.active else none

end Books

/-! ## One cell -/

/-- The ways in which a planner hands out a cell, with the planner behind it. -/
inductive Assigned (p : Planner) (s : Segment) (literal : Option Literal) :
    Address → Planner → Prop where
  /-- The next cell of a segment of variables or results. -/
  | owned {base : Address} (hbase : s.base? = some base) (hs : isOwned s)
    (hfree : p.count s < Segment.size) :
    Assigned p s literal (base + p.count s) { p with used := countOne s p.used }
  /-- The next cell of the function that is entered. -/
  | placed {base : Address} (hbase : s.base? = some base) (hs : s.lifetime = .call) {f : FrameSize}
    (hf : (p.current.bind fun id => p.frames.find? fun f => f.function == id) = some f)
    (hfree : frameCount f s.type < Segment.size) :
    Assigned p s literal (base + frameCount f s.type)
      { p with
        frames :=
          p.frames.map fun g => if g.function = f.function then frameCountOne g s.type else g }
  /-- The cell that a literal has. -/
  | known {l : Literal} (hs : s = ⟨.constant, l.type⟩) (hl : literal = some l) {c : Constant}
    (hc : c ∈ p.constants) (hcl : c.literal = l) : Assigned p s literal c.address p
  /-- The next cell of a segment of literals. -/
  | interned {base : Address} (hbase : s.base? = some base) {l : Literal}
    (hs : s = ⟨.constant, l.type⟩) (hl : literal = some l) (hnew : ∀ c ∈ p.constants, c.literal ≠ l)
    (hfree : p.count s < Segment.size) :
    Assigned p s literal (base + p.count s)
      { p with used := countOne s p.used, constants := p.constants.push ⟨base + p.count s, l⟩ }

/-- A cell of a function is handed out exactly if one is entered and has a cell left. -/
theorem placeLocal_eq_ok {p p' : Planner} {s : Segment} {base a : Address} :
    p.placeLocal s base = .ok (a, p') ↔
      ∃ f, (p.current.bind fun id => p.frames.find? fun f => f.function == id) = some f ∧
        frameCount f s.type < Segment.size ∧ a = base + frameCount f s.type ∧
        p' = { p with
          frames :=
  p.frames.map fun g => if g.function = f.function then frameCountOne g s.type else g } := by
  rw [placeLocal]
  cases p.current.bind fun id => p.frames.find? fun f => f.function == id with
  | none => simp
  | some f =>
    by_cases hfree : frameCount f s.type < Segment.size
    · simp [hfree, eq_comm]
    · simp [hfree]

/-- A cell that is handed out is handed out in one of these ways. -/
theorem assigned_of_assign {p p' : Planner} {s : Segment} {literal : Option Literal} {a : Address}
    (h : p.assign s literal = .ok (a, p')) : Assigned p s literal a p' := by
  obtain ⟨lifetime, type⟩ := s
  rw [assign] at h
  cases hbase : Segment.base? ⟨lifetime, type⟩ with
  | none =>
    rw [hbase] at h
    cases h
  | some base =>
    rw [hbase] at h
    cases lifetime with
    | global =>
      obtain ⟨hfree, rfl, rfl⟩ := place_eq_ok.mp h
      exact .owned hbase (.inl rfl) hfree
    | temporary =>
      obtain ⟨hfree, rfl, rfl⟩ := place_eq_ok.mp h
      exact .owned hbase (.inr rfl) hfree
    | call =>
      obtain ⟨f, hf, hfree, rfl, rfl⟩ := placeLocal_eq_ok.mp h
      exact .placed hbase rfl hf hfree
    | constant =>
      cases literal with
      | none => cases h
      | some l =>
        by_cases htype : l.type = type
        · subst htype
          have hplace : p.constant l = .ok (a, p') := by
            rw [constant, assign, hbase]
            exact h
          rw [constant_eq] at hplace
          cases hfind : p.constants.find? fun c => c.literal == l with
          | some c =>
            rw [hfind] at hplace
            cases hplace
            exact .known rfl rfl (Array.mem_of_find?_eq_some hfind)
              (by simpa using Array.find?_some hfind)
          | none =>
            rw [hfind] at hplace
            obtain ⟨⟨a', p₁⟩, hnext, hplace⟩ := Except.bind_eq_ok.mp hplace
            obtain ⟨hfree, rfl, rfl⟩ := place_eq_ok.mp hnext
            cases hplace
            obtain rfl : base = Constant.base l.type :=
              Option.some.inj (hbase.symm.trans (base?_literal l))
            exact .interned hbase rfl rfl (by simpa using hfind) hfree
        · simp [placeLiteral, htype] at h

/-- A cell that can be handed out in one of these ways is handed out. -/
theorem Assigned.exists_ok {p p' : Planner} {s : Segment} {literal : Option Literal} {a : Address}
    (h : Assigned p s literal a p') : ∃ r, p.assign s literal = .ok r := by
  cases h with
  | owned hbase hs hfree =>
    rw [assign, hbase]
    obtain hs | hs := hs
    all_goals
      rw [hs]
      exact ⟨_, place_eq_ok.mpr ⟨hfree, rfl, rfl⟩⟩
  | placed hbase hs hf hfree =>
    rw [assign, hbase, hs]
    exact ⟨_, placeLocal_eq_ok.mpr ⟨_, hf, hfree, rfl, rfl⟩⟩
  | @known l hs hl c hc hcl =>
    subst hs hl
    have hassign : p.assign ⟨.constant, l.type⟩ (some l) = p.constant l := rfl
    rw [hassign, constant_eq]
    cases hfind : p.constants.find? fun c => c.literal == l with
    | some c => exact ⟨_, rfl⟩
    | none =>
      have hnone : ∀ c ∈ p.constants, c.literal ≠ l := by simpa using hfind
      exact absurd hcl (hnone c hc)
  | @interned base hbase l hs hl hnew hfree =>
    subst hs hl
    have hassign : p.assign ⟨.constant, l.type⟩ (some l) = p.constant l := rfl
    have hfind : (p.constants.find? fun c => c.literal == l) = none := by simpa using hnew
    rw [hassign, constant_eq, hfind, place_eq_ok.mpr ⟨hfree, rfl, rfl⟩]
    exact ⟨_, rfl⟩

/-- A cell is refused exactly if there is no way to hand it out. -/
theorem assign_eq_error_iff {p : Planner} {s : Segment} {literal : Option Literal} :
    (∃ e, p.assign s literal = .error e) ↔ ¬∃ a p', Assigned p s literal a p' := by
  constructor
  · rintro ⟨e, he⟩ ⟨a, p', hassigned⟩
    obtain ⟨r, hr⟩ := hassigned.exists_ok
    cases he.symm.trans hr
  · intro hnone
    cases hassign : p.assign s literal with
    | error e => exact ⟨e, rfl⟩
    | ok r => exact absurd ⟨r.1, r.2, assigned_of_assign hassign⟩ hnone

/-! ## Numbered cells -/

private theorem nodup_eraseDups {α : Type} [DecidableEq α] (xs : List α) : xs.eraseDups.Nodup := by
  induction xs using List.reverseRecOn with
  | nil => exact List.nodup_nil
  | append_singleton xs x ih =>
    by_cases h : x ∈ xs
    · rw [Request.eraseDups_append_of_mem h]
      exact ih
    · rw [Request.eraseDups_append_of_not_mem h, ← List.concat_eq_append, List.nodup_concat,
        List.mem_eraseDups]
      exact ⟨h, ih⟩

/-- Addresses that are, but for repetitions, the first ones from a base on, in order. -/
def Numbered (base : Address) (n : Nat) (xs : List Address) : Prop :=
  xs.eraseDups = (List.range n).map fun i : Nat => base + i

namespace Numbered

variable {base a : Address} {n : Nat} {xs : List Address}

private theorem nil (base : Address) : Numbered base 0 [] := rfl

private theorem mem_iff (h : Numbered base n xs) : a ∈ xs ↔ ∃ i < n, base + (i : Int) = a := by
  rw [← List.mem_eraseDups, h]
  simp

/-- The next address is new. -/
theorem not_mem (h : Numbered base n xs) : base + (n : Int) ∉ xs := by
  rw [h.mem_iff]
  rintro ⟨i, hi, heq⟩
  have hin : (i : Int) = n := Int.add_left_cancel heq
  omega

/-- The next address is put behind the others. -/
theorem next (h : Numbered base n xs) : Numbered base (n + 1) (xs ++ [base + (n : Int)]) := by
  rw [Numbered, Request.eraseDups_append_of_not_mem h.not_mem, h, List.range_succ, List.map_append,
    List.map_singleton]

/-- An address may come again. -/
theorem again (h : Numbered base n xs) (ha : a ∈ xs) : Numbered base n (xs ++ [a]) := by
  rw [Numbered, Request.eraseDups_append_of_mem ha, h]

private theorem length_eraseDups (h : Numbered base n xs) : xs.eraseDups.length = n := by
  rw [h, List.length_map, List.length_range]

private theorem numbered_length (h : Numbered base n xs) :
    Numbered base xs.eraseDups.length xs := by
  rw [h.length_eraseDups]
  exact h

end Numbered

/-! ## Books and planner agree -/

namespace Books

/-- The planner has counted what the books say. -/
structure Faithful (b : Books) : Prop where
  current : b.planner.current = b.active
  active : ∀ f ∈ b.active, f ∈ b.entered
  frames : b.planner.frames.map FrameSize.function = b.entered.eraseDups
  /-- Cells of calls are handed out for functions that were entered. -/
  owners : ∀ g ∈ b.grants, g.segment.isLocal = true → ∃ f ∈ b.entered, g.function = some f
  inside : ∀ g ∈ b.grants, Segment.ofAddress? g.address = some g.segment
  wide : ∀ {s base}, s.isLocal = false → s.base? = some base →
    Numbered base (b.planner.count s) (b.cells s none)
  locals : ∀ f ∈ b.planner.frames, ∀ {τ base}, Segment.base? ⟨.call, τ⟩ = some base →
    Numbered base (frameCount f τ) (b.cells ⟨.call, τ⟩ (some f.function))
  distinct : ∀ s owner, s.lifetime ≠ .constant → (b.cells s owner).Nodup
  /-- Cells of constants are handed out for literals of their type. -/
  literals : ∀ g ∈ b.grants, g.segment.lifetime = .constant →
    ∃ l, g.literal = some l ∧ g.segment = ⟨.constant, l.type⟩
  constants : b.planner.constants.toList = b.constants
  /-- No literal has two cells. -/
  different : (b.planner.constants.toList.map Constant.literal).Nodup
  /-- No cell has two literals. -/
  apart : (b.planner.constants.toList.map Constant.address).Nodup

/-- The books with one more cell. -/
def grant (b : Books) (s : Segment) (literal : Option Literal) (a : Address) (p : Planner) :
    Books :=
  { b with planner := p, grants := b.grants ++ [⟨s, literal, b.active, a⟩] }

private theorem cells_grant (b : Books) (s : Segment) (literal : Option Literal) (a : Address)
    (p : Planner) (s' : Segment) (owner : Option Address) : (b.grant s literal a p).cells s' owner =
      b.cells s' owner ++ if s = s' ∧ b.owner s = owner then [a] else [] := by
  rw [cells, grant, List.filter_append, List.map_append, List.filter_singleton]
  by_cases h : s = s' ∧ b.owner s = owner
  · have hg : s = s' ∧ Grant.owner ⟨s, literal, b.active, a⟩ = owner := h
    rw [if_pos h, decide_eq_true hg]
    rfl
  · have hg : ¬(s = s' ∧ Grant.owner ⟨s, literal, b.active, a⟩ = owner) := h
    rw [if_neg h, decide_eq_false hg]
    rfl

private theorem cells_grant_of_ne (b : Books) {s s' : Segment} (hs : s ≠ s')
    (literal : Option Literal) (a : Address) (p : Planner) (owner : Option Address) :
    (b.grant s literal a p).cells s' owner = b.cells s' owner := by
  rw [cells_grant, if_neg fun hcell => hs hcell.1, List.append_nil]

private theorem constants_grant_of_ne {b : Books} {s : Segment} (hs : s.lifetime ≠ .constant)
    (literal : Option Literal) (a : Address) (p : Planner) :
    (b.grant s literal a p).constants = b.constants := by
  have hnone : Grant.constant? ⟨s, literal, b.active, a⟩ = none := by simp [Grant.constant?, hs]
  rw [constants, grant, List.filterMap_append, List.filterMap_cons_none hnone, List.filterMap_nil,
    List.append_nil]
  rfl

private theorem constants_grant (b : Books) (l : Literal) (a : Address) (p : Planner) :
    (b.grant ⟨.constant, l.type⟩ (some l) a p).constants =
      (b.grants.filterMap Grant.constant? ++ [(⟨a, l⟩ : Constant)]).eraseDups := by
  rw [constants, grant, List.filterMap_append]
  rfl

/-- What has to be known of a cell and of the planner behind it. -/
theorem Faithful.grant {b : Books} (h : b.Faithful) {s : Segment} {literal : Option Literal}
    {a : Address} {p : Planner} (hcurrent : p.current = b.planner.current)
    (hframes : p.frames.map FrameSize.function = b.planner.frames.map FrameSize.function)
    (howner : s.isLocal = true → b.active ≠ none) (hinside : Segment.ofAddress? a = some s)
    (hwide : ∀ {s' base}, s'.isLocal = false → s'.base? = some base →
      Numbered base (p.count s') ((b.grant s literal a p).cells s' none))
    (hlocals : ∀ f ∈ p.frames, ∀ {τ base}, Segment.base? ⟨.call, τ⟩ = some base →
      Numbered base (frameCount f τ) ((b.grant s literal a p).cells ⟨.call, τ⟩ (some f.function)))
    (hnew : s.lifetime ≠ .constant → a ∉ b.cells s (b.owner s))
    (hliteral : s.lifetime = .constant → ∃ l, literal = some l ∧ s = ⟨.constant, l.type⟩)
    (hconstants : p.constants.toList = (b.grant s literal a p).constants)
    (hdifferent : (p.constants.toList.map Constant.literal).Nodup)
    (hapart : (p.constants.toList.map Constant.address).Nodup) :
    (b.grant s literal a p).Faithful := by
  refine ⟨hcurrent.trans h.current, h.active, hframes.trans h.frames, ?_, ?_, hwide,
    hlocals, ?_, ?_, hconstants, hdifferent, hapart⟩
  · refine List.forall_mem_append.mpr ⟨h.owners, List.forall_mem_singleton.mpr fun hs => ?_⟩
    obtain ⟨f, hf⟩ := Option.ne_none_iff_exists'.mp (howner hs)
    exact ⟨f, h.active f hf, hf⟩
  · exact List.forall_mem_append.mpr ⟨h.inside, List.forall_mem_singleton.mpr hinside⟩
  · intro s' owner hs'
    rw [cells_grant]
    split
    · next hcell =>
      obtain ⟨rfl, rfl⟩ := hcell
      rw [← List.concat_eq_append, List.nodup_concat]
      exact ⟨hnew hs', h.distinct s _ hs'⟩
    · rw [List.append_nil]
      exact h.distinct s' owner hs'
  · exact List.forall_mem_append.mpr ⟨h.literals, List.forall_mem_singleton.mpr hliteral⟩

private theorem owner_of_not_local (b : Books) {s : Segment} (hs : s.isLocal = false) :
    b.owner s = none := by
  rw [owner, hs, if_neg Bool.false_ne_true]

private theorem count_of_used {p q : Planner} {s : Segment} (h : q.used = countOne s p.used)
    (s' : Segment) : q.count s' = p.count s' + if s = s' then 1 else 0 := by
  rw [← count_countOne, count, h]
  rfl

/-- The next cell of a program-wide segment keeps its cells numbered. -/
theorem Faithful.wide_grant {b : Books} (h : b.Faithful) {s : Segment} {base : Address}
    {p : Planner} (hs : s.isLocal = false) (hbase : s.base? = some base) (literal : Option Literal)
    (hused : p.used = countOne s b.planner.used) {s' : Segment} {base' : Address}
    (hs' : s'.isLocal = false) (hbase' : s'.base? = some base') : Numbered base' (p.count s')
      ((b.grant s literal (base + b.planner.count s) p).cells s' none) := by
  rw [count_of_used hused]
  by_cases hsame : s = s'
  · subst hsame
    cases hbase.symm.trans hbase'
    rw [if_pos rfl, cells_grant, if_pos ⟨rfl, b.owner_of_not_local hs⟩]
    exact (h.wide hs hbase).next
  · rw [cells_grant_of_ne b hsame, if_neg hsame]
    exact h.wide hs' hbase'

/-- A cell of a call is none of a program-wide segment. -/
theorem ne_call_of_not_local {s : Segment} (hs : s.isLocal = false) (τ : ValueType) :
    s ≠ ⟨.call, τ⟩ := by
  rintro rfl
  cases hs

private theorem isLocal_of_isOwned {s : Segment} (hs : isOwned s) : s.isLocal = false := by
  obtain hs | hs := hs <;> simp [Segment.isLocal, hs]

private theorem Faithful.owned {b : Books} (h : b.Faithful) {s : Segment} {base : Address}
    (hbase : s.base? = some base) (hs : isOwned s) (hfree : b.planner.count s < Segment.size)
    (literal : Option Literal) : (b.grant s literal (base + b.planner.count s)
      { b.planner with used := countOne s b.planner.used }).Faithful := by
  have hlocal := isLocal_of_isOwned hs
  have hconstant : s.lifetime ≠ .constant := by
    obtain hs | hs := hs <;> simp [hs]
  refine h.grant rfl rfl (by simp [hlocal]) ?_ (h.wide_grant hlocal hbase literal rfl) ?_
    (fun _ => ?_) (fun hs => absurd hs hconstant) ?_ h.different h.apart
  · rw [Segment.ofAddress?, Segment.locate?_base hbase hfree]
    rfl
  · intro f hf τ base' hbase'
    rw [cells_grant_of_ne b (ne_call_of_not_local hlocal τ)]
    exact h.locals f hf hbase'
  · rw [b.owner_of_not_local hlocal]
    exact (h.wide hlocal hbase).not_mem
  · rw [constants_grant_of_ne hconstant]
    exact h.constants

/-- The function that is entered has a frame. -/
theorem Faithful.active_frame {b : Books} (h : b.Faithful) {f : FrameSize}
    (hf : (b.planner.current.bind fun id => b.planner.frames.find? fun f => f.function == id) =
      some f) : f ∈ b.planner.frames ∧ b.active = some f.function := by
  obtain ⟨id, hid, hfind⟩ := Option.bind_eq_some_iff.mp hf
  have hsame : f.function = id := by simpa using List.find?_some hfind
  exact ⟨List.mem_of_find?_eq_some hfind, by rw [← h.current, hid, hsame]⟩

/-- A function has one frame. -/
theorem Faithful.frame_unique {b : Books} (h : b.Faithful) {f g : FrameSize}
    (hf : f ∈ b.planner.frames) (hg : g ∈ b.planner.frames) (hsame : g.function = f.function) :
    g = f := by
  have hnodup : (b.planner.frames.map FrameSize.function).Nodup := by
    rw [h.frames]
    exact nodup_eraseDups _
  exact List.inj_on_of_nodup_map hnodup hg hf hsame

/-- Calls have cells for numbers only. -/
theorem numeric_of_base? {τ : ValueType} {base : Address}
    (h : Segment.base? ⟨.call, τ⟩ = some base) : τ = .int ∨ τ = .float := by
  cases τ with
  | int => exact .inl rfl
  | float => exact .inr rfl
  | _ => cases h

/-- One more cell of a function is counted under its type. -/
theorem frameCount_frameCountOne (f : FrameSize) {type τ : ValueType}
    (htype : type = .int ∨ type = .float) (hτ : τ = .int ∨ τ = .float) :
    frameCount (frameCountOne f type) τ = frameCount f τ + if type = τ then 1 else 0 := by
  rcases htype with rfl | rfl <;> rcases hτ with rfl | rfl <;> rfl

private theorem function_frameCountOne (f : FrameSize) (type : ValueType) :
    (frameCountOne f type).function = f.function := by
  rw [frameCountOne]
  split <;> rfl

/-- The frames with one more cell counted for a function. -/
abbrev countIn (frames : List FrameSize) (f : FrameSize) (type : ValueType) : List FrameSize :=
  frames.map fun g => if g.function = f.function then frameCountOne g type else g

private theorem map_function_countIn (frames : List FrameSize) (f : FrameSize) (type : ValueType) :
    (countIn frames f type).map FrameSize.function = frames.map FrameSize.function := by
  rw [List.map_map]
  apply List.map_congr_left
  intro g _
  rw [Function.comp_apply]
  split
  · exact function_frameCountOne g type
  · rfl

/-- The next cell of the function that is entered keeps its cells numbered. -/
theorem Faithful.placed {b : Books} (h : b.Faithful) {s : Segment} {base : Address}
    (hbase : s.base? = some base) (hs : s.lifetime = .call) {f : FrameSize}
    (hf : (b.planner.current.bind fun id => b.planner.frames.find? fun f => f.function == id) =
      some f)
    (hfree : frameCount f s.type < Segment.size) (literal : Option Literal) :
    (b.grant s literal (base + frameCount f s.type)
      { b.planner with frames := countIn b.planner.frames f s.type }).Faithful := by
  obtain ⟨lifetime, type⟩ := s
  cases hs
  obtain ⟨hmem, hactive⟩ := h.active_frame hf
  have howner : b.owner ⟨.call, type⟩ = some f.function := hactive
  have htype := numeric_of_base? hbase
  have hnumbered := h.locals f hmem hbase
  -- A frame behind the step is an old one, or the one that has grown.
  have hframes {g : FrameSize} (hg : g ∈ countIn b.planner.frames f type) :
      g = frameCountOne f type ∨ g ∈ b.planner.frames ∧ g.function ≠ f.function := by
    obtain ⟨g, hold, rfl⟩ := List.mem_map.mp hg
    split
    · next hsame => exact .inl (congrArg (frameCountOne · type) (h.frame_unique hmem hold hsame))
    · next hother => exact .inr ⟨hold, hother⟩
  refine h.grant rfl (map_function_countIn ..) (fun _ => by simp [hactive]) ?_ ?_ ?_ (fun _ => ?_)
    (fun hs => by cases hs) ?_ h.different h.apart
  · rw [Segment.ofAddress?, Segment.locate?_base hbase hfree]
    rfl
  · intro s' base' hs' hbase'
    rw [cells_grant_of_ne b (ne_call_of_not_local hs' type).symm]
    exact h.wide hs' hbase'
  · intro g hg τ base' hbase'
    rcases hframes hg with rfl | ⟨hg, hother⟩
    · rw [frameCount_frameCountOne f htype (numeric_of_base? hbase'), function_frameCountOne]
      by_cases hsame : type = τ
      · subst hsame
        cases hbase.symm.trans hbase'
        rw [if_pos rfl, cells_grant, if_pos ⟨rfl, howner⟩]
        exact hnumbered.next
      · rw [if_neg hsame, cells_grant_of_ne b (by simpa using hsame)]
        exact h.locals f hmem hbase'
    · rw [cells_grant, if_neg, List.append_nil]
      · exact h.locals g hg hbase'
      · rintro ⟨-, hsame⟩
        rw [howner] at hsame
        exact hother (Option.some.inj hsame).symm
  · rw [howner]
    exact hnumbered.not_mem
  · rw [constants_grant_of_ne (by simp)]
    exact h.constants

/-- A constant has a cell that was handed out for its literal. -/
theorem Faithful.grant_of_constant {b : Books} (h : b.Faithful) {c : Constant}
    (hc : c ∈ b.planner.constants) :
    ∃ g ∈ b.grants, g.segment = ⟨.constant, c.literal.type⟩ ∧ g.address = c.address := by
  rw [← Array.mem_toList_iff, h.constants, Books.constants, List.mem_eraseDups] at hc
  obtain ⟨g, hg, hgc⟩ := List.mem_filterMap.mp hc
  rw [Grant.constant?] at hgc
  split at hgc
  · next hs =>
    obtain ⟨l, hl, hsegment⟩ := h.literals g hg hs
    rw [hl] at hgc
    cases hgc
    exact ⟨g, hg, hsegment, rfl⟩
  · cases hgc

private theorem mem_cells {b : Books} {g : Grant} (hg : g ∈ b.grants) :
    g.address ∈ b.cells g.segment g.owner :=
  List.mem_map_of_mem (List.mem_filter.mpr ⟨hg, by simp⟩)

/-- The cell of a literal may be handed out again. -/
theorem Faithful.known {b : Books} (h : b.Faithful) {c : Constant} (hc : c ∈ b.planner.constants) :
    (b.grant ⟨.constant, c.literal.type⟩ (some c.literal) c.address b.planner).Faithful := by
  obtain ⟨g, hg, hsegment, haddress⟩ := h.grant_of_constant hc
  have hinside := h.inside g hg
  rw [hsegment, haddress] at hinside
  refine h.grant rfl rfl (fun hs => by cases hs) hinside ?_ ?_ (fun hs => absurd rfl hs)
    (fun _ => ⟨c.literal, rfl, rfl⟩) ?_ h.different h.apart
  · intro s' base' hs' hbase'
    rw [cells_grant]
    split
    · next hsame =>
      obtain ⟨rfl, -⟩ := hsame
      have hmem := mem_cells hg
      have howner : g.owner = none := by
        rw [Grant.owner, hsegment]
        rfl
      rw [hsegment, haddress, howner] at hmem
      exact (h.wide hs' hbase').again hmem
    · rw [List.append_nil]
      exact h.wide hs' hbase'
  · intro f hf τ base' hbase'
    rw [cells_grant_of_ne b (ne_call_of_not_local rfl τ)]
    exact h.locals f hf hbase'
  · have hmem : c ∈ b.grants.filterMap Grant.constant? := by
      rw [← List.mem_eraseDups, ← Books.constants, ← h.constants]
      exact Array.mem_toList_iff.mpr hc
    rw [constants_grant, Request.eraseDups_append_of_mem hmem]
    exact h.constants

/-- A literal that has no cell is given the next one. -/
theorem Faithful.interned {b : Books} (h : b.Faithful) {l : Literal} {base : Address}
    (hbase : Segment.base? ⟨.constant, l.type⟩ = some base)
    (hnew : ∀ c ∈ b.planner.constants, c.literal ≠ l)
    (hfree : b.planner.count ⟨.constant, l.type⟩ < Segment.size) :
    (b.grant ⟨.constant, l.type⟩ (some l) (base + b.planner.count ⟨.constant, l.type⟩)
      { b.planner with
        used := countOne ⟨.constant, l.type⟩ b.planner.used
        constants := b.planner.constants.push
          ⟨base + b.planner.count ⟨.constant, l.type⟩, l⟩ }).Faithful := by
  have hinside : Segment.ofAddress? (base + b.planner.count ⟨.constant, l.type⟩) =
      some ⟨.constant, l.type⟩ := by
    rw [Segment.ofAddress?, Segment.locate?_base hbase hfree]
    rfl
  refine h.grant rfl rfl (fun hs => by cases hs) hinside (h.wide_grant rfl hbase _ rfl) ?_
    (fun hs => absurd rfl hs) (fun _ => ⟨l, rfl, rfl⟩) ?_ ?_ ?_
  · intro f hf τ base' hbase'
    rw [cells_grant_of_ne b (ne_call_of_not_local rfl τ)]
    exact h.locals f hf hbase'
  · rw [constants_grant, Request.eraseDups_append_of_not_mem, ← Books.constants, ← h.constants,
      Array.toList_push]
    rw [← List.mem_eraseDups, ← Books.constants, ← h.constants, Array.mem_toList_iff]
    exact fun hc => hnew _ hc rfl
  · rw [Array.toList_push, List.map_append, List.map_singleton, ← List.concat_eq_append,
      List.nodup_concat]
    refine ⟨fun hl => ?_, h.different⟩
    obtain ⟨c, hc, hcl⟩ := List.mem_map.mp hl
    exact hnew c (Array.mem_toList_iff.mp hc) hcl
  · rw [Array.toList_push, List.map_append, List.map_singleton, ← List.concat_eq_append,
      List.nodup_concat]
    refine ⟨fun ha => ?_, h.apart⟩
    -- A constant at this address would have the segment of the literal, where the address is new.
    obtain ⟨c, hc, hca⟩ := List.mem_map.mp ha
    obtain ⟨g, hg, hsegment, haddress⟩ := h.grant_of_constant (Array.mem_toList_iff.mp hc)
    have hg' := h.inside g hg
    rw [haddress, hca, hinside, Option.some.injEq] at hg'
    have hmem := mem_cells hg
    have howner : g.owner = none := by
      rw [Grant.owner, ← hg']
      rfl
    rw [haddress, hca, howner, ← hg'] at hmem
    exact (h.wide rfl hbase).not_mem hmem

/-! ## All orders -/

private theorem faithful_blank : blank.Faithful := by
  refine ⟨rfl, by simp [blank], rfl, by simp [blank], by simp [blank], fun _ _ => .nil _, ?_,
    fun _ _ _ => List.nodup_nil, by simp [blank], rfl, List.nodup_nil, List.nodup_nil⟩
  intro f hf
  cases hf

/-- A cell that is handed out keeps the books faithful. -/
theorem Faithful.assigned {b : Books} (h : b.Faithful) {s : Segment} {literal : Option Literal}
    {a : Address} {p : Planner} (hp : Assigned b.planner s literal a p) :
    (b.grant s literal a p).Faithful := by
  cases hp with
  | owned hbase hs hfree => exact h.owned hbase hs hfree literal
  | placed hbase hs hf hfree => exact h.placed hbase hs hf hfree literal
  | known hs hl hc hcl =>
    subst hs hl hcl
    exact h.known hc
  | interned hbase hs hl hnew hfree =>
    subst hs hl
    exact h.interned hbase hnew hfree

private theorem Faithful.receive {b : Books} (h : b.Faithful) (s : Segment)
    (literal : Option Literal) : (b.receive s literal (b.planner.assign s literal)).Faithful := by
  cases hassign : b.planner.assign s literal with
  | ok r => exact h.assigned (assigned_of_assign hassign)
  | error e => exact h

/-- A function that was entered before keeps its frame. -/
theorem Faithful.frames_enter_of_mem {b : Books} (h : b.Faithful) {f : Address}
    (hf : f ∈ b.entered) : (b.planner.enter f).frames = b.planner.frames := by
  rw [← List.mem_eraseDups, ← h.frames] at hf
  obtain ⟨g, hg, hgf⟩ := List.mem_map.mp hf
  rw [Planner.enter, if_pos]
  exact List.any_eq_true.mpr ⟨g, hg, by simpa using hgf⟩

/-- A function that was not entered before is given an empty frame. -/
theorem Faithful.frames_enter_of_not_mem {b : Books} (h : b.Faithful) {f : Address}
    (hf : f ∉ b.entered) : (b.planner.enter f).frames = b.planner.frames ++ [⟨f, 0, 0⟩] := by
  rw [← List.mem_eraseDups, ← h.frames] at hf
  rw [Planner.enter, if_neg]
  intro hany
  obtain ⟨g, hg, hgf⟩ := List.any_eq_true.mp hany
  exact hf (List.mem_map.mpr ⟨g, hg, by simpa using hgf⟩)

/-- No cell was handed out for a function that was not entered. -/
theorem Faithful.cells_of_not_mem {b : Books} (h : b.Faithful) {f : Address} (hf : f ∉ b.entered)
    (s : Segment) : b.cells s (some f) = [] := by
  rw [cells, List.map_eq_nil_iff, List.filter_eq_nil_iff]
  intro g hg hcell
  obtain ⟨-, howner⟩ := of_decide_eq_true hcell
  rw [Grant.owner] at howner
  split at howner
  · next hlocal =>
    obtain ⟨f', hf', heq⟩ := h.owners g hg hlocal
    cases heq.symm.trans howner
    exact hf hf'
  · cases howner

private theorem Faithful.enter {b : Books} (h : b.Faithful) (f : Address) :
    (b.follow (.enter f)).Faithful := by
  have howners : ∀ g ∈ b.grants, g.segment.isLocal = true →
      ∃ f' ∈ b.entered ++ [f], g.function = some f' := by
    intro g hg hlocal
    obtain ⟨f', hf', heq⟩ := h.owners g hg hlocal
    exact ⟨f', List.mem_append_left _ hf', heq⟩
  refine ⟨rfl, ?_, ?_, howners, h.inside, h.wide, ?_, h.distinct, h.literals, h.constants,
    h.different, h.apart⟩
  · intro f' hf'
    cases hf'
    exact List.mem_append_right _ (List.mem_singleton_self f)
  · by_cases hf : f ∈ b.entered
    · exact (congrArg _ (h.frames_enter_of_mem hf)).trans
        (h.frames.trans (Request.eraseDups_append_of_mem hf).symm)
    · refine (congrArg _ (h.frames_enter_of_not_mem hf)).trans ?_
      rw [List.map_append, h.frames]
      exact (Request.eraseDups_append_of_not_mem hf).symm
  · intro g hg τ base hbase
    change g ∈ (b.planner.enter f).frames at hg
    by_cases hf : f ∈ b.entered
    · rw [h.frames_enter_of_mem hf] at hg
      exact h.locals g hg hbase
    · rw [h.frames_enter_of_not_mem hf] at hg
      rcases List.mem_append.mp hg with hg | hg
      · exact h.locals g hg hbase
      · rw [List.mem_singleton.mp hg]
        have hcells : b.cells ⟨.call, τ⟩ (some f) = [] := h.cells_of_not_mem hf _
        rcases numeric_of_base? hbase with rfl | rfl
        all_goals
          change Numbered base 0 (b.cells _ (some f))
          rw [hcells]
          exact .nil base

private theorem Faithful.leave {b : Books} (h : b.Faithful) : (b.follow .leave).Faithful :=
  ⟨rfl, by simp [follow], h.frames, h.owners, h.inside, h.wide, h.locals, h.distinct, h.literals,
    h.constants, h.different, h.apart⟩

/-- One order keeps the books faithful. -/
theorem Faithful.follow {b : Books} (h : b.Faithful) (o : Order) : (b.follow o).Faithful := by
  cases o with
  | assign s literal => exact h.receive s literal
  | constant l => exact h.receive _ _
  | enter f => exact h.enter f
  | leave => exact h.leave

private theorem faithful_after (orders : List Order) : (after orders).Faithful := by
  have hall {b : Books} (h : b.Faithful) : (orders.foldl Books.follow b).Faithful := by
    induction orders generalizing b with
    | nil => exact h
    | cons o orders ih => exact ih (h.follow o)
  exact hall faithful_blank

/-! ## What the books say -/

/-- The books balance: what was handed out is in order, and the planner's own records
are those of the books. -/
structure Balanced (b : Books) : Prop where
  /-- Every address lies in the segment that was asked for. -/
  inside : ∀ g ∈ b.grants, Segment.ofAddress? g.address = some g.segment
  /-- No cell of a variable or of a result is handed out twice to one owner. -/
  distinct : ∀ s owner, s.lifetime ≠ .constant → (b.cells s owner).Nodup
  /-- Cells are handed out one behind the other from the base of their segment on. -/
  consecutive : ∀ s owner base, s.base? = some base →
    Numbered base (b.size s owner) (b.cells s owner)
  /-- Literals share a cell exactly if they have one type and one text. -/
  interned : ∀ g ∈ b.grants, ∀ h ∈ b.grants, g.segment.lifetime = .constant →
    h.segment.lifetime = .constant → ∃ l m, g.literal = some l ∧ h.literal = some m ∧
      (g.address = h.address ↔ l.type = m.type ∧ l.key = m.key)
  /-- The planner lists every literal once, in order, at its address. -/
  constants : b.planner.constants.toList = b.constants ∧ (b.constants.map Constant.literal).Nodup
  /-- The planner reports how many different cells of a program-wide segment were handed out. -/
  segments : b.planner.memoryMap.segments = Segment.programWide.map fun s => ⟨s, b.size s none⟩
  /-- The planner reports how many different cells were handed out for each
  function that was entered. -/
  functions : b.planner.memoryMap.functions = b.entered.eraseDups.map fun f =>
    ⟨f, b.size ⟨.call, .int⟩ (some f), b.size ⟨.call, .float⟩ (some f)⟩
  /-- A cell is refused exactly if there is no such segment, if the literal of a constant is missing
  or of another type, if no function is entered for a cell of a call, or if all cells are handed out
  and none of them is the literal's. -/
  refuses : ∀ s literal, (∃ e, b.planner.assign s literal = .error e) ↔
    s ∉ Segment.layout ∨
    s.lifetime = .constant ∧ (∀ l, literal = some l → l.type ≠ s.type) ∨
    s.lifetime = .call ∧ b.active = none ∨
    Segment.size ≤ b.size s (b.owner s) ∧
      ¬(s.lifetime = .constant ∧ ∃ c ∈ b.constants, literal = some c.literal)

/-- There is a cell to hand out: the segment exists, the literal is of its type, a function is
entered, and a cell is left or the literal has one. -/
def Available (b : Books) (s : Segment) (literal : Option Literal) : Prop :=
  s ∈ Segment.layout ∧ (s.lifetime = .constant → ∃ l, literal = some l ∧ l.type = s.type) ∧
    (s.lifetime = .call → b.active ≠ none) ∧
    (b.size s (b.owner s) < Segment.size ∨
      s.lifetime = .constant ∧ ∃ c ∈ b.constants, literal = some c.literal)

private theorem mem_layout {s : Segment} {base : Address} (h : s.base? = some base) :
    s ∈ Segment.layout := by
  obtain ⟨i, hi, -⟩ := Option.map_eq_some_iff.mp h
  exact List.isSome_idxOf?.mp (Option.isSome_of_eq_some hi)

private theorem exists_base? {s : Segment} (hs : s ∈ Segment.layout) :
    ∃ base, s.base? = some base := by
  have hsome : (Segment.layout.idxOf? s).isSome = true := by simpa using hs
  obtain ⟨i, hi⟩ := Option.isSome_iff_exists.mp hsome
  exact ⟨_, by rw [Segment.base?, hi]; rfl⟩

/-- A literal is told by its type and its text. -/
theorem literal_eq_iff {l m : Literal} : l = m ↔ l.type = m.type ∧ l.key = m.key := by
  constructor
  · rintro rfl
    exact ⟨rfl, rfl⟩
  · rintro ⟨htype, hkey⟩
    have hread := ObjectFile.readLiteral_literalText l
    have hread' := ObjectFile.readLiteral_literalText m
    rw [htype] at hread
    have htext : l.key.toList = m.key.toList := congrArg String.toList hkey
    cases l with
    | string s =>
      cases m with
      | string s' => exact congrArg Literal.string hkey
      | _ => cases htype
    | int n =>
      cases m with
      | int k => exact Except.ok.inj (hread.symm.trans ((congrArg _ htext).trans hread'))
      | _ => cases htype
    | float x =>
      cases m with
      | float y => exact Except.ok.inj (hread.symm.trans ((congrArg _ htext).trans hread'))
      | _ => cases htype

namespace Faithful

variable {b : Books} (h : b.Faithful)

include h

private theorem size_wide {s : Segment} {base : Address} (hs : s.isLocal = false)
    (hbase : s.base? = some base) :
    b.size s none = b.planner.count s := (h.wide hs hbase).length_eraseDups

private theorem size_local {f : FrameSize} (hf : f ∈ b.planner.frames) {τ : ValueType}
    {base : Address} (hbase : Segment.base? ⟨.call, τ⟩ = some base) :
    b.size ⟨.call, τ⟩ (some f.function) = frameCount f τ :=
  (h.locals f hf hbase).length_eraseDups

/-- A function was entered exactly if it has a frame. -/
theorem mem_entered {f : Address} : f ∈ b.entered ↔ ∃ g ∈ b.planner.frames, g.function = f := by
  rw [← List.mem_eraseDups, ← h.frames, List.mem_map]

/-- Cells of calls belong to functions, and all others to none. -/
theorem consecutive {s : Segment} {base : Address} (hbase : s.base? = some base)
    (owner : Option Address) : Numbered base (b.size s owner) (b.cells s owner) := by
  have hnil (hcells : b.cells s owner = []) : Numbered base (b.size s owner) (b.cells s owner) := by
    rw [size, hcells]
    exact .nil base
  obtain ⟨lifetime, τ⟩ := s
  by_cases hs : lifetime = .call
  · subst hs
    cases owner with
    | none =>
      apply hnil
      rw [cells, List.map_eq_nil_iff, List.filter_eq_nil_iff]
      intro g hg hcell
      obtain ⟨hsegment, howner⟩ := of_decide_eq_true hcell
      have hlocal : g.segment.isLocal = true := by rw [hsegment]; rfl
      obtain ⟨f, -, hf⟩ := h.owners g hg hlocal
      rw [Grant.owner, if_pos hlocal, hf] at howner
      cases howner
    | some f =>
      by_cases hf : f ∈ b.entered
      · obtain ⟨g, hg, rfl⟩ := h.mem_entered.mp hf
        exact (h.locals g hg hbase).numbered_length
      · exact hnil (h.cells_of_not_mem hf _)
  · have hlocal : Segment.isLocal ⟨lifetime, τ⟩ = false := by simpa [Segment.isLocal] using hs
    cases owner with
    | none => exact (h.wide hlocal hbase).numbered_length
    | some f =>
      apply hnil
      rw [cells, List.map_eq_nil_iff, List.filter_eq_nil_iff]
      intro g hg hcell
      obtain ⟨hsegment, howner⟩ := of_decide_eq_true hcell
      rw [Grant.owner, hsegment, hlocal, if_neg Bool.false_ne_true] at howner
      cases howner

/-- A cell that was handed out for a literal is that of a constant. -/
theorem constant_of_grant {g : Grant} (hg : g ∈ b.grants) (hs : g.segment.lifetime = .constant) :
    ∃ l, g.literal = some l ∧ l.type = g.segment.type ∧
    ⟨g.address, l⟩ ∈ b.planner.constants.toList := by
  obtain ⟨l, hl, hsegment⟩ := h.literals g hg hs
  refine ⟨l, hl, by rw [hsegment], ?_⟩
  rw [h.constants, Books.constants, List.mem_eraseDups]
  refine List.mem_filterMap.mpr ⟨g, hg, ?_⟩
  rw [Grant.constant?, if_pos hs, hl]
  rfl

/-- Literals share a cell exactly if they are the same. -/
theorem interned_iff {g g' : Grant} (hg : g ∈ b.grants) (hg' : g' ∈ b.grants)
    (hs : g.segment.lifetime = .constant) (hs' : g'.segment.lifetime = .constant) :
    ∃ l m, g.literal = some l ∧ g'.literal = some m ∧ (g.address = g'.address ↔ l = m) := by
  obtain ⟨l, hl, htype, hmem⟩ := h.constant_of_grant hg hs
  obtain ⟨m, hm, htype', hmem'⟩ := h.constant_of_grant hg' hs'
  refine ⟨l, m, hl, hm, ?_, ?_⟩
  · intro haddress
    exact congrArg Constant.literal (List.inj_on_of_nodup_map h.apart hmem hmem' haddress)
  · rintro rfl
    exact congrArg Constant.address (List.inj_on_of_nodup_map h.different hmem hmem' rfl)

private theorem segments :
    b.planner.memoryMap.segments = Segment.programWide.map fun s => ⟨s, b.size s none⟩ := by
  apply List.map_congr_left
  intro s hs
  have hlocal : s.isLocal = false := by simpa [Segment.programWide] using (List.mem_filter.mp hs).2
  obtain ⟨base, hbase⟩ := exists_base? (List.mem_filter.mp hs).1
  rw [h.size_wide hlocal hbase]

private theorem functions : b.planner.memoryMap.functions = b.entered.eraseDups.map fun f =>
    ⟨f, b.size ⟨.call, .int⟩ (some f), b.size ⟨.call, .float⟩ (some f)⟩ := by
  rw [← h.frames, List.map_map]
  refine (List.map_id _).symm.trans (List.map_congr_left fun f hf => ?_)
  simp only [Function.comp_apply, h.size_local hf (τ := .int) rfl,
    h.size_local hf (τ := .float) rfl]
  rfl

/-- The cells of the function that is entered. -/
theorem active_placed {τ : ValueType} {base : Address}
    (hbase : Segment.base? ⟨.call, τ⟩ = some base) {id : Address} (hid : b.active = some id) :
    ∃ f, (b.planner.current.bind fun id => b.planner.frames.find? fun f => f.function == id) =
        some f ∧
      frameCount f τ = b.size ⟨.call, τ⟩ (b.owner ⟨.call, τ⟩) := by
  obtain ⟨g, hg, hgid⟩ := h.mem_entered.mp (h.active id hid)
  have hsome : (b.planner.frames.find? fun f => f.function == id).isSome = true :=
    List.find?_isSome.mpr ⟨g, hg, by simpa using hgid⟩
  obtain ⟨f, hf⟩ := Option.isSome_iff_exists.mp hsome
  have hplaced :
      (b.planner.current.bind fun id => b.planner.frames.find? fun f => f.function == id) =
        some f := by
    rw [h.current, hid]
    exact hf
  obtain ⟨hmem, hactive⟩ := h.active_frame hplaced
  have howner : b.owner ⟨.call, τ⟩ = some f.function := hactive
  exact ⟨f, hplaced, by rw [howner, h.size_local hmem hbase]⟩

/-- A literal has a cell exactly if it is among the constants. -/
theorem known_iff {l : Literal} :
    (∃ c ∈ b.planner.constants, c.literal = l) ↔ ∃ c ∈ b.constants, some l = some c.literal := by
  rw [← h.constants]
  simp [eq_comm]

/-- A cell is handed out only if there is one. -/
theorem available {s : Segment} {literal : Option Literal} {a : Address} {p : Planner}
    (hassigned : Assigned b.planner s literal a p) : b.Available s literal := by
  cases hassigned with
  | owned hbase hs hfree =>
    have hlocal := isLocal_of_isOwned hs
    refine ⟨mem_layout hbase, ?_, ?_, .inl ?_⟩
    · intro hconstant
      obtain hs | hs := hs <;> cases hs.symm.trans hconstant
    · intro hcall
      obtain hs | hs := hs <;> cases hs.symm.trans hcall
    · rw [b.owner_of_not_local hlocal, h.size_wide hlocal hbase]
      exact hfree
  | @placed base hbase hs f hf hfree =>
    obtain ⟨lifetime, τ⟩ := s
    cases hs
    obtain ⟨hmem, hactive⟩ := h.active_frame hf
    have howner : b.owner ⟨.call, τ⟩ = some f.function := hactive
    refine ⟨mem_layout hbase, fun hconstant => (by cases hconstant),
      fun _ => by simp [hactive], .inl ?_⟩
    rw [howner, h.size_local hmem hbase]
    exact hfree
  | @known l hs hl c hc hcl =>
    subst hs hl hcl
    refine ⟨mem_layout (base?_literal _), fun _ => ⟨_, rfl, rfl⟩, fun hcall => (by cases hcall),
      .inr ⟨rfl, c, ?_, rfl⟩⟩
    rw [← h.constants]
    exact Array.mem_toList_iff.mpr hc
  | @interned base hbase l hs hl hnew hfree =>
    subst hs hl
    refine ⟨mem_layout hbase, fun _ => ⟨_, rfl, rfl⟩, fun hcall => (by cases hcall), .inl ?_⟩
    rw [b.owner_of_not_local rfl, h.size_wide rfl hbase]
    exact hfree

/-- A cell is handed out if there is one. -/
theorem exists_assigned {s : Segment} {literal : Option Literal}
    (havailable : b.Available s literal) : ∃ a p, Assigned b.planner s literal a p := by
  obtain ⟨hlayout, hliteral, hactive, hfree⟩ := havailable
  obtain ⟨base, hbase⟩ := exists_base? hlayout
  obtain ⟨lifetime, τ⟩ := s
  -- Only a constant may be handed out when no cell is left.
  have hleft (hs : lifetime ≠ .constant) : b.size ⟨lifetime, τ⟩ (b.owner ⟨lifetime, τ⟩) <
      Segment.size :=
    hfree.resolve_right fun hconstant => hs hconstant.1
  cases lifetime with
  | global =>
    have hlt := hleft (by simp)
    rw [b.owner_of_not_local rfl, h.size_wide rfl hbase] at hlt
    exact ⟨_, _, .owned hbase (.inl rfl) hlt⟩
  | temporary =>
    have hlt := hleft (by simp)
    rw [b.owner_of_not_local rfl, h.size_wide rfl hbase] at hlt
    exact ⟨_, _, .owned hbase (.inr rfl) hlt⟩
  | call =>
    have hlt := hleft (by simp)
    obtain ⟨id, hid⟩ := Option.ne_none_iff_exists'.mp (hactive rfl)
    obtain ⟨f, hf, hsize⟩ := h.active_placed hbase hid
    exact ⟨_, _, .placed hbase rfl hf (hsize ▸ hlt)⟩
  | constant =>
    obtain ⟨l, rfl, rfl⟩ := hliteral rfl
    by_cases hknown : ∃ c ∈ b.planner.constants, c.literal = l
    · obtain ⟨c, hc, hcl⟩ := hknown
      exact ⟨_, _, .known rfl rfl hc hcl⟩
    · have hlt : b.size ⟨.constant, l.type⟩ (b.owner ⟨.constant, l.type⟩) < Segment.size :=
        hfree.resolve_right fun hconstant => hknown (h.known_iff.mpr hconstant.2)
      rw [b.owner_of_not_local rfl, h.size_wide rfl hbase] at hlt
      exact ⟨_, _, .interned hbase rfl rfl (fun c hc hcl => hknown ⟨c, hc, hcl⟩) hlt⟩

/-- Why a cell is refused. -/
theorem refuses (s : Segment) (literal : Option Literal) :
    (∃ e, b.planner.assign s literal = .error e) ↔ s ∉ Segment.layout ∨
    s.lifetime = .constant ∧ (∀ l, literal = some l → l.type ≠ s.type) ∨
    s.lifetime = .call ∧ b.active = none ∨
    Segment.size ≤ b.size s (b.owner s) ∧
      ¬(s.lifetime = .constant ∧ ∃ c ∈ b.constants, literal = some c.literal) := by
  have hliteral : (∀ l, literal = some l → l.type ≠ s.type) ↔
      ¬∃ l, literal = some l ∧ l.type = s.type := by
    simp
  have hassigned : (∃ a p, Assigned b.planner s literal a p) ↔ b.Available s literal := by
    constructor
    · rintro ⟨a, p, hassigned⟩
      exact h.available hassigned
    · exact h.exists_assigned
  rw [assign_eq_error_iff, hassigned, Available, hliteral, ← Nat.not_lt]
  simp only [not_and_or, not_or, Classical.not_imp, ne_eq, not_not]

private theorem balanced : b.Balanced where
  inside := h.inside
  distinct := h.distinct
  consecutive _ owner _ hbase := h.consecutive hbase owner
  interned g hg g' hg' hs hs' := by
    obtain ⟨l, m, hl, hm, hiff⟩ := h.interned_iff hg hg' hs hs'
    exact ⟨l, m, hl, hm, hiff.trans literal_eq_iff⟩
  constants := ⟨h.constants, h.constants ▸ h.different⟩
  segments := h.segments
  functions := h.functions
  refuses := h.refuses

end Faithful

/-- Whatever orders a new planner follows, and whichever of them fail, the books balance. -/
theorem after_balanced (orders : List Order) : (after orders).Balanced :=
  (faithful_after orders).balanced

end Books

end Planner

end Quadlet
