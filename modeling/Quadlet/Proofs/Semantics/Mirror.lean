import Quadlet.Proofs.Machine.Memory
import Quadlet.Proofs.Semantics.Interpreter
import Quadlet.Proofs.Semantics.Values
import Quadlet.Proofs.Static.Program

/-!
# Memory as the mirror of a world

Which memories of the machine show a world of the interpreter: the variables of the program and of
the active calls have the same values, and the constants are in place. Results of operators are left
open, so they may be written at any time. Main statements: a variable is read alike in both, and
writing a variable in both keeps the mirror.
-/

namespace Quadlet

open Syntax

/-! ## Frames -/

namespace Frame

/-- The cells of a type that can be declared. -/
def block (f : Frame) : Numeric → Cells
  | .int => f.ints
  | .float => f.floats

/-- A frame with other cells of a type. -/
def withBlock (f : Frame) (b : Cells) : Numeric → Frame
  | .int => { f with ints := b }
  | .float => { f with floats := b }

theorem read?_eq (f : Frame) (τ : Numeric) (i : Nat) :
    f.read? ⟨.call, τ.type⟩ i = (f.block τ).get? i := by
  cases τ <;> rfl

private theorem write_eq (f : Frame) (τ : Numeric) (i : Nat) (v : Value) :
    f.write ⟨.call, τ.type⟩ i v = ((f.block τ).set i v).map fun b => f.withBlock b τ := by
  cases τ <;> rfl

private theorem block_withBlock (f : Frame) (b : Cells) (τ υ : Numeric) :
    (f.withBlock b τ).block υ = if υ = τ then b else f.block υ := by
  cases τ <;> cases υ <;> rfl

theorem pending_withBlock (f : Frame) (b : Cells) (τ : Numeric) :
    (f.withBlock b τ).pending = f.pending := by
  cases τ <;> rfl

/-- The number of cells of a type that arguments have filled. -/
def next (f : Frame) : Numeric → Nat
  | .int => f.nextInt
  | .float => f.nextFloat

/-- A frame with one more cell of a type filled by an argument. -/
def advance (f : Frame) : Numeric → Frame
  | .int => { f with nextInt := f.nextInt + 1 }
  | .float => { f with nextFloat := f.nextFloat + 1 }

/-- An argument is written to the next cell of its type. -/
theorem param_eq (f : Frame) {τ : Numeric} {v : Value} (hv : v.type = τ.type) :
    f.param v = (f.write ⟨.call, τ.type⟩ (f.next τ) v).map fun g => g.advance τ := by
  cases τ with
  | int =>
    cases v with
    | int n =>
      rw [param, write]
      cases h : f.ints.set f.nextInt (.int n) <;> simp [next, h] <;> rfl
    | _ => cases hv
  | float =>
    cases v with
    | float x =>
      rw [param, write]
      cases h : f.floats.set f.nextFloat (.float x) <;> simp [next, h] <;> rfl
    | _ => cases hv

theorem block_advance (f : Frame) (τ υ : Numeric) : (f.advance τ).block υ = f.block υ := by
  cases τ <;> cases υ <;> rfl

theorem next_advance (f : Frame) (τ υ : Numeric) :
    (f.advance τ).next υ = f.next υ + if υ = τ then 1 else 0 := by
  cases τ <;> cases υ <;> rfl

theorem next_withBlock (f : Frame) (b : Cells) (τ υ : Numeric) :
    (f.withBlock b τ).next υ = f.next υ := by
  cases τ <;> cases υ <;> rfl

theorem pending_advance (f : Frame) (τ : Numeric) : (f.advance τ).pending = f.pending := by
  cases τ <;> rfl

end Frame

/-- The frame of a call of a routine shows some slots. -/
structure Holds (r : Routine) (s : Slots) (f : Frame) : Prop where
  type : ∀ τ, (f.block τ).type = τ.type
  size : ∀ τ, (f.block τ).size = r.function.names.countP fun x => x.type = τ
  value : ∀ τ i, (f.block τ).get? i = s.get? τ i

/-- What a frame shows is up to its cells. -/
theorem Holds.congr {r : Routine} {s : Slots} {f g : Frame} (h : Holds r s f)
    (hblock : ∀ τ, g.block τ = f.block τ) : Holds r s g := by
  constructor
  · intro τ
    rw [hblock]
    exact h.type τ
  · intro τ
    rw [hblock]
    exact h.size τ
  · intro τ i
    rw [hblock]
    exact h.value τ i

/-- The frames of entered calls show the slots of active calls. -/
inductive Stacked : List Routine → List Slots → List Frame → Prop where
  | nil : Stacked [] [] []
  | cons {r : Routine} {s : Slots} {f : Frame} {rs : List Routine} {ss : List Slots}
    {fs : List Frame} (top : Holds r s f) (entered : f.pending = false) (rest : Stacked rs ss fs) :
    Stacked (r :: rs) (s :: ss) (f :: fs)

/-- A value that is a number or a truth value can be stored in a variable. -/
theorem coerce_numeric {x : Value} (hx : Typing.isOperable x.type = true) (τ : Numeric) :
    ∃ y, x.coerce τ.type = .ok y := by
  cases x with
  | string s => cases hx
  | _ => cases τ <;> exact ⟨_, rfl⟩

namespace Syntax.Slots

/-- The slots behind a write. -/
theorem set_of_coerce (s : Slots) {τ : Numeric} {x y : Value}
    (h : x.coerce τ.type = .ok y) (i : Nat) :
    ∃ t, s.set τ i x = .ok t ∧
    ∀ υ j, t.get? υ j = if υ = τ ∧ j = i then some y else s.get? υ j := by
  cases τ with
  | int =>
    change x.toInt.map Value.int = .ok y at h
    cases hx : x.toInt with
    | error e =>
      rw [hx] at h
      cases h
    | ok n =>
      rw [hx] at h
      cases h
      refine ⟨{ s with ints := fun j => if j = i then some n else s.ints j }, ?_, fun υ j => ?_⟩
      · rw [set, hx]
        rfl
      · cases υ with
        | int => by_cases hj : j = i <;> simp [get?, hj]
        | float => simp [get?]
  | float =>
    change x.toFloat.map Value.float = .ok y at h
    cases hx : x.toFloat with
    | error e =>
      rw [hx] at h
      cases h
    | ok d =>
      rw [hx] at h
      cases h
      refine ⟨{ s with floats := fun j => if j = i then some d else s.floats j }, ?_, fun υ j => ?_⟩
      · rw [set, hx]
        rfl
      · cases υ with
        | float => by_cases hj : j = i <;> simp [get?, hj]
        | int => simp [get?]

/-- The values of slots have the types of the slots. -/
theorem type_get? {s : Slots} {τ : Numeric} {i : Nat} {x : Value} (h : s.get? τ i = some x) :
    x.type = τ.type := by
  cases τ with
  | int | float =>
    obtain ⟨y, -, rfl⟩ := Option.map_eq_some_iff.mp h
    rfl

end Syntax.Slots

/-- Writing a cell keeps a frame and its slots alike. -/
theorem Holds.write {r : Routine} {s : Slots} {f : Frame} (h : Holds r s f) {τ : Numeric} {i : Nat}
    (hi : i < r.function.names.countP fun x => x.type = τ) {x y : Value}
    (hx : x.coerce τ.type = .ok y) :
    ∃ t, s.set τ i x = .ok t ∧ f.write ⟨.call, τ.type⟩ i x =
      .ok (f.withBlock ((f.block τ).put i y) τ) ∧
      Holds r t (f.withBlock ((f.block τ).put i y) τ) := by
  obtain ⟨t, ht, hget⟩ := s.set_of_coerce hx i
  have hsize : i < (f.block τ).size := by
    rw [h.size]
    exact hi
  have hset : (f.block τ).set i x = .ok ((f.block τ).put i y) :=
    Cells.set_eq_ok.mpr ⟨y, (h.type τ).symm ▸ hx, hsize, rfl⟩
  refine ⟨t, ht, ?_, ?_, ?_, ?_⟩
  · rw [Frame.write_eq, hset]
    rfl
  · intro υ
    rw [Frame.block_withBlock]
    by_cases hυ : υ = τ
    · subst hυ
      rw [if_pos rfl]
      exact h.type υ
    · rw [if_neg hυ]
      exact h.type υ
  · intro υ
    rw [Frame.block_withBlock]
    by_cases hυ : υ = τ
    · subst hυ
      rw [if_pos rfl, Cells.size_put]
      exact h.size υ
    · rw [if_neg hυ]
      exact h.size υ
  · intro υ j
    rw [Frame.block_withBlock, hget]
    by_cases hυ : υ = τ
    · subst hυ
      rw [if_pos rfl, Cells.get?_put y hsize, h.value]
      simp
    · rw [if_neg hυ, if_neg (fun hand => hυ hand.1)]
      exact h.value υ j

/-- Frames of entered calls are not to be entered again. -/
theorem Stacked.dropWhile {rs : List Routine} {ss : List Slots} {fs : List Frame}
    (h : Stacked rs ss fs) : fs.dropWhile Frame.pending = fs ∧ fs.takeWhile Frame.pending = [] := by
  cases h with
  | nil => exact ⟨rfl, rfl⟩
  | cons _ entered _ => simp [entered]

/-! ## Worlds -/

namespace Syntax.World

variable {w : World} {v : Variable}

theorem read_eq (w : World) (v : Variable) :
    w.read v = (w.find? v).elim (.error (.unwritten v.address)) .ok := by
  rw [read]
  cases w.find? v <;> rfl

private theorem find?_global (h : v.lifetime = .global) :
    w.find? v = w.globals.get? v.type v.index := by
  rw [find?, h]

theorem find?_call (h : v.lifetime = .call) {s : Slots} {below : List Slots}
    (hw : w.frames = s :: below) :
    w.find? v = (s.get? v.type v.index).or (below.head?.bind fun t => t.get? v.type v.index) := by
  rw [find?, h, hw]

/-- The value of a variable has the declared type. -/
theorem type_read {x : Value} (h : w.read v = .ok x) : x.type = v.type.type := by
  rw [read_eq] at h
  cases hv : w.find? v with
  | none =>
    rw [hv] at h
    cases h
  | some y =>
    rw [hv] at h
    cases h
    rw [find?] at hv
    split at hv
    · cases hv
    · rcases Option.or_eq_some_iff.mp hv with hv | ⟨-, hv⟩
      · exact Slots.type_get? hv
      · obtain ⟨t, -, hv⟩ := Option.bind_eq_some_iff.mp hv
        exact Slots.type_get? hv
    · exact Slots.type_get? hv

private theorem write_global (h : v.lifetime = .global) (x : Value) :
    w.write v x = (w.globals.set v.type v.index x).map fun s => { w with globals := s } := by
  rw [write, h]

private theorem write_call (h : v.lifetime = .call) {s : Slots} {below : List Slots}
    (hw : w.frames = s :: below) (x : Value) : w.write v x =
      (s.set v.type v.index x).map fun s => { w with frames := s :: below } := by
  rw [write, h, hw]

end Syntax.World

/-- A constant is in its cell. -/
def Memory.Stores (m : Memory) (c : Constant) : Prop :=
  ∃ i, Segment.locate? c.address = some (⟨.constant, c.literal.type⟩, i) ∧
    m.peek ⟨.constant, c.literal.type⟩ i = some c.literal.value

theorem Memory.Stores.read {m : Memory} {c : Constant} (h : m.Stores c) :
    m.read c.address = .ok c.literal.value := by
  obtain ⟨i, hi, hpeek⟩ := h
  rw [read_global hi rfl, hpeek]
  rfl

/-- A constant stays where it is while other segments are written. -/
theorem Memory.Stores.wrote {m m' : Memory} {c : Constant} (h : m.Stores c) {s : Segment} {i : Nat}
    {x : Value} (hs : s.lifetime ≠ .constant) (hw : m.Wrote s i x m') : m'.Stores c := by
  obtain ⟨j, hj, hpeek⟩ := h
  refine ⟨j, hj, ?_⟩
  rw [hw.elsewhere, hpeek]
  rintro ⟨rfl, -⟩
  exact hs rfl

/-- A memory shows a world in which calls of some routines are active, innermost first; further
frames wait to be entered. -/
structure Mirrors (o : ObjectFile) (stack : List Routine) (waiting : List Frame) (w : World)
    (m : Memory) : Prop where
  map : m.map = o.memory
  block : ∀ {s}, s ∈ Segment.programWide → m.Block s (o.memory.cells s)
  globals : ∀ τ i, m.peek ⟨.global, τ.type⟩ i = w.globals.get? τ i
  constants : ∀ {c}, c ∈ o.constants → m.Stores c
  pending : ∀ f ∈ waiting, f.pending = true
  frames : ∃ fs, m.frames = waiting ++ fs ∧ Stacked stack w.frames fs

/-- A variable that the innermost of some active calls can use. -/
inductive Placed (o : ObjectFile) : List Routine → Variable → Prop where
  | global {stack : List Routine} {v : Variable} (lifetime : v.lifetime = .global)
    (fits : v.index < Segment.size) (cell : v.index < o.memory.cells v.segment) : Placed o stack v
  | call {r : Routine} {stack : List Routine} {v : Variable} (lifetime : v.lifetime = .call)
    (fits : v.index < Segment.size)
    (cell : v.index < r.function.names.countP fun x => x.type = v.type) :
    Placed o (r :: stack) v

/-- A variable is found at its address. -/
theorem Placed.locate? {o : ObjectFile} {stack : List Routine} {v : Variable}
    (h : Placed o stack v) : Segment.locate? v.address = some (v.segment, v.index) := by
  have hfits : v.index < Segment.size := by
    cases h <;> assumption
  have hbase : ∃ b, v.segment.base? = some b := by
    cases h with
    | global lifetime | call lifetime =>
      rw [Variable.segment, lifetime]
      cases v.type <;> exact ⟨_, rfl⟩
  obtain ⟨b, hb⟩ := hbase
  rw [Variable.address, hb]
  exact Segment.locate?_base hb hfits

namespace Mirrors

variable {o : ObjectFile} {stack : List Routine} {waiting : List Frame} {w : World} {m m' : Memory}

/-- The frames that wait and those that were entered. -/
theorem entered (h : Mirrors o stack waiting w m) :
    m.frames.takeWhile Frame.pending = waiting ∧ Stacked stack w.frames m.entered := by
  obtain ⟨fs, hfs, hstacked⟩ := h.frames
  obtain ⟨hdrop, htake⟩ := hstacked.dropWhile
  rw [Memory.entered, hfs, List.takeWhile_append_of_pos h.pending,
    List.dropWhile_append_of_pos h.pending, hdrop, htake, List.append_nil]
  exact ⟨rfl, hstacked⟩

/-- Results of operators are not part of the mirror. -/
theorem wrote (h : Mirrors o stack waiting w m) {τ : ValueType} {i : Nat} {x : Value}
    (hw : m.Wrote ⟨.temporary, τ⟩ i x m') : Mirrors o stack waiting w m' where
  map := hw.map.trans h.map
  block hs := hw.block (h.block hs)
  globals υ j := by
    rw [hw.elsewhere, h.globals]
    rintro ⟨hs, -⟩
    cases hs
  constants hc := (h.constants hc).wrote (by simp) hw
  pending := h.pending
  frames := hw.frames.symm ▸ h.frames

/-- A variable has the same value in the memory and in the world. -/
theorem read (h : Mirrors o stack waiting w m) {v : Variable} (hv : Placed o stack v) :
    m.read v.address = w.read v := by
  have hlocate := hv.locate?
  rw [World.read_eq]
  cases hv with
  | global lifetime =>
    have hlocal : v.segment.isLocal = false := by
      simp [Segment.isLocal, Variable.segment, lifetime]
    rw [Memory.read_global hlocate hlocal, World.find?_global lifetime, ← h.globals,
      Variable.segment, lifetime]
  | call lifetime =>
    have hlocal : v.segment.isLocal = true := by
      simp [Segment.isLocal, Variable.segment, lifetime]
    obtain ⟨-, hstacked⟩ := h.entered
    generalize hss : w.frames = ss at hstacked
    generalize hfs : m.entered = fs at hstacked
    cases hstacked with
    | cons top _ rest =>
      rw [Memory.read_local hlocate hlocal hfs, World.find?_call lifetime hss,
        Variable.segment, lifetime, Frame.read?_eq, top.value]
      congr 2
      cases rest with
      | nil => rfl
      | cons beneath => exact (Frame.read?_eq ..).trans (beneath.value ..)

/-- Writing a variable in both keeps the mirror. -/
theorem write (h : Mirrors o stack waiting w m) {v : Variable} (hv : Placed o stack v) {x : Value}
    (hx : Typing.isOperable x.type = true) :
    ∃ w' m', w.write v x = .ok w' ∧ m.write v.address x = .ok m' ∧ Mirrors o stack waiting w' m' ∧
      w'.lines = w.lines := by
  have hlocate := hv.locate?
  obtain ⟨y, hy⟩ := coerce_numeric hx v.type
  cases hv with
  | global lifetime fits cell =>
    have hsegment : v.segment = ⟨.global, v.type.type⟩ := by
      rw [Variable.segment, lifetime]
    have hmem : v.segment ∈ Segment.programWide := by
      rw [hsegment]
      cases v.type <;> decide
    rw [hsegment] at hlocate hmem cell
    obtain ⟨t, ht, hget⟩ := w.globals.set_of_coerce hy v.index
    obtain ⟨m', hm', hwrote⟩ := Memory.write_global hlocate rfl (h.block hmem) cell hy
    refine ⟨{ w with globals := t }, m', ?_, hm', ?_, rfl⟩
    · rw [World.write_global lifetime, ht]
      rfl
    · refine ⟨hwrote.map.trans h.map, fun hs => hwrote.block (h.block hs), fun τ i => ?_,
        fun hc => (h.constants hc).wrote (by simp) hwrote, h.pending, hwrote.frames.symm ▸ h.frames⟩
      rw [hget]
      by_cases hsame : τ = v.type ∧ i = v.index
      · rw [if_pos hsame, hsame.1, hsame.2]
        exact hwrote.here
      · rw [if_neg hsame, hwrote.elsewhere, h.globals]
        rintro ⟨hs, hi⟩
        apply hsame
        refine ⟨?_, hi⟩
        revert hs
        cases τ <;> cases v.type <;> simp [Numeric.type]
  | call lifetime fits cell =>
    have hlocal : v.segment.isLocal = true := by
      simp [Segment.isLocal, Variable.segment, lifetime]
    obtain ⟨htake, hstacked⟩ := h.entered
    generalize hss : w.frames = ss at hstacked
    generalize hfs : m.entered = fs at hstacked
    cases hstacked with
    | @cons _ s f _ ss fs top entered rest =>
      obtain ⟨t, ht, hg, hholds⟩ := top.write cell hy
      have hsegment : v.segment = ⟨.call, v.type.type⟩ := by
        rw [Variable.segment, lifetime]
      refine ⟨{ w with frames := t :: ss }, _, ?_,
        Memory.write_local hlocate hlocal hfs (hsegment ▸ hg), ?_, rfl⟩
      · rw [World.write_call lifetime hss, ht]
        rfl
      · refine ⟨h.map, h.block, h.globals, h.constants, h.pending, _ :: fs, ?_,
          .cons hholds ((Frame.pending_withBlock ..).trans entered) rest⟩
        rw [htake]

end Mirrors

end Quadlet
