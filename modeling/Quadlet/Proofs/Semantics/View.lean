import Quadlet.Proofs.Machine.Integrity
import Quadlet.Proofs.Semantics.Safety
import Quadlet.Proofs.Shape.Invocations

/-!
# The world that a memory shows

A memory in which every cell holds a value of its type shows exactly one world of the interpreter,
apart from what was printed. Main statement: wherever transitions of a compiled program lead, the
memory is the mirror of the world that it shows.
-/

namespace Quadlet

open Syntax

/-! ## Slots -/

namespace Value

/-- The number in a value that is an `int`. -/
def int? : Value → Option Int64
  | .int n => some n
  | _ => none

/-- The number in a value that is a `float`. -/
def float? : Value → Option Float
  | .float x => some x
  | _ => none

end Value

/-- The slots with the numbers that are found in some cells. -/
def Syntax.Slots.ofCells (get : Numeric → Nat → Option Value) : Slots :=
  ⟨fun i => (get .int i).bind Value.int?, fun i => (get .float i).bind Value.float?⟩

/-- Slots show all the values of cells that hold values of their types. -/
theorem Syntax.Slots.get?_ofCells {get : Numeric → Nat → Option Value}
    (h : ∀ τ i v, get τ i = some v → v.type = τ.type) (τ : Numeric) (i : Nat) :
    (Slots.ofCells get).get? τ i = get τ i := by
  cases hv : get τ i with
  | none => cases τ <;> simp [ofCells, get?, hv]
  | some v =>
    have htype := h τ i v hv
    cases τ with
    | int =>
      cases v with
      | int n => simp [ofCells, get?, hv, Value.int?]
      | _ => cases htype
    | float =>
      cases v with
      | float x => simp [ofCells, get?, hv, Value.float?]
      | _ => cases htype

/-- Slots are the numbers in their cells. -/
theorem Syntax.Slots.ofCells_eq {get : Numeric → Nat → Option Value} {s : Slots}
    (h : ∀ τ i, get τ i = s.get? τ i) : ofCells get = s := by
  obtain ⟨ints, floats⟩ := s
  rw [ofCells, mk.injEq]
  constructor
  · funext i
    rw [h]
    cases hi : ints i <;> simp [get?, hi, Value.int?]
  · funext i
    rw [h]
    cases hi : floats i <;> simp [get?, hi, Value.float?]

/-- The slots that a frame shows. -/
def Frame.slots (f : Frame) : Slots := .ofCells fun τ i => (f.block τ).get? i

/-- The world that a memory shows, with nothing printed. -/
def Memory.world (m : Memory) : World :=
  ⟨.ofCells fun τ i => m.peek ⟨.global, τ.type⟩ i, m.entered.map Frame.slots, []⟩

/-! ## Mirrors -/

/-- A frame of the size of a routine shows its slots. -/
theorem Frame.Fits.holds {r : Routine} {f : Frame} (h : f.Fits r.frame) : Holds r f.slots f := by
  have htype : ∀ τ, (f.block τ).type = τ.type := by
    intro τ
    cases τ
    · exact h.ints.type
    · exact h.floats.type
  refine ⟨htype, fun τ => ?_, fun τ i => ?_⟩
  · cases τ
    · exact h.ints.size
    · exact h.floats.size
  · rw [Frame.slots, Slots.get?_ofCells]
    intro τ i v hv
    rw [← htype]
    cases τ
    · exact h.ints.typed i v hv
    · exact h.floats.typed i v hv

/-- The entered frames are those behind the ones that wait. -/
theorem Stacked.entered_eq {stack : List Routine} {ss : List Slots} {waiting frames : List Frame}
    (h : Stacked stack ss frames) {m : Memory} (hframes : m.frames = waiting ++ frames)
    (hpending : ∀ f ∈ waiting, f.pending = true) : m.entered = frames := by
  rw [Memory.entered, hframes, List.dropWhile_append_of_pos hpending, h.dropWhile.1]

namespace Memory.Intact

variable {map : MemoryMap} {m : Memory}

/-- Every program-wide segment has a block with values of its type. -/
theorem exists_block (h : m.Intact map) {s : Segment} (hs : s ∈ Segment.programWide) :
    ∃ b, m.globals.lookup s = some b ∧ Cells.Of s.type (map.cells s) b := by
  cases hb : m.globals.lookup s with
  | none =>
    rw [← h.segments] at hs
    obtain ⟨e, he, rfl⟩ := List.mem_map.mp hs
    have hne := List.lookup_eq_none_iff.mp hb e he
    simp at hne
  | some b =>
    obtain ⟨front, back, hglobals, -⟩ := List.lookup_eq_some_iff.mp hb
    exact ⟨b, rfl, h.globals (s, b) (by simp [hglobals])⟩

/-- A memory that is intact mirrors the world that it shows. -/
theorem mirrors {o : ObjectFile} (h : m.Intact o.memory)
    (hconstants : ∀ k ∈ o.constants, m.Stores k) {stack : List Routine}
    {waiting frames : List Frame} (hframes : m.frames = waiting ++ frames)
    (hpending : ∀ f ∈ waiting, f.pending = true)
    (hstacked : Stacked stack (frames.map Frame.slots) frames) :
    Mirrors o stack waiting m.world m := by
  refine ⟨h.planned, fun hs => ?_, fun τ i => ?_, fun hk => hconstants _ hk, hpending, frames,
    hframes, ?_⟩
  · obtain ⟨b, hb, hof⟩ := h.exists_block hs
    exact ⟨b, hb, hof.type, hof.size⟩
  · rw [world, Slots.get?_ofCells]
    intro τ i v hv
    obtain ⟨b, hb, hof⟩ := h.exists_block (s := ⟨.global, τ.type⟩) (by cases τ <;> decide)
    rw [peek, hb] at hv
    exact (hof.typed i v hv).trans hof.type
  · rw [world, hstacked.entered_eq hframes hpending]
    exact hstacked

end Memory.Intact

/-- The frames of entered calls show one row of slots. -/
theorem Stacked.map_slots {stack : List Routine} {ss : List Slots} {fs : List Frame}
    (h : Stacked stack ss fs) : fs.map Frame.slots = ss := by
  induction h with
  | nil => rfl
  | cons top _ _ ih => rw [List.map_cons, ih, Frame.slots, Slots.ofCells_eq top.value]

/-- A memory that mirrors a world shows that world, whatever frames wait. -/
theorem Mirrors.world_eq {o : ObjectFile} {stack : List Routine} {waiting : List Frame} {w : World}
    {m : Memory} (h : Mirrors o stack waiting w m) : m.world = { w with lines := [] } := by
  rw [Memory.world, Slots.ofCells_eq h.globals, h.entered.2.map_slots]

/-! ## Wherever transitions lead -/

/-- The frames that wait were not entered. -/
theorem Waiting.pending {program : Array Quadruple} {routines : List Routine} {i : Nat}
    {frames : List Frame} (h : Waiting program routines i frames) :
    ∀ f ∈ frames, f.pending = true := by
  cases h with
  | none => simp
  | one _ _ _ _ _ pending => simp [pending]

/-- Frames that match the places to return to show the slots of calls of routines. -/
theorem Matched.exists_stack {a : Program} {o : ObjectFile} {routines : List Routine}
    (hlinked : Linked a o routines) {main i : Nat} {frames : List Frame} {returns : List Nat}
    (h : Matched o.quadruples routines main frames returns i)
    (hfits : ∀ f ∈ frames, ∃ s, o.memory.lastFrame? f.function = some s ∧ f.Fits s) :
    ∃ stack, Stacked stack (frames.map Frame.slots) frames ∧
      InPart routines main o.quadruples.size stack.head? i := by
  induction h with
  | main place => exact ⟨[], .nil, place⟩
  | @call r f frames returns i j k place function entered site rest ih =>
    obtain ⟨stack, hstacked, -⟩ := ih fun g hg => hfits g (List.mem_cons_of_mem _ hg)
    obtain ⟨s, hs, hf⟩ := hfits f (List.mem_cons_self ..)
    have hr : r ∈ routines := by
      cases place with
      | body hr => exact hr
    rw [function, hlinked.lastFrame? hr] at hs
    cases hs
    exact ⟨r :: stack, .cons hf.holds entered hstacked, place⟩

/-- Transitions keep memory intact. -/
theorem Core.Leads.intact {map : MemoryMap} {m : Machine} {d : Core} {program : Array Quadruple}
    (h : m.core.Leads program d) (hm : m.Intact map) : d.memory.Intact map := by
  suffices hall : ∃ m' : Machine, m'.core = d ∧ m'.Intact map by
    obtain ⟨m', rfl, hm'⟩ := hall
    exact hm'.memory
  induction h with
  | refl => exact ⟨m, rfl, hm⟩
  | step _ _ hd ih =>
    obtain ⟨m', rfl, hm'⟩ := ih
    exact ⟨m'.stand _, rfl, hm'.stand hd⟩

/-- Wherever transitions lead in a linked program, the memory mirrors the world that it shows, and
the innermost call is that of the part in which execution stands. -/
theorem Linked.mirrors_world {a : Program} {o : ObjectFile} {routines : List Routine} {main : Nat}
    (h : Linked a o routines) (hshaped : Shaped o routines main) {limit : Option Nat} {m : Machine}
    (hm : Machine.load o limit = .ok m) {d : Core} (hd : m.core.Leads o.quadruples d)
    (hip : 0 < d.ip) :
    ∃ stack waiting, Waiting o.quadruples routines d.ip waiting ∧
      InPart routines main o.quadruples.size stack.head? d.ip ∧
      Mirrors o stack waiting d.memory.world d.memory := by
  have hintact := hd.intact (Machine.intact_load hm)
  obtain ⟨memory, hload, hmirrors⟩ := h.load limit
  obtain rfl := Except.ok.inj (hload.symm.trans hm)
  cases (hmirrors.framed routines main).leads hshaped hd with
  | start ip => exact absurd ip (Nat.ne_of_gt hip)
  | @inside waiting entered frames waits matched =>
    obtain ⟨stack, hstacked, hpart⟩ := matched.exists_stack h fun f hf =>
      hintact.frames f (by rw [frames]; exact List.mem_append_right _ hf)
    refine ⟨stack, waiting, waits, hpart, hintact.mirrors ?_ frames waits.pending hstacked⟩
    intro k hk
    exact hshaped.stores_leads hd (hmirrors.constants hk)

end Quadlet
