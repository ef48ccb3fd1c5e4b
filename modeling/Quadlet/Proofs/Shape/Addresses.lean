import Quadlet.Proofs.Semantics.Linking
import Quadlet.Proofs.Shape.Flow

/-!
# The addresses in lowered code

Every address that a quadruple uses has a cell: in a segment of the program it is below the number
of cells that the object file states, in a segment of calls below that of the function around it.
Operators write results and assignments write variables, so nothing writes a constant.
-/

namespace Quadlet

open Syntax Request Planner

/-! ## Addresses of quadruples -/

/-- The addresses that a quadruple uses; the result of a jump and the position of
an argument are none. -/
def Quadruple.addresses (q : Quadruple) : List Address :=
  match q.op with
  | .add | .sub | .mul | .div | .lt | .gt | .le | .ge | .eq | .ne => [q.left, q.right, q.result]
  | .assign => [q.left, q.result]
  | .print | .gotoFalse | .gotoTrue | .param | .allocate | .call => [q.left]
  | .goto | .leave => []

/-- An address has a cell in an object file, or in the frame of the function around it. -/
def ObjectFile.Covers (o : ObjectFile) (frame : Option FrameSize) (a : Address) : Prop :=
  ∃ s i, Segment.locate? a = some (s, i) ∧
    if s.isLocal then ∃ f ∈ frame, i < frameCount f s.type else i < o.memory.cells s

/-- The addresses of a quadruple have cells, and it writes no constant. -/
structure Quadruple.Sized (o : ObjectFile) (frame : Option FrameSize) (q : Quadruple) : Prop where
  covered : ∀ a ∈ q.addresses, o.Covers frame a
  operator : q.op.isOperator = true → ∃ τ i, Segment.locate? q.result = some (⟨.temporary, τ⟩, i)
  assign : q.op = .assign → ∃ s i, Segment.locate? q.result = some (s, i) ∧
    (s.lifetime = .global ∨ s.lifetime = .call)

/-- An object file has the cells that a planner has handed out. -/
def Planner.Within (o : ObjectFile) (p : Planner) : Prop :=
  ∀ s ∈ Segment.programWide, p.count s ≤ o.memory.cells s

section

variable {o : ObjectFile} {frame : Option FrameSize} {rs ss : List Request} {p p' : Planner}

/-- What was handed out before is handed out. -/
theorem Planner.Within.before (h : p'.Within o) (hp : Served rs p) (hp' : Served (rs ++ ss) p') :
    p.Within o := by
  intro s hs
  have hle := demand_le_append rs ss s
  rw [← hp.count, ← hp'.count] at hle
  exact Nat.le_trans hle (h s hs)

theorem ObjectFile.Supplies.within (h : o.Supplies rs) (hp : Served rs p) : p.Within o := by
  intro s hs
  rw [hp.count]
  exact (h.demand_le hs).1

/-- The place of a literal is below the number of literals of its type. -/
theorem Constant.mem_number {before ls : List Literal} {c : Constant} (h : c ∈ number before ls) :
    ∃ i, c.address = base c.literal.type + (i : Nat) ∧
    i < (before ++ ls).countP fun m => m.type = c.literal.type := by
  induction ls generalizing before with
  | nil => cases h
  | cons l ls ih =>
    rcases List.mem_cons.mp h with rfl | h
    · refine ⟨_, rfl, ?_⟩
      rw [List.countP_append, List.countP_cons_of_pos (by simp)]
      dsimp only
      omega
    · rw [List.append_cons]
      exact ih h

private theorem mem_programWide_literal (l : Literal) :
    ⟨.constant, l.type⟩ ∈ Segment.programWide := by
  cases l with
  | int n => exact (by decide : ⟨.constant, .int⟩ ∈ Segment.programWide)
  | float x => exact (by decide : ⟨.constant, .float⟩ ∈ Segment.programWide)
  | string s => exact (by decide : ⟨.constant, .string⟩ ∈ Segment.programWide)

/-- A constant stands in the segment of its type, among those that were counted. -/
theorem locate?_constant (hp : Served rs p) {c : Constant} (hc : c ∈ p.constants) :
    ∃ i, Segment.locate? c.address = some (⟨.constant, c.literal.type⟩, i) ∧
      i < p.count ⟨.constant, c.literal.type⟩ := by
  have hmem : c ∈ Constant.number [] (literals rs).eraseDups := by
    rw [← hp.constants]
    exact Array.mem_toList_iff.mpr hc
  obtain ⟨i, haddress, hi⟩ := Constant.mem_number hmem
  rw [List.nil_append, ← hp.count_constant] at hi
  have hsize : i < Segment.size := by
    rw [hp.count] at hi
    exact Nat.lt_of_lt_of_le hi (hp.fits _)
  refine ⟨i, ?_, hi⟩
  rw [haddress]
  exact Segment.locate?_base (base?_literal _) hsize

/-- Constants have cells. -/
theorem covers_constant (hp : Served rs p) (h : p.Within o) {c : Constant} (hc : c ∈ p.constants) :
    o.Covers frame c.address := by
  obtain ⟨i, hlocate, hi⟩ := locate?_constant hp hc
  exact ⟨_, i, hlocate, Nat.lt_of_lt_of_le hi (h _ (mem_programWide_literal _))⟩

/-- Cells of their own are covered. -/
theorem covers_cell {s : Segment} (hs : isOwned s) {base a : Address} (hbase : s.base? = some base)
    (hp : Served rs p) (ha : p.assign s none = .ok (a, p')) (h : p'.Within o) :
    o.Covers frame a ∧ ∃ i, Segment.locate? a = some (s, i) := by
  obtain ⟨rfl, hp', -⟩ := hp.cell hs hbase ha
  have hlt : demand rs s < demand (rs ++ [Request.cell s]) s := by
    rw [demand_cell, if_pos rfl]
    omega
  have hsize := Nat.lt_of_lt_of_le hlt (hp'.fits s)
  have hlocate := Segment.locate?_base hbase hsize
  have hglobal : s.isLocal = false := by
    rcases hs with hs | hs <;> simp [Segment.isLocal, hs]
  have hwide : s ∈ Segment.programWide := by
    have hlayout : s ∈ Segment.layout := by
      obtain ⟨i, hi, -⟩ := Option.map_eq_some_iff.mp hbase
      rw [← List.isSome_idxOf?, hi]
      rfl
    simpa [Segment.programWide, hglobal] using hlayout
  have hcells := h s hwide
  rw [hp'.count] at hcells
  refine ⟨⟨s, demand rs s, hlocate, ?_⟩, demand rs s, hlocate⟩
  rw [hglobal]
  exact Nat.lt_of_lt_of_le hlt hcells

/-- Variables have cells where they can be used. -/
theorem Placed.covers {stack : List Routine} {v : Variable} (h : Placed o stack v) :
    o.Covers (stack.head?.map Routine.frame) v.address := by
  refine ⟨v.segment, v.index, h.locate?, ?_⟩
  cases h with
  | global lifetime fits cell =>
    rw [if_neg (by simp [Segment.isLocal, Variable.segment, lifetime])]
    exact cell
  | call lifetime fits cell =>
    rw [if_pos (by simp [Segment.isLocal, Variable.segment, lifetime])]
    refine ⟨_, rfl, ?_⟩
    rw [Routine.frame, Variable.segment, frameCount_ofNames]
    exact cell

/-! ## Quadruples -/

/-- A quadruple that is not an operator and uses its left operand at most. -/
theorem sized_left {op : Opcode} {a b c : Address} (hop : op.isOperator = false)
    (hassign : op ≠ .assign) (ha : o.Covers frame a) : Quadruple.Sized o frame ⟨op, a, b, c⟩ := by
  refine ⟨fun x hx => ?_, fun h => ?_, fun h => absurd h hassign⟩
  · have hleft : x = a := by
      cases op with
      | print | gotoFalse | gotoTrue | param | allocate | call =>
        simpa [Quadruple.addresses] using hx
      | goto | leave => simp [Quadruple.addresses] at hx
      | assign => exact absurd rfl hassign
      | _ => cases hop
    rw [hleft]
    exact ha
  · rw [show op.isOperator = true from h] at hop
    cases hop

/-- A quadruple that uses no address. -/
theorem sized_goto {a b c : Address} : Quadruple.Sized o frame ⟨.goto, a, b, c⟩ :=
  ⟨by simp [Quadruple.addresses], nofun, nofun⟩

theorem Quadruple.addresses_of_isOperator {q : Quadruple} (h : q.op.isOperator = true) :
    q.addresses = [q.left, q.right, q.result] := by
  obtain ⟨op, a, b, c⟩ := q
  cases op with
  | add | sub | mul | div | lt | gt | le | ge | eq | ne => rfl
  | _ => cases h

/-! ## Expressions -/

/-- The operand and the code of an expression are sized. -/
structure Computed.Sized (o : ObjectFile) (frame : Option FrameSize) (a : Computed) : Prop where
  operand : o.Covers frame a.operand.address
  code : ∀ q ∈ a.code, q.Sized o frame

/-- An operator writes a result of its own. -/
theorem sized_operation {op : Operator} (hop : op ≠ .assign) {left right : Operand}
    {code : List Quadruple} {a : Computed} (hp : Served rs p)
    (ha : p.operation op left right code = .ok a) (hl : Typing.isOperable left.type = true)
    (hr : Typing.isOperable right.type = true) (hleft : o.Covers frame left.address)
    (hright : o.Covers frame right.address) (hcode : ∀ q ∈ code, q.Sized o frame)
    (hwithin : a.planner.Within o) : a.Sized o frame := by
  obtain ⟨τ, b, p', hτ, hb, rfl⟩ := operation_eq_ok.mp ha
  obtain ⟨σ, hσ, hoperable⟩ := operable_result hop hl hr
  obtain rfl : σ = τ := Option.some.inj (hσ.symm.trans hτ)
  obtain ⟨base, hbase⟩ := base?_temporary hoperable
  obtain ⟨hcovers, i, hplace⟩ : o.Covers frame b ∧ _ := covers_cell (.inr rfl) hbase hp hb hwithin
  have hoperator := Operator.isOperator_opcode hop
  refine ⟨hcovers, List.forall_mem_append.mpr ⟨hcode, List.forall_mem_singleton.mpr ⟨?_, ?_, ?_⟩⟩⟩
  · rw [Quadruple.addresses_of_isOperator hoperator]
    simp only [List.forall_mem_cons, List.not_mem_nil, false_implies, implies_true, and_true]
    exact ⟨hleft, hright, hcovers⟩
  · intro _
    exact ⟨σ, i, hplace⟩
  · intro h
    rw [show op.opcode = .assign from h] at hoperator
    cases hoperator

variable {Γ : Scope} {env : Environment} {stack : List Routine}

/-- A literal has a cell and no code. -/
theorem sized_literal {l : Literal} {a : Computed} (hp : Served rs p) (ha : p.literal l = .ok a)
    (hwithin : a.planner.Within o) : a.Sized o frame := by
  obtain ⟨-, hserved, -, hcode, hmem⟩ := served_literal hp ha
  refine ⟨covers_constant hserved hwithin hmem, ?_⟩
  rw [hcode]
  simp

/-- The code of an expression is sized. -/
theorem sized_tree (henv : env.Knows Γ) (hΓ : ∀ {x v}, Γ x = some v → Placed o stack v) {r : Rank}
    (e : Tree r) {a : Computed} (hp : Served rs p) (ha : e.lower env p = .ok a)
    (hwithin : a.planner.Within o) : a.Sized o (stack.head?.map Routine.frame) := by
  induction e generalizing rs p a with
  | int n | float x => exact sized_literal hp ha hwithin
  | name x =>
    obtain ⟨b, hb, ha⟩ := Except.bind_eq_ok.mp ha
    cases ha
    obtain ⟨v, hx, rfl⟩ := henv.find hb
    exact ⟨(hΓ hx).covers, by simp⟩
  | group e ih | ofFactor e ih | ofTerm e ih | ofSum e ih => exact ih hp ha hwithin
  | signed negative e ih =>
    obtain ⟨b, hb, ha⟩ := Except.bind_eq_ok.mp ha
    obtain ⟨d, hd, ha⟩ := Except.bind_eq_ok.mp ha
    have hcb := computes henv e hp hb
    obtain ⟨htype, hserved, -⟩ := served_literal hcb.served hd
    have htd : Typing.isOperable d.operand.type = true := by
      rw [htype]
      rfl
    obtain ⟨-, hserved', -⟩ := served_operation hserved (by decide) hcb.operable htd ha
    have hwd := hwithin.before hserved hserved'
    have hsb := ih hp hb (hwd.before hcb.served hserved)
    have hsd : d.Sized o (stack.head?.map Routine.frame) := sized_literal hcb.served hd hwd
    exact sized_operation (by decide) hserved ha hcb.operable htd hsb.operand hsd.operand
      hsb.code hwithin
  | product l op hop r ihl ihr | addition l op hop r ihl ihr | comparison l op hop r ihl ihr =>
    obtain ⟨b, hb, ha⟩ := Except.bind_eq_ok.mp ha
    obtain ⟨d, hd, ha⟩ := Except.bind_eq_ok.mp ha
    have hassign : op ≠ .assign := by
      rintro rfl
      cases hop
    have hcb := computes henv l hp hb
    have hcd := computes henv r hcb.served hd
    obtain ⟨-, hserved, -⟩ := served_operation hcd.served hassign hcb.operable hcd.operable ha
    have hwd := hwithin.before hcd.served hserved
    have hsb := ihl hp hb (hwd.before hcb.served hcd.served)
    have hsd := ihr hcb.served hd hwd
    exact sized_operation hassign hcd.served ha hcb.operable hcd.operable hsb.operand hsd.operand
      (List.forall_mem_append.mpr ⟨hsb.code, hsd.code⟩) hwithin

/-! ## Statements -/

private theorem sized_items (henv : env.Knows Γ) (hΓ : ∀ {x v}, Γ x = some v → Placed o stack v)
    {is : List Item} {l : Laid} (hp : Served rs p) (h : Item.Lowers env is p l)
    (hwithin : l.planner.Within o) : ∀ q ∈ l.code, q.Sized o (stack.head?.map Routine.frame) := by
  induction h generalizing rs with
  | nil p => simp
  | @cons i is p a l first more ih =>
    have hserved := (serves_item henv hp first).2.served
    have hwa := hwithin.before hserved (serves_items henv hserved more).2.served
    have hsized : a.Sized o (stack.head?.map Routine.frame) := by
      cases i with
      | text s => exact sized_literal hp first hwa
      | value e => exact sized_tree henv hΓ e hp first hwa
    simp only [List.forall_mem_append, List.forall_mem_singleton]
    exact ⟨⟨hsized.code, sized_left rfl (by decide) hsized.operand⟩, ih hserved hwithin⟩

private theorem sized_arguments (henv : env.Knows Γ) (hΓ : ∀ {x v}, Γ x = some v → Placed o stack v)
    {es : List Expression} {k : Nat} {l : Laid} {types : List ValueType} (hp : Served rs p)
    (h : Tree.LowersArguments env k es p l types) (hwithin : l.planner.Within o) :
    ∀ q ∈ l.code, q.Sized o (stack.head?.map Routine.frame) := by
  induction h generalizing rs with
  | nil k p => simp
  | cons first more ih =>
    have hserved := (computes henv _ hp first).served
    have hwa := hwithin.before hserved (serves_arguments henv hserved more).2.2.served
    have hsized := sized_tree henv hΓ _ hp first hwa
    simp only [List.forall_mem_append, List.forall_mem_cons]
    exact ⟨hsized.code, sized_left rfl (by decide) hsized.operand, ih hserved hwithin⟩

/-- The code of a statement or a block is sized. -/
theorem sized_phrase {callable : List Routine} (henv : env.Knows Γ) (hcalls : env.Calls callable)
    (hΓ : ∀ {x v}, Γ x = some v → Placed o stack v)
    (hcallable : ∀ r ∈ callable, o.Covers (stack.head?.map Routine.frame) r.id) {r : Role}
    {s : Phrase r} {start : Nat} {l : Laid} (hp : Served rs p) (h : s.Lowers env start p l)
    (hwithin : l.planner.Within o) : ∀ q ∈ l.code, q.Sized o (stack.head?.map Routine.frame) := by
  induction h generalizing rs with
  | assign name value type =>
    have hsized := sized_tree henv hΓ _ hp value hwithin
    obtain ⟨v, hx, rfl⟩ := henv.find name
    have hv := hΓ hx
    refine List.forall_mem_append.mpr ⟨hsized.code, List.forall_mem_singleton.mpr ⟨?_, nofun,
      fun _ => ?_⟩⟩
    · simp only [Quadruple.addresses, List.forall_mem_cons, List.not_mem_nil, false_implies,
        implies_true, and_true]
      exact ⟨hsized.operand, hv.covers⟩
    · refine ⟨_, _, hv.locate?, ?_⟩
      cases hv with
      | global lifetime => exact .inl lifetime
      | call lifetime => exact .inr lifetime
  | branch guard bool body ih =>
    have hserved := (computes henv _ hp guard).served
    have hwa := hwithin.before hserved (serves henv hcalls hserved body).2.served
    have hsized := sized_tree henv hΓ _ hp guard hwa
    simp only [List.forall_mem_append, List.forall_mem_cons]
    exact ⟨hsized.code, sized_left rfl (by decide) hsized.operand, ih hserved hwithin⟩
  | choice guard bool body other ihb iho =>
    have hserved := (computes henv _ hp guard).served
    have hserved' := (serves henv hcalls hserved body).2.served
    have hwl := hwithin.before hserved' (serves henv hcalls hserved' other).2.served
    have hsized := sized_tree henv hΓ _ hp guard (hwl.before hserved hserved')
    simp only [List.forall_mem_append, List.forall_mem_cons]
    exact ⟨⟨hsized.code, sized_left rfl (by decide) hsized.operand, ihb hserved hwl⟩, sized_goto,
      iho hserved' hwithin⟩
  | loop body guard bool ih =>
    have hserved := (serves henv hcalls hp body).2.served
    have hsized := sized_tree henv hΓ _ hserved guard hwithin
    have hwl := hwithin.before hserved (computes henv _ hserved guard).served
    simp only [List.forall_mem_append, List.forall_mem_singleton]
    exact ⟨⟨ih hp hwl, hsized.code⟩, sized_left rfl (by decide) hsized.operand⟩
  | call callee arguments count checked body =>
    obtain ⟨r, hr, rfl, rfl⟩ := hcalls.find callee
    have hid := hcallable r hr
    rw [List.forall_mem_append, List.forall_mem_cons, List.forall_mem_singleton]
    exact ⟨⟨sized_left rfl (by decide) hid, sized_arguments henv hΓ hp arguments hwithin⟩,
      sized_left rfl (by decide) hid⟩
  | print items => exact sized_items henv hΓ hp items hwithin
  | nil start p => simp
  | cons first more ihfirst ihmore =>
    have hserved := (serves henv hcalls hp first).2.served
    have hwl := hwithin.before hserved (serves henv hcalls hserved more).2.served
    exact List.forall_mem_append.mpr ⟨ihfirst hp hwl, ihmore hserved hwithin⟩

end

end Quadlet
