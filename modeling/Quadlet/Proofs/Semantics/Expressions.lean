import Quadlet.Proofs.Machine.Steps
import Quadlet.Proofs.Semantics.Mirror

/-!
# Code of expressions

The code of an expression does what the interpreter does: it leaves the value of the expression
where the operand says, or fails like the interpreter. It writes only cells for results that were
not handed out before, so results that wait for their operator stay.
-/

namespace Quadlet

open Syntax Request Planner

/-! ## Cells of an object file -/

/-- A memory map states what a planner has counted. -/
theorem Planner.cells_memoryMap {p : Planner} {s : Segment} (hs : s ∈ Segment.programWide) :
    p.memoryMap.cells s = p.count s := by
  have hnodup : ((Segment.programWide.map fun s => (⟨s, p.count s⟩ : SegmentSize)).map
      SegmentSize.segment).Nodup := by
    rw [List.map_map]
    change (Segment.programWide.map id).Nodup
    decide
  have hfind := find?_of_nodup SegmentSize.segment hnodup (List.mem_map_of_mem hs)
  rw [MemoryMap.cells, memoryMap, hfind]
  rfl

/-- An object file has the cells for some requests, and maybe for more. -/
def ObjectFile.Supplies (o : ObjectFile) (rs : List Request) : Prop :=
  ∃ more p, Served (rs ++ more) p ∧ o.memory = p.memoryMap ∧ o.constants = p.constants.toList

namespace ObjectFile.Supplies

variable {o : ObjectFile} {rs ss : List Request}

theorem of_append (h : o.Supplies (rs ++ ss)) : o.Supplies rs := by
  obtain ⟨more, p, hserved, hmemory, hconstants⟩ := h
  exact ⟨ss ++ more, p, by rw [← List.append_assoc]; exact hserved, hmemory, hconstants⟩

/-- There are no fewer cells than requests demand, and not more than a segment has. -/
theorem demand_le (h : o.Supplies rs) {s : Segment} (hs : s ∈ Segment.programWide) :
    demand rs s ≤ o.memory.cells s ∧ demand rs s ≤ Segment.size := by
  obtain ⟨more, p, hserved, hmemory, -⟩ := h
  have hle := demand_le_append rs more s
  rw [hmemory, cells_memoryMap hs, hserved.count]
  exact ⟨hle, Nat.le_trans hle (hserved.fits s)⟩

/-- The literals of a planner on the way are constants of the object file. -/
theorem constants (h : o.Supplies rs) {p : Planner} (hp : Served rs p) {c : Constant}
    (hc : c ∈ p.constants) : c ∈ o.constants := by
  obtain ⟨more, q, hserved, -, hconstants⟩ := h
  rw [hconstants, hserved.constants, literals_append, List.eraseDups_append, Constant.number_append]
  apply List.mem_append_left
  rw [← hp.constants]
  exact Array.mem_toList_iff.mpr hc

end ObjectFile.Supplies

/-! ## Results -/

/-- The ways in which the code of an object file can fail. -/
inductive Trap (o : ObjectFile) : Error → Prop where
  | operation {e : Error} (h : Value.Failure e) : Trap o e
  | unwritten {stack : List Routine} {v : Variable} (h : Placed o stack v) :
    Trap o (.unwritten v.address)

/-- The cells for results that were handed out keep their values. -/
def Keeps (rs : List Request) (m m' : Memory) : Prop := ∀ τ i, i < demand rs ⟨.temporary, τ⟩ →
  m'.peek ⟨.temporary, τ⟩ i = m.peek ⟨.temporary, τ⟩ i

private theorem Keeps.trans {rs ss : List Request} {m m' m'' : Memory} (h : Keeps rs m m')
    (h' : Keeps (rs ++ ss) m' m'') : Keeps rs m m'' := by
  intro τ i hi
  exact (h' τ i (Nat.lt_of_lt_of_le hi (demand_le_append rs ss _))).trans (h τ i hi)

/-- What an expression leaves behind is found through an operand, behind some requests. -/
inductive Leaves (o : ObjectFile) (stack : List Routine) (rs : List Request) (m : Memory) :
    Operand → Reading → Prop where
  | literal {l : Literal} {a : Address} (h : ⟨a, l⟩ ∈ o.constants) :
    Leaves o stack rs m ⟨a, l.type⟩ (.value l.value)
  | result {a : Address} {i : Nat} {x : Value}
    (place : Segment.locate? a = some (⟨.temporary, x.type⟩, i))
    (old : i < demand rs ⟨.temporary, x.type⟩) (here : m.peek ⟨.temporary, x.type⟩ i = some x) :
      Leaves o stack rs m ⟨a, x.type⟩ (.value x)
  | cell {v : Variable} (h : Placed o stack v) : Leaves o stack rs m v.operand (.cell v)

namespace Leaves

variable {o : ObjectFile} {stack : List Routine} {waiting : List Frame} {w : World} {m m' : Memory}
  {rs ss : List Request} {a : Operand} {r : Reading} {x : Value} {e : Error}

/-- What is left behind stays while further results are written. -/
theorem keep (h : Leaves o stack rs m a r) (hkeeps : Keeps rs m m') :
    Leaves o stack (rs ++ ss) m' a r := by
  cases h with
  | literal h => exact .literal h
  | result place old here =>
    exact .result place (Nat.lt_of_lt_of_le old (demand_le_append rs ss _))
      ((hkeeps _ _ old).trans here)
  | cell h => exact .cell h

/-- The machine reads what the interpreter fetches. -/
theorem read (h : Leaves o stack rs m a r) (hm : Mirrors o stack waiting w m) :
    m.read a.address = w.fetch r := by
  cases h with
  | literal h => exact (hm.constants h).read
  | result place _ here =>
    rw [Memory.read_global place rfl, here]
    rfl
  | cell h => exact hm.read h

/-- What is fetched has the type of the operand. -/
theorem type (h : Leaves o stack rs m a r) (hx : w.fetch r = .ok x) : x.type = a.type := by
  cases h with
  | @literal l _ h =>
    cases hx
    cases l <;> rfl
  | result =>
    cases hx
    rfl
  | cell h => exact World.type_read hx

/-- Fetching fails on variables that were not written. -/
theorem trap (h : Leaves o stack rs m a r) (he : w.fetch r = .error e) : Trap o e := by
  cases h with
  | literal h => cases he
  | result => cases he
  | @cell v h =>
    have hread : w.read v = .error e := he
    rw [World.read_eq] at hread
    cases hv : w.find? v with
    | none =>
      rw [hv] at hread
      cases hread
      exact .unwritten h
    | some y =>
      rw [hv] at hread
      cases hread

end Leaves

/-! ## Runs of straight code -/

section

variable {ω α β : Type} (printer : Printer ω) (o : ObjectFile)

/-- Straight code of a length from a place on does what a computation does: it leads to a memory
with a property, or fails like the computation. -/
def Yields (c : Config ω) (n : Nat) (post : α → Memory → Prop) : Except Error α → Prop
  | .ok a => ∃ m, Config.Goes printer o.quadruples n c (c.move m (c.ip + n)) ∧ post a m
  | .error e => Trap o e ∧ ∃ k, Config.Fails printer o.quadruples k c e c.out

variable {printer o} {c : Config ω} {n n' : Nat} {x : Except Error α}

private theorem Yields.imp {post post' : α → Memory → Prop} (h : Yields printer o c n post x)
    (himp : ∀ a m, post a m → post' a m) : Yields printer o c n post' x := by
  cases x with
  | error e => exact h
  | ok a =>
    obtain ⟨m, hgoes, hpost⟩ := h
    exact ⟨m, hgoes, himp a m hpost⟩

/-- Computations one after the other are done by code one behind the other. -/
theorem Yields.bind {f : α → Except Error β} {post : α → Memory → Prop} {post' : β → Memory → Prop}
    (h : Yields printer o c n post x)
    (hnext : ∀ a m, post a m → Yields printer o (c.move m (c.ip + n)) n' post' (f a)) :
    Yields printer o c (n + n') post' (x >>= f) := by
  cases x with
  | error e => exact h
  | ok a =>
    obtain ⟨m, hgoes, hpost⟩ := h
    have hthen := hnext a m hpost
    rw [Except.ok_bind]
    cases hf : f a with
    | error e =>
      rw [hf] at hthen
      obtain ⟨htrap, k, hfails⟩ := hthen
      exact ⟨htrap, n + k, hgoes.fails hfails⟩
    | ok b =>
      rw [hf] at hthen
      obtain ⟨m', hgoes', hpost'⟩ := hthen
      refine ⟨m', ?_, hpost'⟩
      have hboth := hgoes.trans hgoes'
      rw [← Nat.add_assoc]
      exact hboth

/-- Code of no length leaves everything as it is. -/
theorem Yields.ok {post : α → Memory → Prop} {a : α} (h : post a c.memory) :
    Yields printer o c 0 post (.ok a) := ⟨c.memory, .refl c, h⟩

end

/-! ## Operators -/

/-- What is known behind the code of an expression: the results that were handed out before are
kept, and the operand shows what the expression leaves behind. -/
structure Evaluated (o : ObjectFile) (stack : List Routine) (waiting : List Frame) (w : World)
    (rs rs' : List Request) (m : Memory) (a : Operand) (r : Reading) (m' : Memory) : Prop where
  mirrors : Mirrors o stack waiting w m'
  keeps : Keeps rs m m'
  leaves : Leaves o stack rs' m' a r

section

variable {ω : Type} {printer : Printer ω} {o : ObjectFile} {stack : List Routine}
  {waiting : List Frame} {w : World} {rs : List Request} {c : Config ω}

/-- The results of a type that operators give live as long as the program. -/
theorem mem_programWide {τ : ValueType} (hτ : Typing.isOperable τ = true) :
    ⟨.temporary, τ⟩ ∈ Segment.programWide := by
  cases τ <;> first | decide | cases hτ

/-- The cell for a result of an operator is free and can be written. -/
theorem Mirrors.write_result {m : Memory} (hm : Mirrors o stack waiting w m) {x : Value}
    {b base : Address} (hx : Typing.isOperable x.type = true)
    (hbase : Segment.base? ⟨.temporary, x.type⟩ = some base)
    (hb : b = base + demand rs ⟨.temporary, x.type⟩)
    (hsupplies : o.Supplies (rs ++ [Request.cell ⟨.temporary, x.type⟩])) :
    ∃ m', m.write b x = .ok m' ∧
    Evaluated o stack waiting w rs (rs ++ [Request.cell ⟨.temporary, x.type⟩]) m
      ⟨b, x.type⟩ (.value x) m' := by
  have hwide := mem_programWide hx
  have hdemand := hsupplies.demand_le hwide
  rw [demand_cell, if_pos rfl] at hdemand
  have hplace : Segment.locate? b = some (⟨.temporary, x.type⟩,
      demand rs ⟨.temporary, x.type⟩) := by
    rw [hb]
    exact Segment.locate?_base hbase (by omega)
  obtain ⟨m', hm', hwrote⟩ :=
    Memory.write_global hplace rfl (hm.block hwide) (by omega) x.coerce_type
  refine ⟨m', hm', hm.wrote hwrote, ?_, .result hplace ?_ hwrote.here⟩
  · intro τ i hi
    apply hwrote.elsewhere
    rintro ⟨hτ, rfl⟩
    cases hτ
    omega
  · rw [demand_cell, if_pos rfl]
    omega

/-- An operator does on operands what it does on what they stand for. -/
theorem yields_operation {p : Planner} {op : Operator} (hop : op ≠ .assign) {left right : Operand}
    {l r : Reading} {code : List Quadruple} {a : Computed} (hp : Served rs p)
    (ha : p.operation op left right code = .ok a)
    (hleft : Typing.isOperable left.type = true) (hright : Typing.isOperable right.type = true)
    (hsupplies : o.Supplies (rs ++ [Request.cell ⟨.temporary, a.operand.type⟩]))
    (hq : o.quadruples[c.ip]? = some ⟨op.opcode, left.address, right.address, a.operand.address⟩)
    (hm : Mirrors o stack waiting w c.memory) (hl : Leaves o stack rs c.memory left l)
    (hr : Leaves o stack rs c.memory right r) :
    Yields printer o c 1
      (Evaluated o stack waiting w rs (rs ++ [Request.cell ⟨.temporary, a.operand.type⟩])
        c.memory a.operand)
      (w.apply op l r) := by
  obtain ⟨τ, b, p', hτ, hb, rfl⟩ := operation_eq_ok.mp ha
  obtain ⟨σ, hσ, hoperable⟩ := operable_result hop hleft hright
  obtain rfl : σ = τ := Option.some.inj (hσ.symm.trans hτ)
  obtain ⟨base, hbase⟩ := base?_temporary hoperable
  obtain ⟨haddress, -, -⟩ := hp.cell (.inr rfl) hbase hb
  have hgoes {m : Memory} (hm : c.memory.operate op.opcode left.address right.address b = .ok m) :
      Config.Goes printer o.quadruples 1 c (c.move m (c.ip + 1)) :=
    Config.goes_changed (Memory.operate op.opcode left.address right.address b) hq
      (fun m out => Machine.step_operation m out hop ..) hm
  have hfails {e : Error}
      (he : c.memory.operate op.opcode left.address right.address b = .error e) :
      Config.Fails printer o.quadruples 1 c e c.out :=
    Config.fails_changed (Memory.operate op.opcode left.address right.address b) hq
      (fun m out => Machine.step_operation m out hop ..) he
  rw [World.apply]
  cases hx : w.fetch l with
  | error e =>
    refine ⟨hl.trap hx, 1, hfails ?_⟩
    rw [Memory.operate, hl.read hm, hx]
    rfl
  | ok x =>
    rw [Except.ok_bind]
    cases hy : w.fetch r with
    | error e =>
      refine ⟨hr.trap hy, 1, hfails ?_⟩
      rw [Memory.operate, hl.read hm, hx, hr.read hm, hy]
      rfl
    | ok y =>
      rw [Except.ok_bind]
      have hgives : Value.Gives σ (Value.binary op.opcode x y) := by
        have hgives :=
          Value.gives_binary ((hl.type hx).symm ▸ hleft) ((hr.type hy).symm ▸ hright) hop
        rw [hl.type hx, hr.type hy, hσ] at hgives
        exact hgives
      cases hv : Value.binary op.opcode x y with
      | error e =>
        rw [hv] at hgives
        refine ⟨.operation hgives, 1, hfails ?_⟩
        rw [Memory.operate, hl.read hm, hx, hr.read hm, hy, Except.ok_bind, Except.ok_bind, hv]
        rfl
      | ok v =>
        rw [hv] at hgives
        obtain rfl : v.type = σ := hgives
        obtain ⟨m', hwrite, hevaluated⟩ := hm.write_result hoperable hbase haddress hsupplies
        refine ⟨m', hgoes ?_, hevaluated⟩
        rw [Memory.operate, hl.read hm, hx, hr.read hm, hy, Except.ok_bind, Except.ok_bind, hv]
        exact hwrite

/-- An operator stands behind its operands, of which the left one was kept by the
code of the right one. -/
theorem Evaluated.operation {p : Planner} {op : Operator} (hop : op ≠ .assign)
    {left right : Operand} {l r : Reading} {code : List Quadruple} {a : Computed}
    {ls ls' : List Request} {m m' : Memory}
    (hl : Evaluated o stack waiting w rs (rs ++ ls) m left l m')
    (hr : Evaluated o stack waiting w (rs ++ ls) (rs ++ ls ++ ls') m' right r c.memory)
    (hp : Served (rs ++ ls ++ ls') p) (ha : p.operation op left right code = .ok a)
    (hleft : Typing.isOperable left.type = true) (hright : Typing.isOperable right.type = true)
    (hsupplies : o.Supplies (rs ++ ls ++ ls' ++ [Request.cell ⟨.temporary, a.operand.type⟩]))
    (hq : o.quadruples[c.ip]? = some ⟨op.opcode, left.address, right.address, a.operand.address⟩) :
    Yields printer o c 1
      (Evaluated o stack waiting w rs
        (rs ++ ls ++ ls' ++ [Request.cell ⟨.temporary, a.operand.type⟩]) m a.operand)
      (w.apply op l r) := by
  have hkept : Leaves o stack (rs ++ ls ++ ls') c.memory left l := hl.leaves.keep hr.keeps
  apply (yields_operation hop hp ha hleft hright hsupplies hq hr.mirrors hkept hr.leaves).imp
  intro x m'' h
  exact ⟨h.mirrors, hl.keeps.trans (hr.keeps.trans h.keeps), h.leaves⟩

/-- The quadruple of an operator stands behind the code of its operands. -/
theorem operation_code {p : Planner} {op : Operator} {left right : Operand} {code : List Quadruple}
    {a : Computed} (h : p.operation op left right code = .ok a) :
    a.code = code ++ [⟨op.opcode, left.address, right.address, a.operand.address⟩] := by
  obtain ⟨τ, b, p', -, -, rfl⟩ := operation_eq_ok.mp h
  rfl

/-- A literal is found in its cell; it has no code. -/
theorem evaluated_literal {p : Planner} {l : Literal} {a : Computed} {m : Memory} (hp : Served rs p)
    (ha : p.literal l = .ok a) (hsupplies : o.Supplies (rs ++ [Request.literal l]))
    (hm : Mirrors o stack waiting w m) :
    a.code = [] ∧ Evaluated o stack waiting w rs (rs ++ [Request.literal l]) m a.operand
      (.value l.value) m := by
  obtain ⟨htype, hserved, -, hcode, hmem⟩ := served_literal hp ha
  refine ⟨hcode, hm, fun _ _ _ => rfl, ?_⟩
  have hleaves : Leaves o stack (rs ++ [Request.literal l]) m ⟨a.operand.address, l.type⟩
      (.value l.value) :=
    .literal (hsupplies.constants hserved hmem)
  rw [← htype] at hleaves
  exact hleaves

variable {Γ : Scope} {env : Environment}

/-- The code of an expression does what the interpreter does. -/
theorem yields_expression {rank : Rank} (henv : env.Knows Γ)
    (hΓ : ∀ {x v}, Γ x = some v → Placed o stack v) (e : Tree rank) {p : Planner} {a : Computed}
    (hp : Served rs p) (ha : e.lower env p = .ok a) (hsupplies : o.Supplies (rs ++ e.requests Γ))
    (hcode : CodeAt o.quadruples c.ip a.code) (hm : Mirrors o stack waiting w c.memory) :
    Yields printer o c a.code.length
      (Evaluated o stack waiting w rs (rs ++ e.requests Γ) c.memory a.operand) (e.eval Γ w) := by
  induction e generalizing rs p a c with
  | int n | float x =>
    obtain ⟨hempty, hevaluated⟩ := evaluated_literal hp ha hsupplies hm
    rw [hempty]
    exact Yields.ok hevaluated
  | name x =>
    obtain ⟨b, hb, ha⟩ := Except.bind_eq_ok.mp ha
    cases ha
    obtain ⟨v, hx, rfl⟩ := henv.find hb
    rw [Tree.eval, hx]
    exact Yields.ok ⟨hm, fun _ _ _ => rfl, .cell (hΓ hx)⟩
  | group e ih | ofFactor e ih | ofTerm e ih | ofSum e ih => exact ih hp ha hsupplies hcode hm
  | signed negative e ih =>
    obtain ⟨b, hb, ha⟩ := Except.bind_eq_ok.mp ha
    obtain ⟨d, hd, ha⟩ := Except.bind_eq_ok.mp ha
    have hcb := computes henv e hp hb
    obtain ⟨htype, hserved, -⟩ := served_literal hcb.served hd
    have htd : Typing.isOperable d.operand.type = true := by
      rw [htype]
      rfl
    obtain ⟨hresult, -⟩ := served_operation hserved (by decide) hcb.operable htd ha
    rw [hcb.type_eq, htype] at hresult
    have hrequests : rs ++ (Tree.signed negative e).requests Γ = rs ++ e.requests Γ ++
        [Request.literal (.int (if negative then -1 else 1))] ++
          [Request.cell ⟨.temporary, a.operand.type⟩] := by
      rw [hresult]
      simp [Tree.requests, Tree.type, Literal.type]
    rw [operation_code ha] at hcode ⊢
    rw [hrequests] at hsupplies ⊢
    rw [List.length_append]
    apply (ih hp hb hsupplies.of_append.of_append hcode.left hm).bind
    intro x m hx
    obtain ⟨-, hsign⟩ := evaluated_literal hcb.served hd hsupplies.of_append hx.mirrors
    exact hx.operation (by decide) hsign hserved ha hcb.operable htd hsupplies hcode.right.head
  | product l op hop r ihl ihr | addition l op hop r ihl ihr | comparison l op hop r ihl ihr =>
    obtain ⟨b, hb, ha⟩ := Except.bind_eq_ok.mp ha
    obtain ⟨d, hd, ha⟩ := Except.bind_eq_ok.mp ha
    have hassign : op ≠ .assign := by
      rintro rfl
      cases hop
    have hcb := computes henv l hp hb
    have hcd := computes henv r hcb.served hd
    obtain ⟨htype, -⟩ := computes_operation hassign hcb hcd ha
    have hrequests : rs ++ (l.requests Γ ++ r.requests Γ ++
        [Request.cell ⟨.temporary, (Typing.result? op (l.type Γ) (r.type Γ)).getD .void⟩]) =
        rs ++ l.requests Γ ++ r.requests Γ ++ [Request.cell ⟨.temporary, a.operand.type⟩] := by
      rw [htype]
      simp
    rw [operation_code ha, List.append_assoc] at hcode ⊢
    simp only [Tree.requests, Tree.type, hrequests] at hsupplies ⊢
    rw [List.length_append]
    apply (ihl hp hb hsupplies.of_append.of_append hcode.left hm).bind
    intro x m hx
    rw [List.length_append]
    apply (ihr hcb.served hd hsupplies.of_append hcode.right.left hx.mirrors).bind
    intro y m' hy
    exact hx.operation hassign hy hcd.served ha hcb.operable hcd.operable hsupplies
      hcode.right.right.head

end

end Quadlet
