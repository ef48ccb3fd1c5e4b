import Quadlet.Proofs.Machine.Steps
import Quadlet.Proofs.Static.Statements

/-!
# The flow of lowered code

Where the quadruples of a statement can lead. Jumps stay in the statement: those of `if` go forward,
those of `while` backward, and none of them ends inside an expression or a call. The frame of a call
is made, filled and entered by quadruples that stand one behind the other.
-/

namespace Quadlet

open Syntax

/-! ## Places -/

/-- The opcodes of operators. -/
def Opcode.isOperator : Opcode → Bool
  | .add | .sub | .mul | .div | .lt | .gt | .le | .ge | .eq | .ne => true
  | _ => false

theorem Operator.isOperator_opcode {op : Operator} (h : op ≠ .assign) :
    op.opcode.isOperator = true := by
  cases op with
  | assign => exact absurd rfl h
  | _ => rfl

/-- Whether a statement goes on behind the opcode: an expression or a call is not complete there. -/
def Opcode.continues (op : Opcode) : Bool := op.isOperator || op == .allocate || op == .param

/-- A place behind a quadruple that ends a statement or a guard. -/
def Landing (program : Array Quadruple) (t : Nat) : Prop :=
  ∃ i q, t = i + 1 ∧ program[i]? = some q ∧ q.op.continues = false

theorem Landing.behind {program : Array Quadruple} {i : Nat} {q : Quadruple}
    (hq : program[i]? = some q) (h : q.op.continues = false) : Landing program (i + 1) :=
  ⟨i, q, rfl, hq, h⟩

/-- The quadruple at a place of code. -/
theorem CodeAt.getElem? {program : Array Quadruple} {i j : Nat} {code : List Quadruple}
    (h : CodeAt program i code) (hj : j < code.length) : program[i + j]? = code[j]? := by
  obtain ⟨front, back, hprogram, rfl⟩ := h
  rw [← Array.getElem?_toList, hprogram, List.append_assoc, List.getElem?_append_right (by omega),
    Nat.add_sub_cancel_left, List.getElem?_append_left hj]

/-- The quadruples of a call of a routine: from the one that makes the frame to the one that enters
it, with the code of the arguments between. -/
def CallSite (program : Array Quadruple) (r : Routine) (first last : Nat) : Prop :=
  ∃ arguments, CodeAt program first
      (⟨.allocate, r.id, unused, unused⟩ :: arguments ++ [⟨.call, r.id, unused, r.start⟩]) ∧
    last = first + arguments.length + 1 ∧
    (∀ q ∈ arguments, q.op.isOperator = true ∨ q.op = .param) ∧
    (arguments.filter fun q => q.op = .param).map Quadruple.result =
      (List.range r.function.parameters.length).map fun k : Nat => (k : Address)

namespace CallSite

variable {program : Array Quadruple} {r : Routine} {j k i : Nat}

theorem lt (h : CallSite program r j k) : j < k := by
  obtain ⟨arguments, -, rfl, -⟩ := h
  omega

theorem first (h : CallSite program r j k) :
    program[j]? = some ⟨.allocate, r.id, unused, unused⟩ := by
  obtain ⟨arguments, hcode, -⟩ := h
  exact hcode.head

theorem last (h : CallSite program r j k) : program[k]? = some ⟨.call, r.id, unused, r.start⟩ := by
  obtain ⟨arguments, hcode, rfl, -⟩ := h
  exact hcode.right.head

theorem between (h : CallSite program r j k) (hj : j < i) (hk : i < k) :
    ∃ q, program[i]? = some q ∧ (q.op.isOperator = true ∨ q.op = .param) := by
  obtain ⟨arguments, hcode, rfl, hstraight, -⟩ := h
  obtain ⟨n, rfl⟩ := Nat.exists_eq_add_of_lt hj
  have hn : n < arguments.length := by omega
  have hget := hcode.left.tail.getElem? hn
  rw [List.getElem?_eq_getElem hn, Nat.add_right_comm] at hget
  exact ⟨_, hget, hstraight _ (List.getElem_mem hn)⟩

/-- No statement ends inside a call. -/
theorem not_landing (h : CallSite program r j k) (hj : j < i) (hk : i ≤ k) :
    ¬Landing program i := by
  rintro ⟨n, q, rfl, hq, hends⟩
  rcases Nat.lt_or_eq_of_le (Nat.le_of_lt_succ hj) with hlt | rfl
  · obtain ⟨q', hq', hop⟩ := h.between hlt (by omega)
    obtain rfl := Option.some.inj (hq.symm.trans hq')
    rcases hop with hop | hop <;> simp [Opcode.continues, hop] at hends
  · obtain rfl := Option.some.inj (hq.symm.trans h.first)
    cases hends

end CallSite

/-! ## The flow of a quadruple -/

/-- Where the quadruple with the index `i` may lead, in a part of the code from `lo` up to `hi`. -/
def Quadruple.Flows (program : Array Quadruple) (callable : List Routine) (lo hi i : Nat)
    (q : Quadruple) : Prop :=
  match q.op with
  | .goto | .gotoFalse => ∃ t : Nat, q.result = t ∧ i < t ∧ t ≤ hi ∧ Landing program t
  | .gotoTrue => ∃ t : Nat, q.result = t ∧ lo ≤ t ∧ t < i ∧ Landing program t
  | .allocate => ∃ r ∈ callable, ∃ k, CallSite program r i k
  | .param => ∃ r ∈ callable, ∃ j k, CallSite program r j k ∧ j < i ∧ i < k
  | .call => ∃ r ∈ callable, ∃ j, CallSite program r j i
  | .leave => False
  | _ => True

/-- All quadruples of a range lead where they may. -/
def Flowing (program : Array Quadruple) (callable : List Routine) (lo hi first past : Nat) : Prop :=
  ∀ i q, first ≤ i → i < past → program[i]? = some q → q.Flows program callable lo hi i

section

variable {program : Array Quadruple} {callable : List Routine} {lo hi i j k : Nat}

private theorem Flowing.empty : Flowing program callable lo hi i i := by
  intro n q hle hlt
  omega

private theorem Flowing.append (h : Flowing program callable lo hi i j)
    (h' : Flowing program callable lo hi j k) : Flowing program callable lo hi i k := by
  intro n q hle hlt hq
  rcases Nat.lt_or_ge n j with hn | hn
  · exact h n q hle hn hq
  · exact h' n q hn hlt hq

private theorem Flowing.single {q : Quadruple} (hq : program[i]? = some q)
    (h : q.Flows program callable lo hi i) : Flowing program callable lo hi i (i + 1) := by
  intro n q' hle hlt hq'
  obtain rfl : n = i := by omega
  obtain rfl := Option.some.inj (hq.symm.trans hq')
  exact h

/-- Operators lead on to the next quadruple. -/
theorem Quadruple.flows_of_isOperator {q : Quadruple} (h : q.op.isOperator = true) :
    q.Flows program callable lo hi i := by
  obtain ⟨op, a, b, c⟩ := q
  cases op with
  | add | sub | mul | div | lt | gt | le | ge | eq | ne => trivial
  | _ => cases h

private theorem Flowing.operators {code : List Quadruple} (hcode : CodeAt program i code)
    (h : ∀ q ∈ code, q.op.isOperator = true) :
    Flowing program callable lo hi i (i + code.length) := by
  intro n q hle hlt hq
  obtain ⟨d, rfl⟩ := Nat.exists_eq_add_of_le hle
  have hd : d < code.length := by omega
  rw [hcode.getElem? hd, List.getElem?_eq_getElem hd] at hq
  cases hq
  exact Quadruple.flows_of_isOperator (h _ (List.getElem_mem hd))

end

/-! ## Expressions -/

section

variable {env : Environment} {p : Planner}

/-- An operator stands behind the operators of its operands. -/
theorem operators_operation {op : Operator} (hop : op ≠ .assign) {left right : Operand}
    {code : List Quadruple} {a : Computed} (hcode : ∀ q ∈ code, q.op.isOperator = true)
    (h : p.operation op left right code = .ok a) :
    a.code ≠ [] ∧ ∀ q ∈ a.code, q.op.isOperator = true := by
  obtain ⟨τ, b, p', -, -, rfl⟩ := operation_eq_ok.mp h
  refine ⟨by simp, fun q hq => ?_⟩
  rcases List.mem_append.mp hq with hq | hq
  · exact hcode q hq
  · rw [List.mem_singleton.mp hq]
    exact Operator.isOperator_opcode hop

/-- The code of an expression consists of operators, and is empty only for a
number or a variable. -/
theorem operators_tree {Γ : Scope} (henv : env.Knows Γ) {r : Rank} (e : Tree r) {a : Computed}
    (h : e.lower env p = .ok a) :
    (a.operand.type = .bool → a.code ≠ []) ∧ ∀ q ∈ a.code, q.op.isOperator = true := by
  induction e generalizing p a with
  | int n | float x =>
    obtain ⟨b, -, h⟩ := Except.bind_eq_ok.mp h
    cases h
    exact ⟨nofun, by simp⟩
  | name x =>
    obtain ⟨b, hb, h⟩ := Except.bind_eq_ok.mp h
    cases h
    refine ⟨fun hbool => ?_, by simp⟩
    obtain ⟨v, -, rfl⟩ := henv.find hb
    have hv : v.type.type = .bool := hbool
    cases hτ : v.type <;> simp [hτ, Numeric.type] at hv
  | group e ih | ofFactor e ih | ofTerm e ih | ofSum e ih => exact ih h
  | signed negative e ih =>
    obtain ⟨b, hb, h⟩ := Except.bind_eq_ok.mp h
    obtain ⟨c, -, h⟩ := Except.bind_eq_ok.mp h
    obtain ⟨hne, hall⟩ := operators_operation (by decide) (ih hb).2 h
    exact ⟨fun _ => hne, hall⟩
  | product l op hop r ihl ihr | addition l op hop r ihl ihr | comparison l op hop r ihl ihr =>
    obtain ⟨b, hb, h⟩ := Except.bind_eq_ok.mp h
    obtain ⟨c, hc, h⟩ := Except.bind_eq_ok.mp h
    have hassign : op ≠ .assign := by
      rintro rfl
      cases hop
    have hboth : ∀ q ∈ b.code ++ c.code, q.op.isOperator = true := by
      intro q hq
      exact (List.mem_append.mp hq).elim ((ihl hb).2 q) ((ihr hc).2 q)
    obtain ⟨hne, hall⟩ := operators_operation hassign hboth h
    exact ⟨fun _ => hne, hall⟩

/-- The code of what is printed consists of operators. -/
theorem operators_item {Γ : Scope} (henv : env.Knows Γ) {i : Item} {a : Computed}
    (h : i.computed env p = .ok a) : ∀ q ∈ a.code, q.op.isOperator = true := by
  cases i with
  | text s =>
    obtain ⟨b, -, h⟩ := Except.bind_eq_ok.mp h
    cases h
    simp
  | value e => exact (operators_tree henv e h).2

/-- The code of arguments consists of operators and of arguments handed over, which are counted. -/
theorem operators_arguments {Γ : Scope} (henv : env.Knows Γ) {es : List Expression}
    {k : Nat} {l : Laid} {types : List ValueType} (h : Tree.LowersArguments env k es p l types) :
    (∀ q ∈ l.code, q.op.isOperator = true ∨ q.op = .param) ∧
      (l.code.filter fun q => q.op = .param).map Quadruple.result =
        (List.range' k types.length).map fun k : Nat => (k : Address) := by
  induction h with
  | nil k p => simp
  | @cons k e es p a l types first more ih =>
    obtain ⟨-, hoperators⟩ := operators_tree henv e first
    obtain ⟨hstraight, hpositions⟩ := ih
    have hnone : (a.code.filter fun q => q.op = .param) = [] := by
      rw [List.filter_eq_nil_iff]
      intro q hq hparam
      have hop := hoperators q hq
      rw [of_decide_eq_true hparam] at hop
      cases hop
    refine ⟨fun q hq => ?_, ?_⟩
    · rcases List.mem_append.mp hq with hq | hq
      · exact .inl (hoperators q hq)
      · rcases List.mem_cons.mp hq with rfl | hq
        · exact .inr rfl
        · exact hstraight q hq
    · rw [List.filter_append, hnone, List.nil_append, List.filter_cons_of_pos (by simp),
        List.map_cons, hpositions, List.length_cons, List.range'_succ, List.map_cons]

end

/-! ## Statements -/

/-- Code of whole statements that leads where it may. -/
structure CodeFlows (program : Array Quadruple) (callable : List Routine) (lo hi start : Nat)
    (code : List Quadruple) : Prop where
  landing : Landing program (start + code.length)
  flowing : Flowing program callable lo hi start (start + code.length)

section

variable {program : Array Quadruple} {callable : List Routine} {lo hi start : Nat}

private theorem CodeFlows.append {code more : List Quadruple}
    (h : CodeFlows program callable lo hi start code)
    (h' : CodeFlows program callable lo hi (start + code.length) more) :
    CodeFlows program callable lo hi start (code ++ more) := by
  have hlength : start + (code ++ more).length = start + code.length + more.length := by
    rw [List.length_append, Nat.add_assoc]
  constructor
  · rw [hlength]
    exact h'.landing
  · rw [hlength]
    exact h.flowing.append h'.flowing

/-- An expression and the quadruple that makes use of it. -/
theorem CodeFlows.use {code : List Quadruple} {q : Quadruple}
    (hcode : CodeAt program start (code ++ [q])) (h : ∀ q ∈ code, q.op.isOperator = true)
    (hends : q.op.continues = false) (hq : q.Flows program callable lo hi (start + code.length)) :
    CodeFlows program callable lo hi start (code ++ [q]) := by
  have hlength : start + (code ++ [q]).length = start + code.length + 1 := by
    rw [List.length_append, List.length_singleton, Nat.add_assoc]
  constructor
  · rw [hlength]
    exact .behind hcode.right.head hends
  · rw [hlength]
    exact (Flowing.operators hcode.left h).append (.single hcode.right.head hq)

/-- All quadruples of a call belong to it. -/
theorem CallSite.flowing {r : Routine} {j k : Nat} (h : CallSite program r j k)
    (hr : r ∈ callable) : Flowing program callable lo hi j (k + 1) := by
  intro i q hle hlt hq
  rcases Nat.eq_or_lt_of_le hle with rfl | hj
  · obtain rfl := Option.some.inj (hq.symm.trans h.first)
    exact ⟨r, hr, k, h⟩
  rcases Nat.eq_or_lt_of_le (Nat.le_of_lt_succ hlt) with rfl | hk
  · obtain rfl := Option.some.inj (hq.symm.trans h.last)
    exact ⟨r, hr, j, h⟩
  obtain ⟨q', hq', hop⟩ := h.between hj hk
  obtain rfl := Option.some.inj (hq.symm.trans hq')
  rcases hop with hop | hop
  · exact q.flows_of_isOperator hop
  · rw [Quadruple.Flows, hop]
    exact ⟨r, hr, j, k, h, hj, hk⟩

variable {env : Environment} {Γ : Scope} {p : Planner}

private theorem flows_items (henv : env.Knows Γ) {is : List Item} {l : Laid}
    (h : Item.Lowers env is p l) (hcode : CodeAt program start l.code)
    (hlanding : Landing program start) : CodeFlows program callable lo hi start l.code := by
  induction h generalizing start with
  | nil p => exact ⟨hlanding, .empty⟩
  | cons first more ih =>
    have hprint : CodeFlows program callable lo hi start (_ ++ [_]) :=
      .use hcode.left (operators_item henv first) rfl trivial
    exact hprint.append (ih hcode.right hprint.landing)

/-- The code of a call is a call of a routine that can be called. -/
theorem callSite_of_lowers (henv : env.Knows Γ) (hcalls : env.Calls callable) {f : String}
    {es : List Expression} {l : Laid} (h : (Phrase.call f es).Lowers env start p l)
    (hcode : CodeAt program start l.code) :
    ∃ r ∈ callable, ∃ last, CallSite program r start last ∧ start + l.code.length = last + 1 := by
  cases h with
  | @call _ _ _ _ c l types entry callee arguments count checked body =>
    obtain ⟨r, hr, rfl, rfl⟩ := hcalls.find callee
    cases body
    obtain ⟨hstraight, hpositions⟩ := operators_arguments henv arguments
    have hcount : types.length = r.function.parameters.length := by
      rw [count]
      exact List.length_map ..
    refine ⟨r, hr, start + l.code.length + 1, ⟨l.code, hcode, rfl, hstraight, ?_⟩, ?_⟩
    · rw [hpositions, hcount, List.range_eq_range']
    · simp only [List.length_append, List.length_cons, List.length_nil]
      omega

/-- The code of a statement or a block leads where it may. -/
theorem flows_phrase (henv : env.Knows Γ) (hcalls : env.Calls callable) {r : Role}
    {s : Phrase r} {l : Laid} (h : s.Lowers env start p l) (hcode : CodeAt program start l.code)
    (hlanding : Landing program start) (hlo : lo ≤ start) (hhi : start + l.code.length ≤ hi) :
    CodeFlows program callable lo hi start l.code := by
  induction h with
  | assign name value type => exact .use hcode (operators_tree henv _ value).2 rfl trivial
  | branch guard bool body ih =>
    obtain ⟨-, hoperators⟩ := operators_tree henv _ guard
    have hbody :=
      ih hcode.right.tail (.behind hcode.right.head rfl) (by omega) (by simp at hhi; omega)
    dsimp only at hcode hhi ⊢
    rw [List.append_cons] at hcode hhi ⊢
    refine CodeFlows.append (.use hcode.left hoperators rfl ⟨_, rfl, by omega, ?_,
      hbody.landing⟩) ?_
    · simp only [List.length_append, List.length_singleton] at hhi
      omega
    · rw [List.length_append, List.length_singleton, ← Nat.add_assoc]
      exact hbody
  | @choice g b c start p a l m guard bool body other ihb ihc =>
    obtain ⟨-, hoperators⟩ := operators_tree henv g guard
    dsimp only at hcode hhi ⊢
    rw [List.append_assoc, List.cons_append, List.append_cons, List.append_cons l.code]
      at hcode hhi ⊢
    simp only [List.length_append, List.length_singleton, ← Nat.add_assoc] at hhi
    have hinner := hcode.right
    rw [List.length_append, List.length_singleton, ← Nat.add_assoc] at hinner
    have hlast := hinner.right
    rw [List.length_append, List.length_singleton, ← Nat.add_assoc] at hlast
    have hbody := ihb hinner.left.left (.behind hcode.left.right.head rfl) (by omega) (by omega)
    have hother := ihc hlast (.behind hinner.left.right.head rfl) (by omega) (by omega)
    have hjump :
        CodeFlows program callable lo hi (start + a.code.length + 1 + l.code.length) ([] ++ [_]) :=
      .use hinner.left.right (by simp) rfl ⟨_, rfl, by simp; omega, by omega, hother.landing⟩
    have hguard : CodeFlows program callable lo hi start (a.code ++ [_]) :=
      .use hcode.left hoperators rfl ⟨_, rfl, by omega, by omega, hjump.landing⟩
    refine hguard.append ?_
    rw [List.length_append, List.length_singleton, ← Nat.add_assoc]
    refine (hbody.append hjump).append ?_
    simp only [List.length_append, List.length_singleton, List.length_nil, ← Nat.add_assoc]
    exact hother
  | @loop b g start p l a body guard bool ih =>
    obtain ⟨hne, hoperators⟩ := operators_tree henv g guard
    -- No number or variable is a `bool`: a guard has code, so the jump behind an empty body still
    -- goes back.
    have hguard := List.length_pos_iff.mpr (hne bool)
    have hbody := ih hcode.left.left hlanding hlo (by simp at hhi; omega)
    dsimp only at hcode ⊢
    rw [List.append_assoc] at hcode ⊢
    exact hbody.append (.use hcode.right hoperators rfl ⟨start, rfl, hlo, by omega, hlanding⟩)
  | call callee arguments count checked body =>
    obtain ⟨r, hr, last, hsite, hend⟩ :=
      callSite_of_lowers henv hcalls (.call callee arguments count checked body) hcode
    constructor
    · rw [hend]
      exact .behind hsite.last rfl
    · rw [hend]
      exact hsite.flowing hr
  | print items => exact flows_items henv items hcode hlanding
  | nil start p => exact ⟨hlanding, .empty⟩
  | cons first more ihfirst ihmore =>
    have hfirst := ihfirst hcode.left hlanding hlo (by simp at hhi; omega)
    exact hfirst.append (ihmore hcode.right hfirst.landing (by omega) (by simp at hhi; omega))

end

end Quadlet
