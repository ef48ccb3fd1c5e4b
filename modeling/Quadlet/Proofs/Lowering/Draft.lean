import Quadlet.Proofs.Lowering.Basic
import Quadlet.Proofs.Syntax.Unambiguous

/-!
# Drafts carry out the lowering

The events of an expression or a statement change a draft exactly as its lowering says: code is put
behind the code that is there, an expression leaves its operand on top of the others, and all other
stacks are as before. Where the lowering fails the events fail with the same error.
-/

namespace Quadlet

namespace Code

/-- Puts quadruples behind the others. -/
def append (c : Code) (qs : List Quadruple) : Code := ⟨c.quads ++ qs.toArray⟩

@[simp] theorem append_nil (c : Code) : c.append [] = c := by
  simp [append]

theorem append_append (c : Code) (qs rs : List Quadruple) :
    (c.append qs).append rs = c.append (qs ++ rs) := by
  simp [append]

theorem push_eq_append (c : Code) (q : Quadruple) : c.push q = c.append [q] := by
  simp [push, append]

/-- The target of an open jump is filled in where the jump stands. -/
theorem patch_append {c : Code} {q : Quadruple} (hjump : q.op.isJump = true)
    (hopen : q.result = unused) (qs : List Quadruple) (target : Address) :
    (c.append (q :: qs)).patch c.size target =
      .ok (c.append ({ q with result := target } :: qs)) := by
  have hget : (c.append (q :: qs)).quads[c.size]? = some q := by
    simp [append, size]
  rw [patch, hget]
  simp only [hjump, hopen, Bool.not_true, Bool.false_eq_true, if_false, ne_eq, not_true_eq_false]
  simp [append, size]

@[simp] theorem size_append (c : Code) (qs : List Quadruple) :
    (c.append qs).size = c.size + qs.length := by
  simp [append, size]

end Code

namespace Drafting

variable {α β : Type}

/-- The result of an action and the draft behind it; a failure leaves no draft. -/
def settle (x : Drafting α) (t : Draft) : Except Error (α × Draft) :=
  match x t with
  | .ok a t => .ok (a, t)
  | .error e _ => .error e

@[simp] theorem settle_pure (a : α) (t : Draft) : settle (pure a) t = .ok (a, t) := rfl

@[simp] theorem settle_bind (x : Drafting α) (f : α → Drafting β) (t : Draft) :
    settle (x >>= f) t = settle x t >>= fun r => settle (f r.1) r.2 := by
  change (match EStateM.bind x f t with | .ok a t => _ | .error e _ => _) = _
  rw [EStateM.bind, settle]
  cases x t <;> rfl

@[simp] private theorem settle_map (f : α → β) (x : Drafting α) (t : Draft) :
    settle (f <$> x) t = settle x t >>= fun r => .ok (f r.1, r.2) :=
  settle_bind x (fun a => pure (f a)) t

@[simp] theorem settle_get (t : Draft) : settle get t = .ok (t, t) := rfl

@[simp] theorem settle_modify (f : Draft → Draft) (t : Draft) :
    settle (modify f) t = .ok ((), f t) := rfl

@[simp] theorem settle_throw (e : Error) (t : Draft) : settle (throw e : Drafting α) t = .error e :=
  rfl

@[simp] theorem settle_lift (x : Except Error α) (t : Draft) :
    settle (lift x) t = x >>= fun a => .ok (a, t) := by
  cases x <;> rfl

@[simp] theorem settle_broken (fault : ProtocolFault) (t : Draft) :
    settle (broken fault : Drafting α) t = .error (.protocol fault) := rfl

/-- An action that hands out a cell. -/
@[simp] theorem settle_place (f : Planner → Except Error (Address × Planner)) (t : Draft) :
    settle (place f) t = f t.planner >>= fun r => .ok (r.1, { t with planner := r.2 }) := by
  cases h : f t.planner <;> simp [place, h]

end Drafting

namespace Draft

open Drafting Syntax

/-- The draft behind one event of a program in progress. -/
def after (t : Draft) (e : Event) : Except Error Draft := settle (perform e) t >>= fun r => .ok r.2

/-- The draft behind a row of events, or the error at which the row stops. -/
def take (t : Draft) (es : List Event) : Except Error Draft :=
  settle (es.forM handle) t >>= fun r => .ok r.2

/-- A draft in which a program is in progress. -/
structure Running (t : Draft) : Prop where
  not_ended : t.ended = false
  started : t.directory.program ≠ none

@[simp] theorem take_nil (t : Draft) : t.take [] = .ok t := rfl

theorem take_append (t : Draft) (es fs : List Event) :
    t.take (es ++ fs) = t.take es >>= fun t => t.take fs := by
  simp only [take, List.forM_eq_forM, List.forM_append, settle_bind]
  cases settle (forM es handle) t <;> rfl

theorem take_cons {t : Draft} (h : t.Running) (e : Event) (es : List Event) :
    t.take (e :: es) = t.after e >>= fun t => t.take es := by
  have hhandle : settle (handle e) t = settle (perform e) t := by
    simp [handle, h.not_ended, h.started]
  simp only [take, after, List.forM_eq_forM, List.forM_cons, settle_bind, hhandle]
  cases settle (perform e) t <;> rfl

/-- What names stand for in the open scopes of a draft. -/
def environment (t : Draft) : Environment := t.directory.environment t.scopes

/-- A draft with the code of an expression behind its own and the expression's operand on top. -/
def push (t : Draft) (a : Computed) : Draft :=
  { t with
    planner := a.planner
    code := t.code.append a.code
    operands := a.operand :: t.operands }

/-- A draft with one more operator that waits. -/
def await (t : Draft) (o : PendingOperator) : Draft := { t with operators := o :: t.operators }

private theorem Running.await {t : Draft} (h : t.Running) (o : PendingOperator) :
    (t.await o).Running :=
  ⟨h.not_ended, h.started⟩

private theorem Running.push {t : Draft} (h : t.Running) (a : Computed) : (t.push a).Running :=
  ⟨h.not_ended, h.started⟩

/-! ## Expressions -/

/-- A literal is put on the stack of operands. -/
theorem settle_literal (t : Draft) (l : Literal) :
    settle (literal l) t = t.planner.literal l >>= fun a => .ok ((), t.push a) := by
  cases h : t.planner.constant l <;> simp [literal, pushOperand, Planner.literal, push, h]

/-- A variable is put on the stack of operands. -/
theorem settle_identifier (t : Draft) (x : String) :
    settle (identifier x) t = t.environment.operand x >>= fun o =>
      .ok ((), { t with operands := o :: t.operands }) := by
  simp only [identifier, environment, Directory.environment, Directory.operand,
    settle_bind, settle_get, settle_lift, Except.ok_bind]
  cases t.directory.resolve t.scopes x with
  | error e => rfl
  | ok s =>
    simp only [Except.ok_bind]
    cases s.kind.type? <;> cases s.address <;> rfl

/-- An operator is applied to the two operands on top. -/
theorem settle_apply {t : Draft} {c : Code} {code : List Quadruple} (hcode : t.code = c.append code)
    (op : Operator) (left right : Operand) :
    settle (apply op left right) t = t.planner.operation op left right code >>= fun a =>
      .ok ((), { t with
        planner := a.planner
        code := c.append a.code
        operands := a.operand :: t.operands }) := by
  simp only [apply, temporary, Planner.operation, emit, pushOperand, settle_bind, settle_lift]
  cases Typing.result op left.type right.type with
  | error e => rfl
  | ok type =>
    simp only [Except.ok_bind, settle_place]
    cases t.planner.assign ⟨.temporary, type⟩ none with
    | error e => rfl
    | ok r => simp [hcode, Code.push_eq_append, Code.append_append]

/-- The end of a level applies an operator of the level that waits on top. -/
theorem settle_levelEnd {t : Draft} {level : Operator → Bool} {op : Operator}
    {ops : List PendingOperator} {left right : Operand} {os : List Operand} {c : Code}
    {code : List Quadruple} (hops : t.operators = .binary op :: ops) (hlevel : level op = true)
    (hos : t.operands = right :: left :: os) (hcode : t.code = c.append code) :
    settle (levelEnd level) t = t.planner.operation op left right code >>= fun a =>
      .ok ((), { t with
        planner := a.planner
        code := c.append a.code
        operators := ops
        operands := a.operand :: os }) := by
  simp only [levelEnd, settle_bind, settle_get, Except.ok_bind, hops, hlevel, if_true,
    settle_modify, popOperand, hos, settle_pure]
  exact settle_apply (t := { t with operators := ops, operands := os }) hcode op left right

/-- The end of a level changes nothing if no operator of the level waits on top. -/
theorem settle_levelEnd_of_quiet {t : Draft} {level : Operator → Bool}
    (h : ∀ op, t.operators.head? = some (.binary op) → level op = false) :
    settle (levelEnd level) t = .ok ((), t) := by
  simp only [levelEnd, settle_bind, settle_get, Except.ok_bind]
  cases hops : t.operators with
  | nil => rfl
  | cons o ops =>
    cases o with
    | binary op =>
      rw [hops] at h
      simp [h op rfl]
    | _ => rfl

/-- The end of a signed factor multiplies it by the literal of its sign. -/
theorem settle_unaryEnd {t : Draft} {negative : Bool} {ops : List PendingOperator} {o : Operand}
    {os : List Operand} {c : Code} {code : List Quadruple}
    (hops : t.operators = .unary negative :: ops) (hos : t.operands = o :: os)
    (hcode : t.code = c.append code) :
    settle unaryEnd t = (do
      let b ← t.planner.literal (.int (if negative then -1 else 1))
      let a ← b.planner.operation .mul o b.operand code
      .ok ((), { t with
        planner := a.planner
        code := c.append a.code
        operators := ops
        operands := a.operand :: os })) := by
  simp only [unaryEnd, popOperator, popOperand, settle_bind, settle_get, Except.ok_bind, hops, hos,
    settle_modify, settle_pure, settle_place, Planner.literal]
  cases t.planner.constant (.int (if negative then -1 else 1)) with
  | error e => rfl
  | ok r =>
    exact settle_apply (t := { t with planner := r.2, operators := ops, operands := os })
      hcode .mul o ⟨r.1, .int⟩

/-- No operator of a level waits on top. -/
def Quiet (r : Rank) (t : Draft) : Prop :=
  ∀ op, t.operators.head? = some (.binary op) → r.continues op = false

/-- What the events of an expression do to a draft: they leave its code and its operand, or fail
as the lowering does. -/
def Lowers {r : Rank} (t : Draft) (e : Tree r) : Prop :=
  t.take e.events = e.lower t.environment t.planner >>= fun a => .ok (t.push a)

/-- The events of an operand and the end of its level, where no operator of the level waits. -/
theorem take_operand {r : Rank} {t : Draft} {e : Tree r} {end_ : Event} {level : Operator → Bool}
    (ht : t.Running) (hend : perform end_ = levelEnd level) (he : t.Lowers e)
    (hquiet : ∀ op, t.operators.head? = some (.binary op) → level op = false) :
    t.take (e.events ++ [end_]) = e.lower t.environment t.planner >>= fun a => .ok (t.push a) := by
  rw [take_append, he]
  cases e.lower t.environment t.planner with
  | error e => rfl
  | ok a =>
    have hlevel : settle (levelEnd level) (t.push a) = .ok ((), t.push a) :=
      settle_levelEnd_of_quiet hquiet
    simp [take_cons (ht.push a), after, hend, hlevel]

/-- The events of two operands with an operator between them and the end of
its level behind them. -/
theorem take_operation {r₁ r₂ : Rank} {t : Draft} {l : Tree r₁} {r : Tree r₂} {op : Operator}
    {end_ : Event} {level : Operator → Bool} (ht : t.Running) (hend : perform end_ = levelEnd level)
    (hop : level op = true) (hassign : op ≠ .assign) (hl : t.Lowers l)
    (hr : ∀ a : Computed, ((t.push a).await (.binary op)).Lowers r) :
    t.take (l.events ++ .operator op :: r.events ++ [end_]) = (do
      let a ← l.lower t.environment t.planner
      let b ← r.lower t.environment a.planner
      b.planner.operation op a.operand b.operand (a.code ++ b.code)) >>=
      fun a => .ok (t.push a) := by
  rw [List.append_assoc, take_append, hl]
  cases l.lower t.environment t.planner with
  | error e => rfl
  | ok a =>
    have hoperator : (t.push a).after (.operator op) = .ok ((t.push a).await (.binary op)) := by
      simp [after, perform, operator, hassign, pushOperator, await]
    simp only [Except.ok_bind, List.cons_append]
    rw [take_cons (ht.push a), hoperator, Except.ok_bind, take_append, hr a]
    change (r.lower t.environment a.planner >>= _) >>= _ =
      (r.lower t.environment a.planner >>= _) >>= _
    cases r.lower t.environment a.planner with
    | error e => rfl
    | ok b =>
      simp only [Except.ok_bind]
      rw [take_cons (((ht.push a).await _).push b), after, hend,
        settle_levelEnd rfl hop rfl (Code.append_append t.code a.code b.code)]
      change (b.planner.operation op a.operand b.operand (a.code ++ b.code) >>= _) >>= _ >>= _ = _
      cases b.planner.operation op a.operand b.operand (a.code ++ b.code) <;> rfl

private theorem Quiet.term {t : Draft} (h : t.Quiet .sum) : t.Quiet .term :=
  fun op hop => (Bool.or_eq_false_iff.mp (h op hop)).1

private theorem Quiet.sum {t : Draft} (h : t.Quiet .whole) : t.Quiet .sum :=
  fun op hop => (Bool.or_eq_false_iff.mp (h op hop)).1

/-- Behind an operator that waits, an operand of a level below goes on undisturbed. -/
theorem quiet_await {r : Rank} {t : Draft} {op : Operator} (h : r.continues op = false) :
    (t.await (.binary op)).Quiet r := by
  intro op' hop'
  cases hop'
  exact h

/-- The events of a signed factor. -/
theorem take_signed {t : Draft} {e : Tree .factor} (ht : t.Running) (negative : Bool)
    (he : (t.await (.unary negative)).Lowers e) : t.Lowers (.signed negative e) := by
  have hsign : t.after (.unarySign negative) = .ok (t.await (.unary negative)) := by
    simp [after, perform, pushOperator, await]
  rw [Lowers, Tree.events, Tree.lower, List.cons_append, take_cons ht, hsign, Except.ok_bind,
    take_append, he]
  change (e.lower t.environment t.planner >>= _) >>= _ =
    (e.lower t.environment t.planner >>= _) >>= _
  cases e.lower t.environment t.planner with
  | error e => rfl
  | ok a =>
    simp only [Except.ok_bind]
    rw [take_cons ((ht.await _).push a), after, perform, settle_unaryEnd (c := t.code) rfl rfl rfl]
    change (a.planner.literal _ >>= _) >>= _ >>= _ = (a.planner.literal _ >>= _) >>= _
    cases a.planner.literal (.int (if negative then -1 else 1)) with
    | error e => rfl
    | ok b =>
      simp only [Except.ok_bind]
      cases b.planner.operation .mul a.operand b.operand a.code <;> rfl

/-- The events of an expression in parentheses. -/
theorem take_group {t : Draft} {e : Expression} (ht : t.Running) (he : (t.await .paren).Lowers e) :
    t.Lowers (.group e) := by
  have hopen : t.after .openParen = .ok (t.await .paren) := by
    simp [after, perform, pushOperator, await]
  rw [Lowers, Tree.events, Tree.lower, List.cons_append, take_cons ht, hopen, Except.ok_bind,
    take_append, he]
  change (e.lower t.environment t.planner >>= _) >>= _ = e.lower t.environment t.planner >>= _
  cases e.lower t.environment t.planner with
  | error e => rfl
  | ok a =>
    have hclose : ((t.await .paren).push a).after .closeParen = .ok (t.push a) := by
      simp [after, perform, closeParen, popOperator, await, push]
    simp only [Except.ok_bind]
    rw [take_cons ((ht.await _).push a), hclose]
    rfl

/-- The events of an expression leave its code and its operand, or fail as the lowering does. -/
theorem lowers {r : Rank} (e : Tree r) (t : Draft) (ht : t.Running) (hquiet : t.Quiet r) :
    t.Lowers e := by
  have hassign {level : Operator → Bool} (hlevel : level .assign = false) {op : Operator}
      (h : level op = true) : op ≠ .assign := by
    rintro rfl
    rw [hlevel] at h
    cases h
  induction e generalizing t with
  | int n => simp [Lowers, Tree.events, Tree.lower, take_cons ht, after, perform, settle_literal]
  | float x => simp [Lowers, Tree.events, Tree.lower, take_cons ht, after, perform, settle_literal]
  | name x =>
    simp [Lowers, Tree.events, Tree.lower, take_cons ht, after, perform, settle_identifier, push]
  | group e ih => exact take_group ht (ih _ (ht.await _) (by simp [Quiet, await]))
  | signed negative e ih =>
    exact take_signed ht negative (ih _ (ht.await _) (by simp [Quiet, await]))
  | ofFactor e ih => exact take_operand ht rfl (ih t ht (by simp [Quiet, Rank.continues])) hquiet
  | product l op h r ihl ihr =>
    exact take_operation ht rfl h (hassign rfl h) (ihl t ht hquiet)
      fun a => ihr _ ((ht.push a).await _) (quiet_await rfl)
  | ofTerm e ih =>
    exact take_operand ht rfl (ih t ht hquiet.term)
      fun op hop => (Bool.or_eq_false_iff.mp (hquiet op hop)).2
  | addition l op h r ihl ihr =>
    refine take_operation ht rfl h (hassign rfl h) (ihl t ht hquiet)
      fun a => ihr _ ((ht.push a).await _) (quiet_await ?_)
    cases op <;> first | rfl | cases h
  | ofSum e ih =>
    exact take_operand ht rfl (ih t ht hquiet.sum)
      fun op hop => (Bool.or_eq_false_iff.mp (hquiet op hop)).2
  | comparison l op h r ihl ihr =>
    refine take_operation ht rfl h (hassign rfl h) (ihl t ht hquiet.sum)
      fun a => ihr _ ((ht.push a).await _) (quiet_await ?_)
    cases op <;> first | rfl | cases h

/-! ## Statements -/

/-- A draft with code behind its own. -/
def lay (t : Draft) (a : Laid) : Draft :=
  { t with
    planner := a.planner
    code := t.code.append a.code }

theorem Running.lay {t : Draft} (h : t.Running) (a : Laid) : (t.lay a).Running :=
  ⟨h.not_ended, h.started⟩

/-- What the events of a statement do to a draft: they leave its code, or fail
as the lowering does. -/
def Lays {r : Role} (t : Draft) (s : Phrase r) : Prop :=
  t.take s.events = s.lower t.environment t.code.size t.planner >>= fun a => .ok (t.lay a)

/-- The end of an assignment. -/
theorem settle_assignValue {t : Draft} {ops : List PendingOperator} {value target : Operand}
    {os : List Operand} (hops : t.operators = .assign :: ops)
    (hos : t.operands = value :: target :: os) :
    settle assignValue t = Typing.result .assign target.type value.type >>= fun _ =>
      .ok ((), { t with
        code := t.code.append [⟨.assign, value.address, unused, target.address⟩]
        operators := ops
        operands := os }) := by
  cases h : Typing.result .assign target.type value.type <;>
    simp [assignValue, popOperator, popOperand, emit, Code.push_eq_append, hops, hos, h]

/-- The events of an assignment. -/
theorem take_assign {t : Draft} (ht : t.Running) (x : String) (e : Expression) :
    t.Lays (.assign x e) := by
  rw [Lays, Phrase.events, Phrase.lower, List.cons_append, List.cons_append, take_cons ht,
    after, perform, settle_identifier]
  cases t.environment.operand x with
  | error e => rfl
  | ok target =>
    have ht₁ : ({ t with operands := target :: t.operands } : Draft).Running :=
      ⟨ht.not_ended, ht.started⟩
    have he := lowers e (({ t with operands := target :: t.operands } : Draft).await .assign)
      (ht₁.await _) (by simp [Quiet, await])
    simp only [Except.ok_bind]
    rw [take_cons ht₁, after, perform]
    change Draft.take (Draft.await _ .assign) _ = _
    rw [take_append, he]
    change (e.lower t.environment t.planner >>= _) >>= _ =
      (e.lower t.environment t.planner >>= _) >>= _
    cases e.lower t.environment t.planner with
    | error e => rfl
    | ok a =>
      simp only [Except.ok_bind]
      rw [take_cons ((ht₁.await _).push a), after, perform, settle_assignValue rfl rfl]
      cases Typing.result .assign target.type a.operand.type with
      | error e => rfl
      | ok type => simp [push, await, lay, Code.append_append]

/-- A draft with one more open jump or start of a loop. -/
def mark (t : Draft) (index : Nat) : Draft := { t with jumps := index :: t.jumps }

private theorem Running.mark {t : Draft} (h : t.Running) (index : Nat) : (t.mark index).Running :=
  ⟨h.not_ended, h.started⟩

/-- The events of the guard of a condition: an open jump is left behind its code. -/
theorem take_ifGuard {t : Draft} (ht : t.Running) (hquiet : t.Quiet .whole) (g : Expression)
    (es : List Event) :
    t.take (g.events ++ .ifGuardEnd :: es) = g.lowerGuard "if" t.environment t.planner >>= fun a =>
      ((t.lay ⟨a.code ++ [⟨.gotoFalse, a.operand.address, unused, unused⟩], a.planner⟩).mark
        (t.code.append a.code).size).take es := by
  rw [take_append, lowers g t ht hquiet, Tree.lowerGuard]
  cases g.lower t.environment t.planner with
  | error e => rfl
  | ok a =>
    simp only [Except.ok_bind]
    rw [take_cons (ht.push a)]
    by_cases hbool : a.operand.type = .bool
    · simp [after, perform, ifGuardEnd, popGuard, popOperand, emit, pushJump, push, lay,
        mark, hbool, Code.push_eq_append, Code.append_append]
    · simp [after, perform, ifGuardEnd, popGuard, popOperand, push, hbool]

/-- The events of the guard of a loop: a jump back to the start of the loop is
left behind its code. -/
theorem take_loopGuard {t : Draft} (ht : t.Running) (hquiet : t.Quiet .whole) (start : Nat)
    (g : Expression) (es : List Event) :
    (t.mark start).take (g.events ++ .loopGuardEnd :: es) =
      g.lowerGuard "while" t.environment t.planner >>= fun a =>
        (t.lay ⟨a.code ++ [⟨.gotoTrue, a.operand.address, unused, start⟩], a.planner⟩).take es := by
  rw [take_append, lowers g (t.mark start) (ht.mark start) hquiet, Tree.lowerGuard]
  change (g.lower t.environment t.planner >>= _) >>= _ = _
  cases g.lower t.environment t.planner with
  | error e => rfl
  | ok a =>
    simp only [Except.ok_bind]
    rw [take_cons ((ht.mark start).push a)]
    by_cases hbool : a.operand.type = .bool
    · simp [after, perform, loopGuardEnd, popGuard, popOperand, popJump, emit, push, lay,
        mark, hbool, Code.push_eq_append, Code.append_append]
    · simp [after, perform, loopGuardEnd, popGuard, popOperand, push, mark, hbool]

/-- A jump that waits is led to the next quadruple. -/
theorem settle_ifEnd {t : Draft} {c : Code} {q : Quadruple} {qs : List Quadruple} {js : List Nat}
    (hcode : t.code = c.append (q :: qs)) (hjumps : t.jumps = c.size :: js)
    (hjump : q.op.isJump = true) (hopen : q.result = unused) :
    settle ifEnd t = .ok ((), { t with
      code := c.append ({ q with result := (c.size + 1 + qs.length : Nat) } :: qs)
      jumps := js }) := by
  have hsize : (c.append (q :: qs)).size = c.size + 1 + qs.length := by
    simp
    omega
  simp [ifEnd, popJump, patchToHere, hjumps, hcode, hsize, Code.patch_append hjump hopen]

/-- The jump over the first branch is led to the second one, and the first one is left by a jump. -/
theorem settle_elseBranch {t : Draft} {c : Code} {q : Quadruple} {qs : List Quadruple}
    {js : List Nat} (hcode : t.code = c.append (q :: qs)) (hjumps : t.jumps = c.size :: js)
    (hjump : q.op.isJump = true) (hopen : q.result = unused) :
    settle elseBranch t = .ok ((), { t with
      code := (c.append ({ q with result := (c.size + 1 + qs.length + 1 : Nat) } :: qs)).append
        [⟨.goto, unused, unused, unused⟩]
      jumps := (c.size + 1 + qs.length) :: js }) := by
  have hsize : (c.append (q :: qs)).size = c.size + 1 + qs.length := by
    simp
    omega
  have hpush : (c.append (q :: qs)).push ⟨.goto, unused, unused, unused⟩ =
      c.append (q :: (qs ++ [⟨.goto, unused, unused, unused⟩])) := by
    rw [Code.push_eq_append, Code.append_append, List.cons_append]
  have hsize' : (c.append (q :: (qs ++ [⟨.goto, unused, unused, unused⟩]))).size =
      c.size + 1 + qs.length + 1 := by
    simp
    omega
  simp [elseBranch, emit, popJump, pushJump, patchToHere, hjumps, hcode, hsize, hsize', hpush,
    Code.patch_append hjump hopen, Code.append_append]

/-- The draft behind the guard of a condition. -/
private def guarded (t : Draft) (a : Computed) : Draft :=
  (t.lay ⟨a.code ++ [⟨.gotoFalse, a.operand.address, unused, unused⟩], a.planner⟩).mark
    (t.code.append a.code).size

private theorem size_guarded (t : Draft) (a : Computed) :
    (t.guarded a).code.size = t.code.size + a.code.length + 1 := by
  simp [guarded, lay, mark, Nat.add_assoc]

private theorem code_guarded (t : Draft) (a : Computed) (qs : List Quadruple) :
    (t.guarded a).code.append qs =
      (t.code.append a.code).append (⟨.gotoFalse, a.operand.address, unused, unused⟩ :: qs) := by
  simp [guarded, lay, mark, Code.append_append]

/-- The events of a condition with one branch. -/
theorem take_branch {t : Draft} (ht : t.Running) (hquiet : t.Quiet .whole)
    (g : Expression) {b : Block} (hb : ∀ t' : Draft, t'.Running → t'.Quiet .whole → t'.Lays b) :
    t.Lays (.branch g b) := by
  rw [Lays, Phrase.events, List.append_assoc, List.cons_append, take_ifGuard ht hquiet,
    Phrase.lower]
  cases g.lowerGuard "if" t.environment t.planner with
  | error e => rfl
  | ok a =>
    have ht₁ : (t.guarded a).Running := (ht.lay _).mark _
    simp only [Except.ok_bind]
    change (t.guarded a).take _ = _
    rw [take_append, hb _ ht₁ hquiet, size_guarded]
    change (b.lower t.environment _ a.planner >>= _) >>= _ =
      (b.lower t.environment _ a.planner >>= _) >>= _
    cases b.lower t.environment (t.code.size + a.code.length + 1) a.planner with
    | error e => rfl
    | ok body =>
      simp only [Except.ok_bind]
      rw [take_cons (ht₁.lay body), after, perform,
        settle_ifEnd (code_guarded t a body.code) rfl rfl rfl]
      simp [lay, guarded, mark, Code.append_append]

/-- The code of a condition up to its second branch, without the jump that leaves the first. -/
private def firstBranch (t : Draft) (a : Computed) (body : Laid) : Code :=
  t.code.append (a.code ++ ⟨.gotoFalse, a.operand.address, unused,
    (t.code.size + a.code.length + 1 + body.code.length + 1 : Nat)⟩ :: body.code)

/-- The draft before the second branch of a condition. -/
private def forked (t : Draft) (a : Computed) (body : Laid) : Draft :=
  { t with
    planner := body.planner
    code := (t.firstBranch a body).append [⟨.goto, unused, unused, unused⟩]
    jumps := (t.firstBranch a body).size :: t.jumps }

private theorem after_elseBranch (t : Draft) (a : Computed) (body : Laid) :
    ((t.guarded a).lay body).after .elseBranch = .ok (t.forked a body) := by
  rw [after, perform, settle_elseBranch (code_guarded t a body.code) rfl rfl rfl]
  simp [forked, firstBranch, lay, guarded, mark, Code.append_append]
  omega

private theorem size_forked (t : Draft) (a : Computed) (body : Laid) :
    (t.forked a body).code.size = t.code.size + a.code.length + 1 + body.code.length + 1 := by
  simp [forked, firstBranch]
  omega

/-- The events of a condition with two branches. -/
theorem take_choice {t : Draft} (ht : t.Running) (hquiet : t.Quiet .whole) (g : Expression)
    {b c : Block} (hb : ∀ t' : Draft, t'.Running → t'.Quiet .whole → t'.Lays b)
    (hc : ∀ t' : Draft, t'.Running → t'.Quiet .whole → t'.Lays c) : t.Lays (.choice g b c) := by
  rw [Lays, Phrase.events, List.append_assoc, List.append_assoc, List.cons_append,
    take_ifGuard ht hquiet, Phrase.lower]
  cases g.lowerGuard "if" t.environment t.planner with
  | error e => rfl
  | ok a =>
    have ht₁ : (t.guarded a).Running := (ht.lay _).mark _
    simp only [Except.ok_bind]
    change (t.guarded a).take _ = _
    rw [take_append, hb _ ht₁ hquiet, size_guarded]
    change (b.lower t.environment _ a.planner >>= _) >>= _ =
      (b.lower t.environment _ a.planner >>= _) >>= _
    cases b.lower t.environment (t.code.size + a.code.length + 1) a.planner with
    | error e => rfl
    | ok body =>
      have ht₂ : (t.forked a body).Running := ⟨ht.not_ended, ht.started⟩
      simp only [Except.ok_bind]
      rw [List.cons_append, take_cons (ht₁.lay body), after_elseBranch, Except.ok_bind, take_append,
        hc _ ht₂ hquiet, size_forked]
      change (c.lower t.environment _ body.planner >>= _) >>= _ =
        (c.lower t.environment _ body.planner >>= _) >>= _
      cases c.lower t.environment (t.code.size + a.code.length + 1 + body.code.length + 1)
        body.planner with
      | error e => rfl
      | ok rest =>
        simp only [Except.ok_bind]
        rw [take_cons (ht₂.lay rest), after, perform,
          settle_ifEnd (Code.append_append (t.firstBranch a body) [_] rest.code) rfl rfl rfl]
        have hsize : (t.firstBranch a body).size + 1 =
            t.code.size + a.code.length + 1 + body.code.length + 1 := by
          simp [firstBranch]
          omega
        simp only [lay, forked, hsize, Except.ok_bind, take_nil]
        simp [firstBranch, Code.append_append]

/-- The events of a loop. -/
theorem take_loop {t : Draft} (ht : t.Running) (hquiet : t.Quiet .whole) {b : Block}
    (g : Expression) (hb : ∀ t' : Draft, t'.Running → t'.Quiet .whole → t'.Lays b) :
    t.Lays (.loop b g) := by
  have hstart : t.after .loopStart = .ok (t.mark t.code.size) := by
    simp [after, perform, loopStart, pushJump, mark]
  rw [Lays, Phrase.events, List.cons_append, List.cons_append, List.append_assoc,
    take_cons ht, hstart, Except.ok_bind, take_append, hb _ (ht.mark _) hquiet, Phrase.lower]
  change (b.lower t.environment t.code.size t.planner >>= _) >>= _ =
    (b.lower t.environment t.code.size t.planner >>= _) >>= _
  cases b.lower t.environment t.code.size t.planner with
  | error e => rfl
  | ok body =>
    simp only [Except.ok_bind]
    change ((t.lay body).mark t.code.size).take _ = _
    rw [take_loopGuard (ht.lay body) hquiet]
    change g.lowerGuard "while" t.environment body.planner >>= _ =
      (g.lowerGuard "while" t.environment body.planner >>= _) >>= _
    cases g.lowerGuard "while" t.environment body.planner with
    | error e => rfl
    | ok a => simp [lay, Code.append_append]

/-- A value on top is printed. -/
theorem after_printItem (t : Draft) (a : Computed) :
    (t.push a).after .printItem =
      .ok (t.lay ⟨a.code ++ [⟨.print, a.operand.address, unused, unused⟩], a.planner⟩) := by
  simp [after, perform, printItem, popOperand, emit, push, lay, Code.push_eq_append,
    Code.append_append]

/-- The events of a printed item. -/
theorem take_item {t : Draft} (ht : t.Running) (hquiet : t.Quiet .whole) (i : Item) :
    t.take i.events = i.lower t.environment t.planner >>= fun a => .ok (t.lay a) := by
  cases i with
  | text s =>
    rw [Item.events, Item.lower, Item.computed, take_cons ht, after, perform, settle_literal]
    cases t.planner.literal (.string s) with
    | error e => rfl
    | ok a => simp [take_cons (ht.push a), after_printItem]
  | value e =>
    rw [Item.events, Item.lower, Item.computed, take_append, lowers e t ht hquiet]
    cases e.lower t.environment t.planner with
    | error e => rfl
    | ok a => simp [take_cons (ht.push a), after_printItem]

/-- The events of printed items. -/
theorem take_items {t : Draft} (ht : t.Running) (hquiet : t.Quiet .whole) (is : List Item) :
    t.take (is.flatMap Item.events) =
      Item.lowerAll t.environment is t.planner >>= fun a => .ok (t.lay a) := by
  induction is generalizing t with
  | nil => simp [Item.lowerAll, lay]
  | cons i is ih =>
    rw [List.flatMap_cons, take_append, take_item ht hquiet, Item.lowerAll]
    cases i.lower t.environment t.planner with
    | error e => rfl
    | ok a =>
      simp only [Except.ok_bind]
      rw [ih (ht.lay a) hquiet]
      change Item.lowerAll t.environment is a.planner >>= _ =
        (Item.lowerAll t.environment is a.planner >>= _) >>= _
      cases Item.lowerAll t.environment is a.planner with
      | error e => rfl
      | ok b => simp [lay, Code.append_append]

/-- A draft with a call that waits for its arguments. -/
def dial (t : Draft) (call : PendingCall) : Draft := { t with calls := call :: t.calls }

private theorem Running.dial {t : Draft} (h : t.Running) (call : PendingCall) :
    (t.dial call).Running :=
  ⟨h.not_ended, h.started⟩

/-- The events of the arguments of a call. -/
theorem take_arguments {t : Draft} (ht : t.Running) (hquiet : t.Quiet .whole) (call : PendingCall)
    (es : List Expression) :
    (t.dial call).take (es.flatMap fun e => e.events ++ [.argument]) =
      Tree.lowerArguments t.environment call.arguments.length es t.planner >>= fun a =>
        .ok ((t.lay a.1).dial { call with arguments := call.arguments ++ a.2 }) := by
  induction es generalizing t call with
  | nil => simp [Tree.lowerArguments, lay]
  | cons e es ih =>
    rw [List.flatMap_cons, List.append_assoc, take_append, lowers e _ (ht.dial call) hquiet,
      Tree.lowerArguments]
    change (e.lower t.environment t.planner >>= _) >>= _ =
      (e.lower t.environment t.planner >>= _) >>= _
    cases e.lower t.environment t.planner with
    | error e => rfl
    | ok a =>
      have hargument : ((t.dial call).push a).after .argument = .ok ((t.lay ⟨a.code ++
          [⟨.param, a.operand.address, unused, call.arguments.length⟩], a.planner⟩).dial
            { call with arguments := call.arguments ++ [a.operand.type] }) := by
        simp [after, perform, argument, popOperand, emit, push, lay, dial, Code.push_eq_append,
          Code.append_append]
      simp only [Except.ok_bind]
      rw [List.singleton_append, take_cons ((ht.dial call).push a), hargument, Except.ok_bind,
        ih (ht.lay _) hquiet]
      change Tree.lowerArguments t.environment (call.arguments ++ [a.operand.type]).length es
        a.planner >>= _ =
          (Tree.lowerArguments t.environment (call.arguments.length + 1) es a.planner >>= _) >>= _
      rw [List.length_append, List.length_singleton]
      cases Tree.lowerArguments t.environment (call.arguments.length + 1) es a.planner with
      | error e => rfl
      | ok b => simp [lay, Code.append_append]

/-- The arguments of a call are checked as in the lowering. -/
theorem settle_matchArguments (name : String) (position : Nat)
    (parameters arguments : List ValueType) (t : Draft) :
    settle (matchArguments name position parameters arguments) t =
      checkArguments name position parameters arguments >>= fun _ => .ok ((), t) := by
  induction parameters generalizing position arguments with
  | nil => simp [matchArguments, checkArguments]
  | cons expected parameters ih =>
    cases arguments with
    | nil => simp [matchArguments, checkArguments]
    | cons found arguments =>
      by_cases hsame : expected = found
      · simp [matchArguments, checkArguments, hsame, ih]
      · simp [matchArguments, checkArguments, hsame]

/-- The start of a call. -/
theorem after_callStart (t : Draft) (f : String) :
    t.after (.callStart f) = t.environment.callee f >>= fun c =>
      .ok (t.dial ⟨f, c.id, c.parameters, []⟩) := by
  simp only [after, perform, callStart, environment, Directory.environment, Directory.callee,
    settle_bind, settle_get, settle_lift, Except.ok_bind]
  cases t.directory.function f with
  | error e => rfl
  | ok s =>
    simp only [Except.ok_bind]
    cases s.address <;> rfl

/-- The end of a call of a function that is known. -/
theorem after_callEnd {t : Draft} {f : String} {c : Callee} (hc : t.environment.callee f = .ok c)
    (arguments : List ValueType) :
    (t.dial ⟨f, c.id, c.parameters, arguments⟩).after .callEnd = (do
      if arguments.length ≠ c.parameters.length then
        throw (.typing (.arity f c.parameters.length arguments.length))
      checkArguments f 1 c.parameters arguments
      match c.start with
      | none => throw (.protocol (.bodyMissing f))
      | some start => .ok (t.lay ⟨[⟨.call, c.id, unused, start⟩], t.planner⟩)) := by
  obtain ⟨s, hs, hc⟩ := Except.bind_eq_ok.mp hc
  have hstart : s.start = c.start := by
    cases ha : s.address with
    | none => simp [ha] at hc
    | some id =>
      simp only [ha, Except.pure_eq, Except.ok.injEq] at hc
      rw [← hc]
  by_cases hlength : arguments.length = c.parameters.length
  · simp only [after, perform, callEnd, dial, settle_bind, settle_get, Except.ok_bind,
      settle_modify, hlength, ne_eq, not_true_eq_false, if_false, settle_matchArguments,
      settle_lift]
    cases checkArguments f 1 c.parameters arguments with
    | error e => rfl
    | ok _ => cases h : c.start <;> simp [emit, lay, Code.push_eq_append, hs, hstart, h]
  · simp [after, perform, callEnd, dial, hlength]

/-- The events of a call. -/
theorem take_call {t : Draft} (ht : t.Running) (hquiet : t.Quiet .whole) (f : String)
    (es : List Expression) : t.Lays (.call f es) := by
  rw [Lays, Phrase.events, Phrase.lower, List.cons_append, List.cons_append, take_cons ht,
    after_callStart]
  cases hc : t.environment.callee f with
  | error e => rfl
  | ok c =>
    have hopen : (t.dial ⟨f, c.id, c.parameters, []⟩).after .callOpen =
        .ok ((t.lay ⟨[⟨.allocate, c.id, unused, unused⟩], t.planner⟩).dial
          ⟨f, c.id, c.parameters, []⟩) := by
      simp [after, perform, callOpen, emit, dial, lay, Code.push_eq_append]
    simp only [Except.ok_bind]
    rw [take_cons (ht.dial _), hopen, Except.ok_bind, take_append, take_arguments (ht.lay _) hquiet]
    change (Tree.lowerArguments t.environment 0 es t.planner >>= _) >>= _ =
      (Tree.lowerArguments t.environment 0 es t.planner >>= _) >>= _
    cases Tree.lowerArguments t.environment 0 es t.planner with
    | error e => rfl
    | ok a =>
      obtain ⟨args, types⟩ := a
      simp only [Except.ok_bind, List.nil_append]
      rw [take_cons (((ht.lay _).lay _).dial _), after_callEnd (t := (t.lay _).lay args) hc]
      by_cases hlength : types.length = c.parameters.length
      · simp only [hlength, ne_eq, not_true_eq_false, if_false]
        cases checkArguments f 1 c.parameters types with
        | error e => rfl
        | ok _ => cases c.start <;> simp [lay, Code.append_append]
      · simp [hlength]

/-- The events of a statement or a block leave its code, or fail as the lowering does. -/
theorem lays {r : Role} (s : Phrase r) (t : Draft) (ht : t.Running) (hquiet : t.Quiet .whole) :
    t.Lays s := by
  induction s generalizing t with
  | assign x e => exact take_assign ht x e
  | branch g b hb => exact take_branch ht hquiet g hb
  | choice g b c hb hc => exact take_choice ht hquiet g hb hc
  | loop b g hb => exact take_loop ht hquiet g hb
  | call f es => exact take_call ht hquiet f es
  | print i is => exact take_items ht hquiet (i :: is)
  | nil => simp [Lays, Phrase.events, Phrase.lower, lay]
  | cons s rest hs hrest =>
    rw [Lays, Phrase.events, Phrase.lower, take_append, hs t ht hquiet]
    cases s.lower t.environment t.code.size t.planner with
    | error e => rfl
    | ok a =>
      have hsize : (t.lay a).code.size = t.code.size + a.code.length := Code.size_append ..
      simp only [Except.ok_bind]
      rw [hrest _ (ht.lay a) hquiet, hsize]
      change rest.lower t.environment _ a.planner >>= _ =
        (rest.lower t.environment _ a.planner >>= _) >>= _
      cases rest.lower t.environment (t.code.size + a.code.length) a.planner with
      | error e => rfl
      | ok b => simp [lay, Code.append_append]

end Draft

end Quadlet
