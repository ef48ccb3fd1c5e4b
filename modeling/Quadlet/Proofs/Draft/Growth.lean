import Quadlet.Draft.Actions
import Quadlet.Proofs.Effects

/-!
# Drafts only grow

Events may come in any order, and a draft goes on behind events that fail. Main statement: whatever
the events, code that was emitted stays as it is but for open jumps, each of which is given its
target once, and no jump leads further than right behind the code.
-/

namespace Quadlet

/-! ## Code -/

/-- What may become of a quadruple: nothing, or the target of an open jump is filled in. -/
inductive Quadruple.Becomes (q : Quadruple) : Quadruple → Prop where
  | same : Becomes q q
  | patched (hopen : Code.isOpen q = true) (target : Nat) : Becomes q { q with result := target }

/-- A jump with a target stays as it is, so no target is filled in twice. -/
theorem Quadruple.Becomes.trans {q r s : Quadruple} (h : q.Becomes r) (h' : r.Becomes s) :
    q.Becomes s := by
  cases h with
  | same => exact h'
  | patched hopen target =>
    cases h' with
    | same => exact .patched hopen target
    | patched hopen' target' =>
      rw [Code.isOpen, Bool.and_eq_true] at hopen'
      have hunused : (target : Int) = -1 := by simpa [Code.isOpen, unused] using hopen'.2
      omega

namespace Code

/-- Code that has come out of older code: what was there is there, up to targets of open jumps. -/
def Grows (c d : Code) : Prop :=
  ∀ (i : Nat) (q : Quadruple), c.quads[i]? = some q → ∃ r, d.quads[i]? = some r ∧ q.Becomes r

private theorem Grows.refl (c : Code) : c.Grows c := fun _ q hq => ⟨q, hq, .same⟩

private theorem Grows.trans {c d e : Code} (h : c.Grows d) (h' : d.Grows e) : c.Grows e := by
  intro i q hq
  obtain ⟨r, hr, hqr⟩ := h i q hq
  obtain ⟨s, hs, hrs⟩ := h' i r hr
  exact ⟨s, hs, hqr.trans hrs⟩

/-- Code gets no shorter. -/
theorem Grows.size_le {c d : Code} (h : c.Grows d) : c.size ≤ d.size := by
  apply Nat.le_of_not_lt
  intro hlt
  obtain ⟨r, hr, -⟩ := h d.size _ (Array.getElem?_eq_getElem hlt)
  exact Nat.lt_irrefl _ (Array.getElem?_eq_some_iff.mp hr).1

private theorem grows_push (c : Code) (q : Quadruple) : c.Grows (c.push q) := by
  intro i r hr
  refine ⟨r, ?_, .same⟩
  have hi : i < c.quads.size := (Array.getElem?_eq_some_iff.mp hr).1
  rw [push, Array.getElem?_push, if_neg (by omega), hr]

/-- The jumps of some code are open or lead no further than an index. -/
def Within (n : Nat) (c : Code) : Prop :=
  ∀ q ∈ c.quads, q.op.isJump = true → q.result = unused ∨ ∃ k : Nat, q.result = k ∧ k ≤ n

private theorem within_push {n : Nat} {c : Code} {q : Quadruple} (h : c.Within n)
    (hq : q.op.isJump = true → q.result = unused ∨ ∃ k : Nat, q.result = k ∧ k ≤ n) :
    (c.push q).Within n := by
  intro r hr
  rcases Array.mem_push.mp hr with hr | rfl
  · exact h r hr
  · exact hq

private theorem Within.mono {n m : Nat} {c : Code} (h : c.Within n) (hnm : n ≤ m) : c.Within m := by
  intro q hq hjump
  rcases h q hq hjump with hopen | ⟨k, hk, hle⟩
  · exact .inl hopen
  · exact .inr ⟨k, hk, Nat.le_trans hle hnm⟩

/-- A patch succeeds exactly on an open jump. -/
theorem patch_eq_ok {c d : Code} {index : Nat} {target : Address} :
    c.patch index target = .ok d ↔ ∃ q, c.quads[index]? = some q ∧ isOpen q = true ∧
      d = ⟨c.quads.setIfInBounds index { q with result := target }⟩ := by
  rw [patch]
  cases hq : c.quads[index]? with
  | none => simp
  | some q =>
    cases hjump : q.op.isJump with
    | false => simp [isOpen, hjump]
    | true =>
      by_cases hopen : q.result = unused
      · simp [isOpen, hjump, hopen, @eq_comm Code d]
      · simp [isOpen, hjump, hopen]

private theorem grows_patch {c d : Code} {index target : Nat} (h : c.patch index target = .ok d) :
    c.Grows d := by
  obtain ⟨q, hq, hopen, rfl⟩ := patch_eq_ok.mp h
  intro i r hr
  by_cases hi : index = i
  · subst hi
    cases hq.symm.trans hr
    have hlt : index < c.quads.size := (Array.getElem?_eq_some_iff.mp hq).1
    exact ⟨_, by rw [Array.getElem?_setIfInBounds_self_of_lt hlt], .patched hopen target⟩
  · exact ⟨r, by rw [Array.getElem?_setIfInBounds_ne hi, hr], .same⟩

private theorem within_patch {c d : Code} {index target n : Nat} (hc : c.Within n)
    (h : c.patch index target = .ok d) (ht : target ≤ n) : d.Within n := by
  obtain ⟨q, hq, hopen, rfl⟩ := patch_eq_ok.mp h
  intro r hr
  rcases Array.mem_or_eq_of_mem_setIfInBounds hr with hr | rfl
  · exact hc r hr
  · exact fun _ => .inr ⟨target, rfl, ht⟩

/-- Without open jumps, every jump has a target. -/
theorem Within.resolved {n : Nat} {c : Code} (h : c.Within n) (hc : c.unresolved = [])
    {q : Quadruple} (hq : q ∈ c.quads) (hjump : q.op.isJump = true) :
    ∃ k : Nat, q.result = k ∧ k ≤ n := by
  refine (h q hq hjump).resolve_left fun hopen => ?_
  obtain ⟨i, hi, rfl⟩ := Array.getElem_of_mem hq
  have hmem : i ∈ c.unresolved := by
    simp only [unresolved, List.mem_filter, List.mem_range]
    exact ⟨hi, by simp [hi, isOpen, hjump, hopen]⟩
  simp [hc] at hmem

end Code

/-! ## Drafts -/

/-- The bodies of functions start no further than at an index. -/
def SymbolTable.StartWithin (n : Nat) (t : SymbolTable) : Prop :=
  ∀ s ∈ t.toList, ∀ k ∈ s.start, k ≤ n

private theorem SymbolTable.startWithin_declare {n : Nat} {t u : SymbolTable} {s : Symbol}
    (h : t.StartWithin n) (hs : s.start = none) (hu : t.declare s = .ok u) : u.StartWithin n := by
  rw [StartWithin, toList_declare hu]
  intro r hr
  rcases List.mem_append.mp hr with hr | hr
  · exact h r hr
  · rw [List.mem_singleton.mp hr, hs]
    simp

private theorem SymbolTable.startWithin_modify {n : Nat} {t u : SymbolTable} {name : String}
    {f : Symbol → Symbol} (h : t.StartWithin n)
    (hf : ∀ s, (∀ k ∈ s.start, k ≤ n) → ∀ k ∈ (f s).start, k ≤ n) (hu : t.modify name f = .ok u) :
    u.StartWithin n := by
  intro r hr
  obtain ⟨s, hs, rfl | rfl⟩ := mem_of_modify hu hr
  · exact h r hs
  · exact hf s (h s hs)

namespace Directory

variable {n : Nat} {d d' : Directory}

private theorem startWithin_modifyFunction {name : String} {f : Symbol → Symbol}
    (h : d.globals.StartWithin n) (hf : ∀ s, (∀ k ∈ s.start, k ≤ n) → ∀ k ∈ (f s).start, k ≤ n)
    (hd : d.modifyFunction name f = .ok d') : d'.globals.StartWithin n := by
  obtain ⟨_, -, hd⟩ := Except.bind_eq_ok.mp hd
  obtain ⟨u, hu, hd⟩ := Except.bind_eq_ok.mp hd
  cases hd
  exact SymbolTable.startWithin_modify h hf hu

/-- A symbol without a body may be declared in any scope. -/
theorem startWithin_declare {level : Level} {s : Symbol} (h : d.globals.StartWithin n)
    (hs : s.start = none) (hd : d.declare level s = .ok d') : d'.globals.StartWithin n := by
  obtain ⟨t, ht, hrest⟩ := Except.bind_eq_ok.mp hd
  obtain ⟨u, hu, hset⟩ := Except.bind_eq_ok.mp hrest
  cases level with
  | global =>
    cases ht
    cases hset
    exact SymbolTable.startWithin_declare h hs hu
  | function name =>
    exact startWithin_modifyFunction (f := fun s => { s with table := some u }) h
      (fun _ hs => hs) hset

/-- The body of a function that is found starts no further than those of all. -/
theorem start_le_of_function {name : String} {f : Symbol} {start : Nat}
    (h : d.globals.StartWithin n) (hf : d.function name = .ok f) (hstart : f.start = some start) :
    start ≤ n := by
  rw [function] at hf
  split at hf
  · next g hg =>
    cases hf
    have hfind := Option.eq_some_of_filter_eq_some hg
    exact h f (SymbolTable.mem_of_find? hfind) start hstart
  · cases hf

end Directory

/-- All indices that a draft holds lie in its code or right behind it. -/
structure Draft.Bounded (t : Draft) : Prop where
  jumps : ∀ j ∈ t.jumps, j ≤ t.code.size
  targets : t.code.Within t.code.size
  starts : t.directory.globals.StartWithin t.code.size

/-- A draft that has come out of an older one. -/
structure Draft.Grows (t s : Draft) : Prop where
  code : t.code.Grows s.code
  bounded : s.Bounded

private theorem Draft.Bounded.grows {t : Draft} (h : t.Bounded) : t.Grows t := ⟨.refl _, h⟩

private theorem Draft.Grows.trans {t s r : Draft} (h : t.Grows s) (h' : s.Grows r) : t.Grows r :=
  ⟨h.code.trans h'.code, h'.bounded⟩

/-! ## Rows of actions -/

namespace Drafting

variable {α β : Type} {t s : Draft}

/-- An action on a draft `s` leaves a draft that has come out of `t`, whether it succeeds or fails;
where it succeeds, its result meets a condition. -/
def Keeps (t : Draft) (x : Drafting α) (s : Draft) (post : α → Draft → Prop) : Prop :=
  match x s with
  | .ok a s => t.Grows s ∧ post a s
  | .error _ s => t.Grows s

/-- An action leaves what has come out of the draft that it is carried out on. -/
def Safe (x : Drafting α) : Prop := ∀ ⦃t s : Draft⦄, t.Grows s → Keeps t x s fun _ _ => True

private theorem Keeps.bind {x : Drafting α} {f : α → Drafting β} {post : α → Draft → Prop}
    {post' : β → Draft → Prop} (hx : Keeps t x s post)
    (hf : ∀ a s, t.Grows s → post a s → Keeps t (f a) s post') : Keeps t (x >>= f) s post' := by
  rw [Keeps] at hx ⊢
  cases h : x s with
  | ok a s' =>
    rw [h] at hx
    rw [EStateM.bind_of_ok h]
    exact hf a s' hx.1 hx.2
  | error e s' =>
    rw [h] at hx
    rw [EStateM.bind_of_error h]
    exact hx

private theorem Keeps.forget {x : Drafting α} {post : α → Draft → Prop} (h : Keeps t x s post) :
    Keeps t x s fun _ _ => True := by
  rw [Keeps] at h ⊢
  cases hx : x s with
  | ok a s' =>
    rw [hx] at h
    exact ⟨h.1, trivial⟩
  | error e s' =>
    rw [hx] at h
    exact h

/-- It is enough to look at what comes out of the draft that an action is carried out on. -/
theorem Keeps.rebase {x : Drafting α} {post : α → Draft → Prop} (h : t.Grows s)
    (hx : Keeps s x s post) : Keeps t x s post := by
  rw [Keeps] at hx ⊢
  cases hs : x s with
  | ok a s' =>
    rw [hs] at hx
    exact ⟨h.trans hx.1, hx.2⟩
  | error e s' =>
    rw [hs] at hx
    exact h.trans hx

private theorem Safe.bind {x : Drafting α} {f : α → Drafting β} (hx : Safe x)
    (hf : ∀ a, Safe (f a)) :
    Safe (x >>= f) := fun _ _ h => (hx h).bind fun a _ h _ => hf a h

private theorem safe_pure (a : α) : Safe (pure a) := fun _ _ h => ⟨h, trivial⟩

private theorem safe_throw (e : Error) : Safe (throw e : Drafting α) := fun _ _ h => h

private theorem safe_broken (fault : ProtocolFault) : Safe (broken fault : Drafting α) :=
  fun _ _ h => h

/-- What stands behind a failure is not carried out. -/
theorem safe_throw_bind (e : Error) (f : α → Drafting β) : Safe (throw e >>= f) := fun _ _ h => h

private theorem safe_broken_bind (fault : ProtocolFault) (f : α → Drafting β) :
    Safe (broken fault >>= f) :=
  safe_throw_bind _ f

/-- The draft itself is asked for. -/
theorem keeps_get (h : t.Grows s) : Keeps t get s fun a s' => a = s ∧ s' = s := ⟨h, rfl, rfl⟩

private theorem safe_get : Safe get := fun _ _ h => ⟨h, trivial⟩

/-- A result that does not change the draft. -/
theorem keeps_lift (h : t.Grows s) (x : Except Error α) :
    Keeps t (lift x) s fun a s' => x = .ok a ∧ s' = s := by
  cases x with
  | ok a => exact ⟨h, rfl, rfl⟩
  | error e => exact h

private theorem safe_lift (x : Except Error α) : Safe (lift x) :=
  fun _ _ h => (keeps_lift h x).forget

private theorem keeps_modify {f : Draft → Draft} (h : t.Grows (f s)) :
    Keeps t (modify f) s fun _ _ => True :=
  ⟨h, trivial⟩

/-- A change of everything but the code, the jumps and the names. -/
theorem safe_modify {f : Draft → Draft}
    (hf : ∀ s, (f s).code = s.code ∧ (f s).jumps = s.jumps ∧ (f s).directory = s.directory) :
    Safe (modify f) := by
  intro t s h
  obtain ⟨hcode, hjumps, hdirectory⟩ := hf s
  refine ⟨⟨?_, ?_, ?_, ?_⟩, trivial⟩
  · rw [hcode]
    exact h.code
  · rw [hcode, hjumps]
    exact h.bounded.jumps
  · rw [hcode]
    exact h.bounded.targets
  · rw [hcode, hdirectory]
    exact h.bounded.starts

private theorem safe_place (f : Planner → Except Error (Address × Planner)) : Safe (place f) :=
  Safe.bind safe_get fun _ => (safe_lift _).bind fun _ =>
    Safe.bind (safe_modify fun _ => ⟨rfl, rfl, rfl⟩) fun _ => safe_pure _

private theorem safe_pushOperand (o : Operand) : Safe (pushOperand o) :=
  safe_modify fun _ => ⟨rfl, rfl, rfl⟩

private theorem safe_pushOperator (op : PendingOperator) : Safe (pushOperator op) :=
  safe_modify fun _ => ⟨rfl, rfl, rfl⟩

private theorem safe_popOperand : Safe popOperand := Safe.bind safe_get fun t => by
  split
  · exact Safe.bind (safe_modify fun _ => ⟨rfl, rfl, rfl⟩) fun _ => safe_pure _
  · exact safe_broken _

private theorem safe_popOperator : Safe popOperator := Safe.bind safe_get fun t => by
  split
  · exact Safe.bind (safe_modify fun _ => ⟨rfl, rfl, rfl⟩) fun _ => safe_pure _
  · exact safe_broken _

private theorem safe_currentLevel : Safe currentLevel := Safe.bind safe_get fun t => by
  split
  · exact safe_pure _
  · exact safe_broken _

/-! ## Code and jumps -/

/-- A quadruple is put behind the others; a jump among them is open or leads no further
than behind the code. -/
theorem keeps_emit (h : t.Grows s) {op : Opcode} {left right result : Address}
    (hresult : op.isJump = true → result = unused ∨ ∃ k : Nat, result = k ∧ k ≤ s.code.size) :
    Keeps t (emit op left right result) s fun _ s' =>
      s' = { s with code := s.code.push ⟨op, left, right, result⟩ } := by
  have hgrows := s.code.grows_push ⟨op, left, right, result⟩
  have hle := hgrows.size_le
  refine ⟨⟨h.code.trans hgrows, fun j hj => ?_, ?_, fun f hf k hk => ?_⟩, rfl⟩
  · exact Nat.le_trans (h.bounded.jumps j hj) hle
  · exact (Code.within_push h.bounded.targets hresult).mono hle
  · exact Nat.le_trans (h.bounded.starts f hf k hk) hle

private theorem safe_emit {op : Opcode} (hop : op.isJump = false) (left right result : Address) :
    Safe (emit op left right result) := fun _ _ h => (keeps_emit h (by simp [hop])).forget

private theorem safe_emit_open (op : Opcode) (left right : Address) :
    Safe (emit op left right unused) :=
  fun _ _ h => (keeps_emit h fun _ => .inl rfl).forget

/-- An open jump may be given the place behind the code as its target. -/
theorem safe_patchToHere (index : Nat) : Safe (patchToHere index) := by
  intro t s h
  refine (keeps_get h).bind ?_
  rintro _ _ - ⟨rfl, rfl⟩
  refine (keeps_get h).bind ?_
  rintro _ s' - ⟨rfl, rfl⟩
  refine (keeps_lift h _).bind ?_
  rintro code _ - ⟨hcode, rfl⟩
  have hsize := Code.size_patch hcode
  refine ⟨⟨h.code.trans (Code.grows_patch hcode), ?_, ?_, ?_⟩, trivial⟩
  · rw [hsize]
    exact h.bounded.jumps
  · rw [hsize]
    exact Code.within_patch h.bounded.targets hcode (Nat.le_refl _)
  · rw [hsize]
    exact h.bounded.starts

private theorem keeps_pushJump (h : t.Grows s) {index : Nat} (hindex : index ≤ s.code.size) :
    Keeps t (pushJump index) s fun _ _ => True := by
  refine ⟨⟨h.code, ?_, h.bounded.targets, h.bounded.starts⟩, trivial⟩
  intro j hj
  rcases List.mem_cons.mp hj with rfl | hj
  · exact hindex
  · exact h.bounded.jumps j hj

/-- An open jump is emitted, and its index is kept. -/
theorem keeps_emit_pushJump (h : t.Grows s) (op : Opcode) (left right : Address) :
    Keeps t (emit op left right unused >>= fun _ => pushJump s.code.size) s fun _ _ => True := by
  refine (keeps_emit h fun _ => .inl rfl).bind ?_
  rintro _ _ h' rfl
  exact keeps_pushJump h' (s.code.grows_push _).size_le

/-- An index from the stack of jumps lies in the code or right behind it. -/
theorem keeps_popJump (h : t.Grows s) : Keeps t popJump s fun j s' => j ≤ s'.code.size := by
  refine (keeps_get h).bind ?_
  rintro _ s h ⟨rfl, rfl⟩
  have hjumps := h.bounded.jumps
  split
  · next j js hs =>
    rw [hs] at hjumps
    have hrest : t.Grows { s with jumps := js } :=
      ⟨h.code, fun k hk => hjumps k (List.mem_cons_of_mem j hk), h.bounded.targets,
        h.bounded.starts⟩
    exact ⟨hrest, hjumps j (List.mem_cons_self ..)⟩
  · exact h

private theorem safe_popJump : Safe popJump := fun _ _ h => (keeps_popJump h).forget

/-- The names may change as long as bodies start in the code or right behind it. -/
theorem keeps_updateDirectory (h : t.Grows s) {f : Directory → Except Error Directory}
    (hf : ∀ d, f s.directory = .ok d → d.globals.StartWithin s.code.size) :
    Keeps t (updateDirectory f) s fun _ _ => True := by
  refine (keeps_get h).bind ?_
  rintro _ s h ⟨rfl, rfl⟩
  refine (keeps_lift h _).bind ?_
  rintro d s h ⟨hd, rfl⟩
  exact ⟨⟨h.code, h.bounded.jumps, h.bounded.targets, hf d hd⟩, trivial⟩

/-! ## Declarations -/

private theorem safe_programStart (name : String) : Safe (programStart name) := by
  refine Safe.bind safe_get fun _ => ?_
  split
  · exact safe_broken_bind _ _
  · intro t s h
    have hstarted : t.Grows { s with directory := .ofProgram name, scopes := [.global] } :=
      ⟨h.code, h.bounded.jumps, h.bounded.targets, fun _ hf => (List.not_mem_nil hf).elim⟩
    refine (keeps_modify hstarted).bind fun _ s h _ => ?_
    refine (keeps_get h).bind ?_
    rintro _ s h ⟨rfl, rfl⟩
    exact keeps_emit_pushJump h _ _ _

private theorem safe_requireDeclarable (name : String) (type : ValueType) :
    Safe (requireDeclarable name type) := by
  cases type with
  | int | float => exact safe_pure _
  | _ => exact safe_throw _

private theorem safe_declare (level : Level) (s : Segment) (kind : SymbolKind) (name : String) :
    Safe (declare level s kind name) := by
  refine (safe_requireDeclarable name s.type).bind fun _ => Safe.bind safe_get fun _ =>
    (safe_lift _).bind fun table => ?_
  split
  · exact safe_throw_bind _ _
  · refine (safe_place _).bind fun a t s h => keeps_updateDirectory h fun d hd => ?_
    exact Directory.startWithin_declare h.bounded.starts rfl hd

private theorem safe_varName (name : String) : Safe (varName name) :=
  safe_modify fun _ => ⟨rfl, rfl, rfl⟩

/-- Actions on a list, one after the other. -/
theorem safe_forM {xs : List α} {f : α → Drafting Unit} (hf : ∀ a, Safe (f a)) :
    Safe (xs.forM f) := by
  induction xs with
  | nil => exact safe_pure _
  | cons x xs ih => exact (hf x).bind fun _ => ih

private theorem safe_varType (type : ValueType) : Safe (varType type) :=
  Safe.bind safe_currentLevel fun _ => Safe.bind safe_get fun _ =>
    Safe.bind (safe_modify fun _ => ⟨rfl, rfl, rfl⟩) fun _ => safe_forM (safe_declare _ _ _)

private theorem safe_functionStart (name : String) : Safe (functionStart name) := by
  refine Safe.bind safe_get fun _ => ?_
  split
  · exact safe_broken_bind _ _
  · refine Safe.bind safe_get fun _ => ?_
    split
    · exact safe_throw_bind _ _
    · refine (safe_place _).bind fun id => Safe.bind (fun t s h => ?_) fun _ =>
        safe_modify fun _ => ⟨rfl, rfl, rfl⟩
      exact keeps_updateDirectory h fun d hd =>
        Directory.startWithin_declare h.bounded.starts rfl hd

private theorem safe_param (name : String) (type : ValueType) : Safe (param name type) := by
  refine Safe.bind safe_currentLevel fun level => ?_
  cases level with
  | global => exact safe_broken _
  | function f => exact safe_declare _ _ _ _

/-- A body starts right behind the code. -/
theorem safe_functionBodyStart : Safe functionBodyStart := by
  refine Safe.bind safe_currentLevel fun level => ?_
  cases level with
  | global => exact safe_broken _
  | function f =>
    intro t s h
    refine (keeps_get h).bind ?_
    rintro _ s h ⟨rfl, rfl⟩
    refine keeps_updateDirectory h fun d hd => ?_
    refine Directory.startWithin_modifyFunction h.bounded.starts (fun _ _ k hk => ?_) hd
    exact Nat.le_of_eq (Option.some.inj hk).symm

private theorem safe_functionEnd : Safe functionEnd := by
  refine Safe.bind safe_get fun _ => Safe.bind (safe_modify fun _ => ⟨rfl, rfl, rfl⟩) fun _ => ?_
  split
  · exact (safe_emit_open _ _ _).bind fun _ => safe_modify fun _ => ⟨rfl, rfl, rfl⟩
  · exact safe_broken _

private theorem safe_mainStart : Safe mainStart := by
  refine Safe.bind safe_get fun _ => ?_
  split
  · exact safe_broken_bind _ _
  · refine Safe.bind safe_popJump fun jump => Safe.bind safe_get fun _ => ?_
    split
    · exact safe_broken_bind _ _
    · exact safe_patchToHere jump

/-! ## Expressions -/

private theorem safe_identifier (name : String) : Safe (identifier name) := by
  refine Safe.bind safe_get fun _ => (safe_lift _).bind fun _ => ?_
  split
  · exact safe_pushOperand _
  · exact safe_throw _

private theorem safe_literal (l : Literal) : Safe (literal l) :=
  (safe_place _).bind fun _ => safe_pushOperand _

private theorem safe_operator (op : Operator) : Safe (operator op) := by
  rw [operator]
  split
  · exact safe_broken _
  · exact safe_pushOperator _

/-- An operator is no jump. -/
theorem safe_apply (op : Operator) (left right : Operand) : Safe (apply op left right) :=
  (safe_lift _).bind fun _ => (safe_place _).bind fun _ =>
    (safe_emit (by cases op <;> rfl) _ _ _).bind fun _ => safe_pushOperand _

private theorem safe_levelEnd (level : Operator → Bool) : Safe (levelEnd level) := by
  refine Safe.bind safe_get fun _ => ?_
  split
  · split
    · exact Safe.bind (safe_modify fun _ => ⟨rfl, rfl, rfl⟩) fun _ =>
        Safe.bind safe_popOperand fun right =>
        Safe.bind safe_popOperand fun left => safe_apply _ left right
    · exact safe_pure _
  · exact safe_pure _

private theorem safe_closeParen : Safe closeParen := by
  refine Safe.bind safe_popOperator fun op => ?_
  split
  · exact safe_pure _
  · exact safe_broken _

private theorem safe_unaryEnd : Safe unaryEnd := by
  refine Safe.bind safe_popOperator fun op => ?_
  split
  · exact Safe.bind safe_popOperand fun operand => (safe_place _).bind fun _ => safe_apply _ _ _
  · exact safe_broken _

private theorem safe_assignValue : Safe assignValue := by
  refine Safe.bind safe_popOperand fun value => Safe.bind safe_popOperator fun op => ?_
  split
  · exact safe_broken_bind _ _
  · exact Safe.bind safe_popOperand fun target => (safe_lift _).bind fun _ => safe_emit rfl _ _ _

private theorem safe_printItem : Safe printItem :=
  Safe.bind safe_popOperand fun _ => safe_emit_open _ _ _

/-! ## Branches and loops -/

private theorem safe_popGuard (construct : String) : Safe (popGuard construct) := by
  refine Safe.bind safe_popOperand fun guard => ?_
  split
  · exact safe_throw_bind _ _
  · exact safe_pure _

private theorem safe_ifGuardEnd : Safe ifGuardEnd := by
  refine (safe_popGuard _).bind fun guard t s h => ?_
  refine (keeps_get h).bind ?_
  rintro _ s h ⟨rfl, rfl⟩
  exact keeps_emit_pushJump h _ _ _

private theorem safe_elseBranch : Safe elseBranch := by
  intro t s h
  refine (keeps_get h).bind ?_
  rintro _ s h ⟨rfl, rfl⟩
  -- The exit jump stands behind the code of this draft, and the code does not shrink.
  refine Keeps.rebase h ?_
  refine (safe_emit_open _ _ _ h.bounded.grows).bind fun _ s₁ h₁ _ => ?_
  refine (safe_popJump h₁).bind fun jump s₂ h₂ _ => ?_
  refine (safe_patchToHere jump h₂).bind fun _ s₃ h₃ _ => ?_
  exact keeps_pushJump h₃ h₃.code.size_le

private theorem safe_ifEnd : Safe ifEnd := Safe.bind safe_popJump safe_patchToHere

private theorem safe_loopStart : Safe loopStart := by
  intro t s h
  refine (keeps_get h).bind ?_
  rintro _ s h ⟨rfl, rfl⟩
  exact keeps_pushJump h (Nat.le_refl _)

/-- A loop goes back to an index from the stack of jumps. -/
theorem safe_loopGuardEnd : Safe loopGuardEnd := by
  refine (safe_popGuard _).bind fun guard t s h => ?_
  refine (keeps_popJump h).bind fun head s h hhead => ?_
  exact (keeps_emit h fun _ => .inr ⟨head, rfl, hhead⟩).forget

/-! ## Calls -/

private theorem safe_callStart (name : String) : Safe (callStart name) := by
  refine Safe.bind safe_get fun _ => (safe_lift _).bind fun f => ?_
  split
  · exact safe_broken _
  · exact safe_modify fun _ => ⟨rfl, rfl, rfl⟩

private theorem safe_callOpen : Safe callOpen := by
  refine Safe.bind safe_get fun _ => ?_
  split
  · exact safe_emit_open _ _ _
  · exact safe_broken _

private theorem safe_argument : Safe argument := by
  refine Safe.bind safe_popOperand fun value => Safe.bind safe_get fun _ => ?_
  split
  · exact Safe.bind (safe_modify fun _ => ⟨rfl, rfl, rfl⟩) fun _ => safe_emit rfl _ _ _
  · exact safe_broken _

private theorem safe_matchArguments (name : String) (position : Nat)
    (parameters arguments : List ValueType) :
    Safe (matchArguments name position parameters arguments) := by
  fun_induction matchArguments name position parameters arguments with
  | case1 => exact safe_throw _
  | case2 _ _ _ _ _ _ ih => exact ih
  | case3 => exact safe_pure _

/-- A call leads to where the body of its function starts. -/
theorem safe_callEnd : Safe callEnd := by
  refine Safe.bind safe_get fun _ => ?_
  split
  · exact safe_broken _
  · next call calls _ =>
    refine Safe.bind (safe_modify fun _ => ⟨rfl, rfl, rfl⟩) fun _ => ?_
    split
    · exact safe_throw_bind _ _
    · refine (safe_matchArguments _ _ _ _).bind fun _ t s h => ?_
      refine (keeps_get h).bind ?_
      rintro _ s h ⟨rfl, rfl⟩
      refine (keeps_lift h _).bind ?_
      rintro f s h ⟨hf, rfl⟩
      split
      · exact h
      · next start hstart =>
        have hle := Directory.start_le_of_function h.bounded.starts hf hstart
        exact (keeps_emit h fun _ => .inr ⟨start, rfl, hle⟩).forget

/-! ## Events -/

private theorem safe_perform (e : Event) : Safe (perform e) := by
  cases e with
  | programStart name => exact safe_programStart name
  | varName name => exact safe_varName name
  | varType type => exact safe_varType type
  | functionStart name => exact safe_functionStart name
  | param name type => exact safe_param name type
  | functionBodyStart => exact safe_functionBodyStart
  | functionEnd => exact safe_functionEnd
  | mainStart => exact safe_mainStart
  | programEnd => exact safe_modify fun _ => ⟨rfl, rfl, rfl⟩
  | assignTarget name | identifier name => exact safe_identifier name
  | assignOperator | openParen | unarySign negative => exact safe_pushOperator _
  | assignValue => exact safe_assignValue
  | intLiteral n | floatLiteral x | stringLiteral s => exact safe_literal _
  | operator op => exact safe_operator op
  | factorEnd | termEnd | relationalEnd => exact safe_levelEnd _
  | closeParen => exact safe_closeParen
  | unaryEnd => exact safe_unaryEnd
  | ifGuardEnd => exact safe_ifGuardEnd
  | elseBranch => exact safe_elseBranch
  | ifEnd => exact safe_ifEnd
  | loopStart => exact safe_loopStart
  | loopGuardEnd => exact safe_loopGuardEnd
  | callStart name => exact safe_callStart name
  | callOpen => exact safe_callOpen
  | argument => exact safe_argument
  | callEnd => exact safe_callEnd
  | printItem => exact safe_printItem

private theorem safe_handle (e : Event) : Safe (handle e) := by
  refine Safe.bind safe_get fun t => ?_
  dsimp only
  split
  · exact safe_broken_bind _ _
  · split
    · exact safe_broken_bind _ _
    · exact safe_perform e

end Drafting

namespace Draft

/-- The draft behind an event, whether the event succeeds or fails. -/
def pass (t : Draft) (e : Event) : Draft :=
  match Drafting.handle e t with
  | .ok _ t => t
  | .error _ t => t

/-- The draft behind events that are sent one after the other, also behind those that fail. -/
def passAll (t : Draft) (es : List Event) : Draft := es.foldl pass t

private theorem passAll_append (t : Draft) (es fs : List Event) :
    t.passAll (es ++ fs) = (t.passAll es).passAll fs :=
  List.foldl_append

private theorem bounded_empty : empty.Bounded :=
  ⟨fun _ hj => (List.not_mem_nil hj).elim, fun _ hq => (Array.not_mem_empty _ hq).elim,
    fun _ hf => (List.not_mem_nil hf).elim⟩

/-- One event lets a draft grow. -/
theorem Bounded.grows_pass {t : Draft} (h : t.Bounded) (e : Event) : t.Grows (t.pass e) := by
  have hkeeps := Drafting.safe_handle e h.grows
  rw [Drafting.Keeps] at hkeeps
  rw [pass]
  cases hresult : Drafting.handle e t with
  | ok a s =>
    rw [hresult] at hkeeps
    exact hkeeps.1
  | error f s =>
    rw [hresult] at hkeeps
    exact hkeeps

/-- Events let a draft grow. -/
theorem Bounded.grows_passAll {t : Draft} (h : t.Bounded) (es : List Event) :
    t.Grows (t.passAll es) := by
  induction es generalizing t with
  | nil => exact h.grows
  | cons e es ih =>
    have hpass := h.grows_pass e
    exact hpass.trans (ih hpass.bounded)

/-- A draft that can be finished becomes a program in which every jump has a target. -/
theorem Bounded.finish {t : Draft} (h : t.Bounded) {o : ObjectFile} (ho : t.finish = .ok o)
    {q : Quadruple} (hq : q ∈ o.quadruples) (hjump : q.op.isJump = true) :
    ∃ k : Nat, q.result = k ∧ k ≤ o.quadruples.size := by
  rw [Draft.finish] at ho
  split at ho
  · cases ho
  · split at ho
    · cases ho
    · split at ho
      · cases ho
      · split at ho
        · cases ho
        · next hresolved =>
          cases ho
          exact h.targets.resolved (Decidable.not_not.mp hresolved) hq hjump

/-- Whatever events a new draft is sent and whichever of them fail: behind more of them, its code is
the older code with some open jumps patched, and with more behind it; all indices lie in the code or
right behind it; and if it can be finished, every jump of the program has a target. -/
theorem passAll_grows (es fs : List Event) :
    (empty.passAll es).Grows (empty.passAll (es ++ fs)) ∧
      ∀ o, (empty.passAll (es ++ fs)).finish = .ok o → ∀ q ∈ o.quadruples, q.op.isJump = true →
        ∃ k : Nat, q.result = k ∧ k ≤ o.quadruples.size := by
  have hes : (empty.passAll es).Bounded := (Bounded.grows_passAll bounded_empty es).bounded
  have hgrows := hes.grows_passAll fs
  rw [passAll_append]
  exact ⟨hgrows, fun o ho q hq hjump => hgrows.bounded.finish ho hq hjump⟩

/-- The theorem at events that follow no grammar: the first jump is taken for that of a branch, the
main part fails, and still the draft can be finished. -/
theorem passAll_grows_misused_jump :
    (empty.passAll [.programStart "p"]).Grows
        (empty.passAll [.programStart "p", .ifEnd, .mainStart, .programEnd]) ∧
      ∃ o, (empty.passAll [.programStart "p", .ifEnd, .mainStart, .programEnd]).finish = .ok o ∧
        ∃ q ∈ o.quadruples, q.op.isJump = true ∧ ∃ k : Nat, q.result = k ∧
        k ≤ o.quadruples.size := by
  obtain ⟨hgrows, hfinish⟩ := passAll_grows [.programStart "p"] [.ifEnd, .mainStart, .programEnd]
  have ho : (empty.passAll [.programStart "p", .ifEnd, .mainStart, .programEnd]).finish =
    .ok ⟨Planner.empty.memoryMap, [], #[⟨.goto, unused, unused, 1⟩]⟩ := rfl
  have hq : (⟨.goto, unused, unused, 1⟩ : Quadruple) ∈
      #[(⟨.goto, unused, unused, 1⟩ : Quadruple)] := by simp
  exact ⟨hgrows, _, ho, _, hq, rfl, hfinish _ ho _ hq rfl⟩

end Draft

end Quadlet
