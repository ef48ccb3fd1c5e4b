import Quadlet.Proofs.Static.Program

/-!
# Why a program is refused

A syntax tree is refused for its names, for its types, or because a segment is full, and for nothing
else: every table that is asked for is there, every function that can be called has an identity and
a body, and every cell that is asked for has a segment.
-/

namespace Quadlet

open Syntax Request Planner

/-- The errors that refuse a tree: a name or a type is wrong, or a segment is full. -/
def Error.IsRefusal (e : Error) : Prop := e.isSemantic = true ∨ ∃ s, e = .protocol (.exhausted s)

/-- A computation that fails with such errors only. -/
def Refusing {α : Type} (x : Except Error α) : Prop := ∀ e, x = .error e → e.IsRefusal

section

variable {α β : Type}

private theorem refusing_ok (a : α) : Refusing (.ok a : Except Error α) := by
  intro e h
  cases h

private theorem refusing_error {e : Error} (h : e.IsRefusal) :
    Refusing (.error e : Except Error α) := by
  intro e' he
  cases he
  exact h

/-- A name or a type that is wrong refuses a tree. -/
theorem refusing_semantic {e : Error} (h : e.isSemantic = true) :
    Refusing (.error e : Except Error α) :=
  refusing_error (.inl h)

/-- A row of two computations refuses where both do. -/
theorem refusing_bind {x : Except Error α} {f : α → Except Error β} (hx : Refusing x)
    (hf : ∀ a, x = .ok a → Refusing (f a)) : Refusing (x >>= f) := by
  cases x with
  | ok a => exact hf a rfl
  | error e => exact refusing_error (hx e rfl)

end

/-! ## Cells -/

private theorem refusing_place (p : Planner) (s : Segment) (base : Address) :
    Refusing (p.place s base) := by
  rw [place]
  split
  · exact refusing_ok _
  · exact refusing_error (.inr ⟨s, rfl⟩)

/-- A cell of a segment of the layout is refused only if the segment is full. -/
theorem refusing_assign {p : Planner} {s : Segment} {base : Address} (hs : isOwned s)
    (hbase : s.base? = some base) : Refusing (p.assign s none) := by
  rw [assign_of_owned hs hbase]
  exact refusing_place p s base

private theorem refusing_literal (p : Planner) (l : Literal) : Refusing (p.literal l) := by
  refine refusing_bind ?_ fun _ _ => refusing_ok _
  rw [constant_eq]
  split
  · exact refusing_ok _
  · exact refusing_bind (refusing_place p _ _) fun _ _ => refusing_ok _

/-- What an operator gives is operable. -/
theorem operable_of_result {op : Operator} {τ υ σ : ValueType}
    (h : Typing.result? op τ υ = some σ) : Typing.isOperable σ = true := by
  revert h
  cases op <;> cases τ <;> cases υ <;> cases σ <;> decide

private theorem refusing_result (op : Operator) (τ υ : ValueType) :
    Refusing (Typing.result op τ υ) := by
  rw [Typing.result]
  split
  · exact refusing_ok _
  · exact refusing_semantic rfl

private theorem refusing_operation (p : Planner) (op : Operator) (left right : Operand)
    (code : List Quadruple) : Refusing (p.operation op left right code) := by
  refine refusing_bind (refusing_result op _ _) fun τ hτ => ?_
  rw [Typing.result] at hτ
  split at hτ
  · next σ hσ =>
    cases hτ
    obtain ⟨base, hbase⟩ := base?_temporary (operable_of_result hσ)
    exact refusing_bind (refusing_assign (.inr rfl) hbase) fun _ _ => refusing_ok _
  · cases hτ

/-! ## Expressions and statements -/

/-- An environment that refuses names, and in which whatever can be called has a body. -/
structure Environment.Refuses (env : Environment) : Prop where
  operand : ∀ x, Refusing (env.operand x)
  callee : ∀ f, Refusing (env.callee f)
  started : ∀ {f c}, env.callee f = .ok c → c.start ≠ none

section

variable {env : Environment} (henv : env.Refuses)

include henv

private theorem refusing_tree {r : Rank} (e : Tree r) (p : Planner) : Refusing (e.lower env p) := by
  induction e generalizing p with
  | int n => exact refusing_literal p _
  | float x => exact refusing_literal p _
  | name x => exact refusing_bind (henv.operand x) fun _ _ => refusing_ok _
  | group e ih | ofFactor e ih | ofTerm e ih | ofSum e ih => exact ih p
  | signed negative e ih =>
    exact refusing_bind (ih p) fun a _ => refusing_bind (refusing_literal _ _) fun b _ =>
      refusing_operation _ _ _ _ _
  | product l op h r ihl ihr | addition l op h r ihl ihr | comparison l op h r ihl ihr =>
    exact refusing_bind (ihl p) fun a _ =>
      refusing_bind (ihr _) fun b _ => refusing_operation _ _ _ _ _

private theorem refusing_items (is : List Item) (p : Planner) :
    Refusing (Item.lowerAll env is p) := by
  induction is generalizing p with
  | nil => exact refusing_ok _
  | cons i is ih =>
    refine refusing_bind (refusing_bind ?_ fun _ _ => refusing_ok _) fun a _ =>
      refusing_bind (ih _) fun _ _ => refusing_ok _
    cases i with
    | text s => exact refusing_literal p _
    | value e => exact refusing_tree henv e p

private theorem refusing_arguments (es : List Expression) (k : Nat) (p : Planner) :
    Refusing (Tree.lowerArguments env k es p) := by
  induction es generalizing k p with
  | nil => exact refusing_ok _
  | cons e es ih =>
    exact refusing_bind (refusing_tree henv e p) fun a _ =>
      refusing_bind (ih _ _) fun _ _ => refusing_ok _

omit henv in
private theorem refusing_checkArguments (f : String) (position : Nat)
    (parameters arguments : List ValueType) :
    Refusing (checkArguments f position parameters arguments) := by
  induction parameters generalizing position arguments with
  | nil => exact refusing_ok _
  | cons expected parameters ih =>
    cases arguments with
    | nil => exact refusing_ok _
    | cons found arguments =>
      rw [checkArguments]
      split
      · exact refusing_semantic rfl
      · exact ih _ _

private theorem refusing_guard (construct : String) (g : Expression) (p : Planner) :
    Refusing (g.lowerGuard construct env p) := by
  refine refusing_bind (refusing_tree henv g p) fun a _ => ?_
  split
  · exact refusing_semantic rfl
  · exact refusing_ok _

private theorem refusing_call (f : String) (es : List Expression) (start : Nat) (p : Planner) :
    Refusing ((Phrase.call f es).lower env start p) := by
  refine refusing_bind (henv.callee f) fun c hc =>
    refusing_bind (refusing_arguments henv es 0 p) fun a _ => ?_
  dsimp only
  split
  · exact refusing_semantic rfl
  refine refusing_bind (refusing_checkArguments f _ _ _) fun _ _ => ?_
  split
  · next hstart => exact absurd hstart (henv.started hc)
  · exact refusing_ok _

private theorem refusing_phrase {r : Role} (s : Phrase r) (start : Nat) (p : Planner) :
    Refusing (s.lower env start p) := by
  induction s generalizing start p with
  | assign x e =>
    exact refusing_bind (henv.operand x) fun _ _ =>
      refusing_bind (refusing_tree henv e p) fun _ _ =>
      refusing_bind (refusing_result _ _ _) fun _ _ => refusing_ok _
  | branch g b ih =>
    exact refusing_bind (refusing_guard henv _ g p) fun _ _ => refusing_bind (ih _ _) fun _ _ =>
      refusing_ok _
  | choice g b c ihb ihc =>
    exact refusing_bind (refusing_guard henv _ g p) fun _ _ => refusing_bind (ihb _ _) fun _ _ =>
      refusing_bind (ihc _ _) fun _ _ => refusing_ok _
  | loop b g ih =>
    exact refusing_bind (ih _ _) fun _ _ => refusing_bind (refusing_guard henv _ g _) fun _ _ =>
      refusing_ok _
  | call f es => exact refusing_call henv f es start p
  | print i is => exact refusing_items henv (i :: is) p
  | nil => exact refusing_ok _
  | cons s rest ihs ihrest =>
    exact refusing_bind (ihs _ _) fun _ _ => refusing_bind (ihrest _ _) fun _ _ => refusing_ok _

end

/-- Where a directory lists routines, each of them has an identity and a body. -/
theorem Directory.Lists.refuses {d : Directory} {xs : List Parameter} {done : List Routine}
    (h : d.Lists xs done) (scopes : List Level) : (d.environment scopes).Refuses where
  operand x := by
    refine refusing_bind ?_ fun s _ => ?_
    · rw [resolve]
      split
      · exact refusing_ok _
      · exact refusing_semantic rfl
    · split
      · exact refusing_ok _
      · exact refusing_semantic rfl
  callee f := by
    refine refusing_bind ?_ fun s hs => ?_
    · rw [function]
      split
      · exact refusing_ok _
      · exact refusing_semantic rfl
    · rw [function] at hs
      split at hs
      · next t ht =>
        cases hs
        obtain ⟨hfind, hkind⟩ := Option.filter_eq_some_iff.mp ht
        obtain ⟨r, -, -, rfl⟩ := h.routine_of_find? hfind (eq_of_beq hkind)
        exact refusing_ok _
      · cases hs
  started := by
    intro f c hc
    obtain ⟨r, hr, rfl⟩ := (h.calls scopes).only hc
    rw [(h.calls scopes).known hr] at hc
    cases hc
    simp [Routine.callee]

/-! ## Declarations -/

section

variable {level : Level} {lifetime : Lifetime} {kind : ValueType → SymbolKind}
  {Known : List Parameter → List Symbol → Directory → Planner → Prop}

/-- Names are refused one by one or not at all. -/
theorem Site.refusing (hsite : Site level lifetime kind Known)
    (hone : ∀ {before symbols d p} x, Known before symbols d p →
      Refusing (declareOne level lifetime kind x d p))
    (xs : List Parameter) {before : List Parameter} {symbols : List Symbol} {d : Directory}
    {p : Planner} (h : Known before symbols d p) :
    Refusing (declareAll level lifetime kind xs d p) := by
  induction xs generalizing before symbols d p with
  | nil => exact refusing_ok _
  | cons x xs ih =>
    refine refusing_bind (hone x h) fun r hr => ?_
    exact ih (hsite.step h hr)

end

private theorem refusing_declare_global (d : Directory) (s : Symbol) :
    Refusing (d.declare .global s) := by
  rw [Directory.declare, Directory.table, Except.ok_bind, SymbolTable.declare]
  split
  · exact refusing_semantic rfl
  · exact refusing_ok _

/-- A variable of the program is refused because its name is taken or its segment is full. -/
theorem refusing_declareOne_global {before : List Parameter} {symbols : List Symbol} {d : Directory}
    {p : Planner} (x : Parameter) (_ : AtTop before symbols d p) :
    Refusing (declareOne .global .global .var x d p) := by
  rw [declareOne, Directory.table, Except.ok_bind]
  split
  · exact refusing_semantic rfl
  · exact refusing_bind (refusing_assign (.inl rfl) (base?_global x.type)) fun _ _ =>
      refusing_bind (refusing_declare_global _ _) fun _ _ => refusing_ok _

/-- A name of a function is refused because it is taken or its segment is full. -/
theorem refusing_declareOne_inside {outer : List Symbol} {entered : List FrameSize} {name : String}
    {id : Address} {rs : List Request} {kind : ValueType → SymbolKind} {before : List Parameter}
    {symbols : List Symbol} {d : Directory} {p : Planner} (x : Parameter)
    (h : Inside outer entered name id rs before symbols d p) :
    Refusing (declareOne (.function name) .call kind x d p) := by
  rw [declareOne, h.table, Except.ok_bind]
  split
  · exact refusing_semantic rfl
  · next hcontains =>
    rw [h.assign]
    split
    · rw [Except.ok_bind]
      dsimp only
      have hfresh := (h.contains x.name).mp (Bool.not_eq_true _ ▸ hcontains)
      rw [Directory.declare_last h.globals h.fresh rfl rfl (h.names ▸ hfresh)]
      exact refusing_ok _
    · exact refusing_error (.inr ⟨_, rfl⟩)

/-! ## Functions and programs -/

section

variable {xs : List Parameter} {rs : List Request} {done : List Routine} {d : Directory}
  {p : Planner}

private theorem Stocked.refusing_function (h : Stocked xs rs done d p) (f : Function)
    (start : Nat) : Refusing (f.lower start d p) := by
  rw [Function.lower]
  split
  · exact refusing_semantic rfl
  · next hcontains =>
    have hfresh := (h.contains f.name).mp (Bool.not_eq_true _ ▸ hcontains)
    refine refusing_bind (refusing_assign (.inl rfl) rfl) fun a ha => ?_
    refine refusing_bind (refusing_declare_global _ _) fun d₁ hd₁ => ?_
    have hinside := (h.inside ha hd₁).2
    refine refusing_bind ((site_inside .param).refusing (refusing_declareOne_inside ·) _ hinside)
      fun b hb => ?_
    have hparameters := (site_inside .param).steps f.parameters hinside hb
    refine refusing_bind ((site_inside .var).refusing (refusing_declareOne_inside ·) _ hparameters)
      fun c hc => ?_
    have hall := h.inside_all ha hd₁ hb hc
    -- Where the body ends is not known, and nothing depends on it.
    have hclose := hall.close start start
    refine refusing_bind ?_ fun d₄ hd₄ => ?_
    · rw [hclose]
      exact refusing_ok _
    · cases hd₄.symm.trans hclose
      have hlists := h.lists_begin (r := ⟨f, a.1, start, start⟩) c.1 hfresh
      exact refusing_bind (refusing_phrase (hlists.refuses _) f.body start c.2)
        fun _ _ => refusing_ok _

private theorem Stocked.refusing_functions (h : Stocked xs rs done d p) (fs : List Function)
    (start : Nat) : Refusing (Function.lowerAll fs start d p) := by
  induction fs generalizing rs done start d p with
  | nil => exact refusing_ok _
  | cons f fs ih =>
    refine refusing_bind (h.refusing_function f start) fun a ha => ?_
    obtain ⟨r, -, -, p₁, body, -, -, hstocked⟩ := h.lower_function ha
    exact refusing_bind (ih hstocked _) fun _ _ => refusing_ok _

end

/-- A syntax tree is refused for its names or types, or because a segment is full. -/
theorem refusing_program (a : Program) : Refusing a.lower := by
  refine refusing_bind (site_atTop.refusing refusing_declareOne_global _ (atTop_start a.name))
    fun b hb => ?_
  have htop := site_atTop.steps _ (atTop_start a.name) hb
  have hstocked := AtTop.stocked htop
  refine refusing_bind (hstocked.refusing_functions a.functions 1) fun c hc => ?_
  obtain ⟨routines, -, -, -, hall, -, -⟩ := hstocked.lower_functions hc
  exact refusing_bind (refusing_phrase (hall.lists.refuses _) a.main _ _) fun _ _ => refusing_ok _

end Quadlet
