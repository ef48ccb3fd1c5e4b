import Quadlet.Proofs.Machine.Memory
import Quadlet.Proofs.Machine.Steps
import Quadlet.Proofs.Semantics.Arithmetic
import Quadlet.Proofs.Semantics.Values

/-!
# Operators on values and on types

The type of an operator's result is fixed before the program runs, from the types of the operands
alone; the value is worked out later, from the operands themselves. Main statement: on numbers and
truth values the two agree. A divisor that is zero and a whole number that does not fit 64 bits are
all that can go wrong, and any value that comes out has the type foreseen for it, so the cell that
was kept for it takes it as it is.
-/

namespace Quadlet

open Text.Numeral

/-- Different operations are written with different operators. -/
theorem Operation.operator_injective {o o' : Operation} (h : o.operator = o'.operator) :
    o = o' := by
  cases o with
  | add =>
    cases o' with
    | add => rfl
    | sub | mul => cases h
  | sub =>
    cases o' with
    | sub => rfl
    | add | mul => cases h
  | mul =>
    cases o' with
    | mul => rfl
    | add | sub => cases h

namespace Value

/-- The ways in which an operator has no value on two operands: a divisor is zero, or the exact
result of two whole numbers does not fit 64 bits. -/
inductive Undefined (op : Operator) (l r : Value) : Error → Prop where
  | divisionByZero {x : Float} (hop : op = .div) (hr : r.toFloat = .ok x) (hx : (x == 0.0) = true) :
    Undefined op l r .divisionByZero
  | overflow (o : Operation) {a b : Int64} (hop : op = o.operator) (hl : l.integers? = some a)
    (hr : r.integers? = some b) (h : ¬IsInt (o.apply a.toInt b.toInt)) :
    Undefined op l r (.machine (.overflow op.opcode a b))

/-- Comparisons have a value everywhere. -/
theorem Undefined.not_isRelational {op : Operator} {l r : Value} {e : Error}
    (h : Undefined op l r e) : op.isRelational = false := by
  cases h with
  | divisionByZero hop =>
    subst hop
    rfl
  | overflow o hop =>
    subst hop
    cases o with
    | add | sub | mul => rfl

/-! ## What goes wrong -/

private theorem fit_eq_error_iff (op : Opcode) (a b : Int64) (n : Int) (e : Error) :
    fit op a b n = .error e ↔ ¬IsInt n ∧ .machine (.overflow op a b) = e := by
  have hfit :
      fit op a b n =
        if IsInt n then .ok (.int (.ofInt n)) else .error (.machine (.overflow op a b)) := rfl
  rw [hfit]
  by_cases h : IsInt n
  · simp [h]
  · simp [h]

section

variable {l r : Value} (hl : Typing.isOperable l.type = true) (hr : Typing.isOperable r.type = true)

include hl hr

/-- Arithmetic other than division fails only on two whole numbers. -/
theorem arithmetic_eq_error_iff (op : Opcode) (exact : Int → Int → Int)
    (rounded : Float → Float → Float) (e : Error) :
    arithmetic op exact rounded l r = .error e ↔
      ∃ a b, l.integers? = some a ∧ r.integers? = some b ∧ ¬IsInt (exact a.toInt b.toInt) ∧
        .machine (.overflow op a b) = e := by
  obtain ⟨x, hx⟩ := toFloat_of_operable hl
  obtain ⟨y, hy⟩ := toFloat_of_operable hr
  rw [arithmetic, hx, hy]
  cases ha : l.integers? with
  | none => simp
  | some a =>
    cases hb : r.integers? with
    | none => simp
    | some b => simp [fit_eq_error_iff]

private theorem divide_eq_error_iff (e : Error) :
    divide l r = .error e ↔ ∃ x, r.toFloat = .ok x ∧ (x == 0.0) = true ∧ .divisionByZero = e := by
  obtain ⟨x, hx⟩ := toFloat_of_operable hl
  obtain ⟨y, hy⟩ := toFloat_of_operable hr
  rw [divide, hx, hy]
  by_cases h : (y == 0.0) = true
  · simp [h]
  · simp [h]

/-- Comparisons never fail, also where one side is no number. -/
theorem relation_ne_error (holds : Ordering → Bool) (unordered : Bool) (e : Error) :
    relation holds unordered l r ≠ .error e := by
  obtain ⟨x, hx⟩ := toFloat_of_operable hl
  obtain ⟨y, hy⟩ := toFloat_of_operable hr
  rw [relation, hx, hy]
  intro h
  split at h
  · cases h
  · cases hc : compareFloats x y <;> simp [hc] at h

/-- The three operations on whole numbers have one way to fail. -/
theorem operation_eq_error_iff (o : Operation) (e : Error) :
    binary o.operator.opcode l r = .error e ↔ Undefined o.operator l r e := by
  have hbinary : ∃ rounded, binary o.operator.opcode l r =
      arithmetic o.operator.opcode o.apply rounded l r := by
    cases o with
    | add | sub | mul => exact ⟨_, rfl⟩
  obtain ⟨rounded, hbinary⟩ := hbinary
  rw [hbinary, arithmetic_eq_error_iff hl hr]
  constructor
  · rintro ⟨a, b, ha, hb, h, rfl⟩
    exact .overflow o rfl ha hb h
  · intro h
    cases h with
    | divisionByZero hop => cases o <;> cases hop
    | overflow o' hop ha hb h =>
      obtain rfl := Operation.operator_injective hop
      exact ⟨_, _, ha, hb, h, rfl⟩

/-- An operator fails exactly where it is undefined. -/
theorem binary_eq_error_iff {op : Operator} (hop : op ≠ .assign) (e : Error) :
    binary op.opcode l r = .error e ↔ Undefined op l r e := by
  cases op with
  | assign => exact absurd rfl hop
  | add => exact operation_eq_error_iff hl hr .add e
  | sub => exact operation_eq_error_iff hl hr .sub e
  | mul => exact operation_eq_error_iff hl hr .mul e
  | div =>
    apply (divide_eq_error_iff hl hr e).trans
    constructor
    · rintro ⟨x, hx, hzero, rfl⟩
      exact .divisionByZero rfl hx hzero
    · intro h
      cases h with
      | divisionByZero _ hx hzero => exact ⟨_, hx, hzero, rfl⟩
      | overflow o hop => cases o <;> cases hop
  | lt | gt | le | ge | eq | ne =>
    apply iff_of_false
    · apply relation_ne_error hl hr
    · intro h
      cases h.not_isRelational

end

end Value

/-! ## Where the result is kept -/

namespace Memory

variable {m : Memory} {c : Address} {v : Value}

/-- An address is that of a cell for results of a type. -/
def Temporary (m : Memory) (τ : ValueType) (c : Address) : Prop :=
  ∃ i n, Segment.locate? c = some (⟨.temporary, τ⟩, i) ∧ m.Block ⟨.temporary, τ⟩ n ∧ i < n

/-- A cell for results of the type of a value takes the value as it is. -/
theorem write_temporary (h : m.Temporary v.type c) :
    ∃ m', m.write c v = .ok m' ∧ m'.read c = .ok v := by
  obtain ⟨i, n, hc, hblock, hi⟩ := h
  obtain ⟨m', hwrite, hwrote⟩ := write_global hc rfl hblock hi v.coerce_type
  refine ⟨m', hwrite, ?_⟩
  rw [read_global hc rfl, hwrote.here]
  rfl

end Memory

namespace Value

private theorem isOperable_of_ne_string {v : Value} (h : v.type ≠ .string) :
    Typing.isOperable v.type = true := by
  cases v with
  | string s => exact absurd rfl h
  | int n | float x | bool b => rfl

/-- The type that is foreseen for an operator on two values is that of the result. -/
theorem result_of_binary {op : Operator} (hop : op ≠ .assign) {l r v : Value}
    (hl : l.type ≠ .string) (hr : r.type ≠ .string) (h : binary op.opcode l r = .ok v) :
    Typing.result op l.type r.type = .ok v.type := by
  have hl' := isOperable_of_ne_string hl
  have hr' := isOperable_of_ne_string hr
  have hgives := gives_binary hl' hr' hop
  have hsome := (Typing.result?_isSome_iff hop l.type r.type).mpr ⟨hl', hr'⟩
  obtain ⟨τ, hτ⟩ := Option.isSome_iff_exists.mp hsome
  rw [h, hτ] at hgives
  have htype : v.type = τ := hgives
  rw [Typing.result, hτ, htype]

/-- On values other than strings an arithmetic operator or a comparison never complains about types.
It fails exactly on a divisor that is zero and on a whole result that does not fit 64 bits. A value
that it gives has the type that is foreseen for it from the types of the operands, stays the same if
it is converted to this type, and is read again unchanged from the cell for results of this type
that the quadruple of the operator names. -/
theorem binary_agrees_with_typing (op : Operator)
    (hop : op.isAdditive = true ∨ op.isMultiplicative = true ∨ op.isRelational = true) (l r : Value)
    (hl : l.type ≠ .string) (hr : r.type ≠ .string) :
    (∀ wanted found, binary op.opcode l r ≠ .error (.mismatch wanted found)) ∧
    (∀ e, binary op.opcode l r = .error e ↔ Undefined op l r e) ∧
    ∀ v, binary op.opcode l r = .ok v →
      Typing.result op l.type r.type = .ok v.type ∧ v.coerce v.type = .ok v ∧
      ∀ {ω : Type} (printer : Printer ω) (m : Machine) (out : ω) (a b c : Address) (τ : ValueType),
        Typing.result op l.type r.type = .ok τ → m.memory.read a = .ok l → m.memory.read b = .ok r →
        m.memory.Temporary τ c →
        ∃ m', Machine.step printer ⟨op.opcode, a, b, c⟩ (m, out) = .ok () (m', out) ∧
        m'.memory.read c = .ok v := by
  have hassign : op ≠ .assign := by
    intro h
    subst h
    simp [Operator.isAdditive, Operator.isMultiplicative, Operator.isRelational] at hop
  have herror :=
    binary_eq_error_iff (isOperable_of_ne_string hl) (isOperable_of_ne_string hr) hassign
  refine ⟨?_, herror, ?_⟩
  · intro wanted found h
    cases (herror _).mp h
  · intro v hv
    have htyped := result_of_binary hassign hl hr hv
    refine ⟨htyped, v.coerce_type, ?_⟩
    intro ω printer m out a b c τ hτ ha hb hc
    rw [htyped] at hτ
    cases hτ
    obtain ⟨memory, hwrite, hread⟩ := Memory.write_temporary hc
    refine ⟨m.moved memory (m.ip + 1), ?_, hread⟩
    rw [Machine.step_operation m out hassign, Memory.operate, ha, hb]
    simp only [Except.ok_bind, hv, hwrite, Machine.changed]

/-- The theorem at the smallest whole number, less `true`. -/
theorem binary_agrees_with_typing_at_smallest :
    Operator.sub.isAdditive = true ∧ (Value.int Int64.minValue).type ≠ .string ∧
    (Value.bool true).type ≠ .string ∧
      binary .sub (.int Int64.minValue) (.bool true) =
        .error (.machine (.overflow .sub Int64.minValue 1)) := by
  refine ⟨rfl, by decide, by decide, ?_⟩
  have h :=
    binary_agrees_with_typing .sub (.inl rfl) (.int Int64.minValue) (.bool true)
      (by decide) (by decide)
  exact (h.2.1 _).mpr (.overflow .sub rfl rfl rfl (by decide))

end Value

end Quadlet
