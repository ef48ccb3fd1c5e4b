import Quadlet.Proofs.Semantics.Program
import Quadlet.Proofs.Static.Formulas
import Quadlet.Proofs.Token.Reading

/-!
# Exact arithmetic

Whole numbers with additions, subtractions, multiplications and signs, written in any way that
denotes the same formula. Main statement: the program that prints such an expression prints
its value as a mathematical integer, if the values of all its parts fit 64 bits, and fails
with an overflow otherwise.
-/

namespace Quadlet

open Syntax Text.Numeral

/-! ## Expressions of whole numbers -/

/-- An operation on whole numbers. -/
inductive Operation where
  | add
  | sub
  | mul

namespace Operation

/-- The operator that stands for an operation. -/
def operator : Operation → Operator
  | .add => .add
  | .sub => .sub
  | .mul => .mul

/-- The mathematical operation. -/
def apply : Operation → Int → Int → Int
  | .add, m, n => m + n
  | .sub, m, n => m - n
  | .mul, m, n => m * n

end Operation

/-- An expression of whole numbers. Its literals have no sign of their own. -/
inductive Arithmetic where
  | literal (n : Nat) (h : n ≤ intLimit)
  | signed (negative : Bool) (a : Arithmetic)
  | binary (op : Operation) (l r : Arithmetic)

namespace Arithmetic

/-- The formula that an expression is. -/
def formula : Arithmetic → Formula
  | .literal n _ => .int (.ofInt n)
  | .signed negative a => .signed negative a.formula
  | .binary op l r => .binary op.operator l.formula r.formula

/-- The value of an expression as a mathematical integer. -/
def value : Arithmetic → Int
  | .literal n _ => n
  | .signed negative a => if negative then -a.value else a.value
  | .binary op l r => op.apply l.value r.value

/-- The parts of an expression, the expression itself included. -/
def parts : Arithmetic → List Arithmetic
  | .literal n h => [.literal n h]
  | .signed negative a => a.parts ++ [.signed negative a]
  | .binary op l r => l.parts ++ r.parts ++ [.binary op l r]

/-- The number of operations and signs in an expression. -/
def operations : Arithmetic → Nat
  | .literal _ _ => 0
  | .signed _ a => a.operations + 1
  | .binary _ l r => l.operations + r.operations + 1

/-- The value of every part fits 64 bits. -/
def Exact (a : Arithmetic) : Prop := ∀ b ∈ a.parts, IsInt b.value

instance (a : Arithmetic) : Decidable a.Exact :=
  inferInstanceAs (Decidable (∀ b ∈ a.parts, IsInt b.value))

private theorem exact_literal (n : Nat) (h : n ≤ intLimit) : (literal n h).Exact := by
  intro b hb
  obtain rfl := List.mem_singleton.mp hb
  simp only [value, IsInt]
  omega

/-- A sign is a multiplication by `-1` or `1`. -/
theorem value_signed (negative : Bool) (a : Arithmetic) :
    (signed negative a).value = Operation.mul.apply a.value (if negative then -1 else 1) := by
  cases negative <;> simp [value, Operation.apply]

private theorem exact_signed (negative : Bool) (a : Arithmetic) :
    (signed negative a).Exact ↔ a.Exact ∧ IsInt (signed negative a).value := by
  simp only [Exact, parts, List.forall_mem_append, List.mem_singleton, forall_eq]

private theorem exact_binary (op : Operation) (l r : Arithmetic) :
    (binary op l r).Exact ↔ l.Exact ∧ r.Exact ∧ IsInt (op.apply l.value r.value) := by
  simp only [Exact, parts, List.forall_mem_append, List.mem_singleton, forall_eq, and_assoc, value]

private theorem Exact.isInt {a : Arithmetic} (h : a.Exact) : IsInt a.value := by
  apply h
  cases a <;> simp [parts]

private theorem names_formula (a : Arithmetic) : a.formula.names = [] := by
  induction a with
  | literal n h => rfl
  | signed negative a ih => exact ih
  | binary op l r ihl ihr => rw [formula, Formula.names, ihl, ihr, List.append_nil]

private theorem type?_formula (a : Arithmetic) (types : String → Option ValueType) :
    a.formula.type? types = some .int := by
  induction a with
  | literal n h => rfl
  | signed negative a ih =>
    rw [formula, Formula.type?, ih]
    rfl
  | binary op l r ihl ihr =>
    rw [formula, Formula.type?, ihl, ihr]
    cases op <;> rfl

/-- Every operation and every sign has an `int` as its result. -/
theorem results_formula (a : Arithmetic) (types : String → Option ValueType) :
    a.formula.results types = List.replicate a.operations .int := by
  induction a with
  | literal n h => rfl
  | signed negative a ih =>
    have htype := type?_formula (signed negative a) types
    rw [formula] at htype
    rw [formula, Formula.results, ih, htype, Option.toList_some, operations, List.replicate_succ']
  | binary op l r ihl ihr =>
    have htype := type?_formula (binary op l r) types
    rw [formula] at htype
    rw [formula, Formula.results, ihl, ihr, htype, Option.toList_some, operations,
      List.replicate_succ', List.replicate_append_replicate]

end Arithmetic

/-! ## Values -/

private theorem toInt_ofInt_of_isInt {n : Int} (h : IsInt n) : (Int64.ofInt n).toInt = n := by
  simp only [IsInt, intLimit] at h
  exact Int64.toInt_ofInt_of_le (by omega) (by omega)

/-- An operation gives the mathematical result if it fits 64 bits. -/
theorem Value.binary_of_isInt (op : Operation) {m n : Int} (hm : IsInt m) (hn : IsInt n) :
    Value.binary op.operator.opcode (.int (.ofInt m)) (.int (.ofInt n)) =
      if IsInt (op.apply m n) then .ok (.int (.ofInt (op.apply m n)))
      else .error (.machine (.overflow op.operator.opcode (.ofInt m) (.ofInt n))) := by
  have hfit (o : Opcode) (k : Int) : Value.fit o (.ofInt m) (.ofInt n) k =
      if IsInt k then .ok (.int (.ofInt k)) else
        .error (.machine (.overflow o (.ofInt m) (.ofInt n))) := rfl
  have hm' := toInt_ofInt_of_isInt hm
  have hn' := toInt_ofInt_of_isInt hn
  cases op with
  | add | sub | mul =>
    rw [← hfit]
    simp only [Operation.operator, Operator.opcode, binary, arithmetic, integers?, hm', hn',
      Operation.apply]

/-- An outcome is a number if a condition holds, and an overflow if it does not hold. -/
def Totals (fits : Prop) (n : Int) (x : Except Error Reading) : Prop :=
  (fits → x = .ok (.value (.int (.ofInt n)))) ∧
    (¬fits → ∃ op l r, x = .error (.machine (.overflow op l r)))

private theorem totals_number (n : Int) : Totals True n (.ok (.value (.int (.ofInt n)))) :=
  ⟨fun _ => rfl, fun h => absurd trivial h⟩

/-- An operation is worked out behind its operands. -/
theorem Totals.apply (op : Operation) {P Q : Prop} {m n : Int} {x y : Except Error Reading}
    (hx : Totals P m x) (hy : Totals Q n y) (hm : P → IsInt m) (hn : Q → IsInt n) (w : World) :
    Totals (P ∧ Q ∧ IsInt (op.apply m n)) (op.apply m n)
      (x >>= fun a => y >>= fun b => w.apply op.operator a b) := by
  by_cases hP : P
  · rw [hx.1 hP, Except.ok_bind]
    by_cases hQ : Q
    · rw [hy.1 hQ, Except.ok_bind, World.apply]
      simp only [World.fetch, Except.ok_bind, Value.binary_of_isInt op (hm hP) (hn hQ)]
      by_cases hfits : IsInt (op.apply m n)
      · rw [if_pos hfits]
        exact ⟨fun _ => rfl, fun h => absurd ⟨hP, hQ, hfits⟩ h⟩
      · rw [if_neg hfits]
        exact ⟨fun h => absurd h.2.2 hfits, fun _ => ⟨_, _, _, rfl⟩⟩
    · obtain ⟨o, l, r, heq⟩ := hy.2 hQ
      rw [heq]
      exact ⟨fun h => absurd h.2.1 hQ, fun _ => ⟨o, l, r, rfl⟩⟩
  · obtain ⟨o, l, r, heq⟩ := hx.2 hP
    rw [heq]
    exact ⟨fun h => absurd h.1 hP, fun _ => ⟨o, l, r, rfl⟩⟩

/-- A tree with the formula of an expression is worked out to its value, or overflows. -/
theorem totals_eval {r : Rank} {e : Tree r} {a : Arithmetic} (h : e.formula = a.formula)
    (Γ : Scope) (w : World) : Totals a.Exact a.value (e.eval Γ w) := by
  induction e generalizing a with
  | int n =>
    cases a with
    | literal k hk =>
      obtain rfl : n = .ofInt k := Formula.int.inj h
      exact ⟨fun _ => rfl, fun hno => absurd (Arithmetic.exact_literal k hk) hno⟩
    | signed | binary => cases h
  | float x | name x => cases a <;> cases h
  | group e ih | ofFactor e ih | ofTerm e ih | ofSum e ih => exact ih h
  | signed negative e ih =>
    cases a with
    | literal | binary => cases h
    | signed negative' a =>
      obtain ⟨rfl, he⟩ := Formula.signed.inj h
      have hone : IsInt (if negative then -1 else 1) := by cases negative <;> decide
      have htotals :=
        (ih he).apply .mul (totals_number (if negative then -1 else 1)) Arithmetic.Exact.isInt
        (fun _ => hone) w
      rw [← Arithmetic.value_signed, true_and, ← Arithmetic.exact_signed] at htotals
      cases negative <;> exact htotals
  | product l op hop r ihl ihr | addition l op hop r ihl ihr | comparison l op hop r ihl ihr =>
    cases a with
    | literal | signed => cases h
    | binary op' l' r' =>
      obtain ⟨rfl, hl, hr⟩ := Formula.binary.inj h
      have htotals := (ihl hl).apply op' (ihr hr) Arithmetic.Exact.isInt Arithmetic.Exact.isInt w
      rw [← Arithmetic.exact_binary] at htotals
      exact htotals

/-! ## The program around an expression -/

/-- The tree of the program that prints an expression. -/
def Syntax.Program.printing (e : Expression) : Program where
  name := "c"
  declarations := [⟨"x", [], .int⟩]
  functions := []
  main :=
    .cons (.assign "x" e)
      (.cons (.print (.value (.ofSum (.ofTerm (.ofFactor (.name "x"))))) []) .nil)

/-- The text of the program that prints an expression. -/
def printing (text : String) : String :=
  "program c; var x : int; main \x7b x = " ++ text ++ "; print(x); \x7d end"

/-- The tokens before the expression. -/
def openingKinds : List Token.Kind :=
  [.keyword .program, .identifier "c", .sign .semicolon, .keyword .var, .identifier "x",
    .sign .colon, .keyword .int, .sign .semicolon, .keyword .main, .sign .leftBrace,
    .identifier "x", .sign .assign]

/-- The tokens behind the expression. -/
def closingKinds : List Token.Kind :=
  [.sign .semicolon, .keyword .print, .sign .leftParen, .identifier "x", .sign .rightParen,
    .sign .semicolon, .sign .rightBrace, .keyword .finish]

namespace Scanner

private theorem reads_opening {cs : List Char} {ks : List Token.Kind} (h : Reads cs ks) :
    Reads ("program c; var x : int; main \x7b x = ".toList ++ cs)
      (openingKinds ++ ks) := by
  refine .token rfl (.gap rfl (.token rfl (.token rfl (.gap rfl ?_))))
  refine .token rfl
    (.gap rfl (.token rfl (.gap rfl (.token rfl (.gap rfl (.token rfl (.token rfl ?_)))))))
  refine .gap rfl (.token rfl (.gap rfl (.token rfl (.gap rfl ?_))))
  exact .token rfl (.gap rfl (.token rfl (.gap rfl h)))

private theorem reads_closing : Reads "; print(x); \x7d end".toList closingKinds := by
  refine .token rfl (.gap rfl (.token rfl (.token rfl (.token rfl (.token rfl ?_)))))
  exact .token rfl (.gap rfl (.token rfl (.gap rfl (.token rfl .nil))))

/-- The text of the program is read as its tree. -/
theorem reads_printing {e : Expression} {text : String} (h : Written e.tokens text.toList) :
    Reads (printing text).toList (Program.printing e).tokens := by
  have hends : EndsNumber "; print(x); \x7d end".toList := by
    intro c hc
    obtain rfl : ';' = c := Option.some.inj hc
    decide
  have hreads := reads_opening (h.reads reads_closing hends)
  have htokens : (Program.printing e).tokens = openingKinds ++ (e.tokens ++ closingKinds) := by
    simp [openingKinds, closingKinds, Program.printing, Program.tokens, Declaration.sectionTokens,
      Declaration.tokens, Declaration.names, listed, Phrase.tokens, Item.tokens, Tree.tokens,
      Numeric.keyword]
  unfold printing
  simp only [String.toList_append, List.append_assoc, htokens]
  exact hreads

end Scanner

namespace Arithmetic

variable {a : Arithmetic} {e : Expression} (h : e.formula = a.formula)

include h

private theorem resolves (Γ : Scope) : e.Resolves Γ := by
  intro x hx
  rw [← Tree.names_formula, h, names_formula] at hx
  cases hx

/-- The cells of the program: the variable, those of the results and those of the literals. -/
theorem demand_printing (s : Segment) : Request.demand (Program.printing e).requests s =
    (if s = ⟨.global, .int⟩ then 1 else 0) +
      (if s.lifetime = .temporary then (List.replicate a.operations ValueType.int).count
        s.type else 0) +
      a.formula.literals.eraseDups.countP fun l => s = ⟨.constant, l.type⟩ := by
  have hrequests : (Program.printing e).requests =
      .cell ⟨.global, .int⟩ :: e.requests (Program.printing e).scope := by
    simp [Program.requests, Program.printing, globalCells, Program.names, Declaration.allEntries,
      Declaration.entries, Declaration.names, Phrase.requests, Item.requests, Tree.requests,
      Numeric.type]
  have hliterals : Request.literals (Program.printing e).requests = a.formula.literals := by
    rw [hrequests, ← h, ← Tree.literals_requests (Program.printing e).scope]
    rfl
  rw [Request.demand, hliterals, hrequests, List.count_cons, Tree.count_requests (resolves h _), h,
    results_formula, Nat.add_comm (if s.lifetime = _ then _ else _)]
  simp only [beq_iff_eq, Request.cell.injEq, eq_comm (a := (⟨.global, .int⟩ : Segment))]

/-- The program makes sense if its cells suffice. -/
theorem wellFormed_printing (htemporaries : a.operations ≤ 1000)
    (hconstants : a.formula.literals.eraseDups.length ≤ 1000) :
    (Program.printing e).WellFormed := by
  have hresolves := resolves h (Program.printing e).scope
  have htype : e.type (Program.printing e).scope = .int := by
    have hsome := Tree.type?_formula hresolves
    rw [h, type?_formula] at hsome
    exact (Option.some.inj hsome).symm
  have hx : ((Program.printing e).scope "x").isSome = true := rfl
  refine ⟨?_, by simp [Program.printing], trivial, ?_, ?_, by simp [Program.printing]⟩
  · have hdistinct : (["x"] ++ []).Nodup := by decide
    exact hdistinct
  · refine ⟨⟨hx, hresolves, by rw [htype]; decide⟩, ?_, trivial⟩
    intro i hi
    obtain rfl := List.mem_singleton.mp hi
    intro y hy
    obtain rfl := List.mem_singleton.mp hy
    exact hx
  · rintro ⟨lifetime, τ⟩
    have hresults : (List.replicate a.operations ValueType.int).count τ ≤ a.operations :=
      Nat.le_trans List.count_le_length (Nat.le_of_eq List.length_replicate)
    have hliterals :=
      List.countP_le_length (p := fun l => (⟨lifetime, τ⟩ : Segment) = ⟨.constant, l.type⟩)
      (l := a.formula.literals.eraseDups)
    rw [demand_printing h, Segment.size]
    cases lifetime with
    | constant =>
      rw [if_neg (by simp), if_neg (by simp)]
      omega
    | temporary =>
      rw [if_neg (by simp), if_pos rfl, List.countP_eq_zero.mpr (by simp)]
      dsimp only
      omega
    | global | call =>
      rw [if_neg (by simp : ¬_ = Lifetime.temporary), List.countP_eq_zero.mpr (by simp)]
      split <;> omega

/-- The program prints the value of the expression, or overflows and prints nothing. -/
theorem run_printing (n : Nat) :
    (a.Exact → (Program.printing e).run n = (.halted, [toString a.value])) ∧
      (¬a.Exact →
        ∃ op l r, (Program.printing e).run n = (.failed (.machine (.overflow op l r)), [])) := by
  have htotals := totals_eval h (Program.printing e).scope .start
  constructor
  · intro hexact
    have hvalue : e.value (Program.printing e).scope .start = .ok (.int (.ofInt a.value)) := by
      rw [Tree.value, htotals.1 hexact]
      rfl
    have hassign : Action.ask (e.value (Program.printing e).scope) World.start =
        .ok (.int (.ofInt a.value)) .start := by
      rw [Action.ask, hvalue]
    have hfirst : (Phrase.assign "x" e).exec n ((Program.printing e).call n)
        (Program.printing e).scope .start =
        .ok () ⟨⟨fun j => if j = 0 then some (.ofInt a.value) else none, fun _ => none⟩, [], []⟩ :=
      (EStateM.bind_of_ok hassign).trans rfl
    have hexec : (Program.printing e).main.exec n ((Program.printing e).call n)
        (Program.printing e).scope .start =
        .ok () ⟨⟨fun j => if j = 0 then some (.ofInt a.value) else none, fun _ => none⟩, [],
          [toString (Int64.ofInt a.value).toInt]⟩ :=
      (EStateM.bind_of_ok hfirst).trans rfl
    rw [Program.run, hexec, toInt_ofInt_of_isInt hexact.isInt]
  · intro hexact
    obtain ⟨op, l, r, heval⟩ := htotals.2 hexact
    have hvalue : e.value (Program.printing e).scope .start =
        .error (.machine (.overflow op l r)) := by
      rw [Tree.value, heval]
      rfl
    have hassign : Action.ask (e.value (Program.printing e).scope) World.start =
        .error (.failed (.machine (.overflow op l r))) .start := by
      rw [Action.ask, hvalue]
    have hexec : (Program.printing e).main.exec n ((Program.printing e).call n)
        (Program.printing e).scope .start = .error (.failed (.machine (.overflow op l r))) .start :=
      EStateM.bind_of_error (EStateM.bind_of_error hassign)
    refine ⟨op, l, r, ?_⟩
    rw [Program.run, hexec]
    rfl

end Arithmetic

/-! ## Source texts -/

/-- What a machine shows in the end, it prints if it may run for long enough. -/
theorem Machine.Shows.prints {m : Machine} {k : Nat} {outcome : Outcome} {lines : List String}
    (h : m.Shows k outcome lines) (hended : outcome ≠ .running) {fuel : Nat} (hfuel : k ≤ fuel) :
    ∃ m', run .endless fuel m "" =
      (outcome, m', Printer.deliver (fun piece text => text ++ piece) "" lines) := by
  obtain ⟨j, rfl⟩ := Nat.exists_eq_add_of_le hfuel
  obtain ⟨m', hrun⟩ := h.ended hended j
  exact ⟨m', hrun String (fun piece text => text ++ piece) ""⟩

/-- Whatever text denotes an expression of whole numbers, the program that prints it is compiled
without a warning. If the value of every part of the expression fits 64 bits, the program prints the
value and ends; otherwise it prints nothing and fails with an overflow. -/
theorem printing_exact {a : Arithmetic} {ks : List Token.Kind} {text : String}
    (hdenotes : Denotes 0 ks a.formula) (hwritten : Scanner.Written ks text.toList)
    (htemporaries : a.operations ≤ 1000) (hconstants : a.formula.literals.eraseDups.length ≤ 1000)
    (strict : Bool) :
    ∃ o m, compile (printing text) strict = .ok ⟨o, []⟩ ∧ Machine.load o none = .ok m ∧
      (a.Exact → ∃ k, ∀ fuel, k ≤ fuel → ∃ m', Machine.run .endless fuel m "" =
        (.halted, m', toString a.value ++ "\n")) ∧
      (¬a.Exact → ∃ op l r k, ∀ fuel, k ≤ fuel → ∃ m', Machine.run .endless fuel m "" =
        (.failed (.machine (.overflow op l r)), m', "")) := by
  obtain ⟨e, rfl, he⟩ := hdenotes.exists_tree .whole (Nat.le_refl 0)
  obtain ⟨o, ho⟩ := lower_of_wellFormed (a.wellFormed_printing he htemporaries hconstants)
  obtain ⟨routines, hlinked⟩ := linked_of_lower ho
  obtain ⟨memory, hload, hmirrors⟩ := hlinked.supplies.load
  obtain ⟨⟨k, -, hshows⟩, -⟩ := hlinked.shows hmirrors 0
  have hrun := a.run_printing he 0
  refine ⟨o, ⟨o.quadruples, memory, [], 0, 0, none⟩,
    compile_of_reads (Scanner.reads_printing hwritten) ho strict, ?_,
    fun hexact => ⟨k, fun fuel hfuel => ?_⟩, fun hexact => ?_⟩
  · rw [Machine.load, hload]
    rfl
  · rw [hrun.1 hexact] at hshows
    obtain ⟨m', hprints⟩ := hshows.prints (by simp) hfuel
    exact ⟨m', hprints.trans (by simp [Printer.deliver])⟩
  · obtain ⟨op, l, r, hfailed⟩ := hrun.2 hexact
    rw [hfailed] at hshows
    exact ⟨op, l, r, k, fun fuel hfuel => hshows.prints (by simp) hfuel⟩

namespace Arithmetic

/-- The lowest number of 64 bits, as a difference. -/
def lowest : Arithmetic :=
  .binary .sub (.signed true (.literal intLimit (by decide))) (.literal 1 (by decide))

/-- Tokens of it. -/
def lowestKinds : List Token.Kind :=
  [.sign .minus, .integer (.ofInt intLimit), .sign .minus, .sign .leftParen, .integer (.ofInt 1),
    .sign .rightParen]

private theorem denotes_lowest : Denotes 0 lowestKinds lowest.formula :=
  @Denotes.binary 0 .sub (by decide) (by decide) _ _ _ _ (.signed 1 true (.int 3 _))
    (.group 2 (.int 0 _))

open Scanner in
private theorem written_lowest {ks : List Token.Kind} {cs : List Char} (h : Written ks cs) :
    Written (lowestKinds ++ ks) ("- 9223372036854775807-(01)".toList ++ cs) := by
  have hone : Written _ (['0', '1'] ++ ')' :: cs) :=
    .number (List.all_eq_true.mp (by decide)) (by decide) (by rintro d ⟨⟩; rfl)
      (.sign (s := .rightParen) (by decide) h)
  have hdifference : Written _ ('-' :: '(' :: (['0', '1'] ++ ')' :: cs)) :=
    .sign (s := .minus) (by decide) (.sign (s := .leftParen) (by decide) hone)
  have hlimit :
      Written _ ("9223372036854775807".toList ++ '-' :: '(' :: (['0', '1'] ++ ')' :: cs)) :=
    .number (List.all_eq_true.mp (by decide)) (by decide) (by rintro d ⟨⟩; rfl) hdifference
  exact .sign (by decide) (.space (by decide) hlimit)

end Arithmetic

/-- The lowest number is printed, and what it is negated to does not fit. -/
theorem printing_exact_lowest :
    (∃ o m, compile (printing "- 9223372036854775807-(01)") true = .ok ⟨o, []⟩ ∧
      Machine.load o none = .ok m ∧
      ∃ k, ∀ fuel, k ≤ fuel →
      ∃ m', Machine.run .endless fuel m "" = (.halted, m', "-9223372036854775808\n")) ∧
    ∃ o m, compile (printing "-(- 9223372036854775807-(01))") true = .ok ⟨o, []⟩ ∧
    Machine.load o none = .ok m ∧
      ∃ op l r k, ∀ fuel, k ≤ fuel → ∃ m', Machine.run .endless fuel m "" =
        (.failed (.machine (.overflow op l r)), m', "") := by
  constructor
  · have hwritten : Scanner.Written _ "- 9223372036854775807-(01)".toList :=
      Arithmetic.written_lowest .nil
    obtain ⟨o, m, hcompile, hload, hexact, -⟩ :=
      printing_exact Arithmetic.denotes_lowest hwritten (by decide) (by decide) true
    exact ⟨o, m, hcompile, hload, hexact (by decide)⟩
  · have hwritten : Scanner.Written _ "-(- 9223372036854775807-(01))".toList :=
      .sign (s := .minus) (by decide) (.sign (s := .leftParen) (by decide)
        (Arithmetic.written_lowest (.sign (s := .rightParen) (by decide) .nil)))
    obtain ⟨o, m, hcompile, hload, -, hoverflow⟩ := printing_exact (a := .signed true .lowest)
      (.signed 0 true (.group 3 Arithmetic.denotes_lowest)) hwritten (by decide) (by decide) true
    exact ⟨o, m, hcompile, hload, hoverflow (by decide)⟩

end Quadlet
