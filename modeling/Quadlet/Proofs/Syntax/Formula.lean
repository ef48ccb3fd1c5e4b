import Quadlet.Literal
import Quadlet.Proofs.Syntax.Unambiguous
import Quadlet.Typing

/-!
# Formulas

A formula is what an expression computes, without the parentheses and the levels that say so. A row
of tokens denotes a formula by the binding powers of operators: signs bind tighter than `*` and
`/`, these tighter than `+` and `-`, and these tighter than the comparisons; operators of one power
lean to the left, and comparisons stand alone. Main statement: the trees of the grammar are read in
this way and in no other.
-/

namespace Quadlet

/-- The binding power of an operator; signs and parentheses have the power 3. -/
def Operator.power : Operator → Nat
  | .mul | .div => 2
  | .add | .sub => 1
  | _ => 0

namespace Operator

private theorem power_of_isMultiplicative {op : Operator} (h : op.isMultiplicative = true) :
    op.power = 2 := by
  cases op with
  | mul | div => rfl
  | _ => cases h

private theorem power_of_isAdditive {op : Operator} (h : op.isAdditive = true) : op.power = 1 := by
  cases op with
  | add | sub => rfl
  | _ => cases h

private theorem power_of_isRelational {op : Operator} (h : op.isRelational = true) :
    op.power = 0 := by
  cases op with
  | lt | gt | le | ge | eq | ne => rfl
  | _ => cases h

/-- The operators of an expression have one of three levels. -/
theorem level_of_ne_assign {op : Operator} (h : op ≠ .assign) :
    op.isMultiplicative = true ∨ op.isAdditive = true ∨ op.isRelational = true := by
  cases op with
  | mul | div => exact .inl rfl
  | add | sub => exact .inr (.inl rfl)
  | assign => exact absurd rfl h
  | _ => exact .inr (.inr rfl)

/-- The operators that lean to the left. -/
theorem isRelational_eq_false {op : Operator}
    (h : op.isMultiplicative = true ∨ op.isAdditive = true) : op.isRelational = false := by
  cases op with
  | mul | div | add | sub | assign => rfl
  | _ => rcases h with h | h <;> cases h

end Operator

namespace Syntax

/-- What an expression computes. -/
inductive Formula where
  | int (n : Int64)
  | float (x : Float)
  | name (x : String)
  | signed (negative : Bool) (e : Formula)
  | binary (op : Operator) (l r : Formula)

namespace Formula

/-- The names in a formula. -/
def names : Formula → List String
  | .int _ | .float _ => []
  | .name x => [x]
  | .signed _ e => e.names
  | .binary _ l r => l.names ++ r.names

/-- The type of a formula, given the types of its names; a sign multiplies by an `int`. -/
def type? (types : String → Option ValueType) : Formula → Option ValueType
  | .int _ => some .int
  | .float _ => some .float
  | .name x => types x
  | .signed _ e => (e.type? types).bind fun τ => Typing.result? .mul τ .int
  | .binary op l r =>
    (l.type? types).bind fun τ => (r.type? types).bind fun υ => Typing.result? op τ υ

/-- The literals in a formula, those that its signs stand for included. -/
def literals : Formula → List Literal
  | .int n => [.int n]
  | .float x => [.float x]
  | .name _ => []
  | .signed negative e => e.literals ++ [.int (if negative then -1 else 1)]
  | .binary _ l r => l.literals ++ r.literals

/-- The types of the results of a formula's operators and signs, operands first. -/
def results (types : String → Option ValueType) : Formula → List ValueType
  | .int _ | .float _ | .name _ => []
  | .signed negative e => e.results types ++ ((signed negative e).type? types).toList
  | .binary op l r => l.results types ++ r.results types ++ ((binary op l r).type? types).toList

end Formula

/-- A row of tokens denotes a formula where binding powers count from `n` on. -/
inductive Denotes : Nat → List Token.Kind → Formula → Prop where
  | int (n : Nat) (k : Int64) : Denotes n [.integer k] (.int k)
  | float (n : Nat) (x : Float) : Denotes n [.float x] (.float x)
  | name (n : Nat) (x : String) : Denotes n [.identifier x] (.name x)
  | group (n : Nat) {ks : List Token.Kind} {E : Formula} (inner : Denotes 0 ks E) :
    Denotes n (.sign .leftParen :: ks ++ [.sign .rightParen]) E
  | signed (n : Nat) (negative : Bool) {ks : List Token.Kind} {E : Formula}
    (inner : Denotes 3 ks E) :
    Denotes n (.sign (if negative then .minus else .plus) :: ks) (.signed negative E)
  /-- The left operand may hold operators of the same power, unless they are comparisons. -/
  | binary {n : Nat} {op : Operator} (hop : op ≠ .assign) (hn : n ≤ op.power)
    {ks ls : List Token.Kind} {L R : Formula}
    (left : Denotes (if op.isRelational then 1 else op.power) ks L)
      (right : Denotes (op.power + 1) ls R) : Denotes n (ks ++ .sign op.sign :: ls) (.binary op L R)

namespace Denotes

/-- A row that binds tightly may stand where looser rows may. -/
theorem loosen {n m : Nat} (hnm : m ≤ n) {ks : List Token.Kind} {E : Formula} (h : Denotes n ks E) :
    Denotes m ks E := by
  cases h with
  | int n k => exact .int m k
  | float n x => exact .float m x
  | name n x => exact .name m x
  | group n inner => exact .group m inner
  | signed n negative inner => exact .signed m negative inner
  | binary hop hn left right => exact .binary hop (Nat.le_trans hnm hn) left right

end Denotes

/-- The binding powers that count in a tree of a level. -/
def Rank.power : Rank → Nat
  | .factor => 3
  | .term => 2
  | .sum => 1
  | .whole => 0

namespace Tree

/-- What an expression computes. -/
def formula {r : Rank} : Tree r → Formula
  | .int n => .int n
  | .float x => .float x
  | .name x => .name x
  | .signed negative e => .signed negative e.formula
  | .group e | .ofFactor e | .ofTerm e | .ofSum e => e.formula
  | .product l op _ r | .addition l op _ r | .comparison l op _ r => .binary op l.formula r.formula

/-- A factor as a tree of any level. -/
def lift (e : Tree .factor) : (r : Rank) → Tree r
  | .factor => e
  | .term => .ofFactor e
  | .sum => .ofTerm (.ofFactor e)
  | .whole => .ofSum (.ofTerm (.ofFactor e))

private theorem tokens_lift (e : Tree .factor) (r : Rank) : (e.lift r).tokens = e.tokens := by
  cases r <;> rfl

private theorem formula_lift (e : Tree .factor) (r : Rank) : (e.lift r).formula = e.formula := by
  cases r <;> rfl

/-- The tokens of a tree denote its formula. -/
theorem denotes {r : Rank} (e : Tree r) : Denotes r.power e.tokens e.formula := by
  induction e with
  | int n => exact .int 3 n
  | float x => exact .float 3 x
  | name x => exact .name 3 x
  | group e ih => exact .group 3 ih
  | signed negative e ih => exact .signed 3 negative ih
  | ofFactor e ih | ofTerm e ih | ofSum e ih => exact ih.loosen (by decide)
  | product l op hop r ihl ihr =>
    have hpower := Operator.power_of_isMultiplicative hop
    refine .binary (by rintro rfl; cases hop) (Nat.le_of_eq hpower.symm) ?_ ?_
    · rw [Operator.isRelational_eq_false (.inl hop), hpower]
      exact ihl
    · rw [hpower]
      exact ihr
  | addition l op hop r ihl ihr =>
    have hpower := Operator.power_of_isAdditive hop
    refine .binary (by rintro rfl; cases hop) (Nat.le_of_eq hpower.symm) ?_ ?_
    · rw [Operator.isRelational_eq_false (.inr hop), hpower]
      exact ihl
    · rw [hpower]
      exact ihr
  | comparison l op hop r ihl ihr =>
    have hpower := Operator.power_of_isRelational hop
    refine .binary (by rintro rfl; cases hop) (Nat.zero_le _) ?_ ?_
    · rw [hop]
      exact ihl
    · rw [hpower]
      exact ihr

end Tree

/-- A row that denotes a formula is the row of a tree with that formula, of every level that is
loose enough for the row. -/
theorem Denotes.exists_tree {n : Nat} {ks : List Token.Kind} {E : Formula}
    (h : Denotes n ks E) (r : Rank) (hr : r.power ≤ n) :
    ∃ e : Tree r, e.tokens = ks ∧ e.formula = E := by
  have hfactor {ks : List Token.Kind} {E : Formula} (r : Rank)
      (h : ∃ e : Tree .factor, e.tokens = ks ∧ e.formula = E) :
      ∃ e : Tree r, e.tokens = ks ∧ e.formula = E := by
    obtain ⟨e, htokens, hformula⟩ := h
    exact ⟨e.lift r, (e.tokens_lift r).trans htokens, (e.formula_lift r).trans hformula⟩
  induction h generalizing r with
  | int n k => exact hfactor r ⟨.int k, rfl, rfl⟩
  | float n x => exact hfactor r ⟨.float x, rfl, rfl⟩
  | name n x => exact hfactor r ⟨.name x, rfl, rfl⟩
  | group n inner ih =>
    obtain ⟨e, rfl, rfl⟩ := ih .whole (Nat.le_refl 0)
    exact hfactor r ⟨.group e, rfl, rfl⟩
  | signed n negative inner ih =>
    obtain ⟨e, rfl, rfl⟩ := ih .factor (Nat.le_refl 3)
    exact hfactor r ⟨.signed negative e, rfl, rfl⟩
  | @binary n op hop hn ks ls L R left right ihl ihr =>
    replace hr : r.power ≤ op.power := Nat.le_trans hr hn
    rcases Operator.level_of_ne_assign hop with h | h | h
    · rw [Operator.isRelational_eq_false (.inl h)] at ihl
      rw [Operator.power_of_isMultiplicative h] at hr ihl ihr
      obtain ⟨l, rfl, rfl⟩ := ihl .term (Nat.le_refl 2)
      obtain ⟨e, rfl, rfl⟩ := ihr .factor (Nat.le_refl 3)
      cases r with
      | factor => exact absurd hr (by decide)
      | term => exact ⟨.product l op h e, rfl, rfl⟩
      | sum => exact ⟨.ofTerm (.product l op h e), rfl, rfl⟩
      | whole => exact ⟨.ofSum (.ofTerm (.product l op h e)), rfl, rfl⟩
    · rw [Operator.isRelational_eq_false (.inr h)] at ihl
      rw [Operator.power_of_isAdditive h] at hr ihl ihr
      obtain ⟨l, rfl, rfl⟩ := ihl .sum (Nat.le_refl 1)
      obtain ⟨e, rfl, rfl⟩ := ihr .term (Nat.le_refl 2)
      cases r with
      | factor | term => exact absurd hr (by decide)
      | sum => exact ⟨.addition l op h e, rfl, rfl⟩
      | whole => exact ⟨.ofSum (.addition l op h e), rfl, rfl⟩
    · rw [h] at ihl
      rw [Operator.power_of_isRelational h] at hr ihr
      obtain ⟨l, rfl, rfl⟩ := ihl .sum (Nat.le_refl 1)
      obtain ⟨e, rfl, rfl⟩ := ihr .sum (Nat.le_refl 1)
      cases r with
      | factor | term | sum => exact absurd hr (by decide)
      | whole => exact ⟨.comparison l op h e, rfl, rfl⟩

/-- No two expressions have the same tokens. -/
theorem Tree.tokens_injective {e e' : Expression} (h : e.tokens = e'.tokens) : e = e' := by
  have hstops : Stops .whole [] := by
    intro op _ hhead
    cases hhead
  exact ((unambiguous e).onlyTree e' [] [] (by rw [h]) hstops hstops).1

/-- The tokens of an expression denote its formula and nothing else. -/
theorem denotes_tokens_iff (e : Expression) (E : Formula) :
    Denotes 0 e.tokens E ↔ E = e.formula := by
  constructor
  · intro h
    obtain ⟨e', htokens, rfl⟩ := h.exists_tree .whole (Nat.le_refl 0)
    rw [Tree.tokens_injective htokens]
  · rintro rfl
    exact e.denotes

end Syntax

end Quadlet
