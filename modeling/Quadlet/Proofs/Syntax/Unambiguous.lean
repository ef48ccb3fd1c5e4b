import Quadlet.Proofs.Syntax.Basic

/-!
# No row of tokens has two trees

Two trees with the same tokens are the same. For the parts of a program more is true: where the
tokens of one tree stand before some row and those of another before a second row, and the two whole
rows agree, the trees agree and so do the rows behind them, as long as neither row goes on with an
operator of the tree's level.
-/

namespace Quadlet

/-- Operators with different signs are different. -/
theorem Operator.sign_inj {a b : Operator} (h : a.sign = b.sign) : a = b := by
  cases a <;> cases b <;> first | rfl | cases h

namespace Syntax

/-! ## Expressions -/

/-- The operators that go on behind a tree of a level. -/
def Rank.continues : Rank → Operator → Bool
  | .factor, _ => false
  | .term, op => op.isMultiplicative
  | .sum, op => op.isMultiplicative || op.isAdditive
  | .whole, op => op.isMultiplicative || op.isAdditive || op.isRelational

/-- A row of tokens that does not go on with an operator of a level. -/
def Stops (r : Rank) (u : List Token.Kind) : Prop :=
  ∀ op : Operator, r.continues op = true → u.head? ≠ some (.sign op.sign)

/-- A tree is the only one of its level at the start of a row of tokens. -/
def OnlyTree {r : Rank} (a : Tree r) : Prop :=
  ∀ (b : Tree r) (u v : List Token.Kind), a.tokens ++ u = b.tokens ++ v → Stops r u → Stops r v →
    a = b ∧ u = v

/-- An operator of a level and its right operand. -/
structure Link (level : Operator → Bool) (r : Rank) where
  op : Operator
  mem : level op = true
  operand : Tree r

/-- The tokens of an operator and its right operand. -/
def Link.tokens {level : Operator → Bool} {r : Rank} (x : Link level r) : List Token.Kind :=
  .sign x.op.sign :: x.operand.tokens

/-! A term is a factor with more factors hung on to its right, and a sum is a term with more terms.
Both are such chains: trees of one level that grow by links to operands of the level below. -/

section Chain

variable {level : Operator → Bool} {r s : Rank} {grow : Tree s → Link level r → Tree s}

/-- Of two chains at the start of one row, one is the beginning of the other. -/
def Nested (grow : Tree s → Link level r → Tree s) (a b : Tree s) (u v : List Token.Kind) : Prop :=
  (∃ xs : List (Link level r), b = xs.foldl grow a ∧ u = xs.flatMap Link.tokens ++ v) ∨
    ∃ xs : List (Link level r), a = xs.foldl grow b ∧ v = xs.flatMap Link.tokens ++ u

/-- A chain is nested with every chain at the start of the same row. -/
def OnlyChain (grow : Tree s → Link level r → Tree s) (a : Tree s) : Prop :=
  ∀ (b : Tree s) (u v : List Token.Kind), a.tokens ++ u = b.tokens ++ v → Stops r u → Stops r v →
    Nested grow a b u v

/-- The tokens of a longer chain. -/
theorem tokens_foldl (hgrow : ∀ a x, (grow a x).tokens = a.tokens ++ x.tokens) (a : Tree s)
    (xs : List (Link level r)) : (xs.foldl grow a).tokens = a.tokens ++ xs.flatMap Link.tokens := by
  induction xs generalizing a with
  | nil => simp
  | cons x xs ih => rw [List.foldl_cons, ih, hgrow, List.flatMap_cons, List.append_assoc]

/-- Links do not go on with an operator of a level that theirs does not belong to. -/
theorem stops_links (hlevel : ∀ op, level op = true → ∀ op', r.continues op' = true → op ≠ op')
    (xs : List (Link level r)) {v : List Token.Kind} (hv : Stops r v) :
    Stops r (xs.flatMap Link.tokens ++ v) := by
  cases xs with
  | nil => exact hv
  | cons x xs =>
    intro op hop heq
    have hsign : x.op.sign = op.sign := by simpa [Link.tokens] using heq
    exact hlevel x.op x.mem op hop (Operator.sign_inj hsign)

/-- A chain without links is nested with every chain. -/
theorem onlyChain_first (hgrow : ∀ a x, (grow a x).tokens = a.tokens ++ x.tokens)
    (hlevel : ∀ op, level op = true → ∀ op', r.continues op' = true → op ≠ op')
    (lift : Tree r → Tree s) (hlift : ∀ a, (lift a).tokens = a.tokens)
    (hspine : ∀ a, ∃ (f : Tree r) (xs : List (Link level r)), a = xs.foldl grow (lift f))
    {f : Tree r} (hf : OnlyTree f) : OnlyChain grow (lift f) := by
  intro b u v h hu hv
  obtain ⟨g, xs, rfl⟩ := hspine b
  rw [tokens_foldl hgrow, hlift, hlift, List.append_assoc] at h
  obtain ⟨rfl, rfl⟩ := hf g u _ h hu (stops_links hlevel xs hv)
  exact .inl ⟨xs, rfl, rfl⟩

/-- A chain with one more link is nested with every chain if it was without the link. -/
theorem onlyChain_grow (hgrow : ∀ a x, (grow a x).tokens = a.tokens ++ x.tokens)
    (hlevel : ∀ op, level op = true → ∀ op', r.continues op' = true → op ≠ op')
    {a : Tree s} (ha : OnlyChain grow a) (x : Link level r) (hx : OnlyTree x.operand) :
    OnlyChain grow (grow a x) := by
  intro b u v h hu hv
  rw [hgrow, List.append_assoc] at h
  have hlink : Stops r (x.tokens ++ u) := by simpa using stops_links hlevel [x] hu
  obtain ⟨ys, rfl, hys⟩ | ⟨ys, rfl, hys⟩ := ha b _ v h hlink hv
  · cases ys with
    | nil => exact .inr ⟨[x], rfl, by simpa using hys.symm⟩
    | cons y ys =>
      -- The two chains share the link, because its operator and its operand are read in one way.
      rw [List.flatMap_cons, List.append_assoc] at hys
      injection hys with hsign hrest
      rw [Token.Kind.sign.injEq] at hsign
      obtain ⟨hoperand, rfl⟩ := hx y.operand _ _ hrest hu (stops_links hlevel ys hv)
      have hxy : x = y := by
        obtain ⟨op, mem, operand⟩ := x
        obtain ⟨op', mem', operand'⟩ := y
        cases Operator.sign_inj hsign
        cases hoperand
        rfl
      subst hxy
      exact .inl ⟨ys, rfl, rfl⟩
  · refine .inr ⟨ys ++ [x], ?_, ?_⟩
    · rw [List.foldl_append]
      rfl
    · rw [hys]
      simp

/-- A chain is the only tree where its own operators do not go on. -/
theorem OnlyChain.onlyTree (hstops : ∀ u, Stops s u → Stops r u)
    (hlevel : ∀ op, level op = true → s.continues op = true) {a : Tree s} (ha : OnlyChain grow a) :
    OnlyTree a := by
  intro b u v h hu hv
  have hnone (xs : List (Link level r)) {u v : List Token.Kind} (hu : Stops s u)
      (h : u = xs.flatMap Link.tokens ++ v) : xs = [] := by
    cases xs with
    | nil => rfl
    | cons x xs =>
      subst h
      exact absurd rfl (hu x.op (hlevel x.op x.mem))
  obtain ⟨xs, rfl, huv⟩ | ⟨xs, rfl, huv⟩ := ha b u v h (hstops u hu) (hstops v hv)
  · obtain rfl := hnone xs hu huv
    exact ⟨rfl, huv⟩
  · obtain rfl := hnone xs hv huv
    exact ⟨rfl, huv.symm⟩

end Chain

/-- A term with one more factor. -/
def growTerm (a : Tree .term) (x : Link Operator.isMultiplicative .factor) : Tree .term :=
  .product a x.op x.mem x.operand

/-- A sum with one more term. -/
def growSum (a : Tree .sum) (x : Link Operator.isAdditive .term) : Tree .sum :=
  .addition a x.op x.mem x.operand

private theorem term_spine : ∀ a : Tree .term, ∃ f xs, a = List.foldl growTerm (.ofFactor f) xs
  | .ofFactor f => ⟨f, [], rfl⟩
  | .product l op h r => by
    obtain ⟨f, xs, hl⟩ := term_spine l
    refine ⟨f, xs ++ [⟨op, h, r⟩], ?_⟩
    rw [List.foldl_append, ← hl]
    rfl

private theorem sum_spine : ∀ a : Tree .sum, ∃ f xs, a = List.foldl growSum (.ofTerm f) xs
  | .ofTerm f => ⟨f, [], rfl⟩
  | .addition l op h r => by
    obtain ⟨f, xs, hl⟩ := sum_spine l
    refine ⟨f, xs ++ [⟨op, h, r⟩], ?_⟩
    rw [List.foldl_append, ← hl]
    rfl

private theorem multiplicative_ne (op : Operator) (_ : op.isMultiplicative = true) (op' : Operator)
    (h : Rank.factor.continues op' = true) : op ≠ op' := by
  cases h

private theorem additive_ne (op : Operator) (h : op.isAdditive = true) (op' : Operator)
    (h' : Rank.term.continues op' = true) : op ≠ op' := by
  rintro rfl
  revert h h'
  cases op <;> decide

private theorem Stops.mono {r s : Rank} (h : ∀ op, r.continues op = true → s.continues op = true)
    {u : List Token.Kind} (hu : Stops s u) : Stops r u :=
  fun op hop => hu op (h op hop)

private theorem Stops.sum {u : List Token.Kind} (hu : Stops .whole u) : Stops .sum u :=
  Stops.mono (r := .sum) (s := .whole) (fun _ hop => Bool.or_eq_true_iff.mpr (.inl hop)) hu

private theorem stops_relational {op : Operator} (hop : op.isRelational = true)
    {u : List Token.Kind} : Stops .sum (.sign op.sign :: u) := by
  intro op' hop' heq
  have hsign : op.sign = op'.sign := by simpa using heq
  obtain rfl := Operator.sign_inj hsign
  revert hop hop'
  cases op <;> decide

/-- The signs that close an expression. -/
def closing : List Sign := [.rightParen, .comma, .semicolon]

/-- A sign that closes an expression stops every tree. -/
theorem stops_closing {r : Rank} {s : Sign} {u : List Token.Kind} (hs : s ∈ closing) :
    Stops r (.sign s :: u) := by
  intro op _ heq
  obtain rfl : s = op.sign := by simpa using heq
  revert hs
  cases op <;> decide

/-- What being unambiguous comes to: terms and sums may go on with operators of their own level. -/
def Unambiguous : {r : Rank} → Tree r → Prop
  | .factor, a => OnlyTree a
  | .term, a => OnlyChain growTerm a
  | .sum, a => OnlyChain growSum a
  | .whole, a => OnlyTree a

/-- Every tree that is unambiguous is the only one where no operator of its level goes on. -/
theorem Unambiguous.onlyTree {r : Rank} {a : Tree r} (h : Unambiguous a) : OnlyTree a := by
  cases r with
  | factor => exact h
  | term =>
    exact OnlyChain.onlyTree (fun _ => Stops.mono (by simp [Rank.continues])) (fun _ h => h) h
  | sum =>
    refine OnlyChain.onlyTree (fun _ => Stops.mono ?_) (fun op hop => ?_) h
    · intro op hop
      exact Bool.or_eq_true_iff.mpr (.inl hop)
    · exact Bool.or_eq_true_iff.mpr (.inr hop)
  | whole => exact h

/-- A factor is told by its first token. -/
private theorem onlyTree_leaf {a : Tree .factor} {k : Token.Kind} (ha : a.tokens = [k])
    (hfirst : ∀ (b : Tree .factor) (v w : List Token.Kind), b.tokens ++ v = k :: w → a = b) :
    OnlyTree a := by
  intro b u v h _ _
  rw [ha] at h
  obtain rfl := hfirst b v u h.symm
  rw [ha] at h
  exact ⟨rfl, List.append_cancel_left h⟩

/-- Every tree is unambiguous. -/
theorem unambiguous {r : Rank} (a : Tree r) : Unambiguous a := by
  induction a with
  | int n | float x | name x =>
    refine onlyTree_leaf rfl fun b v w h => ?_
    cases b <;> simp [Tree.tokens] at h
    rw [h.1]
  | group e ih =>
    intro b u v h _ _
    cases b with
    | group e' =>
      have h' : e.tokens ++ .sign .rightParen :: u = e'.tokens ++ .sign .rightParen :: v := by
        simpa [Tree.tokens] using h
      obtain ⟨rfl, huv⟩ := ih e' _ _ h' (stops_closing (by decide)) (stops_closing (by decide))
      exact ⟨rfl, List.tail_eq_of_cons_eq huv⟩
    | signed negative _ => cases negative <;> simp [Tree.tokens] at h
    | _ => simp [Tree.tokens] at h
  | signed negative e ih =>
    intro b u v h hu hv
    cases b with
    | signed negative' e' =>
      have h' := List.cons_eq_cons.mp h
      obtain ⟨rfl, rfl⟩ := ih e' u v h'.2 hu hv
      have hsign : negative = negative' := by
        revert h
        cases negative <;> cases negative' <;> simp [Tree.tokens]
      exact ⟨by rw [hsign], rfl⟩
    | _ => cases negative <;> simp [Tree.tokens] at h
  | ofFactor f ih =>
    exact onlyChain_first (fun _ _ => rfl) multiplicative_ne .ofFactor (fun _ => rfl) term_spine ih
  | product l op h r ihl ihr =>
    exact onlyChain_grow (fun _ _ => rfl) multiplicative_ne ihl ⟨op, h, r⟩ ihr
  | ofTerm t ih =>
    exact onlyChain_first (fun _ _ => rfl) additive_ne .ofTerm (fun _ => rfl) sum_spine
      ih.onlyTree
  | addition l op h r ihl ihr =>
    exact onlyChain_grow (fun _ _ => rfl) additive_ne ihl ⟨op, h, r⟩ ihr.onlyTree
  | ofSum s ih =>
    intro b u v h hu hv
    cases b with
    | ofSum s' =>
      obtain ⟨rfl, rfl⟩ := ih.onlyTree s' u v h hu.sum hv.sum
      exact ⟨rfl, rfl⟩
    | comparison l op hop r =>
      rw [Tree.tokens, Tree.tokens, List.append_assoc] at h
      obtain ⟨-, rfl⟩ := ih.onlyTree l u _ h hu.sum (stops_relational hop)
      exact absurd rfl (hu op (Bool.or_eq_true_iff.mpr (.inr hop)))
  | comparison l op hop r ihl ihr =>
    intro b u v h hu hv
    cases b with
    | ofSum s =>
      rw [Tree.tokens, Tree.tokens, List.append_assoc] at h
      obtain ⟨-, rfl⟩ := ihl.onlyTree s _ v h (stops_relational hop) hv.sum
      exact absurd rfl (hv op (Bool.or_eq_true_iff.mpr (.inr hop)))
    | comparison l' op' hop' r' =>
      rw [Tree.tokens, Tree.tokens, List.append_assoc, List.append_assoc] at h
      obtain ⟨rfl, hrest⟩ := ihl.onlyTree l' _ _ h (stops_relational hop) (stops_relational hop')
      injection hrest with hsign hrest
      rw [Token.Kind.sign.injEq] at hsign
      obtain rfl := Operator.sign_inj hsign
      obtain ⟨rfl, rfl⟩ := ihr.onlyTree r' u v hrest hu.sum hv.sum
      exact ⟨rfl, rfl⟩

/-! ## Lists -/

section Lists

variable {α : Type} {f : α → List Token.Kind} {e : Sign}

/-- A row of tokens that starts with a comma or with the sign that ends a list. -/
def EndsItem (e : Sign) (u : List Token.Kind) : Prop :=
  ∃ s w, (s = .comma ∨ s = e) ∧ u = .sign s :: w

/-- Items that are told apart before a comma and before the end of their list. -/
def OnlyItem (f : α → List Token.Kind) (e : Sign) : Prop :=
  ∀ (a b : α) (u v : List Token.Kind), f a ++ u = f b ++ v → EndsItem e u → EndsItem e v →
    a = b ∧ u = v

private theorem endsItem_more (as : List α) (u : List Token.Kind) :
    EndsItem e ((as.flatMap fun a => .sign .comma :: f a) ++ .sign e :: u) := by
  cases as with
  | nil => exact ⟨e, u, .inr rfl, rfl⟩
  | cons a as => exact ⟨.comma, _, .inl rfl, rfl⟩

private theorem more_inj (hf : OnlyItem f e) (he : e ≠ .comma) {as bs : List α}
    {u v : List Token.Kind} (h : (as.flatMap fun a => .sign .comma :: f a) ++ .sign e :: u =
      (bs.flatMap fun a => .sign .comma :: f a) ++ .sign e :: v) : as = bs ∧ u = v := by
  induction as generalizing bs with
  | nil =>
    cases bs with
    | nil => exact ⟨rfl, List.tail_eq_of_cons_eq h⟩
    | cons b bs => exact absurd (Token.Kind.sign.inj (List.cons_eq_cons.mp h).1) he
  | cons a as ih =>
    cases bs with
    | nil => exact absurd (Token.Kind.sign.inj (List.cons_eq_cons.mp h).1).symm he
    | cons b bs =>
      simp only [List.flatMap_cons, List.append_assoc, List.cons_append] at h
      obtain ⟨rfl, hrest⟩ := hf a b _ _ (List.tail_eq_of_cons_eq h) (endsItem_more as u)
        (endsItem_more bs v)
      obtain ⟨rfl, rfl⟩ := ih hrest
      exact ⟨rfl, rfl⟩

/-- Lists of items are told apart by their tokens, also from the empty list. -/
theorem listed_inj (hf : OnlyItem f e) (he : e ≠ .comma)
    (hfirst : ∀ a, ∃ k ks, f a = k :: ks ∧ k ≠ .sign e) {as bs : List α} {u v : List Token.Kind}
    (h : listed f as ++ .sign e :: u = listed f bs ++ .sign e :: v) : as = bs ∧ u = v := by
  have hempty (a : α) (as : List α) (u v : List Token.Kind) :
      listed f (a :: as) ++ u ≠ .sign e :: v := by
    obtain ⟨k, ks, hk, hne⟩ := hfirst a
    rw [listed, hk]
    intro heq
    exact hne (List.cons_eq_cons.mp heq).1
  cases as with
  | nil =>
    cases bs with
    | nil => exact ⟨rfl, List.tail_eq_of_cons_eq h⟩
    | cons b bs => exact absurd h.symm (hempty b bs _ _)
  | cons a as =>
    cases bs with
    | nil => exact absurd h (hempty a as _ _)
    | cons b bs =>
      simp only [listed, List.append_assoc] at h
      obtain ⟨rfl, hrest⟩ := hf a b _ _ h (endsItem_more as u) (endsItem_more bs v)
      obtain ⟨rfl, rfl⟩ := more_inj hf he hrest
      exact ⟨rfl, rfl⟩

end Lists

private theorem EndsItem.stops {r : Rank} {u : List Token.Kind} (h : EndsItem .rightParen u) :
    Stops r u := by
  obtain ⟨s, w, rfl | rfl, rfl⟩ := h <;> exact stops_closing (by decide)

private theorem onlyItem_expression : OnlyItem (Tree.tokens (r := .whole)) .rightParen :=
  fun a b u v h hu hv => (unambiguous a).onlyTree b u v h hu.stops hv.stops

private theorem string_ne (e : Expression) {x : String} {u v : List Token.Kind} :
    e.tokens ++ u ≠ .string x :: v := by
  obtain ⟨k, ks, hk, hs⟩ := first_of_tree e
  rw [hk]
  intro heq
  rw [(List.cons_eq_cons.mp heq).1] at hs
  exact hs

private theorem onlyItem_item : OnlyItem Item.tokens .rightParen := by
  intro a b u v h hu hv
  cases a with
  | text x =>
    cases b with
    | text y =>
      injection h with hx huv
      exact ⟨by rw [Token.Kind.string.inj hx], huv⟩
    | value e => exact absurd h.symm (string_ne e)
  | value e =>
    cases b with
    | text y => exact absurd h (string_ne e)
    | value e' =>
      obtain ⟨rfl, rfl⟩ := onlyItem_expression e e' u v h hu hv
      exact ⟨rfl, rfl⟩

private theorem first_of_expression (e : Expression) :
    ∃ k ks, e.tokens = k :: ks ∧ k ≠ .sign .rightParen := by
  obtain ⟨k, ks, hk, hs⟩ := first_of_tree e
  exact ⟨k, ks, hk, by rintro rfl; exact hs⟩

private theorem first_of_item (i : Item) : ∃ k ks, i.tokens = k :: ks ∧ k ≠ .sign .rightParen := by
  cases i with
  | text x => exact ⟨_, _, rfl, by simp⟩
  | value e => exact first_of_expression e

/-! ## Statements -/

/-- A statement is the only one at the start of a row, and a block the only one before a brace. -/
def OnlyPhrase : {r : Role} → Phrase r → Prop
  | .statement, a => ∀ (b : Statement) (u v : List Token.Kind),
    a.tokens ++ u = b.tokens ++ v → a = b ∧ u = v
  | .block, a => ∀ (b : Block) (u v : List Token.Kind),
    a.tokens ++ .sign .rightBrace :: u = b.tokens ++ .sign .rightBrace :: v → a = b ∧ u = v

private theorem guard_inj {a b : Expression} {s : Sign} {u v : List Token.Kind} (hs : s ∈ closing)
    (h : a.tokens ++ .sign s :: u = b.tokens ++ .sign s :: v) : a = b ∧ u = v := by
  obtain ⟨hab, huv⟩ := (unambiguous a).onlyTree b _ _ h (stops_closing hs) (stops_closing hs)
  exact ⟨hab, List.tail_eq_of_cons_eq huv⟩

/-- A guard and the block behind it are told by their tokens. -/
private theorem guarded_inj {g g' : Expression} {b b' : Block} (hb : OnlyPhrase b)
    {u v : List Token.Kind} (h : g.tokens ++ .sign .rightParen :: .sign .leftBrace ::
      (b.tokens ++ .sign .rightBrace :: u) = g'.tokens ++ .sign .rightParen :: .sign .leftBrace ::
        (b'.tokens ++ .sign .rightBrace :: v)) : g = g' ∧ b = b' ∧ u = v := by
  obtain ⟨hg, hrest⟩ := guard_inj (by decide) h
  exact ⟨hg, hb b' u v (List.tail_eq_of_cons_eq hrest)⟩

private theorem statement_ne_brace (s : Statement) {u v : List Token.Kind} :
    s.tokens ++ u ≠ .sign .rightBrace :: v := by
  cases s <;> simp [Phrase.tokens]

/-- No statement and no block has the tokens of another. -/
theorem onlyPhrase {r : Role} (a : Phrase r) : OnlyPhrase a := by
  induction a with
  | assign x e =>
    intro b u v h
    cases b with
    | assign y e' =>
      simp only [Phrase.tokens, List.cons_append, List.append_assoc, List.nil_append,
        List.cons.injEq, Token.Kind.identifier.injEq, true_and] at h
      obtain ⟨rfl, h⟩ := h
      obtain ⟨rfl, rfl⟩ := guard_inj (by decide) h
      exact ⟨rfl, rfl⟩
    | _ => simp [Phrase.tokens] at h
  | branch g b hb =>
    intro s u v h
    cases s with
    | branch g' b' =>
      simp only [Phrase.tokens, List.cons_append, List.append_assoc, List.nil_append,
        List.cons.injEq, true_and] at h
      obtain ⟨rfl, rfl, h₁⟩ := guarded_inj hb h
      exact ⟨rfl, List.tail_eq_of_cons_eq h₁⟩
    | choice g' b' c' =>
      simp only [Phrase.tokens, List.cons_append, List.append_assoc, List.nil_append,
        List.cons.injEq, true_and] at h
      obtain ⟨rfl, rfl, h₁⟩ := guarded_inj hb h
      simp at h₁
    | _ => simp [Phrase.tokens] at h
  | choice g b c hb hc =>
    intro s u v h
    cases s with
    | branch g' b' =>
      simp only [Phrase.tokens, List.cons_append, List.append_assoc, List.nil_append,
        List.cons.injEq, true_and] at h
      obtain ⟨rfl, rfl, h₁⟩ := guarded_inj hb h
      simp at h₁
    | choice g' b' c' =>
      simp only [Phrase.tokens, List.cons_append, List.append_assoc, List.nil_append,
        List.cons.injEq, true_and] at h
      obtain ⟨rfl, rfl, h₁⟩ := guarded_inj hb h
      simp only [List.cons.injEq, true_and] at h₁
      obtain ⟨rfl, h₂⟩ := hc c' _ _ h₁
      exact ⟨rfl, List.tail_eq_of_cons_eq h₂⟩
    | _ => simp [Phrase.tokens] at h
  | loop b g hb =>
    intro s u v h
    cases s with
    | loop b' g' =>
      simp only [Phrase.tokens, List.cons_append, List.append_assoc, List.nil_append,
        List.cons.injEq, true_and] at h
      obtain ⟨rfl, h₁⟩ := hb b' _ _ h
      simp only [List.cons.injEq, true_and] at h₁
      obtain ⟨rfl, h₂⟩ := guard_inj (by decide) h₁
      exact ⟨rfl, List.tail_eq_of_cons_eq h₂⟩
    | _ => simp [Phrase.tokens] at h
  | call f es =>
    intro s u v h
    cases s with
    | call f' es' =>
      simp only [Phrase.tokens, List.cons_append, List.append_assoc, List.nil_append,
        List.cons.injEq, Token.Kind.identifier.injEq, true_and] at h
      obtain ⟨rfl, h⟩ := h
      obtain ⟨rfl, h₁⟩ := listed_inj onlyItem_expression (by decide) first_of_expression h
      exact ⟨rfl, List.tail_eq_of_cons_eq h₁⟩
    | _ => simp [Phrase.tokens] at h
  | print i is =>
    intro s u v h
    cases s with
    | print i' is' =>
      simp only [Phrase.tokens, List.cons_append, List.append_assoc, List.nil_append,
        List.cons.injEq, true_and] at h
      obtain ⟨his, h₁⟩ := listed_inj onlyItem_item (by decide) first_of_item h
      obtain ⟨rfl, rfl⟩ := List.cons_eq_cons.mp his
      exact ⟨rfl, List.tail_eq_of_cons_eq h₁⟩
    | _ => simp [Phrase.tokens] at h
  | nil =>
    intro b u v h
    cases b with
    | nil => exact ⟨rfl, List.tail_eq_of_cons_eq h⟩
    | cons s rest =>
      rw [Phrase.tokens, Phrase.tokens, List.append_assoc] at h
      exact absurd h.symm (statement_ne_brace s)
  | cons s rest hs hrest =>
    intro b u v h
    cases b with
    | nil =>
      rw [Phrase.tokens, Phrase.tokens, List.append_assoc] at h
      exact absurd h (statement_ne_brace s)
    | cons s' rest' =>
      rw [Phrase.tokens, Phrase.tokens, List.append_assoc, List.append_assoc] at h
      obtain ⟨rfl, h₁⟩ := hs s' _ _ h
      obtain ⟨rfl, rfl⟩ := hrest rest' u v h₁
      exact ⟨rfl, rfl⟩

/-! ## Declarations, functions and programs -/

private theorem Numeric.keyword_inj {τ υ : Numeric} (h : τ.keyword = υ.keyword) : τ = υ := by
  cases τ <;> cases υ <;> first | rfl | cases h

private theorem declaration_inj {d c : Declaration} {u v : List Token.Kind}
    (h : d.tokens ++ u = c.tokens ++ v) : d = c ∧ u = v := by
  obtain ⟨x, xs, τ⟩ := d
  obtain ⟨y, ys, υ⟩ := c
  have hitem : OnlyItem (fun x : String => [Token.Kind.identifier x]) .colon := by
    intro a b u v h _ _
    simpa using h
  simp only [Declaration.tokens, Declaration.names, List.append_assoc, List.cons_append] at h
  obtain ⟨hxs, h₁⟩ := listed_inj hitem (by decide) (fun x => ⟨_, _, rfl, by simp⟩) h
  obtain ⟨rfl, rfl⟩ := List.cons_eq_cons.mp hxs
  simp only [List.cons.injEq, Token.Kind.keyword.injEq, List.nil_append, true_and] at h₁
  obtain rfl := Numeric.keyword_inj h₁.1
  exact ⟨rfl, h₁.2⟩

/-- A row of tokens that does not go on with variables. -/
def EndsSection (u : List Token.Kind) : Prop :=
  ∀ k, u.head? = some k → k ≠ .keyword .var ∧ ∀ x : String, k ≠ .identifier x

private theorem declarations_inj {ds cs : List Declaration} {u v : List Token.Kind}
    (h : ds.flatMap Declaration.tokens ++ u = cs.flatMap Declaration.tokens ++ v)
    (hu : EndsSection u) (hv : EndsSection v) : ds = cs ∧ u = v := by
  have hfirst (d : Declaration) (w : List Token.Kind) : ¬ EndsSection (d.tokens ++ w) :=
    fun hw => (hw (.identifier d.first) rfl).2 _ rfl
  induction ds generalizing cs with
  | nil =>
    cases cs with
    | nil => exact ⟨rfl, h⟩
    | cons c cs =>
      rw [List.flatMap_cons, List.append_assoc] at h
      obtain rfl : u = _ := h
      exact absurd hu (hfirst c _)
  | cons d ds ih =>
    cases cs with
    | nil =>
      rw [List.flatMap_cons, List.append_assoc] at h
      obtain rfl : _ = v := h
      exact absurd hv (hfirst d _)
    | cons c cs =>
      rw [List.flatMap_cons, List.flatMap_cons, List.append_assoc, List.append_assoc] at h
      obtain ⟨rfl, h₁⟩ := declaration_inj h
      obtain ⟨rfl, rfl⟩ := ih h₁
      exact ⟨rfl, rfl⟩

private theorem section_inj {ds cs : List Declaration} {u v : List Token.Kind}
    (h : Declaration.sectionTokens ds ++ u = Declaration.sectionTokens cs ++ v) (hu : EndsSection u)
    (hv : EndsSection v) : ds = cs ∧ u = v := by
  cases ds with
  | nil =>
    cases cs with
    | nil => exact ⟨rfl, h⟩
    | cons c cs =>
      obtain rfl : u = _ := h
      exact absurd rfl (hu (.keyword .var) rfl).1
  | cons d ds =>
    cases cs with
    | nil =>
      obtain rfl : _ = v := h
      exact absurd rfl (hv (.keyword .var) rfl).1
    | cons c cs => exact declarations_inj (List.tail_eq_of_cons_eq h) hu hv

private theorem endsSection_sign {s : Sign} {u : List Token.Kind} : EndsSection (.sign s :: u) := by
  intro k hk
  obtain rfl : Token.Kind.sign s = k := Option.some.inj hk
  exact ⟨by simp, by simp⟩

private theorem onlyItem_parameter : OnlyItem Parameter.tokens .rightParen := by
  intro a b u v h _ _
  obtain ⟨x, τ⟩ := a
  obtain ⟨y, υ⟩ := b
  simp only [Parameter.tokens, List.cons_append, List.nil_append, List.cons.injEq,
    Token.Kind.identifier.injEq, Token.Kind.keyword.injEq, true_and] at h
  obtain ⟨rfl, hτ, rfl⟩ := h
  obtain rfl := Numeric.keyword_inj hτ
  exact ⟨rfl, rfl⟩

private theorem function_inj {f g : Function} {u v : List Token.Kind}
    (h : f.tokens ++ u = g.tokens ++ v) : f = g ∧ u = v := by
  obtain ⟨marked, x, as, ds, b⟩ := f
  obtain ⟨marked', y, bs, cs, c⟩ := g
  have hmarked : marked = marked' := by
    cases marked <;> cases marked' <;> simp [Function.tokens] at h ⊢
  subst hmarked
  simp only [Function.tokens, List.append_assoc, List.cons_append, List.append_cancel_left_eq,
    List.cons.injEq, Token.Kind.identifier.injEq, true_and] at h
  obtain ⟨rfl, h⟩ := h
  obtain ⟨rfl, h₁⟩ := listed_inj onlyItem_parameter (by decide) (fun a => ⟨_, _, rfl, by simp⟩) h
  obtain ⟨rfl, h₂⟩ := section_inj (List.tail_eq_of_cons_eq h₁) endsSection_sign endsSection_sign
  obtain ⟨rfl, h₃⟩ := onlyPhrase b c _ _ (List.tail_eq_of_cons_eq h₂)
  simp only [List.nil_append, List.cons.injEq, true_and] at h₃
  exact ⟨rfl, h₃⟩

private theorem function_first (f : Function) (u : List Token.Kind) :
    ∃ k ks, f.tokens ++ u = .keyword k :: ks ∧ k ≠ .main ∧ k ≠ .var := by
  obtain ⟨marked, x, as, ds, b⟩ := f
  cases marked with
  | true => exact ⟨_, _, rfl, by simp, by simp⟩
  | false => exact ⟨_, _, rfl, by simp, by simp⟩

private theorem functions_inj {fs gs : List Function} {u v : List Token.Kind}
    (h : fs.flatMap Function.tokens ++ .keyword .main :: u =
      gs.flatMap Function.tokens ++ .keyword .main :: v) : fs = gs ∧ u = v := by
  have hfirst (f : Function) (u v : List Token.Kind) : f.tokens ++ u ≠ .keyword .main :: v := by
    obtain ⟨k, ks, hk, hne, -⟩ := function_first f u
    rw [hk]
    simp [hne]
  induction fs generalizing gs with
  | nil =>
    cases gs with
    | nil => exact ⟨rfl, List.tail_eq_of_cons_eq h⟩
    | cons g gs =>
      rw [List.flatMap_cons, List.append_assoc] at h
      exact absurd h.symm (hfirst g _ _)
  | cons f fs ih =>
    cases gs with
    | nil =>
      rw [List.flatMap_cons, List.append_assoc] at h
      exact absurd h (hfirst f _ _)
    | cons g gs =>
      rw [List.flatMap_cons, List.flatMap_cons, List.append_assoc, List.append_assoc] at h
      obtain ⟨rfl, h₁⟩ := function_inj h
      obtain ⟨rfl, rfl⟩ := ih h₁
      exact ⟨rfl, rfl⟩

private theorem endsSection_functions (fs : List Function) (u : List Token.Kind) :
    EndsSection (fs.flatMap Function.tokens ++ .keyword .main :: u) := by
  intro k hk
  cases fs with
  | nil =>
    obtain rfl : Token.Kind.keyword .main = k := Option.some.inj hk
    exact ⟨by simp, by simp⟩
  | cons f fs =>
    rw [List.flatMap_cons, List.append_assoc] at hk
    obtain ⟨w, ks, hw, -, hvar⟩ :=
      function_first f (fs.flatMap Function.tokens ++ .keyword .main :: u)
    rw [hw] at hk
    obtain rfl : Token.Kind.keyword w = k := Option.some.inj hk
    exact ⟨by simpa using hvar, by simp⟩

/-- A program is the only one at the start of a row. -/
theorem Program.tokens_append_inj {p q : Program} {u v : List Token.Kind}
    (h : p.tokens ++ u = q.tokens ++ v) : p = q ∧ u = v := by
  obtain ⟨x, ds, fs, b⟩ := p
  obtain ⟨y, cs, gs, c⟩ := q
  simp only [Program.tokens, List.append_assoc, List.cons_append, List.cons.injEq,
    Token.Kind.identifier.injEq, true_and] at h
  obtain ⟨rfl, h⟩ := h
  obtain ⟨rfl, h₁⟩ := section_inj h (endsSection_functions _ _) (endsSection_functions _ _)
  obtain ⟨rfl, h₂⟩ := functions_inj h₁
  obtain ⟨rfl, h₃⟩ := onlyPhrase b c _ _ (List.tail_eq_of_cons_eq h₂)
  exact ⟨rfl, List.tail_eq_of_cons_eq h₃⟩

/-- Two programs with the same tokens are the same. -/
theorem Program.tokens_injective {p q : Program} (h : p.tokens = q.tokens) : p = q :=
  (Program.tokens_append_inj (congrArg (· ++ []) h)).1

end Syntax

end Quadlet
