import Quadlet.Proofs.Parser.Soundness

/-!
# The parser takes every program

Where the tokens of a tree are next and the sink takes the tree's events, the part of the parser for
that tree succeeds, moves behind the tokens and tells the events. What follows the tree must not be
read as its continuation, and the bound must allow as many rounds as there are tokens left.
-/

namespace Quadlet.Parse

open EventSink Parser Syntax

variable {σ : Type} [EventSink σ] {eof : EndMarker} {p q r : Parser σ} {n : Nat}
variable {k : Token.Kind} {e : Event} {α : Type}

/-- A part of the parser succeeds on every tree that stands before a token it may be followed by. -/
def Complete {β : Type} (eof : EndMarker) (P : Parse σ Unit) (n : Nat) (follow : Token.Kind → Prop)
    (tokens : β → List Token.Kind) (events : β → List Event) : Prop :=
  ∀ (b : β) (p q : Parser σ), p.left ≤ n → Takes eof p q (tokens b) (events b) → follow q.next →
    P p = .ok () q

/-- An action goes on behind an expected token. -/
theorem expect_bind (hk : k ≠ .endOfFile) (h : Takes eof p q [k] []) (x : Parse σ α) :
    (do expect k; x : Parse σ α) p = x q :=
  EStateM.bind_of_ok ((expect_iff h.left_standing hk).mpr h)

/-- An action goes on behind an event. -/
theorem fire_bind (h : Takes eof p q [] [e]) (x : Parse σ α) :
    (do fire e; x : Parse σ α) p = x q :=
  EStateM.bind_of_ok ((fire_iff h.left_standing).mpr h)

/-- An action goes on behind a name. -/
theorem name_bind {x : String} (h : Takes eof p q [.identifier x] []) (f : String → Parse σ α) :
    (name >>= f) p = f x q :=
  EStateM.bind_of_ok ((name_iff h.left_standing).mpr h)

/-- An action goes on behind a token and its event. -/
theorem advance_fire_bind (hk : k ≠ .endOfFile) (h : Takes eof p q [k] [e]) (x : Parse σ α) :
    (do advance; fire e; x : Parse σ α) p = x q := by
  obtain ⟨m, hm, hq⟩ := takes_cons.mp h
  rw [EStateM.bind_of_ok (advance_of_takes hk hm)]
  exact fire_bind hq x

/-! ## Expressions -/

/-- The tokens that end an expression. -/
def EndsExpression (k : Token.Kind) : Prop :=
  multiplicative? k = none ∧ additive? k = none ∧ relational? k = none

/-- A multiplicative operator is found under its sign. -/
theorem multiplicative?_sign {op : Operator} (h : op.isMultiplicative = true) :
    multiplicative? (.sign op.sign) = some op := by
  cases op <;> first | rfl | cases h

/-- An additive operator is found under its sign, and only between terms. -/
theorem additive?_sign {op : Operator} (h : op.isAdditive = true) :
    additive? (.sign op.sign) = some op ∧ multiplicative? (.sign op.sign) = none := by
  cases op <;> first | exact ⟨rfl, rfl⟩ | cases h

/-- A comparison is found under its sign, and only between sums. -/
theorem relational?_sign {op : Operator} (h : op.isRelational = true) :
    relational? (.sign op.sign) = some op ∧ additive? (.sign op.sign) = none ∧
      multiplicative? (.sign op.sign) = none := by
  cases op <;> first | exact ⟨rfl, rfl, rfl⟩ | cases h

/-- No more operands are read where no operator of the level follows. -/
theorem moreOperands_of_none {level : Token.Kind → Option Operator} {operand : Parse σ Unit}
    (h : level p.next = none) : moreOperands level operand n p = .ok () p := by
  rw [moreOperands.eq_def, EStateM.bind_of_ok (peek_eq p)]
  change level p.cursor.peek.kind = none at h
  rw [h]
  rfl

/-- One more operand is read where an operator of the level follows. -/
theorem moreOperands_of_some {level : Token.Kind → Option Operator} {operand : Parse σ Unit}
    {op : Operator} (hlevel : level (.sign op.sign) = some op)
    (ht : Takes eof p q [.sign op.sign] [.operator op]) (ho : operand q = .ok () r) (m : Nat) :
    moreOperands level operand (m + 1) p = moreOperands level operand m r := by
  have hk : p.cursor.peek.kind = .sign op.sign := ht.next_eq
  rw [moreOperands, EStateM.bind_of_ok (peek_eq p), hk, hlevel]
  change (do advance; fire (.operator op); operand; moreOperands level operand m : Parse σ Unit)
    p = _
  rw [advance_fire_bind (by simp) ht]
  exact EStateM.bind_of_ok ho

/-- The operands of a level that are taken with the events of its end. -/
abbrev closed (P : Parse σ Unit) (e : Event) : Parse σ Unit := do P; fire e

/-- What reading a tree comes to: terms and sums are read up to the point where their level may
still go on, with a bound that covers all tokens left. -/
def Reads (σ : Type) [EventSink σ] (eof : EndMarker) : {r : Rank} → Tree r → Prop
  | .factor, e => ∀ (n : Nat) (p q : Parser σ), p.left ≤ n → Takes eof p q e.tokens e.events →
    factor n p = .ok () q
  | .term, e => ∀ (n : Nat) (p q : Parser σ), p.left ≤ n → Takes eof p q e.tokens e.events →
    ∃ m, q.left ≤ m ∧
      term (factor n) n p = moreOperands multiplicative? (closed (factor n) .factorEnd) m q
  | .sum, e => ∀ (n : Nat) (p q : Parser σ), p.left ≤ n → Takes eof p q e.tokens e.events →
    multiplicative? q.next = none →
    ∃ m, q.left ≤ m ∧
      sum (factor n) n p = moreOperands additive? (closed (term (factor n) n) .termEnd) m q
  | .whole, e => ∀ (n : Nat) (p q : Parser σ), p.left ≤ n → Takes eof p q e.tokens e.events →
    EndsExpression q.next → expression n p = .ok () q

/-- An operand and the end of its level. -/
theorem closed_of_ok {P : Parse σ Unit} (hP : P p = .ok () q) (ht : Takes eof q r [] [e]) :
    closed P e p = .ok () r :=
  (EStateM.bind_of_ok hP).trans ((fire_iff ht.left_standing).mpr ht)

/-- A factor that is one token. -/
theorem factor_leaf {f : Tree .factor} (hk : k ≠ .endOfFile) (ht : f.tokens = [k])
    (he : f.events = [e]) (hread : ∀ (n : Nat) (p : Parser σ), p.next = k →
      factor n p = (do advance; fire e : Parse σ Unit) p) : Reads σ eof f := by
  intro n p q _ h
  rw [ht, he] at h
  rw [hread n p h.next_eq]
  obtain ⟨m, hm, hq⟩ := takes_cons.mp h
  rw [EStateM.bind_of_ok (advance_of_takes hk hm)]
  exact (fire_iff hq.left_standing).mpr hq

/-- A sign and a factor are read where the factor is. -/
theorem reads_signed {f : Tree .factor} (negative : Bool) (hf : Reads σ eof f) :
    Reads σ eof (.signed negative f) := by
  intro n p q hn h
  obtain ⟨m, hm, h⟩ := takes_cons.mp h
  obtain ⟨m', hm', h⟩ := takes_event.mp h
  obtain ⟨m'', hf', hq⟩ := takes_close.mp h
  have hleft := hm.left_eq
  have hleft' := hm'.left_eq
  simp only [List.length_cons, List.length_nil] at hleft hleft'
  cases n with
  | zero => omega
  | succ n =>
    have hk : p.cursor.peek.kind = .sign (if negative then .minus else .plus) := hm.next_eq
    have hstep : factor (n + 1) p =
        (do advance; fire (.unarySign negative); factor n; fire .unaryEnd : Parse σ Unit) p := by
      rw [factor, EStateM.bind_of_ok (peek_eq p), hk]
      cases negative <;> rfl
    rw [hstep, advance_fire_bind (by simp) (hm.trans hm'),
      EStateM.bind_of_ok (hf n m' m'' (by omega) hf')]
    exact (fire_iff hq.left_standing).mpr hq

/-- An expression between parentheses is read where the expression is. -/
theorem reads_group {f : Expression} (hf : Reads σ eof f) : Reads σ eof (.group f) := by
  intro n p q hn h
  obtain ⟨m, hm, h⟩ := takes_cons.mp h
  obtain ⟨m', hm', h⟩ := takes_event.mp h
  obtain ⟨m'', hf', h⟩ := takes_append.mp h
  obtain ⟨m₃, hm₃, hq⟩ := takes_cons.mp h
  have hleft := hm.left_eq
  have hleft' := hm'.left_eq
  simp only [List.length_cons, List.length_nil] at hleft hleft'
  cases n with
  | zero => omega
  | succ n =>
    have hk : p.cursor.peek.kind = .sign .leftParen := hm.next_eq
    have hend : EndsExpression m''.next := by
      rw [hm₃.next_eq]
      exact ⟨rfl, rfl, rfl⟩
    have hstep : factor (n + 1) p =
        (do advance; fire .openParen; expression n; expect (.sign .rightParen)
            fire .closeParen : Parse σ Unit) p := by
      rw [factor, EStateM.bind_of_ok (peek_eq p), hk]
      rfl
    rw [hstep, advance_fire_bind (by simp) (hm.trans hm'),
      EStateM.bind_of_ok (hf n m' m'' (by omega) hf' hend), expect_bind (by simp) hm₃]
    exact (fire_iff hq.left_standing).mpr hq

/-- Every expression is read. -/
theorem reads {r : Rank} (e : Tree r) : Reads σ eof e := by
  induction e with
  | int n | float x | name x =>
    refine factor_leaf (by simp) rfl rfl fun n p hp => ?_
    change p.cursor.peek.kind = _ at hp
    cases n <;> rw [factor, EStateM.bind_of_ok (peek_eq p), hp] <;> rfl
  | group e ih => exact reads_group ih
  | signed negative e ih => exact reads_signed negative ih
  | ofFactor e ih =>
    intro n p q hn h
    obtain ⟨m, hm, hq⟩ := takes_close.mp h
    have hleft := h.left_eq
    refine ⟨n, by omega, ?_⟩
    exact EStateM.bind_of_ok (closed_of_ok (ih n p m hn hm) hq)
  | product l op hop e ihl ihe =>
    intro n p q hn h
    rw [Tree.tokens, Tree.events, List.append_assoc] at h
    obtain ⟨p₁, h₁, h⟩ := takes_append.mp h
    obtain ⟨p₂, h₂, h⟩ := takes_cons_event.mp h
    obtain ⟨p₃, h₃, h₄⟩ := takes_close.mp h
    obtain ⟨m, hm, hl⟩ := ihl n p p₁ hn h₁
    have left₁ := h₁.left_eq
    have left₂ := h₂.left_eq
    have left₃ := h₃.left_eq
    have left₄ := h₄.left_eq
    simp only [List.length_cons, List.length_nil] at left₂ left₄
    obtain ⟨m, rfl⟩ : ∃ m', m = m' + 1 := ⟨m - 1, by omega⟩
    refine ⟨m, by omega, ?_⟩
    have hoperand := closed_of_ok (ihe n p₂ p₃ (by omega) h₃) h₄
    rw [hl, moreOperands_of_some (multiplicative?_sign hop) h₂ hoperand]
  | ofTerm e ih =>
    intro n p q hn h hnext
    obtain ⟨m, hm, hq⟩ := takes_close.mp h
    have hleft := h.left_eq
    obtain ⟨f, -, hf⟩ := ih n p m hn hm
    rw [moreOperands_of_none (hq.next_of_nil ▸ hnext)] at hf
    exact ⟨n, by omega, EStateM.bind_of_ok (closed_of_ok hf hq)⟩
  | addition l op hop e ihl ihe =>
    intro n p q hn h hnext
    rw [Tree.tokens, Tree.events, List.append_assoc] at h
    obtain ⟨p₁, h₁, h⟩ := takes_append.mp h
    obtain ⟨p₂, h₂, h⟩ := takes_cons_event.mp h
    obtain ⟨p₃, h₃, h₄⟩ := takes_close.mp h
    obtain ⟨hadd, hmul⟩ := additive?_sign hop
    obtain ⟨m, hm, hl⟩ := ihl n p p₁ hn h₁ (h₂.next_eq ▸ hmul)
    have left₁ := h₁.left_eq
    have left₂ := h₂.left_eq
    have left₃ := h₃.left_eq
    have left₄ := h₄.left_eq
    simp only [List.length_cons, List.length_nil] at left₂ left₄
    obtain ⟨m, rfl⟩ : ∃ m', m = m' + 1 := ⟨m - 1, by omega⟩
    refine ⟨m, by omega, ?_⟩
    obtain ⟨f, -, hf⟩ := ihe n p₂ p₃ (by omega) h₃
    rw [moreOperands_of_none (h₄.next_of_nil ▸ hnext)] at hf
    rw [hl, moreOperands_of_some hadd h₂ (closed_of_ok hf h₄)]
  | ofSum e ih =>
    intro n p q hn h hnext
    obtain ⟨m, hm, hq⟩ := takes_close.mp h
    rw [← hq.next_of_nil] at hnext
    obtain ⟨f, -, hf⟩ := ih n p m hn hm hnext.1
    rw [moreOperands_of_none hnext.2.1] at hf
    change (sum (factor n) n >>= _) p = _
    rw [EStateM.bind_of_ok hf, EStateM.bind_of_ok (peek_eq m)]
    have hrel : relational? m.cursor.peek.kind = none := hnext.2.2
    rw [hrel]
    exact (fire_iff hq.left_standing).mpr hq
  | comparison l op hop e ihl ihe =>
    intro n p q hn h hnext
    rw [Tree.tokens, Tree.events, List.append_assoc] at h
    obtain ⟨p₁, h₁, h⟩ := takes_append.mp h
    obtain ⟨p₂, h₂, h⟩ := takes_cons_event.mp h
    obtain ⟨p₃, h₃, h₄⟩ := takes_close.mp h
    rw [← h₄.next_of_nil] at hnext
    obtain ⟨hrel, hadd, hmul⟩ := relational?_sign hop
    have left₁ := h₁.left_eq
    have left₂ := h₂.left_eq
    obtain ⟨f, -, hl⟩ := ihl n p p₁ hn h₁ (h₂.next_eq ▸ hmul)
    rw [moreOperands_of_none (h₂.next_eq ▸ hadd)] at hl
    obtain ⟨g, -, hr⟩ := ihe n p₂ p₃ (by omega) h₃ hnext.1
    rw [moreOperands_of_none hnext.2.1] at hr
    have hk : p₁.cursor.peek.kind = .sign op.sign := h₂.next_eq
    change (sum (factor n) n >>= _) p = _
    rw [EStateM.bind_of_ok hl, EStateM.bind_of_ok (peek_eq p₁), hk, hrel]
    change (do advance; fire (.operator op); sum (factor n) n; fire .relationalEnd : Parse σ Unit)
      p₁ = _
    rw [advance_fire_bind (by simp) h₂, EStateM.bind_of_ok hr]
    exact (fire_iff h₄.left_standing).mpr h₄

/-- A whole expression is read where a token follows that ends it. -/
theorem expression_complete (n : Nat) :
    Complete eof (expression n : Parse σ Unit) n EndsExpression (Tree.tokens (r := .whole))
      Tree.events :=
  fun e p q hn h hend => reads e n p q hn h hend

/-! ## Lists and declarations -/

variable {β : Type} {item : Parse σ Unit} {tokens : β → List Token.Kind} {events : β → List Event}
variable {follow : Token.Kind → Prop}

/-- Further items are read up to a token that is no comma. -/
theorem moreItems_complete (hitem : Complete eof item n follow tokens events)
    (hcomma : follow (.sign .comma)) (m : Nat) (bs : List β) (hn : p.left ≤ n) (hm : p.left ≤ m)
    (h : Takes eof p q (bs.flatMap fun b => .sign .comma :: tokens b) (bs.flatMap events))
    (hne : q.next ≠ .sign .comma) (hfollow : follow q.next) : moreItems item m p = .ok () q := by
  induction bs generalizing p m with
  | nil =>
    obtain ⟨-, rfl⟩ := takes_nil.mp h
    rw [moreItems.eq_def, EStateM.bind_of_ok (take?_of_ne hne)]
    rfl
  | cons b bs ih =>
    rw [List.flatMap_cons, List.flatMap_cons, List.cons_append] at h
    obtain ⟨p₁, h₁, h⟩ := takes_cons.mp h
    obtain ⟨p₂, h₂, h₃⟩ := takes_append.mp h
    have left₁ := h₁.left_eq
    have left₂ := h₂.left_eq
    simp only [List.length_cons, List.length_nil] at left₁
    obtain ⟨m, rfl⟩ : ∃ m', m = m' + 1 := ⟨m - 1, by omega⟩
    have hnext : follow p₂.next := by
      cases bs with
      | nil =>
        obtain ⟨-, rfl⟩ := takes_nil.mp h₃
        exact hfollow
      | cons c cs =>
        rw [List.flatMap_cons, List.cons_append] at h₃
        rw [h₃.next_eq]
        exact hcomma
    have hmore := ih m (by omega) (by omega) h₃
    rw [moreItems, EStateM.bind_of_ok (take?_of_takes (by simp) h₁)]
    change (do item; moreItems item m : Parse σ Unit) p₁ = _
    rw [EStateM.bind_of_ok (hitem b p₁ p₂ (by omega) h₂ hnext), hmore]

/-- Items with commas between them are read up to a token that is no comma. -/
theorem items_complete (hitem : Complete eof item n follow tokens events)
    (hcomma : follow (.sign .comma)) :
    Complete eof (items item n) n (fun k => k ≠ .sign .comma ∧ follow k)
      (fun bs : β × List β => listed tokens (bs.1 :: bs.2)) fun bs =>
        (bs.1 :: bs.2).flatMap events := by
  rintro ⟨b, bs⟩ p q hn h ⟨hne, hfollow⟩
  obtain ⟨p₁, h₁, h₂⟩ := takes_append.mp h
  have left₁ := h₁.left_eq
  have hnext : follow p₁.next := by
    cases bs with
    | nil =>
      obtain ⟨-, rfl⟩ := takes_nil.mp h₂
      exact hfollow
    | cons c cs =>
      rw [List.flatMap_cons, List.cons_append] at h₂
      rw [h₂.next_eq]
      exact hcomma
  rw [items, EStateM.bind_of_ok (hitem b p p₁ hn h₁ hnext)]
  exact moreItems_complete hitem hcomma n bs (by omega) (by omega) h₂ hne hfollow

/-- The type of a declaration is read. -/
theorem typeName_of_takes {τ : Numeric} (h : Takes eof p q [.keyword τ.keyword] []) :
    typeName p = .ok τ.type q := by
  cases τ with
  | int => exact EStateM.bind_of_ok (take?_of_takes (by simp) h)
  | float =>
    have hne : p.next ≠ .keyword .int := by rw [h.next_eq]; simp [Numeric.keyword]
    exact (EStateM.bind_of_ok (take?_of_ne hne)).trans
      (EStateM.bind_of_ok (take?_of_takes (by simp) h))

/-- A name of a list of variables is read. -/
theorem variableName_complete :
    Complete eof (variableName : Parse σ Unit) n (fun _ => True) (fun x : String => [.identifier x])
      fun x => [.varName x] := by
  intro x p q _ h _
  obtain ⟨p₁, h₁, h₂⟩ := takes_cons.mp h
  rw [variableName, name_bind h₁]
  exact (fire_iff h₂.left_standing).mpr h₂

/-- A list of variables is read up to its semicolon. -/
theorem declaration_bind (d : Declaration) (hn : p.left ≤ n) (h : Takes eof p q d.tokens d.events)
    (x : Parse σ Unit) :
    (do items variableName n; expect (.sign .colon); fire (.varType (← typeName))
        expect (.sign .semicolon); x : Parse σ Unit) p = x q := by
  rw [Declaration.tokens, Declaration.events, List.map_eq_flatMap] at h
  obtain ⟨p₁, h₁, h⟩ := takes_append.mp h
  obtain ⟨p₂, h₂, h⟩ := takes_cons.mp h
  obtain ⟨p₃, h₃, h⟩ := takes_cons.mp h
  obtain ⟨p₄, h₄, h₅⟩ := takes_event.mp h
  have hnext : p₁.next ≠ .sign .comma := by rw [h₂.next_eq]; simp
  have hitems := items_complete variableName_complete trivial (d.first, d.more) p p₁ hn h₁
    ⟨hnext, trivial⟩
  rw [EStateM.bind_of_ok hitems, expect_bind (by simp) h₂,
    EStateM.bind_of_ok (typeName_of_takes h₃), fire_bind h₄, expect_bind (by simp) h₅]

/-- The tokens that cannot start another list of variables. -/
def EndsVariables (k : Token.Kind) : Prop := ∀ x : String, k ≠ .identifier x

/-- The first token of a list of variables is a name. -/
theorem next_of_declaration (d : Declaration) {ks : List Token.Kind} {es : List Event}
    (h : Takes eof p q (d.tokens ++ ks) es) : p.next = .identifier d.first := by
  have hcons : d.tokens ++ ks = .identifier d.first :: (d.tokens.tail ++ ks) := rfl
  rw [hcons] at h
  exact h.next_eq

/-- Lists of variables are read up to a token that is no name. -/
theorem variableLists_complete (d : Declaration) (ds : List Declaration) (n : Nat) (hn : p.left ≤ n)
    (h : Takes eof p q ((d :: ds).flatMap Declaration.tokens)
      ((d :: ds).flatMap Declaration.events))
    (hend : EndsVariables q.next) : variableLists n p = .ok () q := by
  induction ds generalizing p d n with
  | nil =>
    rw [List.flatMap_singleton, List.flatMap_singleton] at h
    rw [variableLists_eq, declaration_bind d hn h, EStateM.bind_of_ok (peek_eq q)]
    cases hk : q.cursor.peek.kind with
    | identifier x => exact absurd hk (hend x)
    | _ => rfl
  | cons c ds ih =>
    rw [List.flatMap_cons, List.flatMap_cons] at h
    obtain ⟨p₁, h₁, h₂⟩ := takes_append.mp h
    have hname : p₁.cursor.peek.kind = .identifier c.first := next_of_declaration c h₂
    have left₁ := h₁.left_eq
    have hpos : 0 < d.tokens.length := by simp [Declaration.tokens]
    obtain ⟨n, rfl⟩ : ∃ n', n = n' + 1 := ⟨n - 1, by omega⟩
    rw [variableLists_eq, declaration_bind d hn h₁, EStateM.bind_of_ok (peek_eq p₁), hname]
    exact ih c n (by omega) h₂

/-- The variables of a program or a function are read up to a token that is neither a name nor the
word that starts them. -/
theorem declarations_complete (n : Nat) :
    Complete eof (declarations n : Parse σ Unit) n (fun k => k ≠ .keyword .var ∧ EndsVariables k)
      Declaration.sectionTokens fun ds => ds.flatMap Declaration.events := by
  rintro ds p q hn h ⟨hvar, hend⟩
  cases ds with
  | nil =>
    obtain ⟨-, rfl⟩ := takes_nil.mp h
    rw [declarations, EStateM.bind_of_ok (take?_of_ne hvar)]
    rfl
  | cons d ds =>
    obtain ⟨p₁, h₁, h₂⟩ := takes_cons.mp h
    have left₁ := h₁.left_eq
    rw [declarations, EStateM.bind_of_ok (take?_of_takes (by simp) h₁)]
    exact variableLists_complete d ds n (by omega) h₂ hend

/-! ## Statements -/

/-- What reading a statement or a block comes to. -/
def ReadsPhrase (σ : Type) [EventSink σ] (eof : EndMarker) : {r : Role} → Phrase r → Prop
  | .statement, s => ∀ (n : Nat) (p q : Parser σ), p.left ≤ n → Takes eof p q s.tokens s.events →
    statement n p = .ok () q
  | .block, b => ∀ (n m : Nat) (p q : Parser σ), p.left ≤ n → p.left ≤ m →
    Takes eof p q b.tokens b.events → q.next = .sign .rightBrace →
    statements (statement n) m p = .ok () q

/-- A block is read with its braces. -/
theorem block_bind {b : Block} (hb : ReadsPhrase σ eof b) (hn : p.left ≤ n) {ks : List Token.Kind}
    {es : List Event}
    (h : Takes eof p r (.sign .leftBrace :: b.tokens ++ .sign .rightBrace :: ks) (b.events ++ es)) :
    ∃ q, block (statement n) n p = .ok () q ∧ Takes eof q r ks es ∧ q.left ≤ p.left := by
  rw [List.cons_append] at h
  obtain ⟨p₁, h₁, h⟩ := takes_cons.mp h
  obtain ⟨p₂, h₂, h⟩ := takes_append.mp h
  obtain ⟨p₃, h₃, h⟩ := takes_cons.mp h
  have left₁ := h₁.left_eq
  have left₂ := h₂.left_eq
  have left₃ := h₃.left_eq
  refine ⟨p₃, ?_, h, by omega⟩
  rw [block, expect_bind (by simp) h₁,
    EStateM.bind_of_ok (hb n n p₁ p₂ (by omega) (by omega) h₂ h₃.next_eq)]
  exact (expect_iff h₃.left_standing (by simp)).mpr h₃

/-- An expression is read with its parentheses. -/
theorem guarded_bind {g : Expression} (hn : p.left ≤ n) {ks : List Token.Kind} {es : List Event}
    (h : Takes eof p r (.sign .leftParen :: g.tokens ++ .sign .rightParen :: ks) (g.events ++ es)) :
    ∃ q, guarded n p = .ok () q ∧ Takes eof q r ks es ∧ q.left ≤ p.left := by
  rw [List.cons_append] at h
  obtain ⟨p₁, h₁, h⟩ := takes_cons.mp h
  obtain ⟨p₂, h₂, h⟩ := takes_append.mp h
  obtain ⟨p₃, h₃, h⟩ := takes_cons.mp h
  have left₁ := h₁.left_eq
  have left₂ := h₂.left_eq
  have left₃ := h₃.left_eq
  have hend : EndsExpression p₂.next := by
    rw [h₃.next_eq]
    exact ⟨rfl, rfl, rfl⟩
  refine ⟨p₃, ?_, h, by omega⟩
  rw [guarded, expect_bind (by simp) h₁,
    EStateM.bind_of_ok (expression_complete n g p₁ p₂ (by omega) h₂ hend)]
  exact (expect_iff h₃.left_standing (by simp)).mpr h₃

/-- The token behind the next one, where both are taken. -/
theorem second_of_takes {k' : Token.Kind} {ks : List Token.Kind} {es : List Event}
    (h : Takes eof p q (k :: k' :: ks) es) : p.cursor.second?.map Token.kind = some k' := by
  obtain ⟨pre, rest, s, s', hks, -, rfl, -⟩ := h
  obtain ⟨t, pre, rfl, -, hks⟩ := List.map_eq_cons_iff.mp hks
  obtain ⟨t', pre, rfl, hk', -⟩ := List.map_eq_cons_iff.mp hks
  exact congrArg some hk'

/-- An assignment is read. -/
theorem assignment_of_takes {x : String} {e : Expression} (hn : p.left ≤ n + 1)
    (h : Takes eof p q (Phrase.assign x e).tokens (Phrase.assign x e).events) :
    assignment n p = .ok () q := by
  simp only [Phrase.tokens, Phrase.events, List.cons_append] at h
  obtain ⟨p₁, h₁, h⟩ := takes_cons.mp h
  obtain ⟨p₂, h₂, h⟩ := takes_event.mp h
  obtain ⟨p₃, h₃, h⟩ := takes_cons.mp h
  obtain ⟨p₄, h₄, h⟩ := takes_event.mp h
  obtain ⟨p₅, h₅, h⟩ := takes_append.mp h
  obtain ⟨p₆, h₆, h₇⟩ := takes_event.mp h
  have left₁ := h₁.left_token
  have left₂ := h₂.left_eq
  have left₃ := h₃.left_eq
  have left₄ := h₄.left_eq
  have hend : EndsExpression p₅.next := by
    rw [h₆.next_of_nil, h₇.next_eq]
    exact ⟨rfl, rfl, rfl⟩
  rw [assignment, name_bind h₁, fire_bind h₂, expect_bind (by simp) h₃, fire_bind h₄,
    EStateM.bind_of_ok (expression_complete n e p₄ p₅ (by omega) h₅ hend), fire_bind h₆]
  exact (expect_iff h₇.left_standing (by simp)).mpr h₇

/-- A condition with one branch is read. -/
theorem branch_of_takes {g : Expression} {b : Block} (hb : ReadsPhrase σ eof b)
    (hn : p.left ≤ n + 1)
    (h : Takes eof p q (Phrase.branch g b).tokens (Phrase.branch g b).events) :
    condition (block (statement n) n) n p = .ok () q := by
  simp only [Phrase.tokens, Phrase.events, List.cons_append, List.append_assoc] at h
  obtain ⟨p₁, h₁, h⟩ := takes_cons.mp h
  have left₁ := h₁.left_token
  obtain ⟨p₂, hg, h, left₂⟩ := guarded_bind (n := n) (by omega) h
  obtain ⟨p₃, h₃, h⟩ := takes_event.mp h
  have left₃ := h₃.left_eq
  obtain ⟨p₄, hbody, h, left₄⟩ := block_bind (n := n) hb (by omega) h
  obtain ⟨p₅, h₅, h₆⟩ := takes_event.mp h
  have hne : p₄.next ≠ .keyword .otherwise := by
    rw [h₅.next_of_nil, h₆.next_eq]
    simp
  rw [condition, expect_bind (by simp) h₁, EStateM.bind_of_ok hg, fire_bind h₃,
    EStateM.bind_of_ok hbody, EStateM.bind_of_ok (take?_of_ne hne)]
  change (do fire .ifEnd; expect (.sign .semicolon) : Parse σ Unit) p₄ = _
  rw [fire_bind h₅]
  exact (expect_iff h₆.left_standing (by simp)).mpr h₆

/-- A condition with two branches is read. -/
theorem choice_of_takes {g : Expression} {b c : Block} (hb : ReadsPhrase σ eof b)
    (hc : ReadsPhrase σ eof c) (hn : p.left ≤ n + 1)
    (h : Takes eof p q (Phrase.choice g b c).tokens (Phrase.choice g b c).events) :
    condition (block (statement n) n) n p = .ok () q := by
  simp only [Phrase.tokens, Phrase.events, List.cons_append, List.append_assoc] at h
  obtain ⟨p₁, h₁, h⟩ := takes_cons.mp h
  have left₁ := h₁.left_token
  obtain ⟨p₂, hg, h, left₂⟩ := guarded_bind (n := n) (by omega) h
  obtain ⟨p₃, h₃, h⟩ := takes_event.mp h
  have left₃ := h₃.left_eq
  obtain ⟨p₄, hbody, h, left₄⟩ := block_bind (n := n) hb (by omega) h
  obtain ⟨p₅, h₅, h⟩ := takes_cons.mp h
  obtain ⟨p₆, h₆, h⟩ := takes_event.mp h
  have left₅ := h₅.left_eq
  have left₆ := h₆.left_eq
  obtain ⟨p₇, hother, h, left₇⟩ := block_bind (n := n) hc (by omega) h
  obtain ⟨p₈, h₈, h₉⟩ := takes_event.mp h
  rw [condition, expect_bind (by simp) h₁, EStateM.bind_of_ok hg, fire_bind h₃,
    EStateM.bind_of_ok hbody, EStateM.bind_of_ok (take?_of_takes (by simp) h₅)]
  change (do fire .elseBranch; block (statement n) n; fire .ifEnd
             expect (.sign .semicolon) : Parse σ Unit) p₅ = _
  rw [fire_bind h₆, EStateM.bind_of_ok hother, fire_bind h₈]
  exact (expect_iff h₉.left_standing (by simp)).mpr h₉

/-- A loop is read. -/
theorem loop_of_takes {g : Expression} {b : Block} (hb : ReadsPhrase σ eof b) (hn : p.left ≤ n + 1)
    (h : Takes eof p q (Phrase.loop b g).tokens (Phrase.loop b g).events) :
    cycle (block (statement n) n) n p = .ok () q := by
  simp only [Phrase.tokens, Phrase.events, List.cons_append, List.append_assoc] at h
  obtain ⟨p₁, h₁, h⟩ := takes_cons.mp h
  obtain ⟨p₂, h₂, h⟩ := takes_event.mp h
  have left₁ := h₁.left_token
  have left₂ := h₂.left_eq
  obtain ⟨p₃, hbody, h, left₃⟩ := block_bind (n := n) hb (by omega) h
  obtain ⟨p₄, h₄, h⟩ := takes_cons.mp h
  have left₄ := h₄.left_eq
  obtain ⟨p₅, hg, h, left₅⟩ := guarded_bind (n := n) (by omega) h
  obtain ⟨p₆, h₆, h₇⟩ := takes_event.mp h
  rw [cycle, expect_bind (by simp) h₁, fire_bind h₂, EStateM.bind_of_ok hbody,
    expect_bind (by simp) h₄, EStateM.bind_of_ok hg, fire_bind h₆]
  exact (expect_iff h₇.left_standing (by simp)).mpr h₇

/-- Items between parentheses are read, also where there are none. -/
theorem optionalItems_bind (hitem : Complete eof item n follow tokens events)
    (hcomma : follow (.sign .comma)) (hparen : follow (.sign .rightParen))
    (hfirst : ∀ b, ∃ k ks, tokens b = k :: ks ∧ k ≠ .sign .rightParen) (bs : List β)
    (hn : p.left ≤ n) {ks : List Token.Kind} {es : List Event}
    (h : Takes eof p r (listed tokens bs ++ .sign .rightParen :: ks) (bs.flatMap events ++ es)) :
    ∃ q, Takes eof q r ks es ∧ q.left ≤ p.left ∧ ∀ x : Parse σ Unit,
      (do if !(← sees (.sign .rightParen)) then items item n
          expect (.sign .rightParen); x : Parse σ Unit) p = x q := by
  obtain ⟨p₁, h₁, h⟩ := takes_append.mp h
  obtain ⟨p₂, h₂, h⟩ := takes_cons.mp h
  have left₁ := h₁.left_eq
  have left₂ := h₂.left_eq
  refine ⟨p₂, h, by omega, fun x => ?_⟩
  rw [EStateM.bind_of_ok (sees_eq _ p)]
  cases bs with
  | nil =>
    obtain ⟨-, rfl⟩ := takes_nil.mp h₁
    rw [h₂.next_eq]
    exact expect_bind (by simp) h₂ x
  | cons b bs =>
    obtain ⟨k, ks', hk, hne⟩ := hfirst b
    have hnext : p.next = k := by
      rw [listed, hk, List.cons_append] at h₁
      exact h₁.next_eq
    have hitems :=
      items_complete hitem hcomma (b, bs) p p₁ hn h₁ (by rw [h₂.next_eq]; exact ⟨by simp, hparen⟩)
    rw [hnext, beq_eq_false_iff_ne.mpr hne]
    change (do items item n; expect (.sign .rightParen); x : Parse σ Unit) p = _
    rw [EStateM.bind_of_ok hitems, expect_bind (by simp) h₂]

/-- An operand is read with the end of its level. -/
theorem closed_complete {P : Parse σ Unit} (hP : Complete eof P n follow tokens events)
    (e : Event) : Complete eof (closed P e) n follow tokens fun b => events b ++ [e] := by
  intro b p q hn h hfollow
  obtain ⟨m, hm, hq⟩ := takes_close.mp h
  exact closed_of_ok (hP b p m hn hm (hq.next_of_nil ▸ hfollow)) hq

/-- A call is read. -/
theorem call_of_takes {f : String} {es : List Expression} (hn : p.left ≤ n + 1)
    (h : Takes eof p q (Phrase.call f es).tokens (Phrase.call f es).events) :
    call n p = .ok () q := by
  simp only [Phrase.tokens, Phrase.events, List.cons_append] at h
  obtain ⟨p₁, h₁, h⟩ := takes_cons.mp h
  obtain ⟨p₂, h₂, h⟩ := takes_event.mp h
  obtain ⟨p₃, h₃, h⟩ := takes_cons.mp h
  obtain ⟨p₄, h₄, h⟩ := takes_event.mp h
  have left₁ := h₁.left_token
  have left₂ := h₂.left_eq
  have left₃ := h₃.left_eq
  have left₄ := h₄.left_eq
  have hfirst (e : Expression) : ∃ k ks, e.tokens = k :: ks ∧ k ≠ .sign .rightParen := by
    obtain ⟨k, ks, hk, hs⟩ := first_of_tree e
    exact ⟨k, ks, hk, by rintro rfl; exact hs⟩
  obtain ⟨p₅, h₅, left₅, hitems⟩ := optionalItems_bind (n := n)
    (closed_complete (expression_complete n) .argument) ⟨rfl, rfl, rfl⟩ ⟨rfl, rfl, rfl⟩ hfirst es
    (by omega) h
  obtain ⟨p₆, h₆, h₇⟩ := takes_event.mp h₅
  rw [call, name_bind h₁, fire_bind h₂, expect_bind (by simp) h₃, fire_bind h₄]
  refine (hitems _).trans ?_
  rw [fire_bind h₆]
  exact (expect_iff h₇.left_standing (by simp)).mpr h₇

/-- A printed item is read. -/
theorem printItem_complete (n : Nat) :
    Complete eof (printItem n : Parse σ Unit) n EndsExpression Item.tokens Item.events := by
  intro i p q hn h hend
  refine (EStateM.bind_of_ok (peek_eq p)).trans ?_
  cases i with
  | text s =>
    obtain ⟨p₁, h₁, h₂⟩ := takes_cons_event.mp h
    have hk : p.cursor.peek.kind = .string s := h₁.next_eq
    rw [hk]
    change (do advance; fire (.stringLiteral s); fire .printItem : Parse σ Unit) p = _
    rw [advance_fire_bind (by simp) h₁]
    exact (fire_iff h₂.left_standing).mpr h₂
  | value e =>
    obtain ⟨k, ks, hk, hs⟩ := first_of_tree e
    have hnext : p.cursor.peek.kind = k := by
      have h' := h
      rw [Item.tokens, hk] at h'
      exact h'.next_eq
    have hread := closed_complete (expression_complete n) .printItem e p q hn h hend
    rw [hnext]
    cases k with
    | string s => exact hs.elim
    | _ => exact hread

/-- A print statement is read. -/
theorem print_of_takes {i : Item} {is : List Item} (hn : p.left ≤ n + 1)
    (h : Takes eof p q (Phrase.print i is).tokens (Phrase.print i is).events) :
    print n p = .ok () q := by
  simp only [Phrase.tokens, Phrase.events, List.cons_append] at h
  obtain ⟨p₁, h₁, h⟩ := takes_cons.mp h
  obtain ⟨p₂, h₂, h⟩ := takes_cons.mp h
  rw [← List.append_nil (List.flatMap _ _)] at h
  obtain ⟨p₃, h₃, h⟩ := takes_append.mp h
  obtain ⟨p₄, h₄, h₅⟩ := takes_cons.mp h
  have left₁ := h₁.left_token
  have left₂ := h₂.left_eq
  have hitems := items_complete (printItem_complete n) ⟨rfl, rfl, rfl⟩ (i, is) p₂ p₃ (by omega) h₃
    (by rw [h₄.next_eq]; exact ⟨by simp, rfl, rfl, rfl⟩)
  rw [print, expect_bind (by simp) h₁, expect_bind (by simp) h₂, EStateM.bind_of_ok hitems,
    expect_bind (by simp) h₄]
  exact (expect_iff h₅.left_standing (by simp)).mpr h₅

/-- A statement starts with a token that neither closes a block nor ends the tokens. -/
theorem first_of_statement (s : Statement) {ks : List Token.Kind} {es : List Event}
    (h : Takes eof p q (s.tokens ++ ks) es) :
    p.next ≠ .sign .rightBrace ∧ p.next ≠ .endOfFile := by
  cases s <;>
    (simp only [Phrase.tokens, List.cons_append] at h
     rw [h.next_eq]
     simp)

omit [EventSink σ] in
/-- No bound that covers the tokens left is zero. -/
theorem bound_pos (hn : p.left ≤ n) (h : Standing eof p) : ∃ m, n = m + 1 := by
  obtain ⟨ts, s, rfl⟩ := h
  rw [left_before] at hn
  exact ⟨n - 1, by omega⟩

/-- Behind a name the second token tells an assignment from a call. -/
theorem statement_of_name {x : String} (hk : p.next = .identifier x) (m : Nat) :
    statement (m + 1) p = (match p.cursor.second?.map Token.kind with
      | some (.sign .assign) => assignment m
      | some (.sign .leftParen) => call m
      | _ => do
        advance
        wanted "`=` or `(`" : Parse σ Unit) p := by
  change p.cursor.peek.kind = .identifier x at hk
  rw [statement, EStateM.bind_of_ok (peek_eq p), hk]
  rfl

/-- Every statement and every block is read. -/
theorem readsPhrase {r : Role} (a : Phrase r) : ReadsPhrase σ eof a := by
  induction a with
  | assign x e =>
    intro n p q hn h
    obtain ⟨m, rfl⟩ := bound_pos hn h.left_standing
    rw [statement_of_name h.next_eq m, second_of_takes h]
    exact assignment_of_takes hn h
  | call f es =>
    intro n p q hn h
    obtain ⟨m, rfl⟩ := bound_pos hn h.left_standing
    rw [statement_of_name h.next_eq m, second_of_takes h]
    exact call_of_takes hn h
  | branch g b hb =>
    intro n p q hn h
    obtain ⟨m, rfl⟩ := bound_pos hn h.left_standing
    have hk : p.cursor.peek.kind = .keyword .cond := h.next_eq
    rw [statement, EStateM.bind_of_ok (peek_eq p), hk]
    exact branch_of_takes hb hn h
  | choice g b c hb hc =>
    intro n p q hn h
    obtain ⟨m, rfl⟩ := bound_pos hn h.left_standing
    have hk : p.cursor.peek.kind = .keyword .cond := h.next_eq
    rw [statement, EStateM.bind_of_ok (peek_eq p), hk]
    exact choice_of_takes hb hc hn h
  | loop b g hb =>
    intro n p q hn h
    obtain ⟨m, rfl⟩ := bound_pos hn h.left_standing
    have hk : p.cursor.peek.kind = .keyword .loop := h.next_eq
    rw [statement, EStateM.bind_of_ok (peek_eq p), hk]
    exact loop_of_takes hb hn h
  | print i is =>
    intro n p q hn h
    obtain ⟨m, rfl⟩ := bound_pos hn h.left_standing
    have hk : p.cursor.peek.kind = .keyword .print := h.next_eq
    rw [statement, EStateM.bind_of_ok (peek_eq p), hk]
    exact print_of_takes hn h
  | nil =>
    intro n m p q _ _ h hbrace
    obtain ⟨-, rfl⟩ := takes_nil.mp h
    rw [statements.eq_def, EStateM.bind_of_ok (sees_eq _ q), hbrace]
    rfl
  | cons s rest hs hrest =>
    intro n m p q hn hm h hbrace
    obtain ⟨m, rfl⟩ := bound_pos hm h.left_standing
    obtain ⟨hclose, hend⟩ := first_of_statement s h
    obtain ⟨p₁, h₁, h₂⟩ := takes_append.mp h
    have left₁ := h₁.left_eq
    have hpos : 0 < s.tokens.length := by
      cases s <;> simp [Phrase.tokens]
    have hmore : p.cursor.atEnd = false := beq_eq_false_iff_ne.mpr hend
    rw [statements, EStateM.bind_of_ok (sees_eq _ p), beq_eq_false_iff_ne.mpr hclose]
    change (if p.cursor.atEnd then throw .truncated else do
      statement n
      statements (statement n) m : Parse σ Unit) p = _
    rw [hmore]
    change (do statement n; statements (statement n) m : Parse σ Unit) p = _
    rw [EStateM.bind_of_ok (hs n p p₁ hn h₁)]
    exact hrest n m p₁ q (by omega) (by omega) h₂ hbrace

/-! ## Functions and programs -/

/-- A parameter is read. -/
theorem parameter_complete (n : Nat) :
    Complete eof (parameter : Parse σ Unit) n (fun _ => True) Parameter.tokens
      fun a => [a.event] := by
  intro a p q _ h _
  simp only [Parameter.tokens] at h
  obtain ⟨p₁, h₁, h⟩ := takes_cons.mp h
  obtain ⟨p₂, h₂, h⟩ := takes_cons.mp h
  obtain ⟨p₃, h₃, h₄⟩ := takes_cons.mp h
  rw [parameter, name_bind h₁, expect_bind (by simp) h₂, EStateM.bind_of_ok (typeName_of_takes h₃)]
  exact (fire_iff h₄.left_standing).mpr h₄

/-- The word before a function is read where it stands. -/
theorem marker_of_takes {marked : Bool} {ks : List Token.Kind} {es : List Event}
    (h : Takes eof p q ((if marked then [.keyword .func] else []) ++ .keyword .void :: ks) es) :
    ∃ p₀, take? (.keyword .func) p = .ok marked p₀ ∧ Takes eof p₀ q (.keyword .void :: ks) es ∧
      p₀.left ≤ p.left := by
  cases marked with
  | true =>
    obtain ⟨p₀, h₀, h₁⟩ := takes_cons.mp h
    have left₀ := h₀.left_token
    exact ⟨p₀, take?_of_takes (by simp) h₀, h₁, by omega⟩
  | false =>
    have hne : p.next ≠ .keyword .func := by
      rw [Takes.next_eq h]
      simp
    exact ⟨p, take?_of_ne hne, h, Nat.le_refl _⟩

/-- A function is read. -/
theorem function_of_takes (f : Function) (hn : p.left ≤ n) (h : Takes eof p q f.tokens f.events) :
    function n p = .ok () q := by
  simp only [Function.tokens, Function.events, List.append_assoc, List.cons_append,
    List.map_eq_flatMap] at h
  obtain ⟨p₀, h₀, h, left₀⟩ := marker_of_takes h
  obtain ⟨p₁, h₁, h⟩ := takes_cons.mp h
  obtain ⟨p₂, h₂, h⟩ := takes_cons.mp h
  obtain ⟨p₃, h₃, h⟩ := takes_event.mp h
  obtain ⟨p₄, h₄, h⟩ := takes_cons.mp h
  have left₁ := h₁.left_eq
  have left₂ := h₂.left_eq
  have left₃ := h₃.left_eq
  have left₄ := h₄.left_eq
  have hfirst (a : Parameter) : ∃ k ks, a.tokens = k :: ks ∧ k ≠ .sign .rightParen :=
    ⟨_, _, rfl, by simp⟩
  obtain ⟨p₅, h, left₅, hparameters⟩ := optionalItems_bind (n := n) (parameter_complete n) trivial
    trivial hfirst f.parameters (by omega) h
  obtain ⟨p₆, h₆, h⟩ := takes_cons.mp h
  obtain ⟨p₇, h₇, h⟩ := takes_append.mp h
  obtain ⟨p₈, h₈, h⟩ := takes_event.mp h
  have left₆ := h₆.left_eq
  have left₇ := h₇.left_eq
  have left₈ := h₈.left_eq
  have hbrace : p₇.next = .sign .leftBrace := by rw [h₈.next_of_nil, h.next_eq]
  have hdeclarations := declarations_complete n f.declarations p₆ p₇ (by omega) h₇
    (by rw [hbrace]; exact ⟨by simp, by simp [EndsVariables]⟩)
  obtain ⟨p₉, hbody, h, left₉⟩ := block_bind (n := n) (readsPhrase f.body) (by omega) h
  obtain ⟨p₁₀, h₁₀, h⟩ := takes_cons.mp h
  obtain ⟨p₁₁, h₁₁, h₁₂⟩ := takes_cons.mp h
  rw [function, EStateM.bind_of_ok h₀, expect_bind (by simp) h₁, name_bind h₂, fire_bind h₃,
    expect_bind (by simp) h₄]
  refine (hparameters _).trans ?_
  rw [expect_bind (by simp) h₆, EStateM.bind_of_ok hdeclarations, fire_bind h₈,
    EStateM.bind_of_ok hbody, expect_bind (by simp) h₁₀, expect_bind (by simp) h₁₁]
  exact (fire_iff h₁₂.left_standing).mpr h₁₂

/-- A function starts with one of two words. -/
theorem next_of_function (f : Function) {ks : List Token.Kind} {es : List Event}
    (h : Takes eof p q (f.tokens ++ ks) es) :
    p.next = .keyword .func ∨ p.next = .keyword .void := by
  cases hm : f.marked with
  | true =>
    rw [Function.tokens, hm] at h
    exact .inl (Takes.next_eq h)
  | false =>
    rw [Function.tokens, hm] at h
    exact .inr (Takes.next_eq h)

/-- The functions of a program are read up to a token that starts none. -/
theorem functions_complete (fs : List Function) (n : Nat) (hn : p.left ≤ n)
    (h : Takes eof p q (fs.flatMap Function.tokens) (fs.flatMap Function.events))
    (hmain : q.next = .keyword .main) : functions n p = .ok () q := by
  induction fs generalizing p n with
  | nil =>
    obtain ⟨-, rfl⟩ := takes_nil.mp h
    rw [functions.eq_def, EStateM.bind_of_ok (sees_eq _ q), EStateM.bind_of_ok (sees_eq _ q), hmain]
    rfl
  | cons f fs ih =>
    have hstart : (p.next == .keyword .func || p.next == .keyword .void) = true := by
      rw [List.flatMap_cons] at h
      obtain hfirst | hfirst := next_of_function f h <;> rw [hfirst] <;> rfl
    obtain ⟨p₁, h₁, h₂⟩ := takes_append.mp h
    have left₁ := h₁.left_eq
    have hpos : 0 < f.tokens.length := by
      simp only [Function.tokens, List.length_append, List.length_cons]
      omega
    obtain ⟨n, rfl⟩ := bound_pos hn h.left_standing
    rw [functions, EStateM.bind_of_ok (sees_eq _ p), EStateM.bind_of_ok (sees_eq _ p), hstart]
    change (do function (n + 1); functions n : Parse σ Unit) p = _
    rw [EStateM.bind_of_ok (function_of_takes f hn h₁)]
    exact ih n (by omega) h₂

/-- A program is read where nothing but the end marker follows it. -/
theorem programWithin_complete (a : Program) (hn : p.left ≤ n) (h : Takes eof p q a.tokens a.events)
    (hend : q.next = .endOfFile) : programWithin n p = .ok () q := by
  simp only [Program.tokens, Program.events, List.append_assoc, List.cons_append] at h
  obtain ⟨p₁, h₁, h⟩ := takes_cons.mp h
  obtain ⟨p₂, h₂, h⟩ := takes_cons.mp h
  obtain ⟨p₃, h₃, h⟩ := takes_event.mp h
  obtain ⟨p₄, h₄, h⟩ := takes_cons.mp h
  obtain ⟨p₅, h₅, h⟩ := takes_append.mp h
  have left₁ := h₁.left_eq
  have left₂ := h₂.left_eq
  have left₃ := h₃.left_eq
  have left₄ := h₄.left_eq
  have left₅ := h₅.left_eq
  have hfollow : p₅.next ≠ .keyword .var ∧ EndsVariables p₅.next := by
    cases hf : a.functions with
    | nil =>
      rw [hf] at h
      rw [Takes.next_eq h]
      exact ⟨by simp, by simp [EndsVariables]⟩
    | cons f fs =>
      rw [hf, List.flatMap_cons, List.append_assoc] at h
      obtain hfirst | hfirst := next_of_function f h <;>
        (rw [hfirst]; exact ⟨by simp, by simp [EndsVariables]⟩)
  obtain ⟨p₆, h₆, h⟩ := takes_append.mp h
  obtain ⟨p₇, h₇, h⟩ := takes_cons.mp h
  obtain ⟨p₈, h₈, h⟩ := takes_event.mp h
  have left₆ := h₆.left_eq
  have left₇ := h₇.left_eq
  have left₈ := h₈.left_eq
  obtain ⟨p₉, hmain, h, left₉⟩ := block_bind (n := n) (readsPhrase a.main) (by omega) h
  obtain ⟨p₁₀, h₁₀, h₁₁⟩ := takes_cons.mp h
  have hatEnd : q.cursor.atEnd = true := beq_iff_eq.mpr hend
  rw [programWithin, expect_bind (by simp) h₁, name_bind h₂, fire_bind h₃, expect_bind (by simp) h₄,
    EStateM.bind_of_ok (declarations_complete n a.declarations p₄ p₅ (by omega) h₅ hfollow),
    EStateM.bind_of_ok (functions_complete a.functions n (by omega) h₆ h₇.next_eq),
    expect_bind (by simp) h₇, fire_bind h₈, EStateM.bind_of_ok hmain, expect_bind (by simp) h₁₀,
    fire_bind h₁₁]
  change (if !q.cursor.atEnd then wanted "end of file" else pure () : Parse σ Unit) q = _
  rw [hatEnd]
  rfl

end Quadlet.Parse
