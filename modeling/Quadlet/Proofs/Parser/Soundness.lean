import Quadlet.Proofs.Parser.Actions
import Quadlet.Proofs.Syntax.Basic

/-!
# The parser takes nothing but programs

Every part of the parser that succeeds has taken the tokens of a tree and has told
the tree's events, whatever sink it tells them to. Loops keep the tree that they have
read so far and lengthen it.
-/

namespace Quadlet.Parse

open EventSink Parser Syntax

variable {σ : Type} [EventSink σ] {eof : EndMarker} {p q r : Parser σ}

/-- What a part of the parser takes and tells when it succeeds is that of some tree. -/
def Sound {α : Type} (eof : EndMarker) (P : Parse σ Unit) (tokens : α → List Token.Kind)
    (events : α → List Event) : Prop :=
  ∀ p q : Parser σ, Standing eof p → P p = .ok () q → ∃ a, Takes eof p q (tokens a) (events a)

/-! ## Expressions -/

/-- A sign between factors is that of a multiplicative operator. -/
theorem multiplicative?_eq_some {k : Token.Kind} {op : Operator} (h : multiplicative? k = some op) :
    k = .sign op.sign ∧ op.isMultiplicative = true := by
  unfold multiplicative? at h
  split at h <;> cases h <;> exact ⟨rfl, rfl⟩

/-- A sign between terms is that of an additive operator. -/
theorem additive?_eq_some {k : Token.Kind} {op : Operator} (h : additive? k = some op) :
    k = .sign op.sign ∧ op.isAdditive = true := by
  unfold additive? at h
  split at h <;> cases h <;> exact ⟨rfl, rfl⟩

/-- A sign between sums is that of a comparison. -/
theorem relational?_eq_some {k : Token.Kind} {op : Operator} (h : relational? k = some op) :
    k = .sign op.sign ∧ op.isRelational = true := by
  unfold relational? at h
  split at h <;> cases h <;> exact ⟨rfl, rfl⟩

/-- An operator sign that was seen is taken and its operator told. -/
theorem takes_operator (hp : Standing eof p) {op : Operator} (hk : p.next = .sign op.sign)
    {x : Parse σ Unit} (h : (do advance; fire (.operator op); x : Parse σ Unit) p = .ok () r) :
    ∃ q, Takes eof p q [.sign op.sign] [.operator op] ∧ x q = .ok () r := by
  obtain ⟨_, q₁, h₁, h⟩ := EStateM.bind_eq_ok.mp h
  obtain ⟨_, q₂, h₂, h⟩ := EStateM.bind_eq_ok.mp h
  have t₁ := takes_of_advance hp (by simp) hk h₁
  have t₂ := (fire_iff t₁.right_standing).mp h₂
  exact ⟨q₂, t₁.trans t₂, h⟩

/-- Further operands lengthen a tree on its right, one operator and one operand at a time. -/
theorem moreOperands_sound {a b : Rank} {level : Token.Kind → Option Operator}
    {operand : Parse σ Unit} {legal : Operator → Bool} {close : Event}
    (hlevel : ∀ k op, level k = some op → k = .sign op.sign ∧ legal op = true)
    (hoperand : Sound eof operand (Tree.tokens (r := b)) fun e => e.events ++ [close])
    (join : Tree a → (op : Operator) → legal op = true → Tree b → Tree a)
    (htokens : ∀ l op h e, (join l op h e).tokens = l.tokens ++ .sign op.sign :: e.tokens)
    (hevents : ∀ l op h e, (join l op h e).events = l.events ++ .operator op :: e.events ++ [close])
    (n : Nat) {o : Parser σ} (l : Tree a) (ho : Takes eof o p l.tokens l.events)
    (h : moreOperands level operand n p = .ok () q) :
    ∃ e : Tree a, Takes eof o q e.tokens e.events := by
  -- The tree read so far grows with the fuel that is used up.
  induction n generalizing p l with
  | zero =>
    rw [moreOperands, EStateM.bind_of_ok (peek_eq p)] at h
    cases hk : level p.cursor.peek.kind with
    | none =>
      rw [hk] at h
      cases h
      exact ⟨l, ho⟩
    | some op =>
      rw [hk] at h
      exact (endless_ne_ok _ _ _ h).elim
  | succ n ih =>
    rw [moreOperands, EStateM.bind_of_ok (peek_eq p)] at h
    cases hk : level p.cursor.peek.kind with
    | none =>
      rw [hk] at h
      cases h
      exact ⟨l, ho⟩
    | some op =>
      rw [hk] at h
      obtain ⟨hsign, hlegal⟩ := hlevel _ _ hk
      obtain ⟨p₁, t₁, h⟩ := takes_operator ho.right_standing hsign h
      obtain ⟨_, p₂, h₂, h⟩ := EStateM.bind_eq_ok.mp h
      obtain ⟨e, t₂⟩ := hoperand _ _ t₁.right_standing h₂
      refine ih (join l op hlegal e) ?_ h
      have t := (ho.trans t₁).trans t₂
      rw [htokens, hevents]
      simpa using t

variable {operand : Parse σ Unit} {n : Nat}

/-- A level behind which an event is told. -/
theorem closed_sound {α : Type} {P : Parse σ Unit} {tokens : α → List Token.Kind}
    {events : α → List Event} (hP : Sound eof P tokens events) (close : Event) :
    Sound eof (do P; fire close) tokens fun a => events a ++ [close] := by
  intro p q hp h
  obtain ⟨_, p₁, h₁, h⟩ := EStateM.bind_eq_ok.mp h
  obtain ⟨a, t₁⟩ := hP _ _ hp h₁
  have t := t₁.trans ((fire_iff t₁.right_standing).mp h)
  rw [List.append_nil] at t
  exact ⟨a, t⟩

/-- A term is read from factors. -/
theorem term_sound (hf : Sound eof operand (Tree.tokens (r := .factor)) Tree.events) :
    Sound eof (term operand n) (Tree.tokens (r := .term)) Tree.events := by
  intro p q hp h
  have hw := closed_sound hf .factorEnd
  obtain ⟨_, p₁, h₁, h⟩ := EStateM.bind_eq_ok.mp h
  obtain ⟨e, t⟩ := hw _ _ hp h₁
  exact moreOperands_sound (fun _ _ => multiplicative?_eq_some) hw .product
    (fun _ _ _ _ => rfl) (fun _ _ _ _ => rfl) n (.ofFactor e) t h

/-- A sum is read from factors. -/
theorem sum_sound (hf : Sound eof operand (Tree.tokens (r := .factor)) Tree.events) :
    Sound eof (sum operand n) (Tree.tokens (r := .sum)) Tree.events := by
  intro p q hp h
  have hw := closed_sound (term_sound (n := n) hf) .termEnd
  obtain ⟨_, p₁, h₁, h⟩ := EStateM.bind_eq_ok.mp h
  obtain ⟨e, t⟩ := hw _ _ hp h₁
  exact moreOperands_sound (fun _ _ => additive?_eq_some) hw .addition
    (fun _ _ _ _ => rfl) (fun _ _ _ _ => rfl) n (.ofTerm e) t h

/-- An expression is read from factors. -/
theorem expressionOf_sound (hf : Sound eof operand (Tree.tokens (r := .factor)) Tree.events) :
    Sound eof (expressionOf operand n) (Tree.tokens (r := .whole)) Tree.events := by
  intro p q hp h
  obtain ⟨_, p₁, h₁, h⟩ := EStateM.bind_eq_ok.mp h
  obtain ⟨l, t₁⟩ := sum_sound hf _ _ hp h₁
  rw [EStateM.bind_of_ok (peek_eq p₁)] at h
  cases hk : relational? p₁.cursor.peek.kind with
  | none =>
    rw [hk] at h
    have t₂ := (fire_iff t₁.right_standing).mp h
    exact ⟨.ofSum l, by simpa [Tree.tokens, Tree.events] using t₁.trans t₂⟩
  | some op =>
    rw [hk] at h
    obtain ⟨hsign, hop⟩ := relational?_eq_some hk
    obtain ⟨p₂, t₂, h⟩ := takes_operator t₁.right_standing hsign h
    obtain ⟨_, p₃, h₃, h⟩ := EStateM.bind_eq_ok.mp h
    obtain ⟨r, t₃⟩ := sum_sound hf _ _ t₂.right_standing h₃
    have t₄ := (fire_iff t₃.right_standing).mp h
    refine ⟨.comparison l op hop r, ?_⟩
    simpa [Tree.tokens, Tree.events] using ((t₁.trans t₂).trans t₃).trans t₄

/-- A token that is taken and an event that is told for it. -/
theorem takes_of_advance_fire {k : Token.Kind} {e : Event} (hp : Standing eof p)
    (hk : k ≠ .endOfFile) (hn : p.next = k) {x : Parse σ Unit}
    (h : (do advance; fire e; x : Parse σ Unit) p = .ok () r) :
    ∃ q, Takes eof p q [k] [e] ∧ x q = .ok () r := by
  obtain ⟨_, q₁, h₁, h⟩ := EStateM.bind_eq_ok.mp h
  obtain ⟨_, q₂, h₂, h⟩ := EStateM.bind_eq_ok.mp h
  have t₁ := takes_of_advance hp hk hn h₁
  exact ⟨q₂, t₁.trans ((fire_iff t₁.right_standing).mp h₂), h⟩

/-- A factor that is one token. -/
theorem leaf_sound {k : Token.Kind} {e : Event} (f : Tree .factor) (hf : f.tokens = [k])
    (he : f.events = [e]) (hp : Standing eof p) (hk : k ≠ .endOfFile) (hn : p.next = k)
    (h : (do advance; fire e : Parse σ Unit) p = .ok () q) :
    ∃ f : Tree .factor, Takes eof p q f.tokens f.events := by
  obtain ⟨_, p₁, h₁, h⟩ := EStateM.bind_eq_ok.mp h
  have t := takes_of_advance hp hk hn h₁
  refine ⟨f, ?_⟩
  rw [hf, he]
  exact t.trans ((fire_iff t.right_standing).mp h)

/-- A signed factor is read like the factor behind its sign. -/
theorem signed_sound (hf : Sound eof operand (Tree.tokens (r := .factor)) Tree.events)
    (negative : Bool) (hp : Standing eof p)
    (hn : p.next = .sign (if negative then .minus else .plus))
    (h : (do advance; fire (.unarySign negative); operand; fire .unaryEnd : Parse σ Unit)
      p = .ok () q) : ∃ f : Tree .factor, Takes eof p q f.tokens f.events := by
  obtain ⟨p₁, t₁, h⟩ := takes_of_advance_fire hp (by simp) hn h
  obtain ⟨_, p₂, h₂, h⟩ := EStateM.bind_eq_ok.mp h
  obtain ⟨f, t₂⟩ := hf _ _ t₁.right_standing h₂
  have t₃ := (fire_iff t₂.right_standing).mp h
  refine ⟨.signed negative f, ?_⟩
  simpa [Tree.tokens, Tree.events] using (t₁.trans t₂).trans t₃

/-- A factor between parentheses is read like the expression in them. -/
theorem group_sound (hf : Sound eof operand (Tree.tokens (r := .whole)) Tree.events)
    (hp : Standing eof p) (hn : p.next = .sign .leftParen)
    (h : (do advance; fire .openParen; operand; expect (.sign .rightParen); fire .closeParen :
      Parse σ Unit) p = .ok () q) :
    ∃ f : Tree .factor, Takes eof p q f.tokens f.events := by
  obtain ⟨p₁, t₁, h⟩ := takes_of_advance_fire hp (by simp) hn h
  obtain ⟨_, p₂, h₂, h⟩ := EStateM.bind_eq_ok.mp h
  obtain ⟨e, t₂⟩ := hf _ _ t₁.right_standing h₂
  obtain ⟨_, p₃, h₃, h⟩ := EStateM.bind_eq_ok.mp h
  have t₃ := (expect_iff t₂.right_standing (by simp)).mp h₃
  have t₄ := (fire_iff t₃.right_standing).mp h
  refine ⟨.group e, ?_⟩
  simpa [Tree.tokens, Tree.events] using ((t₁.trans t₂).trans t₃).trans t₄

/-- A factor is read within any bound. -/
theorem factor_sound (n : Nat) :
    Sound eof (factor n : Parse σ Unit) (Tree.tokens (r := .factor)) Tree.events := by
  induction n with
  | zero =>
    intro p q hp h
    rw [factor, EStateM.bind_of_ok (peek_eq p)] at h
    cases hk : p.cursor.peek.kind with
    | integer n => rw [hk] at h; exact leaf_sound (.int n) rfl rfl hp (by simp) hk h
    | float x => rw [hk] at h; exact leaf_sound (.float x) rfl rfl hp (by simp) hk h
    | identifier x => rw [hk] at h; exact leaf_sound (.name x) rfl rfl hp (by simp) hk h
    | sign s => rw [hk] at h; cases s <;> cases h
    | _ => rw [hk] at h; cases h
  | succ n ih =>
    intro p q hp h
    rw [factor, EStateM.bind_of_ok (peek_eq p)] at h
    cases hk : p.cursor.peek.kind with
    | integer n => rw [hk] at h; exact leaf_sound (.int n) rfl rfl hp (by simp) hk h
    | float x => rw [hk] at h; exact leaf_sound (.float x) rfl rfl hp (by simp) hk h
    | identifier x => rw [hk] at h; exact leaf_sound (.name x) rfl rfl hp (by simp) hk h
    | sign s =>
      rw [hk] at h
      cases s with
      | plus => exact signed_sound ih false hp hk h
      | minus => exact signed_sound ih true hp hk h
      | leftParen => exact group_sound (expressionOf_sound ih) hp hk h
      | _ => cases h
    | _ => rw [hk] at h; cases h

/-- An expression is read within any bound. -/
theorem expression_sound (n : Nat) :
    Sound eof (expression n : Parse σ Unit) (Tree.tokens (r := .whole)) Tree.events :=
  expressionOf_sound (factor_sound n)

/-! ## Lists and declarations -/

/-- Further items are read one by one, each behind a comma. -/
theorem moreItems_sound {α : Type} {item : Parse σ Unit} {tokens : α → List Token.Kind}
    {events : α → List Event} (hitem : Sound eof item tokens events) (n : Nat) :
    Sound eof (moreItems item n) (fun as : List α => as.flatMap fun b => .sign .comma :: tokens b)
      fun as => as.flatMap events := by
  intro p q hp h
  induction n generalizing p with
  | zero =>
    obtain ⟨b, p₁, h₁, h'⟩ := EStateM.bind_eq_ok.mp h
    obtain ⟨rfl, -⟩ | ⟨rfl, -, rfl⟩ := take?_eq_ok hp (by simp) h₁
    · exact (endless_ne_ok _ _ _ h').elim
    · cases h'
      exact ⟨[], .refl hp⟩
  | succ n ih =>
    obtain ⟨b, p₁, h₁, h'⟩ := EStateM.bind_eq_ok.mp h
    obtain ⟨rfl, t₁⟩ | ⟨rfl, -, rfl⟩ := take?_eq_ok hp (by simp) h₁
    · obtain ⟨_, p₂, h₂, h'⟩ := EStateM.bind_eq_ok.mp h'
      obtain ⟨a, t₂⟩ := hitem _ _ t₁.right_standing h₂
      obtain ⟨as, t₃⟩ := ih _ t₂.right_standing h'
      exact ⟨a :: as, by simpa using (t₁.trans t₂).trans t₃⟩
    · cases h'
      exact ⟨[], .refl hp⟩

/-- Items with commas between them are read one by one. -/
theorem items_sound {α : Type} {item : Parse σ Unit} {tokens : α → List Token.Kind}
    {events : α → List Event} (hitem : Sound eof item tokens events) (n : Nat) :
    Sound eof (items item n) (fun as : α × List α => listed tokens (as.1 :: as.2))
      fun as => (as.1 :: as.2).flatMap events := by
  intro p q hp h
  obtain ⟨_, p₁, h₁, h⟩ := EStateM.bind_eq_ok.mp h
  obtain ⟨a, t₁⟩ := hitem _ _ hp h₁
  obtain ⟨as, t₂⟩ := moreItems_sound hitem n _ _ t₁.right_standing h
  exact ⟨(a, as), by simpa [listed] using t₁.trans t₂⟩

/-- A type that was read is one that can be declared. -/
theorem typeName_eq_ok (hp : Standing eof p) {t : ValueType} (h : typeName p = .ok t q) :
    ∃ τ : Numeric, t = τ.type ∧ Takes eof p q [.keyword τ.keyword] [] := by
  obtain ⟨b, p₁, h₁, h'⟩ := EStateM.bind_eq_ok.mp h
  obtain ⟨rfl, t₁⟩ | ⟨rfl, -, rfl⟩ := take?_eq_ok hp (by simp) h₁
  · cases h'
    exact ⟨.int, rfl, t₁⟩
  · obtain ⟨b, p₂, h₂, h''⟩ := EStateM.bind_eq_ok.mp h'
    obtain ⟨rfl, t₂⟩ | ⟨rfl, -, rfl⟩ := take?_eq_ok hp (by simp) h₂
    · cases h''
      exact ⟨.float, rfl, t₂⟩
    · exact (wanted_ne_ok _ _ _ _ h'').elim

/-- A name of a list of variables. -/
theorem variableName_sound :
    Sound eof (variableName : Parse σ Unit) (fun x : String => [.identifier x])
      fun x => [.varName x] := by
  intro p q hp h
  obtain ⟨x, p₁, h₁, h⟩ := EStateM.bind_eq_ok.mp h
  have t₁ := (name_iff hp).mp h₁
  exact ⟨x, t₁.trans ((fire_iff t₁.right_standing).mp h)⟩

/-- A list of variables up to its semicolon, before more lists are looked for. -/
theorem declaration_sound (hp : Standing eof p) {x : Parse σ Unit}
    (h : (do items variableName n; expect (.sign .colon); fire (.varType (← typeName))
             expect (.sign .semicolon); x : Parse σ Unit) p = .ok () r) :
    ∃ (d : Declaration) (q : Parser σ), Takes eof p q d.tokens d.events ∧ x q = .ok () r := by
  obtain ⟨_, p₁, h₁, h⟩ := EStateM.bind_eq_ok.mp h
  obtain ⟨⟨a, as⟩, t₁⟩ := items_sound variableName_sound n _ _ hp h₁
  obtain ⟨_, p₂, h₂, h⟩ := EStateM.bind_eq_ok.mp h
  have t₂ := (expect_iff t₁.right_standing (by simp)).mp h₂
  obtain ⟨_, p₃, h₃, h⟩ := EStateM.bind_eq_ok.mp h
  obtain ⟨τ, rfl, t₃⟩ := typeName_eq_ok t₂.right_standing h₃
  obtain ⟨_, p₄, h₄, h⟩ := EStateM.bind_eq_ok.mp h
  have t₄ := (fire_iff t₃.right_standing).mp h₄
  obtain ⟨_, p₅, h₅, h⟩ := EStateM.bind_eq_ok.mp h
  have t₅ := (expect_iff t₄.right_standing (by simp)).mp h₅
  refine ⟨⟨a, as, τ⟩, p₅, ?_, h⟩
  have t := (((t₁.trans t₂).trans t₃).trans t₄).trans t₅
  simpa [Declaration.tokens, Declaration.events, Declaration.names, List.map_eq_flatMap] using t

/-- Lists of variables go on as long as another name follows and the bound allows. -/
theorem variableLists_eq (n : Nat) :
    (variableLists n : Parse σ Unit) = (do
      items variableName n
      expect (.sign .colon)
      fire (.varType (← typeName))
      expect (.sign .semicolon)
      match (← peek).kind with
      | .identifier _ =>
        match n with
        | 0 => endless
        | m + 1 => variableLists m
      | _ => pure ()) := by
  cases n with
  | zero => delta variableLists; rfl
  | succ n => delta variableLists; rfl

/-- Lists of variables are read one by one. -/
theorem variableLists_sound (n : Nat) :
    Sound eof (variableLists n : Parse σ Unit)
      (fun ds : Declaration × List Declaration => (ds.1 :: ds.2).flatMap Declaration.tokens)
      fun ds => (ds.1 :: ds.2).flatMap Declaration.events := by
  intro p q hp h
  induction n generalizing p with
  | zero =>
    rw [variableLists_eq] at h
    obtain ⟨d, p₁, t₁, h⟩ := declaration_sound hp h
    rw [EStateM.bind_of_ok (peek_eq p₁)] at h
    cases hk : p₁.cursor.peek.kind with
    | identifier x => rw [hk] at h; exact (endless_ne_ok _ _ _ h).elim
    | _ => rw [hk] at h; cases h; exact ⟨(d, []), by simpa using t₁⟩
  | succ n ih =>
    rw [variableLists_eq] at h
    obtain ⟨d, p₁, t₁, h⟩ := declaration_sound hp h
    rw [EStateM.bind_of_ok (peek_eq p₁)] at h
    cases hk : p₁.cursor.peek.kind with
    | identifier x =>
      rw [hk] at h
      obtain ⟨⟨e, ds⟩, t₂⟩ := ih _ t₁.right_standing h
      exact ⟨(d, e :: ds), by simpa using t₁.trans t₂⟩
    | _ => rw [hk] at h; cases h; exact ⟨(d, []), by simpa using t₁⟩

/-- The variables of a program or a function. -/
theorem declarations_sound (n : Nat) :
    Sound eof (declarations n : Parse σ Unit) Declaration.sectionTokens
      fun ds => ds.flatMap Declaration.events := by
  intro p q hp h
  obtain ⟨b, p₁, h₁, h'⟩ := EStateM.bind_eq_ok.mp h
  obtain ⟨rfl, t₁⟩ | ⟨rfl, -, rfl⟩ := take?_eq_ok hp (by simp) h₁
  · obtain ⟨⟨d, ds⟩, t₂⟩ := variableLists_sound n _ _ t₁.right_standing h'
    exact ⟨d :: ds, t₁.trans t₂⟩
  · cases h'
    exact ⟨[], .refl hp⟩

/-! ## Statements -/

/-- The statements up to a closing brace. -/
theorem statements_sound {statement : Parse σ Unit}
    (hs : Sound eof statement (Phrase.tokens (r := .statement)) Phrase.events) (n : Nat) :
    Sound eof (statements statement n) (Phrase.tokens (r := .block)) Phrase.events := by
  intro p q hp h
  induction n generalizing p with
  | zero =>
    rw [statements, EStateM.bind_of_ok (sees_eq _ p)] at h
    split at h
    · cases h
      exact ⟨.nil, .refl hp⟩
    · obtain ⟨p₁, p₂, h₁, h⟩ := EStateM.bind_eq_ok.mp h
      split at h
      · cases h
      · exact (endless_ne_ok _ _ _ h).elim
  | succ n ih =>
    rw [statements, EStateM.bind_of_ok (sees_eq _ p)] at h
    split at h
    · cases h
      exact ⟨.nil, .refl hp⟩
    · obtain ⟨p₁, p₂, h₁, h⟩ := EStateM.bind_eq_ok.mp h
      cases h₁
      split at h
      · cases h
      · obtain ⟨_, p₃, h₃, h⟩ := EStateM.bind_eq_ok.mp h
        obtain ⟨s, t₃⟩ := hs _ _ hp h₃
        obtain ⟨b, t₄⟩ := ih _ t₃.right_standing h
        exact ⟨.cons s b, t₃.trans t₄⟩

/-- Statements between braces. -/
theorem block_sound {statement : Parse σ Unit}
    (hs : Sound eof statement (Phrase.tokens (r := .statement)) Phrase.events) (n : Nat) :
    Sound eof (block statement n)
      (fun b : Block => .sign .leftBrace :: b.tokens ++ [.sign .rightBrace]) Phrase.events := by
  intro p q hp h
  obtain ⟨_, p₁, h₁, h⟩ := EStateM.bind_eq_ok.mp h
  have t₁ := (expect_iff hp (by simp)).mp h₁
  obtain ⟨_, p₂, h₂, h⟩ := EStateM.bind_eq_ok.mp h
  obtain ⟨b, t₂⟩ := statements_sound hs n _ _ t₁.right_standing h₂
  have t₃ := (expect_iff t₂.right_standing (by simp)).mp h
  exact ⟨b, by simpa using (t₁.trans t₂).trans t₃⟩

/-- An expression between parentheses. -/
theorem guarded_sound (n : Nat) :
    Sound eof (guarded n : Parse σ Unit)
      (fun e : Expression => .sign .leftParen :: e.tokens ++ [.sign .rightParen]) Tree.events := by
  intro p q hp h
  obtain ⟨_, p₁, h₁, h⟩ := EStateM.bind_eq_ok.mp h
  have t₁ := (expect_iff hp (by simp)).mp h₁
  obtain ⟨_, p₂, h₂, h⟩ := EStateM.bind_eq_ok.mp h
  obtain ⟨e, t₂⟩ := expression_sound n _ _ t₁.right_standing h₂
  have t₃ := (expect_iff t₂.right_standing (by simp)).mp h
  exact ⟨e, by simpa using (t₁.trans t₂).trans t₃⟩

/-- An assignment. -/
theorem assignment_sound (hp : Standing eof p) (h : assignment n p = .ok () q) :
    ∃ s : Statement, Takes eof p q s.tokens s.events := by
  obtain ⟨x, p₁, h₁, h⟩ := EStateM.bind_eq_ok.mp h
  have t₁ := (name_iff hp).mp h₁
  obtain ⟨_, p₂, h₂, h⟩ := EStateM.bind_eq_ok.mp h
  have t₂ := (fire_iff t₁.right_standing).mp h₂
  obtain ⟨_, p₃, h₃, h⟩ := EStateM.bind_eq_ok.mp h
  have t₃ := (expect_iff t₂.right_standing (by simp)).mp h₃
  obtain ⟨_, p₄, h₄, h⟩ := EStateM.bind_eq_ok.mp h
  have t₄ := (fire_iff t₃.right_standing).mp h₄
  obtain ⟨_, p₅, h₅, h⟩ := EStateM.bind_eq_ok.mp h
  obtain ⟨e, t₅⟩ := expression_sound n _ _ t₄.right_standing h₅
  obtain ⟨_, p₆, h₆, h⟩ := EStateM.bind_eq_ok.mp h
  have t₆ := (fire_iff t₅.right_standing).mp h₆
  have t₇ := (expect_iff t₆.right_standing (by simp)).mp h
  refine ⟨.assign x e, ?_⟩
  have t := (((((t₁.trans t₂).trans t₃).trans t₄).trans t₅).trans t₆).trans t₇
  simpa [Phrase.tokens, Phrase.events] using t

/-- A condition, given its blocks. -/
theorem condition_sound {body : Parse σ Unit}
    (hb : Sound eof body (fun b : Block => .sign .leftBrace :: b.tokens ++ [.sign .rightBrace])
      Phrase.events)
    (hp : Standing eof p) (h : condition body n p = .ok () q) :
    ∃ s : Statement, Takes eof p q s.tokens s.events := by
  obtain ⟨_, p₁, h₁, h⟩ := EStateM.bind_eq_ok.mp h
  have t₁ := (expect_iff hp (by simp)).mp h₁
  obtain ⟨_, p₂, h₂, h⟩ := EStateM.bind_eq_ok.mp h
  obtain ⟨g, t₂⟩ := guarded_sound n _ _ t₁.right_standing h₂
  obtain ⟨_, p₃, h₃, h⟩ := EStateM.bind_eq_ok.mp h
  have t₃ := (fire_iff t₂.right_standing).mp h₃
  obtain ⟨_, p₄, h₄, h⟩ := EStateM.bind_eq_ok.mp h
  obtain ⟨b, t₄⟩ := hb _ _ t₃.right_standing h₄
  have t := ((t₁.trans t₂).trans t₃).trans t₄
  obtain ⟨found, p₅, h₅, h'⟩ := EStateM.bind_eq_ok.mp h
  obtain ⟨rfl, t₅⟩ | ⟨rfl, -, rfl⟩ := take?_eq_ok t₄.right_standing (by simp) h₅
  · obtain ⟨_, p₆, h₆, h'⟩ := EStateM.bind_eq_ok.mp h'
    have t₆ := (fire_iff t₅.right_standing).mp h₆
    obtain ⟨_, p₇, h₇, h'⟩ := EStateM.bind_eq_ok.mp h'
    obtain ⟨c, t₇⟩ := hb _ _ t₆.right_standing h₇
    obtain ⟨_, p₈, h₈, h'⟩ := EStateM.bind_eq_ok.mp h'
    have t₈ := (fire_iff t₇.right_standing).mp h₈
    have t₉ := (expect_iff t₈.right_standing (by simp)).mp h'
    refine ⟨.choice g b c, ?_⟩
    have t := ((((t.trans t₅).trans t₆).trans t₇).trans t₈).trans t₉
    simpa [Phrase.tokens, Phrase.events] using t
  · obtain ⟨_, p₆, h₆, h'⟩ := EStateM.bind_eq_ok.mp h'
    have t₆ := (fire_iff t.right_standing).mp h₆
    have t₇ := (expect_iff t₆.right_standing (by simp)).mp h'
    refine ⟨.branch g b, ?_⟩
    simpa [Phrase.tokens, Phrase.events] using (t.trans t₆).trans t₇

/-- A loop, given its block. -/
theorem cycle_sound {body : Parse σ Unit}
    (hb : Sound eof body (fun b : Block => .sign .leftBrace :: b.tokens ++ [.sign .rightBrace])
      Phrase.events)
    (hp : Standing eof p) (h : cycle body n p = .ok () q) :
    ∃ s : Statement, Takes eof p q s.tokens s.events := by
  obtain ⟨_, p₁, h₁, h⟩ := EStateM.bind_eq_ok.mp h
  have t₁ := (expect_iff hp (by simp)).mp h₁
  obtain ⟨_, p₂, h₂, h⟩ := EStateM.bind_eq_ok.mp h
  have t₂ := (fire_iff t₁.right_standing).mp h₂
  obtain ⟨_, p₃, h₃, h⟩ := EStateM.bind_eq_ok.mp h
  obtain ⟨b, t₃⟩ := hb _ _ t₂.right_standing h₃
  obtain ⟨_, p₄, h₄, h⟩ := EStateM.bind_eq_ok.mp h
  have t₄ := (expect_iff t₃.right_standing (by simp)).mp h₄
  obtain ⟨_, p₅, h₅, h⟩ := EStateM.bind_eq_ok.mp h
  obtain ⟨g, t₅⟩ := guarded_sound n _ _ t₄.right_standing h₅
  obtain ⟨_, p₆, h₆, h⟩ := EStateM.bind_eq_ok.mp h
  have t₆ := (fire_iff t₅.right_standing).mp h₆
  have t₇ := (expect_iff t₆.right_standing (by simp)).mp h
  refine ⟨.loop b g, ?_⟩
  have t := (((((t₁.trans t₂).trans t₃).trans t₄).trans t₅).trans t₆).trans t₇
  simpa [Phrase.tokens, Phrase.events] using t

/-- The items between two parentheses, where there may be none. -/
theorem optionalItems_sound {α : Type} {item x : Parse σ Unit} {tokens : α → List Token.Kind}
    {events : α → List Event} (hitem : Sound eof item tokens events) (hp : Standing eof p)
    (h : (do if !(← sees (.sign .rightParen)) then items item n
             expect (.sign .rightParen); x : Parse σ Unit) p = .ok () r) :
    ∃ (as : List α) (q : Parser σ), Takes eof p q (listed tokens as ++ [.sign .rightParen])
      (as.flatMap events) ∧ x q = .ok () r := by
  rw [EStateM.bind_of_ok (sees_eq _ p)] at h
  cases hn : p.next == .sign .rightParen with
  | true =>
    rw [hn] at h
    obtain ⟨_, p₁, h₁, h⟩ := EStateM.bind_eq_ok.mp h
    exact ⟨[], p₁, (expect_iff hp (by simp)).mp h₁, h⟩
  | false =>
    rw [hn] at h
    obtain ⟨_, p₁, h₁, h⟩ := EStateM.bind_eq_ok.mp h
    obtain ⟨⟨a, as⟩, t₁⟩ := items_sound hitem n _ _ hp h₁
    obtain ⟨_, p₂, h₂, h⟩ := EStateM.bind_eq_ok.mp h
    have t₂ := (expect_iff t₁.right_standing (by simp)).mp h₂
    exact ⟨a :: as, p₂, by simpa using t₁.trans t₂, h⟩

/-- A call. -/
theorem call_sound (hp : Standing eof p) (h : call n p = .ok () q) :
    ∃ s : Statement, Takes eof p q s.tokens s.events := by
  obtain ⟨f, p₁, h₁, h⟩ := EStateM.bind_eq_ok.mp h
  have t₁ := (name_iff hp).mp h₁
  obtain ⟨_, p₂, h₂, h⟩ := EStateM.bind_eq_ok.mp h
  have t₂ := (fire_iff t₁.right_standing).mp h₂
  obtain ⟨_, p₃, h₃, h⟩ := EStateM.bind_eq_ok.mp h
  have t₃ := (expect_iff t₂.right_standing (by simp)).mp h₃
  obtain ⟨_, p₄, h₄, h⟩ := EStateM.bind_eq_ok.mp h
  have t₄ := (fire_iff t₃.right_standing).mp h₄
  obtain ⟨es, p₅, t₅, h⟩ :=
    optionalItems_sound (closed_sound (expression_sound n) .argument) t₄.right_standing h
  obtain ⟨_, p₆, h₆, h⟩ := EStateM.bind_eq_ok.mp h
  have t₆ := (fire_iff t₅.right_standing).mp h₆
  have t₇ := (expect_iff t₆.right_standing (by simp)).mp h
  refine ⟨.call f es, ?_⟩
  have t := (((((t₁.trans t₂).trans t₃).trans t₄).trans t₅).trans t₆).trans t₇
  simpa [Phrase.tokens, Phrase.events] using t

/-- One printed item. -/
theorem printItem_sound (n : Nat) :
    Sound eof (printItem n : Parse σ Unit) Item.tokens Item.events := by
  intro p q hp h
  obtain ⟨_, _, h₀, h⟩ := EStateM.bind_eq_ok.mp h
  cases h₀
  cases hk : p.cursor.peek.kind with
  | string s =>
    rw [hk] at h
    obtain ⟨p₁, t₁, h⟩ := takes_of_advance_fire hp (by simp) hk h
    exact ⟨.text s, t₁.trans ((fire_iff t₁.right_standing).mp h)⟩
  | _ =>
    rw [hk] at h
    obtain ⟨e, t⟩ := closed_sound (expression_sound n) .printItem _ _ hp h
    exact ⟨.value e, t⟩

/-- A print statement. -/
theorem print_sound (hp : Standing eof p) (h : print n p = .ok () q) :
    ∃ s : Statement, Takes eof p q s.tokens s.events := by
  obtain ⟨_, p₁, h₁, h⟩ := EStateM.bind_eq_ok.mp h
  have t₁ := (expect_iff hp (by simp)).mp h₁
  obtain ⟨_, p₂, h₂, h⟩ := EStateM.bind_eq_ok.mp h
  have t₂ := (expect_iff t₁.right_standing (by simp)).mp h₂
  obtain ⟨_, p₃, h₃, h⟩ := EStateM.bind_eq_ok.mp h
  obtain ⟨⟨i, is⟩, t₃⟩ := items_sound (printItem_sound n) n _ _ t₂.right_standing h₃
  obtain ⟨_, p₄, h₄, h⟩ := EStateM.bind_eq_ok.mp h
  have t₄ := (expect_iff t₃.right_standing (by simp)).mp h₄
  have t₅ := (expect_iff t₄.right_standing (by simp)).mp h
  refine ⟨.print i is, ?_⟩
  have t := (((t₁.trans t₂).trans t₃).trans t₄).trans t₅
  simpa [Phrase.tokens, Phrase.events] using t

/-- A statement is read within any bound. -/
theorem statement_sound (n : Nat) :
    Sound eof (statement n : Parse σ Unit) (Phrase.tokens (r := .statement)) Phrase.events := by
  induction n with
  | zero =>
    intro p q hp h
    exact (endless_ne_ok _ _ _ h).elim
  | succ n ih =>
    intro p q hp h
    rw [statement, EStateM.bind_of_ok (peek_eq p)] at h
    cases hk : p.cursor.peek.kind with
    | keyword w =>
      rw [hk] at h
      cases w with
      | cond => exact condition_sound (block_sound ih n) hp h
      | loop => exact cycle_sound (block_sound ih n) hp h
      | print => exact print_sound hp h
      | _ => exact (wanted_ne_ok _ _ _ _ h).elim
    | identifier x =>
      rw [hk] at h
      obtain ⟨p', p'', hp', h⟩ := EStateM.bind_eq_ok.mp h
      cases hp'
      cases hs : p.cursor.second?.map Token.kind with
      | none => rw [hs] at h; cases h
      | some k =>
        rw [hs] at h
        cases k with
        | sign s =>
          cases s with
          | assign => exact assignment_sound hp h
          | leftParen => exact call_sound hp h
          | _ => cases h
        | _ => cases h
    | _ => rw [hk] at h; exact (wanted_ne_ok _ _ _ _ h).elim

/-! ## Functions and programs -/

/-- One parameter. -/
theorem parameter_sound :
    Sound eof (parameter : Parse σ Unit) Parameter.tokens fun a => [a.event] := by
  intro p q hp h
  obtain ⟨x, p₁, h₁, h⟩ := EStateM.bind_eq_ok.mp h
  have t₁ := (name_iff hp).mp h₁
  obtain ⟨_, p₂, h₂, h⟩ := EStateM.bind_eq_ok.mp h
  have t₂ := (expect_iff t₁.right_standing (by simp)).mp h₂
  obtain ⟨_, p₃, h₃, h⟩ := EStateM.bind_eq_ok.mp h
  obtain ⟨τ, rfl, t₃⟩ := typeName_eq_ok t₂.right_standing h₃
  have t₄ := (fire_iff t₃.right_standing).mp h
  exact ⟨⟨x, τ⟩, ((t₁.trans t₂).trans t₃).trans t₄⟩

/-- A function. -/
theorem function_sound (n : Nat) :
    Sound eof (function n : Parse σ Unit) Function.tokens Function.events := by
  intro p q hp h
  obtain ⟨marked, p₀, h₀, h⟩ := EStateM.bind_eq_ok.mp h
  have t₀ : Takes eof p p₀ (if marked then [.keyword .func] else []) [] := by
    obtain ⟨rfl, t⟩ | ⟨rfl, -, rfl⟩ := take?_eq_ok hp (by simp) h₀
    · exact t
    · exact .refl hp
  obtain ⟨_, p₁, h₁, h⟩ := EStateM.bind_eq_ok.mp h
  have t₁ := (expect_iff t₀.right_standing (by simp)).mp h₁
  obtain ⟨x, p₂, h₂, h⟩ := EStateM.bind_eq_ok.mp h
  have t₂ := (name_iff t₁.right_standing).mp h₂
  obtain ⟨_, p₃, h₃, h⟩ := EStateM.bind_eq_ok.mp h
  have t₃ := (fire_iff t₂.right_standing).mp h₃
  obtain ⟨_, p₄, h₄, h⟩ := EStateM.bind_eq_ok.mp h
  have t₄ := (expect_iff t₃.right_standing (by simp)).mp h₄
  obtain ⟨as, p₅, t₅, h⟩ := optionalItems_sound parameter_sound t₄.right_standing h
  obtain ⟨_, p₆, h₆, h⟩ := EStateM.bind_eq_ok.mp h
  have t₆ := (expect_iff t₅.right_standing (by simp)).mp h₆
  obtain ⟨_, p₇, h₇, h⟩ := EStateM.bind_eq_ok.mp h
  obtain ⟨ds, t₇⟩ := declarations_sound n _ _ t₆.right_standing h₇
  obtain ⟨_, p₈, h₈, h⟩ := EStateM.bind_eq_ok.mp h
  have t₈ := (fire_iff t₇.right_standing).mp h₈
  obtain ⟨_, p₉, h₉, h⟩ := EStateM.bind_eq_ok.mp h
  obtain ⟨b, t₉⟩ := block_sound (statement_sound n) n _ _ t₈.right_standing h₉
  obtain ⟨_, p₁₀, h₁₀, h⟩ := EStateM.bind_eq_ok.mp h
  have t₁₀ := (expect_iff t₉.right_standing (by simp)).mp h₁₀
  obtain ⟨_, p₁₁, h₁₁, h⟩ := EStateM.bind_eq_ok.mp h
  have t₁₁ := (expect_iff t₁₀.right_standing (by simp)).mp h₁₁
  have t₁₂ := (fire_iff t₁₁.right_standing).mp h
  refine ⟨⟨marked, x, as, ds, b⟩, ?_⟩
  have header := ((((t₀.trans t₁).trans t₂).trans t₃).trans t₄).trans t₅
  have t := ((((((header.trans t₆).trans t₇).trans t₈).trans t₉).trans t₁₀).trans t₁₁).trans t₁₂
  simpa [Function.tokens, Function.events, List.map_eq_flatMap] using t

/-- The functions of a program are read one by one. -/
theorem functions_sound (n : Nat) :
    Sound eof (functions n : Parse σ Unit) (fun fs : List Function => fs.flatMap Function.tokens)
      fun fs => fs.flatMap Function.events := by
  intro p q hp h
  induction n generalizing p with
  | zero =>
    rw [functions, EStateM.bind_of_ok (sees_eq _ p), EStateM.bind_of_ok (sees_eq _ p)] at h
    split at h
    · exact (endless_ne_ok _ _ _ h).elim
    · cases h
      exact ⟨[], .refl hp⟩
  | succ n ih =>
    rw [functions, EStateM.bind_of_ok (sees_eq _ p), EStateM.bind_of_ok (sees_eq _ p)] at h
    split at h
    · obtain ⟨_, p₁, h₁, h⟩ := EStateM.bind_eq_ok.mp h
      obtain ⟨f, t₁⟩ := function_sound _ _ _ hp h₁
      obtain ⟨fs, t₂⟩ := ih _ t₁.right_standing h
      exact ⟨f :: fs, t₁.trans t₂⟩
    · cases h
      exact ⟨[], .refl hp⟩

/-- A program is read within any bound, and the end marker stands behind it. -/
theorem programWithin_sound (hp : Standing eof p) (h : programWithin n p = .ok () q) :
    ∃ a : Program, Takes eof p q a.tokens a.events ∧ q.next = .endOfFile := by
  obtain ⟨_, p₁, h₁, h⟩ := EStateM.bind_eq_ok.mp h
  have t₁ := (expect_iff hp (by simp)).mp h₁
  obtain ⟨x, p₂, h₂, h⟩ := EStateM.bind_eq_ok.mp h
  have t₂ := (name_iff t₁.right_standing).mp h₂
  obtain ⟨_, p₃, h₃, h⟩ := EStateM.bind_eq_ok.mp h
  have t₃ := (fire_iff t₂.right_standing).mp h₃
  obtain ⟨_, p₄, h₄, h⟩ := EStateM.bind_eq_ok.mp h
  have t₄ := (expect_iff t₃.right_standing (by simp)).mp h₄
  obtain ⟨_, p₅, h₅, h⟩ := EStateM.bind_eq_ok.mp h
  obtain ⟨ds, t₅⟩ := declarations_sound n _ _ t₄.right_standing h₅
  obtain ⟨_, p₆, h₆, h⟩ := EStateM.bind_eq_ok.mp h
  obtain ⟨fs, t₆⟩ := functions_sound n _ _ t₅.right_standing h₆
  obtain ⟨_, p₇, h₇, h⟩ := EStateM.bind_eq_ok.mp h
  have t₇ := (expect_iff t₆.right_standing (by simp)).mp h₇
  obtain ⟨_, p₈, h₈, h⟩ := EStateM.bind_eq_ok.mp h
  have t₈ := (fire_iff t₇.right_standing).mp h₈
  obtain ⟨_, p₉, h₉, h⟩ := EStateM.bind_eq_ok.mp h
  obtain ⟨b, t₉⟩ := block_sound (statement_sound n) n _ _ t₈.right_standing h₉
  obtain ⟨_, p₁₀, h₁₀, h⟩ := EStateM.bind_eq_ok.mp h
  have t₁₀ := (expect_iff t₉.right_standing (by simp)).mp h₁₀
  obtain ⟨_, p₁₁, h₁₁, h⟩ := EStateM.bind_eq_ok.mp h
  have t₁₁ := (fire_iff t₁₀.right_standing).mp h₁₁
  have header := (((t₁.trans t₂).trans t₃).trans t₄).trans t₅
  have t := (((((header.trans t₆).trans t₇).trans t₈).trans t₉).trans t₁₀).trans t₁₁
  obtain ⟨p₁₂, p₁₃, h₁₂, h⟩ := EStateM.bind_eq_ok.mp h
  cases h₁₂
  cases hend : p₁₁.cursor.atEnd with
  | false =>
    rw [hend] at h
    exact (wanted_ne_ok _ _ _ _ h).elim
  | true =>
    rw [hend] at h
    cases h
    refine ⟨⟨x, ds, fs, b⟩, ?_, eq_of_beq hend⟩
    simpa [Program.tokens, Program.events] using t

end Quadlet.Parse
