import Quadlet.Proofs.Parser.Soundness

/-!
# How the parser fails

A part of the parser that fails stands before a token that the grammar does not allow, or its sink
has refused an event. What was told up to that event is then the beginning of the events of some
tree: the part that was read is completed with the shortest trees there are. So a sink that takes or
refuses the events of whole trees has nothing to fear from a text that breaks off.
-/

namespace Quadlet

namespace EventSink

variable {σ : Type} [EventSink σ] {e : Error} {es fs : List Event} {s t : σ}

/-- A sink refuses one of some events with an error. -/
def Refuses (e : Error) (es : List Event) (s : σ) : Prop := ∃ t, feed es s = .error e t

/-- An event that is refused is refused as a row of its own. -/
theorem refuses_of_accept {v : Event} (h : accept v s = .error e t) : Refuses e [v] s :=
  ⟨t, EStateM.bind_of_error h⟩

/-- What comes behind a refused event does not count. -/
theorem Refuses.append (h : Refuses e es s) (fs : List Event) : Refuses e (es ++ fs) s := by
  induction es generalizing s with
  | nil =>
    obtain ⟨t, h⟩ := h
    cases h
  | cons v es ih =>
    obtain ⟨t, h⟩ := h
    rw [feed_cons] at h
    rw [Refuses, List.cons_append, feed_cons]
    cases hv : accept v s with
    | ok u s' =>
      rw [EStateM.bind_of_ok hv] at h ⊢
      exact ih ⟨t, h⟩
    | error e' s' =>
      rw [EStateM.bind_of_error hv] at h ⊢
      exact ⟨t, h⟩

/-- Behind events that are taken others may be refused. -/
theorem refuses_of_feed (h : feed es s = .ok () t) (hfs : Refuses e fs t) :
    Refuses e (es ++ fs) s := by
  induction es generalizing s with
  | nil =>
    cases h
    exact hfs
  | cons v es ih =>
    obtain ⟨s', hv, hes⟩ := feed_cons_eq_ok.mp h
    obtain ⟨u, hu⟩ := ih hes
    refine ⟨u, ?_⟩
    rw [List.cons_append, feed_cons, EStateM.bind_of_ok hv]
    exact hu

end EventSink

namespace Parser

open EventSink

variable {σ : Type} [EventSink σ] {eof : EndMarker} {p q : Parser σ} {ks : List Token.Kind}
  {es fs row : List Event} {e : Error}

/-- What is refused behind some events is refused by every row that starts with both. -/
theorem Takes.refuses (h : Takes eof p q ks es) (hfs : Refuses e fs q.sink)
    (hrow : es ++ fs <+: row) : Refuses e row p.sink := by
  obtain ⟨rest, rfl⟩ := hrow
  obtain ⟨pre, left, s, s', -, hes, rfl, rfl⟩ := h
  exact (refuses_of_feed hes hfs).append rest

omit [EventSink σ] in
/-- The end marker is left. -/
theorem Standing.left_pos (h : Standing eof p) : 0 < p.left := by
  obtain ⟨ts, s, rfl⟩ := h
  rw [left_before]
  exact Nat.succ_pos _

/-- No token comes back. -/
theorem Takes.left_le (h : Takes eof p q ks es) : q.left ≤ p.left := by
  have := h.left_eq
  omega

end Parser

namespace Syntax

/-- The zero of every rank, with which an expression that breaks off is completed. -/
def Tree.zero : (r : Rank) → Tree r
  | .factor => .int 0
  | .term => .ofFactor (.int 0)
  | .sum => .ofTerm (.ofFactor (.int 0))
  | .whole => .ofSum (.ofTerm (.ofFactor (.int 0)))

/-- A statement has a token. -/
theorem tokens_statement_ne_nil (s : Statement) : s.tokens ≠ [] := by
  cases s <;> simp [Phrase.tokens]

end Syntax

namespace Parse

open EventSink Parser Syntax

variable {σ : Type} {eof : EndMarker} {p q : Parser σ} {e : Error} {k : Token.Kind}

/-- The errors of a parser that finds another token than the grammar allows. -/
def Stuck (e : Error) : Prop := e = .truncated ∨ ∃ position wanted found,
  e = .grammar position (.expected wanted found)

/-- Asking for something else is being stuck. -/
theorem stuck_of_wanted {α : Type} {what : String} (h : (wanted what : Parse σ α) p = .error e q) :
    Stuck e := by
  cases h
  exact .inr ⟨_, _, _, rfl⟩

private theorem stuck_of_expect (h : expect k p = .error e q) : Stuck e := by
  rw [expect, EStateM.bind_of_ok (sees_eq k p)] at h
  split at h
  · cases h
  · obtain h | ⟨r, r', hr, h⟩ := EStateM.bind_eq_error.mp h
    · cases h
    split at h
    · cases h
      exact .inl rfl
    · exact stuck_of_wanted h

private theorem stuck_of_name (h : name p = .error e q) : Stuck e := by
  rw [name, EStateM.bind_of_ok (peek_eq p)] at h
  cases hk : p.cursor.peek.kind with
  | identifier x => rw [hk] at h; cases h
  | endOfFile =>
    rw [hk] at h
    cases h
    exact .inl rfl
  | _ => rw [hk] at h; exact stuck_of_wanted h

/-- Looking for a token never fails. -/
theorem take?_ne_error : take? k p ≠ .error e q := by
  intro h
  rw [take?, EStateM.bind_of_ok (sees_eq k p)] at h
  split at h <;> cases h

private theorem stuck_of_typeName (h : typeName p = .error e q) : Stuck e := by
  obtain h | ⟨b, p₁, h₁, h⟩ := EStateM.bind_eq_error.mp h
  · exact (take?_ne_error h).elim
  split at h
  · cases h
  obtain h | ⟨b, p₂, h₂, h⟩ := EStateM.bind_eq_error.mp h
  · exact (take?_ne_error h).elim
  split at h
  · cases h
  · exact stuck_of_wanted h

/-! ## Rows of actions -/

variable [EventSink σ] {α : Type} {v : Event}

/-- An event that is not told is refused. -/
theorem refuses_of_fire (h : fire v p = .error e q) : Refuses e [v] p.sink := by
  rw [fire] at h
  cases hv : accept v p.sink with
  | ok u s =>
    rw [hv] at h
    cases h
  | error e' s =>
    rw [hv] at h
    cases h
    exact refuses_of_accept hv

/-- Behind an expected token. -/
theorem expect_bind_error (hp : Standing eof p) (hk : k ≠ .endOfFile) {x : Parse σ α}
    (h : (do expect k; x : Parse σ α) p = .error e q) :
    Stuck e ∨ ∃ p₁, Takes eof p p₁ [k] [] ∧ x p₁ = .error e q := by
  obtain h | ⟨_, p₁, h₁, h⟩ := EStateM.bind_eq_error.mp h
  · exact .inl (stuck_of_expect h)
  · exact .inr ⟨p₁, (expect_iff hp hk).mp h₁, h⟩

/-- Behind an event. -/
theorem fire_bind_error (hp : Standing eof p) {x : Parse σ α}
    (h : (do fire v; x : Parse σ α) p = .error e q) :
    Refuses e [v] p.sink ∨ ∃ p₁, Takes eof p p₁ [] [v] ∧ x p₁ = .error e q := by
  obtain h | ⟨_, p₁, h₁, h⟩ := EStateM.bind_eq_error.mp h
  · exact .inl (refuses_of_fire h)
  · exact .inr ⟨p₁, (fire_iff hp).mp h₁, h⟩

/-- Behind a name. -/
theorem name_bind_error (hp : Standing eof p) {f : String → Parse σ α}
    (h : (name >>= f) p = .error e q) :
    Stuck e ∨ ∃ x p₁, Takes eof p p₁ [.identifier x] [] ∧ f x p₁ = .error e q := by
  obtain h | ⟨x, p₁, h₁, h⟩ := EStateM.bind_eq_error.mp h
  · exact .inl (stuck_of_name h)
  · exact .inr ⟨x, p₁, (name_iff hp).mp h₁, h⟩

/-- Behind a type. -/
theorem typeName_bind_error (hp : Standing eof p) {f : ValueType → Parse σ α}
    (h : (typeName >>= f) p = .error e q) :
    Stuck e ∨ ∃ (τ : Numeric) (p₁ : Parser σ), Takes eof p p₁ [.keyword τ.keyword] [] ∧
      f τ.type p₁ = .error e q := by
  obtain h | ⟨t, p₁, h₁, h⟩ := EStateM.bind_eq_error.mp h
  · exact .inl (stuck_of_typeName h)
  · obtain ⟨τ, rfl, t₁⟩ := typeName_eq_ok hp h₁
    exact .inr ⟨τ, p₁, t₁, h⟩

/-- Behind a token that was seen and its event. -/
theorem advance_fire_bind_error (hp : Standing eof p) (hk : k ≠ .endOfFile) (hn : p.next = k)
    {x : Parse σ α} (h : (do advance; fire v; x : Parse σ α) p = .error e q) :
    Refuses e [v] p.sink ∨ ∃ p₁, Takes eof p p₁ [k] [v] ∧ x p₁ = .error e q := by
  have t₁ := (takes_token hp hk).mpr ⟨hn, rfl⟩
  rw [EStateM.bind_of_ok (advance_of_takes hk t₁)] at h
  obtain h | ⟨p₂, t₂, h⟩ := fire_bind_error t₁.right_standing h
  · exact .inl h
  · exact .inr ⟨p₂, t₁.trans t₂, h⟩

/-- Where a part of the parser fails within its bound it is stuck, or the sink refuses
an event of some tree. -/
def Fails {β : Type} (eof : EndMarker) (n : Nat) (P : Parse σ Unit) (events : β → List Event) :
    Prop :=
  ∀ (p q : Parser σ) (e : Error), Standing eof p → p.left ≤ n → P p = .error e q →
    Stuck e ∨ ∃ b, Refuses e (events b) p.sink

variable {β : Type} {P : Parse σ Unit} {tokens : β → List Token.Kind}
  {events : β → List Event} {n : Nat}

/-- Behind a part of its own. -/
theorem part_bind_error (hsound : Sound eof P tokens events) (hfails : Fails eof n P events)
    (hp : Standing eof p) (hn : p.left ≤ n) {x : Parse σ α}
    (h : (do P; x : Parse σ α) p = .error e q) :
    (Stuck e ∨ ∃ b, Refuses e (events b) p.sink) ∨
      ∃ b p₁, Takes eof p p₁ (tokens b) (events b) ∧ x p₁ = .error e q := by
  obtain h | ⟨_, p₁, h₁, h⟩ := EStateM.bind_eq_error.mp h
  · exact .inl (hfails _ _ _ hp hn h)
  · obtain ⟨b, t₁⟩ := hsound _ _ hp h₁
    exact .inr ⟨b, p₁, t₁, h⟩

/-- A part behind which an event is told. -/
theorem closed_fails (hsound : Sound eof P tokens events)
    (hfails : Fails eof n P events) (v : Event) :
    Fails eof n (do P; fire v) fun b => events b ++ [v] := by
  intro p q e hp hn h
  obtain (h | ⟨b, h⟩) | ⟨b, p₁, t₁, h⟩ := part_bind_error hsound hfails hp hn h
  · exact .inl h
  · exact .inr ⟨b, h.append _⟩
  · exact .inr ⟨b, t₁.refuses (refuses_of_fire h) (by simp)⟩

/-! ## Expressions -/

/-- Further operands lengthen a tree until one of them fails. -/
theorem moreOperands_fails {a b : Rank} {level : Token.Kind → Option Operator}
    {operand : Parse σ Unit} {legal : Operator → Bool} {close : Event}
    (hlevel : ∀ k op, level k = some op → k = .sign op.sign ∧ legal op = true)
    (hsound : Sound eof operand (Tree.tokens (r := b)) fun e => e.events ++ [close])
    (hfails : Fails eof n operand fun e : Tree b => e.events ++ [close])
    (join : Tree a → (op : Operator) → legal op = true → Tree b → Tree a)
    (htokens : ∀ l op h e, (join l op h e).tokens = l.tokens ++ .sign op.sign :: e.tokens)
    (hevents : ∀ l op h e, (join l op h e).events = l.events ++ .operator op :: e.events ++ [close])
    (m : Nat) {o : Parser σ} (l : Tree a) (ho : Takes eof o p l.tokens l.events) (hn : p.left ≤ n)
    (hm : p.left ≤ m) (h : moreOperands level operand m p = .error e q) :
    Stuck e ∨ ∃ x : Tree a, Refuses e x.events o.sink := by
  induction m generalizing p l with
  | zero =>
    exact absurd hm (Nat.not_le.mpr ho.right_standing.left_pos)
  | succ m ih =>
    rw [moreOperands, EStateM.bind_of_ok (peek_eq p)] at h
    cases hk : level p.cursor.peek.kind with
    | none =>
      rw [hk] at h
      cases h
    | some op =>
      rw [hk] at h
      obtain ⟨hsign, hlegal⟩ := hlevel _ _ hk
      obtain h | ⟨p₁, t₁, h⟩ := advance_fire_bind_error ho.right_standing (by simp) hsign h
      · exact .inr ⟨join l op hlegal (.zero b), ho.refuses h (by simp [hevents])⟩
      have hleft := t₁.left_token
      obtain (h | ⟨x, h⟩) | ⟨x, p₂, t₂, h⟩ :=
        part_bind_error hsound hfails t₁.right_standing (by omega) h
      · exact .inl h
      · exact .inr ⟨join l op hlegal x, (ho.trans t₁).refuses h (by simp [hevents])⟩
      have hle := t₂.left_le
      refine ih (join l op hlegal x) ?_ (by omega) (by omega) h
      rw [htokens, hevents]
      simpa using (ho.trans t₁).trans t₂

variable {operand : Parse σ Unit}

private theorem term_fails (hsound : Sound eof operand (Tree.tokens (r := .factor)) Tree.events)
    (hfails : Fails eof n operand (Tree.events (r := .factor))) :
    Fails eof n (term operand n) (Tree.events (r := .term)) := by
  intro p q e hp hn h
  have hw := closed_sound hsound .factorEnd
  have hf := closed_fails hsound hfails .factorEnd
  obtain (h | ⟨x, h⟩) | ⟨x, p₁, t, h⟩ := part_bind_error hw hf hp hn h
  · exact .inl h
  · exact .inr ⟨.ofFactor x, h⟩
  · have hle := t.left_le
    exact moreOperands_fails (fun _ _ => multiplicative?_eq_some) hw hf .product
      (fun _ _ _ _ => rfl) (fun _ _ _ _ => rfl) n (.ofFactor x) t (by omega) (by omega) h

private theorem sum_fails (hsound : Sound eof operand (Tree.tokens (r := .factor)) Tree.events)
    (hfails : Fails eof n operand (Tree.events (r := .factor))) :
    Fails eof n (sum operand n) (Tree.events (r := .sum)) := by
  intro p q e hp hn h
  have hw := closed_sound (term_sound (n := n) hsound) .termEnd
  have hf := closed_fails (term_sound hsound) (term_fails hsound hfails) .termEnd
  obtain (h | ⟨x, h⟩) | ⟨x, p₁, t, h⟩ := part_bind_error hw hf hp hn h
  · exact .inl h
  · exact .inr ⟨.ofTerm x, h⟩
  · have hle := t.left_le
    exact moreOperands_fails (fun _ _ => additive?_eq_some) hw hf .addition
      (fun _ _ _ _ => rfl) (fun _ _ _ _ => rfl) n (.ofTerm x) t (by omega) (by omega) h

private theorem expressionOf_fails
    (hsound : Sound eof operand (Tree.tokens (r := .factor)) Tree.events)
    (hfails : Fails eof n operand (Tree.events (r := .factor))) :
    Fails eof n (expressionOf operand n) (Tree.events (r := .whole)) := by
  intro p q e hp hn h
  have hs := sum_sound (n := n) hsound
  have hf := sum_fails hsound hfails
  obtain (h | ⟨l, h⟩) | ⟨l, p₁, t₁, h⟩ := part_bind_error hs hf hp hn h
  · exact .inl h
  · exact .inr ⟨.ofSum l, h.append _⟩
  rw [EStateM.bind_of_ok (peek_eq p₁)] at h
  cases hk : relational? p₁.cursor.peek.kind with
  | none =>
    rw [hk] at h
    exact .inr ⟨.ofSum l, t₁.refuses (refuses_of_fire h) (by simp [Tree.events])⟩
  | some op =>
    rw [hk] at h
    obtain ⟨hsign, hop⟩ := relational?_eq_some hk
    obtain h | ⟨p₂, t₂, h⟩ := advance_fire_bind_error t₁.right_standing (by simp) hsign h
    · exact .inr ⟨.comparison l op hop (.zero .sum), t₁.refuses h (by simp [Tree.events])⟩
    have t := t₁.trans t₂
    have hle := t.left_le
    obtain (h | ⟨r, h⟩) | ⟨r, p₃, t₃, h⟩ := part_bind_error hs hf t.right_standing (by omega) h
    · exact .inl h
    · exact .inr ⟨.comparison l op hop r, t.refuses h (by simp [Tree.events])⟩
    · exact .inr ⟨.comparison l op hop r,
        (t.trans t₃).refuses (refuses_of_fire h) (by simp [Tree.events])⟩

/-- A factor that is one token, or stuck. -/
theorem leaf_fails (hp : Standing eof p) (h : leaf p.next p = .error e q) :
    Stuck e ∨ ∃ f : Tree .factor, Refuses e f.events p.sink := by
  have told {k : Token.Kind} {v : Event} (f : Tree .factor) (hf : f.events = [v])
      (hk : k ≠ .endOfFile) (hn : p.next = k)
      (h : (do advance; fire v : Parse σ Unit) p = .error e q) :
      Stuck e ∨ ∃ f : Tree .factor, Refuses e f.events p.sink := by
    have t := (takes_token hp hk).mpr ⟨hn, rfl⟩
    rw [EStateM.bind_of_ok (advance_of_takes hk t)] at h
    exact .inr ⟨f, t.refuses (refuses_of_fire h) (by simp [hf])⟩
  cases hk : p.next with
  | integer n => rw [hk] at h; exact told (.int n) rfl (by simp) hk h
  | float x => rw [hk] at h; exact told (.float x) rfl (by simp) hk h
  | identifier x => rw [hk] at h; exact told (.name x) rfl (by simp) hk h
  | endOfFile =>
    rw [hk] at h
    cases h
    exact .inl (.inl rfl)
  | _ => rw [hk] at h; exact .inl (stuck_of_wanted h)

private theorem signed_fails (hsound : Sound eof operand (Tree.tokens (r := .factor)) Tree.events)
    (hfails : Fails eof n operand (Tree.events (r := .factor))) (negative : Bool)
    (hp : Standing eof p) (hleft : p.left ≤ n + 1)
    (hn : p.next = .sign (if negative then .minus else .plus))
    (h : (do advance; fire (.unarySign negative); operand; fire .unaryEnd : Parse σ Unit)
      p = .error e q) : Stuck e ∨ ∃ f : Tree .factor, Refuses e f.events p.sink := by
  obtain h | ⟨p₁, t₁, h⟩ := advance_fire_bind_error hp (by simp) hn h
  · exact .inr ⟨.signed negative (.zero .factor), h.append _⟩
  have hone := t₁.left_token
  obtain (h | ⟨f, h⟩) | ⟨f, p₂, t₂, h⟩ :=
    part_bind_error hsound hfails t₁.right_standing (by omega) h
  · exact .inl h
  · exact .inr ⟨.signed negative f, t₁.refuses h (by simp [Tree.events])⟩
  · exact .inr ⟨.signed negative f,
      (t₁.trans t₂).refuses (refuses_of_fire h) (by simp [Tree.events])⟩

private theorem group_fails (hsound : Sound eof operand (Tree.tokens (r := .whole)) Tree.events)
    (hfails : Fails eof n operand (Tree.events (r := .whole))) (hp : Standing eof p)
    (hleft : p.left ≤ n + 1) (hn : p.next = .sign .leftParen)
    (h : (do advance; fire .openParen; operand; expect (.sign .rightParen); fire .closeParen :
      Parse σ Unit) p = .error e q) :
    Stuck e ∨ ∃ f : Tree .factor, Refuses e f.events p.sink := by
  obtain h | ⟨p₁, t₁, h⟩ := advance_fire_bind_error hp (by simp) hn h
  · exact .inr ⟨.group (.zero .whole), h.append _⟩
  have hone := t₁.left_token
  obtain (h | ⟨x, h⟩) | ⟨x, p₂, t₂, h⟩ :=
    part_bind_error hsound hfails t₁.right_standing (by omega) h
  · exact .inl h
  · exact .inr ⟨.group x, t₁.refuses h (by simp [Tree.events])⟩
  obtain h | ⟨p₃, t₃, h⟩ := expect_bind_error t₂.right_standing (by simp) h
  · exact .inl h
  · exact .inr ⟨.group x,
      ((t₁.trans t₂).trans t₃).refuses (refuses_of_fire h) (by simp [Tree.events])⟩

private theorem factor_fails (n : Nat) :
    Fails eof n (factor n : Parse σ Unit) (Tree.events (r := .factor)) := by
  induction n with
  | zero =>
    intro p q e hp hn h
    exact absurd hn (Nat.not_le.mpr hp.left_pos)
  | succ n ih =>
    intro p q e hp hn h
    rw [factor, EStateM.bind_of_ok (peek_eq p)] at h
    have hleaf (hk : leaf p.cursor.peek.kind p = .error e q) :
        Stuck e ∨ ∃ f : Tree .factor, Refuses e f.events p.sink := leaf_fails hp hk
    cases hk : p.cursor.peek.kind with
    | sign s =>
      rw [hk] at h hleaf
      cases s with
      | plus => exact signed_fails (factor_sound n) ih false hp hn hk h
      | minus => exact signed_fails (factor_sound n) ih true hp hn hk h
      | leftParen =>
        exact group_fails (expression_sound n) (expressionOf_fails (factor_sound n) ih) hp hn hk h
      | _ => exact hleaf h
    | _ => rw [hk] at h hleaf; exact hleaf h

private theorem expression_fails (n : Nat) :
    Fails eof n (expression n : Parse σ Unit) (Tree.events (r := .whole)) :=
  expressionOf_fails (factor_sound n) (factor_fails n)

/-! ## Lists and declarations -/

section

variable {item : Parse σ Unit}

private theorem moreItems_fails (hsound : Sound eof item tokens events)
    (hfails : Fails eof n item events) (m : Nat) (hp : Standing eof p) (hn : p.left ≤ n)
    (hm : p.left ≤ m) (h : moreItems item m p = .error e q) :
    Stuck e ∨ ∃ bs : List β, Refuses e (bs.flatMap events) p.sink := by
  induction m generalizing p with
  | zero =>
    exact absurd hm (Nat.not_le.mpr hp.left_pos)
  | succ m ih =>
    obtain h' | ⟨found, p₁, h₁, h'⟩ := EStateM.bind_eq_error.mp h
    · exact (take?_ne_error h').elim
    obtain ⟨rfl, t₁⟩ | ⟨rfl, -, rfl⟩ := take?_eq_ok hp (by simp) h₁
    · have hone := t₁.left_token
      obtain (h | ⟨b, h⟩) | ⟨b, p₂, t₂, h⟩ :=
        part_bind_error hsound hfails t₁.right_standing (by omega) h'
      · exact .inl h
      · exact .inr ⟨[b], t₁.refuses h (by simp)⟩
      have hle := t₂.left_le
      obtain h | ⟨bs, h⟩ := ih t₂.right_standing (by omega) (by omega) h
      · exact .inl h
      · exact .inr ⟨b :: bs, (t₁.trans t₂).refuses h (by simp)⟩
    · cases h'

private theorem items_fails (hsound : Sound eof item tokens events)
    (hfails : Fails eof n item events) :
    Fails eof n (items item n) fun bs : β × List β => (bs.1 :: bs.2).flatMap events := by
  intro p q e hp hn h
  obtain (h | ⟨b, h⟩) | ⟨b, p₁, t₁, h⟩ := part_bind_error hsound hfails hp hn h
  · exact .inl h
  · exact .inr ⟨(b, []), by simpa using h⟩
  have hle := t₁.left_le
  obtain h | ⟨bs, h⟩ := moreItems_fails hsound hfails n t₁.right_standing (by omega) (by omega) h
  · exact .inl h
  · exact .inr ⟨(b, bs), t₁.refuses h (by simp)⟩

/-- Behind the items between two parentheses, where there may be none. -/
theorem optionalItems_bind_error (hsound : Sound eof item tokens events)
    (hfails : Fails eof n item events) (hp : Standing eof p) (hn : p.left ≤ n) {x : Parse σ Unit}
    (h : (do if !(← sees (.sign .rightParen)) then items item n
             expect (.sign .rightParen); x : Parse σ Unit) p = .error e q) :
    (Stuck e ∨ ∃ bs : List β, Refuses e (bs.flatMap events) p.sink) ∨
      ∃ (bs : List β) (p₁ : Parser σ), Takes eof p p₁ (listed tokens bs ++ [.sign .rightParen])
        (bs.flatMap events) ∧ x p₁ = .error e q := by
  rw [EStateM.bind_of_ok (sees_eq _ p)] at h
  cases hparen : p.next == .sign .rightParen with
  | true =>
    rw [hparen] at h
    obtain h | ⟨p₁, t₁, h⟩ := expect_bind_error hp (by simp) h
    · exact .inl (.inl h)
    · exact .inr ⟨[], p₁, t₁, h⟩
  | false =>
    rw [hparen] at h
    obtain (h | ⟨bs, h⟩) | ⟨bs, p₁, t₁, h⟩ :=
      part_bind_error (items_sound hsound n) (items_fails hsound hfails) hp hn h
    · exact .inl (.inl h)
    · exact .inl (.inr ⟨_, h⟩)
    obtain h | ⟨p₂, t₂, h⟩ := expect_bind_error t₁.right_standing (by simp) h
    · exact .inl (.inl h)
    · exact .inr ⟨bs.1 :: bs.2, p₂, by simpa using t₁.trans t₂, h⟩

end

private theorem variableName_fails (n : Nat) :
    Fails eof n (variableName : Parse σ Unit) fun x : String => [.varName x] := by
  intro p q e hp hn h
  obtain h | ⟨x, p₁, t₁, h⟩ := name_bind_error hp h
  · exact .inl h
  · exact .inr ⟨x, t₁.refuses (refuses_of_fire h) (by simp)⟩

/-- Behind a list of variables, before more lists are looked for. -/
theorem declaration_bind_error (hp : Standing eof p) (hn : p.left ≤ n) {x : Parse σ Unit}
    (h : (do items variableName n; expect (.sign .colon); fire (.varType (← typeName))
             expect (.sign .semicolon); x : Parse σ Unit) p = .error e q) :
    (Stuck e ∨ ∃ d : Declaration, Refuses e d.events p.sink) ∨
      ∃ (d : Declaration) (p₁ : Parser σ), Takes eof p p₁ d.tokens d.events ∧
      x p₁ = .error e q := by
  obtain (h | ⟨names, h⟩) | ⟨names, p₁, t₁, h⟩ :=
    part_bind_error (items_sound variableName_sound n) (items_fails variableName_sound
      (variableName_fails n)) hp hn h
  · exact .inl (.inl h)
  · refine .inl (.inr ⟨⟨names.1, names.2, .int⟩, ?_⟩)
    simpa [Declaration.events, Declaration.names, List.map_eq_flatMap] using
      h.append [.varType Numeric.int.type]
  obtain h | ⟨p₂, t₂, h⟩ := expect_bind_error t₁.right_standing (by simp) h
  · exact .inl (.inl h)
  obtain h | ⟨τ, p₃, t₃, h⟩ := typeName_bind_error t₂.right_standing h
  · exact .inl (.inl h)
  have t := (t₁.trans t₂).trans t₃
  obtain h | ⟨p₄, t₄, h⟩ := fire_bind_error t.right_standing h
  · exact .inl (.inr ⟨⟨names.1, names.2, τ⟩, t.refuses h (by
      simp [Declaration.events, Declaration.names, List.map_eq_flatMap])⟩)
  obtain h | ⟨p₅, t₅, h⟩ := expect_bind_error t₄.right_standing (by simp) h
  · exact .inl (.inl h)
  refine .inr ⟨⟨names.1, names.2, τ⟩, p₅, ?_, h⟩
  simpa [Declaration.tokens, Declaration.events, Declaration.names, List.map_eq_flatMap] using
    (t.trans t₄).trans t₅

private theorem variableLists_fails (n : Nat) :
    Fails eof n (variableLists n : Parse σ Unit)
      fun ds : List Declaration => ds.flatMap Declaration.events := by
  induction n with
  | zero =>
    intro p q e hp hn h
    exact absurd hn (Nat.not_le.mpr hp.left_pos)
  | succ n ih =>
    intro p q e hp hn h
    rw [variableLists_eq] at h
    obtain (h | ⟨d, h⟩) | ⟨d, p₁, t₁, h⟩ := declaration_bind_error hp hn h
    · exact .inl h
    · exact .inr ⟨[d], by simpa using h⟩
    rw [EStateM.bind_of_ok (peek_eq p₁)] at h
    cases hk : p₁.cursor.peek.kind with
    | identifier x =>
      rw [hk] at h
      have hlt : p₁.left < p.left := by
        have := t₁.left_eq
        simp [Declaration.tokens] at this
        omega
      obtain h | ⟨ds, h⟩ := ih _ _ _ t₁.right_standing (by omega) h
      · exact .inl h
      · exact .inr ⟨d :: ds, t₁.refuses h (by simp)⟩
    | _ => rw [hk] at h; cases h

private theorem declarations_fails (n : Nat) :
    Fails eof n (declarations n : Parse σ Unit)
      fun ds : List Declaration => ds.flatMap Declaration.events := by
  intro p q e hp hn h
  obtain h' | ⟨found, p₁, h₁, h'⟩ := EStateM.bind_eq_error.mp h
  · exact (take?_ne_error h').elim
  obtain ⟨rfl, t₁⟩ | ⟨rfl, -, rfl⟩ := take?_eq_ok hp (by simp) h₁
  · have hle := t₁.left_le
    obtain h | ⟨ds, h⟩ := variableLists_fails n _ _ _ t₁.right_standing (by omega) h'
    · exact .inl h
    · exact .inr ⟨ds, t₁.refuses h (by simp)⟩
  · cases h'

/-! ## Statements -/

section

variable {statement body : Parse σ Unit}

private theorem statements_fails
    (hsound : Sound eof statement (Phrase.tokens (r := .statement)) Phrase.events)
    (hfails : Fails eof n statement (Phrase.events (r := .statement))) (m : Nat)
    (hp : Standing eof p) (hn : p.left ≤ n) (hm : p.left ≤ m)
    (h : statements statement m p = .error e q) :
    Stuck e ∨ ∃ b : Block, Refuses e b.events p.sink := by
  induction m generalizing p with
  | zero =>
    exact absurd hm (Nat.not_le.mpr hp.left_pos)
  | succ m ih =>
    rw [statements, EStateM.bind_of_ok (sees_eq _ p)] at h
    split at h
    · cases h
    obtain h | ⟨p₁, p₂, h₁, h⟩ := EStateM.bind_eq_error.mp h
    · cases h
    cases h₁
    split at h
    · cases h
      exact .inl (.inl rfl)
    obtain (h | ⟨s, h⟩) | ⟨s, p₁, t₁, h⟩ := part_bind_error hsound hfails hp hn h
    · exact .inl h
    · exact .inr ⟨.cons s .nil, h.append _⟩
    have hlt : p₁.left < p.left := by
      have := t₁.left_eq
      have := List.length_pos_iff.mpr (tokens_statement_ne_nil s)
      omega
    obtain h | ⟨b, h⟩ := ih t₁.right_standing (by omega) (by omega) h
    · exact .inl h
    · exact .inr ⟨.cons s b, t₁.refuses h (by simp [Phrase.events])⟩

private theorem block_fails
    (hsound : Sound eof statement (Phrase.tokens (r := .statement)) Phrase.events)
    (hfails : Fails eof n statement (Phrase.events (r := .statement))) :
    Fails eof n (block statement n) (Phrase.events (r := .block)) := by
  intro p q e hp hn h
  obtain h | ⟨p₁, t₁, h⟩ := expect_bind_error hp (by simp) h
  · exact .inl h
  have hle := t₁.left_le
  obtain h | ⟨_, p₂, h₂, h⟩ := EStateM.bind_eq_error.mp h
  · obtain h | ⟨b, h⟩ := statements_fails hsound hfails n t₁.right_standing (by omega) (by omega) h
    · exact .inl h
    · exact .inr ⟨b, t₁.refuses h (by simp)⟩
  · exact .inl (stuck_of_expect h)

private theorem guarded_fails (n : Nat) :
    Fails eof n (guarded n : Parse σ Unit) (Tree.events (r := .whole)) := by
  intro p q e hp hn h
  obtain h | ⟨p₁, t₁, h⟩ := expect_bind_error hp (by simp) h
  · exact .inl h
  have hle := t₁.left_le
  obtain (h | ⟨g, h⟩) | ⟨g, p₂, t₂, h⟩ :=
    part_bind_error (expression_sound n) (expression_fails n) t₁.right_standing (by omega) h
  · exact .inl h
  · exact .inr ⟨g, t₁.refuses h (by simp)⟩
  · exact .inl (stuck_of_expect h)

private theorem assignment_fails (hp : Standing eof p) (hn : p.left ≤ n + 1)
    (h : assignment n p = .error e q) : Stuck e ∨ ∃ s : Statement, Refuses e s.events p.sink := by
  obtain h | ⟨x, p₁, t₁, h⟩ := name_bind_error hp h
  · exact .inl h
  have hone := t₁.left_token
  obtain h | ⟨p₂, t₂, h⟩ := fire_bind_error t₁.right_standing h
  · exact .inr ⟨.assign x (.zero .whole), t₁.refuses h (by simp [Phrase.events])⟩
  obtain h | ⟨p₃, t₃, h⟩ := expect_bind_error t₂.right_standing (by simp) h
  · exact .inl h
  have t := (t₁.trans t₂).trans t₃
  obtain h | ⟨p₄, t₄, h⟩ := fire_bind_error t.right_standing h
  · exact .inr ⟨.assign x (.zero .whole), t.refuses h (by simp [Phrase.events])⟩
  have hle := ((t₂.trans t₃).trans t₄).left_le
  have t := t.trans t₄
  obtain (h | ⟨v, h⟩) | ⟨v, p₅, t₅, h⟩ :=
    part_bind_error (expression_sound n) (expression_fails n) t.right_standing (by omega) h
  · exact .inl h
  · exact .inr ⟨.assign x v, t.refuses h (by simp [Phrase.events])⟩
  have t := t.trans t₅
  obtain h | ⟨p₆, t₆, h⟩ := fire_bind_error t.right_standing h
  · exact .inr ⟨.assign x v, t.refuses h (by simp [Phrase.events])⟩
  · exact .inl (stuck_of_expect h)

section

variable (hsound : Sound eof body (fun b : Block =>
  .sign .leftBrace :: b.tokens ++ [.sign .rightBrace])
    Phrase.events)
  (hfails : Fails eof n body (Phrase.events (r := .block)))

include hsound hfails

private theorem condition_fails (hp : Standing eof p) (hn : p.left ≤ n + 1)
    (h : condition body n p = .error e q) :
    Stuck e ∨ ∃ s : Statement, Refuses e s.events p.sink := by
  obtain h | ⟨p₁, t₁, h⟩ := expect_bind_error hp (by simp) h
  · exact .inl h
  have hone := t₁.left_token
  obtain (h | ⟨g, h⟩) | ⟨g, p₂, t₂, h⟩ :=
    part_bind_error (guarded_sound n) (guarded_fails n) t₁.right_standing (by omega) h
  · exact .inl h
  · exact .inr ⟨.branch g .nil, t₁.refuses h (by simp [Phrase.events])⟩
  have t := t₁.trans t₂
  obtain h | ⟨p₃, t₃, h⟩ := fire_bind_error t.right_standing h
  · exact .inr ⟨.branch g .nil, t.refuses h (by simp [Phrase.events])⟩
  have hle := (t₂.trans t₃).left_le
  have t := t.trans t₃
  obtain (h | ⟨b, h⟩) | ⟨b, p₄, t₄, h⟩ :=
    part_bind_error hsound hfails t.right_standing (by omega) h
  · exact .inl h
  · exact .inr ⟨.branch g b, t.refuses h (by simp [Phrase.events])⟩
  have hle' := t₄.left_le
  have t := t.trans t₄
  obtain h' | ⟨found, p₅, h₅, h'⟩ := EStateM.bind_eq_error.mp h
  · exact (take?_ne_error h').elim
  obtain ⟨rfl, t₅⟩ | ⟨rfl, -, rfl⟩ := take?_eq_ok t.right_standing (by simp) h₅
  · have hle'' := t₅.left_le
    have t := t.trans t₅
    obtain h | ⟨p₆, t₆, h⟩ := fire_bind_error t.right_standing h'
    · exact .inr ⟨.choice g b .nil, t.refuses h (by simp [Phrase.events])⟩
    have hsix := t₆.left_le
    have t := t.trans t₆
    obtain (h | ⟨c, h⟩) | ⟨c, p₇, t₇, h⟩ :=
      part_bind_error hsound hfails t.right_standing (by omega) h
    · exact .inl h
    · exact .inr ⟨.choice g b c, t.refuses h (by simp [Phrase.events])⟩
    have t := t.trans t₇
    obtain h | ⟨p₈, t₈, h⟩ := fire_bind_error t.right_standing h
    · exact .inr ⟨.choice g b c, t.refuses h (by simp [Phrase.events])⟩
    · exact .inl (stuck_of_expect h)
  · obtain h | ⟨p₆, t₆, h⟩ := fire_bind_error t.right_standing h'
    · exact .inr ⟨.branch g b, t.refuses h (by simp [Phrase.events])⟩
    · exact .inl (stuck_of_expect h)

private theorem cycle_fails (hp : Standing eof p) (hn : p.left ≤ n + 1)
    (h : cycle body n p = .error e q) : Stuck e ∨ ∃ s : Statement, Refuses e s.events p.sink := by
  obtain h | ⟨p₁, t₁, h⟩ := expect_bind_error hp (by simp) h
  · exact .inl h
  have hone := t₁.left_token
  obtain h | ⟨p₂, t₂, h⟩ := fire_bind_error t₁.right_standing h
  · exact .inr ⟨.loop .nil (.zero .whole), t₁.refuses h (by simp [Phrase.events])⟩
  have hle := t₂.left_le
  have t := t₁.trans t₂
  obtain (h | ⟨b, h⟩) | ⟨b, p₃, t₃, h⟩ :=
    part_bind_error hsound hfails t.right_standing (by omega) h
  · exact .inl h
  · exact .inr ⟨.loop b (.zero .whole), t.refuses h (by simp [Phrase.events])⟩
  obtain h | ⟨p₄, t₄, h⟩ := expect_bind_error t₃.right_standing (by simp) h
  · exact .inl h
  have hle' := (t₃.trans t₄).left_le
  have t := (t.trans t₃).trans t₄
  obtain (h | ⟨g, h⟩) | ⟨g, p₅, t₅, h⟩ :=
    part_bind_error (guarded_sound n) (guarded_fails n) t.right_standing (by omega) h
  · exact .inl h
  · exact .inr ⟨.loop b g, t.refuses h (by simp [Phrase.events])⟩
  have t := t.trans t₅
  obtain h | ⟨p₆, t₆, h⟩ := fire_bind_error t.right_standing h
  · exact .inr ⟨.loop b g, t.refuses h (by simp [Phrase.events])⟩
  · exact .inl (stuck_of_expect h)

end

private theorem call_fails (hp : Standing eof p) (hn : p.left ≤ n + 1) (h : call n p = .error e q) :
    Stuck e ∨ ∃ s : Statement, Refuses e s.events p.sink := by
  obtain h | ⟨f, p₁, t₁, h⟩ := name_bind_error hp h
  · exact .inl h
  have hone := t₁.left_token
  obtain h | ⟨p₂, t₂, h⟩ := fire_bind_error t₁.right_standing h
  · exact .inr ⟨.call f [], t₁.refuses h (by simp [Phrase.events])⟩
  obtain h | ⟨p₃, t₃, h⟩ := expect_bind_error t₂.right_standing (by simp) h
  · exact .inl h
  have t := (t₁.trans t₂).trans t₃
  obtain h | ⟨p₄, t₄, h⟩ := fire_bind_error t.right_standing h
  · exact .inr ⟨.call f [], t.refuses h (by simp [Phrase.events])⟩
  have hle := ((t₂.trans t₃).trans t₄).left_le
  have t := t.trans t₄
  obtain (h | ⟨es, h⟩) | ⟨es, p₅, t₅, h⟩ :=
    optionalItems_bind_error (closed_sound (expression_sound n) .argument)
      (closed_fails (expression_sound n) (expression_fails n) .argument) t.right_standing
        (by omega) h
  · exact .inl h
  · exact .inr ⟨.call f es, t.refuses h (by simp [Phrase.events])⟩
  have t := t.trans t₅
  obtain h | ⟨p₆, t₆, h⟩ := fire_bind_error t.right_standing h
  · exact .inr ⟨.call f es, t.refuses h (by simp [Phrase.events])⟩
  · exact .inl (stuck_of_expect h)

private theorem printItem_fails (n : Nat) :
    Fails eof n (printItem n : Parse σ Unit) Item.events := by
  intro p q e hp hn h
  rw [printItem, EStateM.bind_of_ok (peek_eq p)] at h
  cases hk : p.cursor.peek.kind with
  | string s =>
    rw [hk] at h
    obtain h | ⟨p₁, t₁, h⟩ := advance_fire_bind_error hp (by simp) hk h
    · exact .inr ⟨.text s, h.append [.printItem]⟩
    · exact .inr ⟨.text s, t₁.refuses (refuses_of_fire h) (by simp [Item.events])⟩
  | _ =>
    rw [hk] at h
    obtain h | ⟨x, h⟩ :=
      closed_fails (expression_sound n) (expression_fails n) .printItem _ _ _ hp hn h
    · exact .inl h
    · exact .inr ⟨.value x, h⟩

private theorem print_fails (hp : Standing eof p) (hn : p.left ≤ n + 1)
    (h : print n p = .error e q) : Stuck e ∨ ∃ s : Statement, Refuses e s.events p.sink := by
  obtain h | ⟨p₁, t₁, h⟩ := expect_bind_error hp (by simp) h
  · exact .inl h
  have hone := t₁.left_token
  obtain h | ⟨p₂, t₂, h⟩ := expect_bind_error t₁.right_standing (by simp) h
  · exact .inl h
  have hle := t₂.left_le
  have t := t₁.trans t₂
  obtain (h | ⟨is, h⟩) | ⟨is, p₃, t₃, h⟩ := part_bind_error (items_sound (printItem_sound n) n)
    (items_fails (printItem_sound n) (printItem_fails n)) t.right_standing (by omega) h
  · exact .inl h
  · exact .inr ⟨.print is.1 is.2, t.refuses h (by simp [Phrase.events])⟩
  obtain h | ⟨p₄, t₄, h⟩ := expect_bind_error t₃.right_standing (by simp) h
  · exact .inl h
  · exact .inl (stuck_of_expect h)

private theorem statement_fails (n : Nat) :
    Fails eof n (Parse.statement n : Parse σ Unit) (Phrase.events (r := .statement)) := by
  induction n with
  | zero =>
    intro p q e hp hn h
    exact absurd hn (Nat.not_le.mpr hp.left_pos)
  | succ n ih =>
    intro p q e hp hn h
    have hfails := block_fails (statement_sound n) ih
    rw [Parse.statement, EStateM.bind_of_ok (peek_eq p)] at h
    cases hk : p.cursor.peek.kind with
    | keyword w =>
      rw [hk] at h
      cases w with
      | cond => exact condition_fails (block_sound (statement_sound n) n) hfails hp hn h
      | loop => exact cycle_fails (block_sound (statement_sound n) n) hfails hp hn h
      | print => exact print_fails hp hn h
      | _ => exact .inl (stuck_of_wanted h)
    | identifier x =>
      rw [hk] at h
      obtain h | ⟨p', p'', hp', h⟩ := EStateM.bind_eq_error.mp h
      · cases h
      cases hp'
      -- Where the second token fits neither an assignment nor a call, the parser asks for one of
      -- both.
      have other (h : (do advance; wanted "`=` or `(`" : Parse σ Unit) p = .error e q) :
          Stuck e ∨ ∃ s : Statement, Refuses e s.events p.sink := by
        obtain h | ⟨_, p₁, h₁, h⟩ := EStateM.bind_eq_error.mp h
        · cases h
        · exact .inl (stuck_of_wanted h)
      cases hs : p.cursor.second?.map Token.kind with
      | none => rw [hs] at h; exact other h
      | some k =>
        rw [hs] at h
        cases k with
        | sign s =>
          cases s with
          | assign => exact assignment_fails hp hn h
          | leftParen => exact call_fails hp hn h
          | _ => exact other h
        | _ => exact other h
    | _ => rw [hk] at h; exact .inl (stuck_of_wanted h)

end

/-! ## Functions and programs -/

private theorem parameter_fails (n : Nat) :
    Fails eof n (parameter : Parse σ Unit) fun a : Parameter => [a.event] := by
  intro p q e hp hn h
  obtain h | ⟨x, p₁, t₁, h⟩ := name_bind_error hp h
  · exact .inl h
  obtain h | ⟨p₂, t₂, h⟩ := expect_bind_error t₁.right_standing (by simp) h
  · exact .inl h
  obtain h | ⟨τ, p₃, t₃, h⟩ := typeName_bind_error t₂.right_standing h
  · exact .inl h
  · exact .inr ⟨⟨x, τ⟩,
      ((t₁.trans t₂).trans t₃).refuses (refuses_of_fire h) (by simp [Parameter.event])⟩

private theorem function_fails (n : Nat) :
    Fails eof n (function n : Parse σ Unit) Function.events := by
  intro p q e hp hn h
  obtain h | ⟨marked, p₀, h₀, h⟩ := EStateM.bind_eq_error.mp h
  · exact (take?_ne_error h).elim
  have t₀ : Takes eof p p₀ (if marked then [.keyword .func] else []) [] := by
    obtain ⟨rfl, t⟩ | ⟨rfl, -, rfl⟩ := take?_eq_ok hp (by simp) h₀
    · exact t
    · exact .refl hp
  obtain h | ⟨p₁, t₁, h⟩ := expect_bind_error t₀.right_standing (by simp) h
  · exact .inl h
  obtain h | ⟨x, p₂, t₂, h⟩ := name_bind_error t₁.right_standing h
  · exact .inl h
  have t := (t₀.trans t₁).trans t₂
  obtain h | ⟨p₃, t₃, h⟩ := fire_bind_error t.right_standing h
  · exact .inr ⟨⟨marked, x, [], [], .nil⟩, t.refuses h (by simp [Function.events])⟩
  obtain h | ⟨p₄, t₄, h⟩ := expect_bind_error t₃.right_standing (by simp) h
  · exact .inl h
  have t := (t.trans t₃).trans t₄
  have hle := t.left_le
  obtain (h | ⟨as, h⟩) | ⟨as, p₅, t₅, h⟩ :=
    optionalItems_bind_error parameter_sound (parameter_fails n) t.right_standing (by omega) h
  · exact .inl h
  · exact .inr ⟨⟨marked, x, as, [], .nil⟩, t.refuses h (by
      simp [Function.events, List.map_eq_flatMap])⟩
  obtain h | ⟨p₆, t₆, h⟩ := expect_bind_error t₅.right_standing (by simp) h
  · exact .inl h
  have t := (t.trans t₅).trans t₆
  have hle := t.left_le
  obtain (h | ⟨ds, h⟩) | ⟨ds, p₇, t₇, h⟩ :=
    part_bind_error (declarations_sound n) (declarations_fails n) t.right_standing (by omega) h
  · exact .inl h
  · exact .inr ⟨⟨marked, x, as, ds, .nil⟩, t.refuses h (by
      simp [Function.events, List.map_eq_flatMap])⟩
  have t := t.trans t₇
  obtain h | ⟨p₈, t₈, h⟩ := fire_bind_error t.right_standing h
  · exact .inr ⟨⟨marked, x, as, ds, .nil⟩, t.refuses h (by
      simp [Function.events, List.map_eq_flatMap])⟩
  have t := t.trans t₈
  have hle := t.left_le
  obtain (h | ⟨b, h⟩) | ⟨b, p₉, t₉, h⟩ := part_bind_error (block_sound (statement_sound n) n)
    (block_fails (statement_sound n) (statement_fails n)) t.right_standing (by omega) h
  · exact .inl h
  · exact .inr ⟨⟨marked, x, as, ds, b⟩, t.refuses h (by
      simp [Function.events, List.map_eq_flatMap])⟩
  obtain h | ⟨p₁₀, t₁₀, h⟩ := expect_bind_error t₉.right_standing (by simp) h
  · exact .inl h
  obtain h | ⟨p₁₁, t₁₁, h⟩ := expect_bind_error t₁₀.right_standing (by simp) h
  · exact .inl h
  have t := ((t.trans t₉).trans t₁₀).trans t₁₁
  exact .inr ⟨⟨marked, x, as, ds, b⟩, t.refuses (refuses_of_fire h) (by
    simp [Function.events, List.map_eq_flatMap])⟩

private theorem functions_fails (n : Nat) :
    Fails eof n (functions n : Parse σ Unit) fun fs : List Function =>
      fs.flatMap Function.events := by
  induction n with
  | zero =>
    intro p q e hp hn h
    exact absurd hn (Nat.not_le.mpr hp.left_pos)
  | succ n ih =>
    intro p q e hp hn h
    rw [functions, EStateM.bind_of_ok (sees_eq _ p), EStateM.bind_of_ok (sees_eq _ p)] at h
    split at h
    · obtain (h | ⟨f, h⟩) | ⟨f, p₁, t₁, h⟩ :=
        part_bind_error (function_sound (n + 1)) (function_fails (n + 1)) hp hn h
      · exact .inl h
      · exact .inr ⟨[f], by simpa using h⟩
      have hlt : p₁.left < p.left := by
        have := t₁.left_eq
        simp [Function.tokens] at this
        omega
      obtain h | ⟨fs, h⟩ := ih _ _ _ t₁.right_standing (by omega) h
      · exact .inl h
      · exact .inr ⟨f :: fs, t₁.refuses h (by simp)⟩
    · cases h

/-- A parser that fails on a program is stuck, or the sink refuses an event of some program. -/
theorem programWithin_fails (n : Nat) :
    Fails eof n (programWithin n : Parse σ Unit) Program.events := by
  intro p q e hp hn h
  obtain h | ⟨p₁, t₁, h⟩ := expect_bind_error hp (by simp) h
  · exact .inl h
  obtain h | ⟨x, p₂, t₂, h⟩ := name_bind_error t₁.right_standing h
  · exact .inl h
  have t := t₁.trans t₂
  obtain h | ⟨p₃, t₃, h⟩ := fire_bind_error t.right_standing h
  · exact .inr ⟨⟨x, [], [], .nil⟩, t.refuses h (by simp [Program.events])⟩
  obtain h | ⟨p₄, t₄, h⟩ := expect_bind_error t₃.right_standing (by simp) h
  · exact .inl h
  have t := (t.trans t₃).trans t₄
  have hle := t.left_le
  obtain (h | ⟨ds, h⟩) | ⟨ds, p₅, t₅, h⟩ :=
    part_bind_error (declarations_sound n) (declarations_fails n) t.right_standing (by omega) h
  · exact .inl h
  · exact .inr ⟨⟨x, ds, [], .nil⟩, t.refuses h (by simp [Program.events])⟩
  have t := t.trans t₅
  have hle := t.left_le
  obtain (h | ⟨fs, h⟩) | ⟨fs, p₆, t₆, h⟩ :=
    part_bind_error (functions_sound n) (functions_fails n) t.right_standing (by omega) h
  · exact .inl h
  · exact .inr ⟨⟨x, ds, fs, .nil⟩, t.refuses h (by simp [Program.events])⟩
  obtain h | ⟨p₇, t₇, h⟩ := expect_bind_error t₆.right_standing (by simp) h
  · exact .inl h
  have t := (t.trans t₆).trans t₇
  obtain h | ⟨p₈, t₈, h⟩ := fire_bind_error t.right_standing h
  · exact .inr ⟨⟨x, ds, fs, .nil⟩, t.refuses h (by simp [Program.events])⟩
  have t := t.trans t₈
  have hle := t.left_le
  obtain (h | ⟨b, h⟩) | ⟨b, p₉, t₉, h⟩ := part_bind_error (block_sound (statement_sound n) n)
    (block_fails (statement_sound n) (statement_fails n)) t.right_standing (by omega) h
  · exact .inl h
  · exact .inr ⟨⟨x, ds, fs, b⟩, t.refuses h (by simp [Program.events])⟩
  obtain h | ⟨p₁₀, t₁₀, h⟩ := expect_bind_error t₉.right_standing (by simp) h
  · exact .inl h
  have t := (t.trans t₉).trans t₁₀
  obtain h | ⟨p₁₁, t₁₁, h⟩ := fire_bind_error t.right_standing h
  · exact .inr ⟨⟨x, ds, fs, b⟩, t.refuses h (by simp [Program.events])⟩
  obtain h | ⟨p₁₂, p₁₃, h₁₂, h⟩ := EStateM.bind_eq_error.mp h
  · cases h
  cases h₁₂
  split at h
  · exact .inl (stuck_of_wanted h)
  · cases h

end Parse

/-- A run of the parser over tokens with an end marker that fails is stuck at a token, or the sink
refuses an event of some program. -/
theorem Parser.run_eq_error {σ : Type} [EventSink σ] (eof : EndMarker) {ts : List Token} {s : σ}
    {q : Parser σ} {e : Error} (h : run (.ofTokens (ts ++ [eof.val])) s = (.error e, q)) :
    Parse.Stuck e ∨ ∃ a : Syntax.Program, EventSink.Refuses e a.events s := by
  have hstart : (⟨.ofTokens (ts ++ [eof.val]), s⟩ : Parser σ) = before eof ts s := by
    simp [Cursor.ofTokens, before]
  have hprogram : Parse.program (before eof ts s) =
      Parse.programWithin ((before eof ts s).left + 1) (before eof ts s) := rfl
  rw [run, hstart, hprogram] at h
  cases hrun : Parse.programWithin ((before eof ts s).left + 1) (before eof ts s) with
  | ok u p =>
    rw [hrun] at h
    cases h
  | error e' p =>
    rw [hrun] at h
    cases h
    exact Parse.programWithin_fails _ _ _ _ ⟨ts, s, rfl⟩ (Nat.le_succ _) hrun

end Quadlet
