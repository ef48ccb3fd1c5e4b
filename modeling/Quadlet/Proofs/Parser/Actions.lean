import Quadlet.Event.Parser
import Quadlet.Proofs.Effects

/-!
# Single actions of the parser

What a part of the parser does is said by the kinds of the tokens it takes and by the events
it tells. `Takes` relates two places of a parser in this way, and splits along both rows at
once. Main statements: every single action succeeds exactly if what it takes is there and the
sink takes what it tells.
-/

namespace Quadlet

namespace EventSink

variable {σ : Type} [EventSink σ]

/-- Tells events to a sink one after the other. -/
def feed (es : List Event) : EStateM Error σ Unit := es.forM accept

/-- No events change nothing. -/
theorem feed_nil (s : σ) : feed [] s = .ok () s := rfl

/-- The first event is told first. -/
theorem feed_cons (e : Event) (es : List Event) :
    (feed (e :: es) : EStateM Error σ Unit) = (do accept e; feed es) := rfl

/-- A row of events is taken exactly if its first event and then the others are. -/
theorem feed_cons_eq_ok {e : Event} {es : List Event} {s u : σ} :
    feed (e :: es) s = .ok () u ↔ ∃ t, accept e s = .ok () t ∧ feed es t = .ok () u := by
  rw [feed_cons, EStateM.bind_eq_ok]
  constructor
  · rintro ⟨_, t, he, hes⟩
    exact ⟨t, he, hes⟩
  · rintro ⟨t, he, hes⟩
    exact ⟨(), t, he, hes⟩

/-- One event is told as a row of its own. -/
theorem feed_singleton_eq_ok {e : Event} {s t : σ} :
    feed [e] s = .ok () t ↔ accept e s = .ok () t := by
  rw [feed_cons_eq_ok]
  constructor
  · rintro ⟨u, he, hu⟩
    cases hu
    exact he
  · intro he
    exact ⟨t, he, rfl⟩

/-- Two rows of events are taken exactly if both are, one after the other. -/
theorem feed_append_eq_ok {es fs : List Event} {s u : σ} :
    feed (es ++ fs) s = .ok () u ↔ ∃ t, feed es s = .ok () t ∧ feed fs t = .ok () u := by
  induction es generalizing s with
  | nil => simp [feed_nil]
  | cons e es ih =>
    simp only [List.cons_append, feed_cons_eq_ok, ih]
    constructor
    · rintro ⟨t, he, t', hes, hfs⟩
      exact ⟨t', ⟨t, he, hes⟩, hfs⟩
    · rintro ⟨t', ⟨t, he, hes⟩, hfs⟩
      exact ⟨t, he, t', hes, hfs⟩

end EventSink

/-- A token that ends a list of tokens. -/
abbrev EndMarker := {t : Token // t.kind = .endOfFile}

namespace Parser

open EventSink

variable {σ : Type}

/-- A parser with these tokens left before the end marker. -/
def before (eof : EndMarker) (ts : List Token) (s : σ) : Parser σ :=
  ⟨⟨ts ++ [eof.val], eof.val⟩, s⟩

/-- The tokens of a parser end in the end marker. -/
def Standing (eof : EndMarker) (p : Parser σ) : Prop := ∃ ts s, p = before eof ts s

/-- The kind of the next token. -/
def next (p : Parser σ) : Token.Kind := p.cursor.peek.kind

/-- The number of tokens left, the end marker included. -/
def left (p : Parser σ) : Nat := p.cursor.rest.length

/-- From one place to the other a parser takes tokens of these kinds and tells these events. -/
def Takes [EventSink σ] (eof : EndMarker) (p q : Parser σ) (ks : List Token.Kind)
    (es : List Event) : Prop :=
  ∃ pre rest s s', pre.map Token.kind = ks ∧ feed es s = .ok () s' ∧
    p = before eof (pre ++ rest) s ∧ q = before eof rest s'

variable {eof : EndMarker} {p q r : Parser σ} {t : Token} {ts us : List Token} {s u : σ}
variable {k : Token.Kind} {ks ls : List Token.Kind} {es fs : List Event}

theorem before_inj (h : before eof ts s = before eof us u) : ts = us ∧ s = u := by
  simp only [before, mk.injEq, Cursor.mk.injEq, List.append_cancel_right_eq, and_true] at h
  exact h

private theorem next_before_nil : (before eof [] s).next = .endOfFile := eof.property

theorem next_before_cons : (before eof (t :: ts) s).next = t.kind := rfl

theorem left_before : (before eof ts s).left = ts.length + 1 := by
  simp [left, before]

variable [EventSink σ]

namespace Takes

theorem left_standing (h : Takes eof p q ks es) : Standing eof p := by
  obtain ⟨pre, rest, s, s', -, -, hp, -⟩ := h
  exact ⟨_, _, hp⟩

theorem right_standing (h : Takes eof p q ks es) : Standing eof q := by
  obtain ⟨pre, rest, s, s', -, -, -, hq⟩ := h
  exact ⟨_, _, hq⟩

/-- Taking nothing and telling nothing is staying. -/
theorem refl (h : Standing eof p) : Takes eof p p [] [] := by
  obtain ⟨ts, s, rfl⟩ := h
  exact ⟨[], ts, s, s, rfl, rfl, rfl, rfl⟩

/-- Every token taken is one token less. -/
theorem left_eq (h : Takes eof p q ks es) : p.left = ks.length + q.left := by
  obtain ⟨pre, rest, s, s', hks, -, rfl, rfl⟩ := h
  simp only [left_before, ← hks, List.length_append, List.length_map]
  omega

/-- One token taken is one token less. -/
theorem left_token (h : Takes eof p q [k] es) : p.left = q.left + 1 := by
  rw [h.left_eq, List.length_singleton, Nat.add_comm]

/-- The first kind of token that is taken is the next one. -/
theorem next_eq (h : Takes eof p q (k :: ks) es) : p.next = k := by
  obtain ⟨pre, rest, s, s', hks, -, rfl, rfl⟩ := h
  cases pre with
  | nil => cases hks
  | cons t pre =>
    rw [List.map_cons, List.cons.injEq] at hks
    exact hks.1

/-- Where nothing is taken the next token stays. -/
theorem next_of_nil (h : Takes eof p q [] es) : p.next = q.next := by
  obtain ⟨pre, rest, s, s', hks, -, rfl, rfl⟩ := h
  rw [List.map_eq_nil_iff] at hks
  subst hks
  cases rest <;> rfl

end Takes

/-- Two rows are taken and told one after the other. -/
theorem takes_append :
    Takes eof p r (ks ++ ls) (es ++ fs) ↔ ∃ q, Takes eof p q ks es ∧ Takes eof q r ls fs := by
  constructor
  · rintro ⟨pre, rest, s, u, hks, hes, rfl, rfl⟩
    obtain ⟨pre, mid, rfl, hpre, hmid⟩ := List.map_eq_append_iff.mp hks
    obtain ⟨s', hes, hfs⟩ := feed_append_eq_ok.mp hes
    refine ⟨before eof (mid ++ rest) s', ⟨pre, mid ++ rest, s, s', hpre, hes, ?_, rfl⟩,
      mid, rest, s', u, hmid, hfs, rfl, rfl⟩
    rw [List.append_assoc]
  · rintro ⟨q, ⟨pre, rest, s, s', hpre, hes, rfl, rfl⟩, mid, rest', t, u, hmid, hfs, hq, rfl⟩
    obtain ⟨rfl, rfl⟩ := before_inj hq
    refine ⟨pre ++ mid, rest', s, u, ?_, feed_append_eq_ok.mpr ⟨s', hes, hfs⟩, ?_, rfl⟩
    · rw [List.map_append, hpre, hmid]
    · rw [List.append_assoc]

/-- What is taken and told in two parts. -/
theorem Takes.trans (h : Takes eof p q ks es) (h' : Takes eof q r ls fs) :
    Takes eof p r (ks ++ ls) (es ++ fs) := takes_append.mpr ⟨q, h, h'⟩

/-- A first token and the others are taken one after the other. -/
theorem takes_cons :
    Takes eof p r (k :: ks) es ↔ ∃ q, Takes eof p q [k] [] ∧ Takes eof q r ks es := by
  change Takes eof p r ([k] ++ ks) ([] ++ es) ↔ _
  exact takes_append

/-- A first event and the others are told one after the other. -/
theorem takes_event {e : Event} :
    Takes eof p r ks (e :: es) ↔ ∃ q, Takes eof p q [] [e] ∧ Takes eof q r ks es := by
  change Takes eof p r ([] ++ ks) ([e] ++ es) ↔ _
  exact takes_append

/-- A first token with its event, and the others. -/
theorem takes_cons_event {e : Event} :
    Takes eof p r (k :: ks) (e :: es) ↔ ∃ q, Takes eof p q [k] [e] ∧ Takes eof q r ks es := by
  change Takes eof p r ([k] ++ ks) ([e] ++ es) ↔ _
  exact takes_append

/-- The last event is told behind all tokens. -/
theorem takes_close {e : Event} :
    Takes eof p r ks (es ++ [e]) ↔ ∃ q, Takes eof p q ks es ∧ Takes eof q r [] [e] := by
  rw [← takes_append, List.append_nil]

/-- Nothing is taken and told only from a place to itself. -/
theorem takes_nil : Takes eof p q [] [] ↔ Standing eof p ∧ q = p := by
  constructor
  · rintro ⟨pre, rest, s, s', hks, hes, rfl, rfl⟩
    rw [List.map_eq_nil_iff] at hks
    subst hks
    cases hes
    exact ⟨⟨_, _, rfl⟩, rfl⟩
  · rintro ⟨h, rfl⟩
    exact Takes.refl h

/-- One token is taken where it is the next one. -/
theorem takes_token (h : Standing eof p) (hk : k ≠ .endOfFile) :
    Takes eof p q [k] [] ↔ p.next = k ∧ q = { p with cursor := p.cursor.advance } := by
  obtain ⟨ts, s, rfl⟩ := h
  have moved {t : Token} {ts : List Token} (ht : t.kind ≠ .endOfFile) :
      (⟨(before eof (t :: ts) s).cursor.advance, s⟩ : Parser σ) = before eof ts s := by
    have hend : (before eof (t :: ts) s).cursor.atEnd = false := by
      change (t.kind == .endOfFile) = false
      exact beq_eq_false_iff_ne.mpr ht
    rw [Cursor.advance, hend]
    rfl
  constructor
  · intro h
    refine ⟨h.next_eq, ?_⟩
    obtain ⟨pre, rest, s₁, s₂, hks, hes, hp, rfl⟩ := h
    obtain ⟨rfl, rfl⟩ := before_inj hp
    cases hes
    obtain ⟨t, rfl, rfl⟩ := List.map_eq_singleton_iff.mp hks
    exact (moved hk).symm
  · rintro ⟨hn, rfl⟩
    cases ts with
    | nil => exact absurd (hn.symm.trans next_before_nil) hk
    | cons t ts =>
      have ht : t.kind = k := hn
      exact ⟨[t], ts, s, s, by simp [ht], rfl, rfl, moved (ht ▸ hk)⟩

end Parser

namespace Parse

open EventSink Parser

variable {σ : Type} {eof : EndMarker} {p q : Parser σ} {k : Token.Kind}

/-- Looking at the next token changes nothing. -/
theorem peek_eq (p : Parser σ) : peek p = .ok p.cursor.peek p := rfl

/-- Looking for a kind of token changes nothing. -/
theorem sees_eq (k : Token.Kind) (p : Parser σ) : sees k p = .ok (p.next == k) p := rfl

/-- A kind of token is not taken where another one is seen. -/
theorem take?_of_ne (h : p.next ≠ k) : take? k p = .ok false p := by
  rw [take?, EStateM.bind_of_ok (sees_eq k p), beq_eq_false_iff_ne.mpr h]
  rfl

/-- Asking for something else never succeeds. -/
theorem wanted_ne_ok {α : Type} (what : String) (p q : Parser σ) (a : α) :
    wanted what p ≠ .ok a q := by
  intro h
  cases h

/-- Giving up never succeeds. -/
theorem endless_ne_ok {α : Type} (p q : Parser σ) (a : α) : endless p ≠ .ok a q := by
  intro h
  cases h

variable [EventSink σ]

/-- The next token is taken by moving behind it. -/
theorem advance_of_takes (hk : k ≠ .endOfFile) (h : Takes eof p q [k] []) :
    advance p = .ok () q := by
  rw [((takes_token h.left_standing hk).mp h).2]
  rfl

/-- Moving behind a token takes it. -/
theorem takes_of_advance (h : Standing eof p) (hk : k ≠ .endOfFile) (hn : p.next = k)
    (ha : advance p = .ok () q) : Takes eof p q [k] [] := by
  injection ha with _ hq
  exact (takes_token h hk).mpr ⟨hn, hq.symm⟩

/-- A kind of token is taken where it is seen. -/
theorem take?_of_takes (hk : k ≠ .endOfFile) (h : Takes eof p q [k] []) :
    take? k p = .ok true q := by
  rw [take?, EStateM.bind_of_ok (sees_eq k p), h.next_eq, beq_self_eq_true]
  exact EStateM.bind_of_ok (advance_of_takes hk h)

/-- A kind of token is taken or another one stands there. -/
theorem take?_eq_ok (hp : Standing eof p) (hk : k ≠ .endOfFile) {b : Bool}
    (h : take? k p = .ok b q) :
    (b = true ∧ Takes eof p q [k] []) ∨ (b = false ∧ p.next ≠ k ∧ q = p) := by
  by_cases hn : p.next = k
  · left
    have ht := (takes_token hp hk).mpr ⟨hn, rfl⟩
    rw [take?_of_takes hk ht] at h
    injection h with hb hq
    exact ⟨hb.symm, hq ▸ ht⟩
  · right
    rw [take?_of_ne hn] at h
    injection h with hb hq
    exact ⟨hb.symm, hn, hq.symm⟩

/-- An expected token is taken exactly if it is the next one. -/
theorem expect_iff (hp : Standing eof p) (hk : k ≠ .endOfFile) :
    expect k p = .ok () q ↔ Takes eof p q [k] [] := by
  rw [expect, EStateM.bind_of_ok (sees_eq k p)]
  by_cases hn : p.next = k
  · rw [hn, beq_self_eq_true]
    constructor
    · intro h
      exact takes_of_advance hp hk hn h
    · intro h
      exact advance_of_takes hk h
  · rw [beq_eq_false_iff_ne.mpr hn]
    constructor
    · intro h
      obtain ⟨r, r', -, h⟩ := EStateM.bind_eq_ok.mp h
      split at h
      · cases h
      · exact (wanted_ne_ok _ _ _ _ h).elim
    · intro h
      exact absurd h.next_eq hn

/-- A name is taken exactly if one is next. -/
theorem name_iff (hp : Standing eof p) {x : String} :
    name p = .ok x q ↔ Takes eof p q [.identifier x] [] := by
  rw [name, EStateM.bind_of_ok (peek_eq p)]
  constructor
  · intro h
    cases hn : p.cursor.peek.kind with
    | identifier y =>
      rw [hn] at h
      obtain ⟨_, r, ha, h⟩ := EStateM.bind_eq_ok.mp h
      injection h with hx hq
      subst hx hq
      exact takes_of_advance hp (by simp) hn ha
    | _ => rw [hn] at h; cases h
  · intro h
    have hn : p.cursor.peek.kind = .identifier x := h.next_eq
    rw [hn]
    exact EStateM.bind_of_ok (advance_of_takes (by simp) h)

/-- An event is told exactly if the sink takes it. -/
theorem fire_iff (hp : Standing eof p) {e : Event} :
    fire e p = .ok () q ↔ Takes eof p q [] [e] := by
  obtain ⟨ts, s, rfl⟩ := hp
  constructor
  · intro h
    simp only [fire, before] at h
    split at h
    · next s' ha =>
      injection h with _ hq
      exact ⟨[], ts, s, s', rfl, feed_singleton_eq_ok.mpr ha, rfl, hq.symm⟩
    · cases h
  · rintro ⟨pre, rest, s₁, s₂, hks, hes, hp, rfl⟩
    obtain ⟨rfl, rfl⟩ := before_inj hp
    rw [List.map_eq_nil_iff] at hks
    subst hks
    have ha := feed_singleton_eq_ok.mp hes
    simp only [fire, before, ha]
    rfl

end Parse

end Quadlet
