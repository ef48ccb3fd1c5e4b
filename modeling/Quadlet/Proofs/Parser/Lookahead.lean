import Quadlet.Proofs.Parser.Completeness
import Quadlet.Proofs.Parser.Refusal

/-!
# The parser looks no further than the token it blames

Two lists of tokens have the same beginning and differ from some token on. A part of the parser that
stops before this token, or at it, has done the same on both. So where it is stuck on one list it
fails on the other. The token itself may differ too, as long as no question of the parser tells the
two apart: this is how an end marker compares with a token that only a type or an assignment asks
for. The statements again follow the text of the parser.
-/

namespace Quadlet

namespace Parser

/-- The tokens of a list from one of them on, and the last token of the list. -/
structure Tail where
  head : Token
  more : List Token
  last : Token

/-- A parser with these tokens left before a tail. -/
def facing {σ : Type} (u : Tail) (ts : List Token) (s : σ) : Parser σ :=
  ⟨⟨ts ++ u.head :: u.more, u.last⟩, s⟩

end Parser

namespace Parse

open EventSink Quadlet.Parser

variable {σ α β : Type}

/-! ## Moving forward -/

/-- The place where an action stops. -/
def stop : EStateM.Result Error (Parser σ) α → Parser σ
  | .ok _ q => q
  | .error _ q => q

/-- An action never goes back. -/
def Forward (P : Parse σ α) : Prop := ∀ p, (stop (P p)).left ≤ p.left

private theorem Forward.bind {P : Parse σ α} {f : α → Parse σ β} (hP : Forward P)
    (hf : ∀ a, Forward (f a)) : Forward (P >>= f) := by
  intro p
  have hp := hP p
  cases hr : P p with
  | error e q =>
    rw [hr] at hp
    rw [EStateM.bind_of_error hr]
    exact hp
  | ok a q =>
    rw [hr] at hp
    rw [EStateM.bind_of_ok hr]
    exact Nat.le_trans (hf a q) hp

private theorem forward_pure (a : α) : Forward (pure a : Parse σ α) := fun _ => Nat.le_refl _

private theorem forward_throw (e : Error) : Forward (throw e : Parse σ α) := fun _ => Nat.le_refl _

private theorem forward_wanted (what : String) : Forward (wanted what : Parse σ α) :=
  fun _ => Nat.le_refl _

private theorem forward_endless : Forward (endless : Parse σ α) := fun _ => Nat.le_refl _

private theorem forward_peek : Forward (peek : Parse σ Token) := fun _ => Nat.le_refl _

private theorem forward_sees (k : Token.Kind) : Forward (sees k : Parse σ Bool) :=
  fun _ => Nat.le_refl _

private theorem forward_get : Forward (get : Parse σ (Parser σ)) := fun _ => Nat.le_refl _

private theorem forward_advance : Forward (advance : Parse σ Unit) := by
  intro p
  change p.cursor.advance.rest.length ≤ p.cursor.rest.length
  rw [Cursor.advance]
  split
  · exact Nat.le_refl _
  · simp

private theorem forward_fire [EventSink σ] (v : Event) : Forward (fire v : Parse σ Unit) := by
  intro p
  rw [fire]
  split <;> exact Nat.le_refl _

private theorem forward_take? (k : Token.Kind) : Forward (take? k : Parse σ Bool) := by
  refine (forward_sees k).bind fun found => ?_
  cases found with
  | true => exact forward_advance.bind fun _ => forward_pure true
  | false => exact forward_pure false

private theorem forward_expect (k : Token.Kind) : Forward (expect k : Parse σ Unit) := by
  refine (forward_sees k).bind fun found => ?_
  cases found with
  | true => exact forward_advance
  | false =>
    refine forward_get.bind fun p => ?_
    cases p.cursor.atEnd with
    | true => exact forward_throw _
    | false => exact forward_wanted _

private theorem forward_name : Forward (name : Parse σ String) := by
  refine forward_peek.bind fun t => ?_
  cases t.kind with
  | identifier x => exact forward_advance.bind fun _ => forward_pure x
  | endOfFile => exact forward_throw _
  | _ => exact forward_wanted _

private theorem forward_typeName : Forward (typeName : Parse σ ValueType) := by
  refine (forward_take? _).bind fun found => ?_
  cases found with
  | true => exact forward_pure _
  | false =>
    refine (forward_take? _).bind fun found => ?_
    cases found with
    | true => exact forward_pure _
    | false => exact forward_wanted _

/-! ## Runs side by side -/

/-- The tokens that are asked for only where a type or an assignment sign has to follow. -/
def Inert (k : Token.Kind) : Prop := k = .keyword .int ∨ k = .sign .assign

/-- The tokens that no end marker and no inert token is mistaken for. -/
def Plain (k : Token.Kind) : Prop := k ≠ .endOfFile ∧ ¬Inert k

/-- Two tails start with the same kind of token, or with an end marker and an inert token. -/
def Alike (u u' : Tail) : Prop :=
  u'.head.kind = u.head.kind ∨ u.head.kind = .endOfFile ∧ Inert u'.head.kind

/-- The errors at the first token of a tail that show on the other one too. -/
def Telling (u u' : Tail) (e : Error) : Prop :=
  Stuck e ∧ (u'.head.kind = u.head.kind ∨ e = .truncated)

/-- Results of one action in front of two tails: it has done the same, unless it has gone behind the
first token of the tail. -/
inductive Like (u u' : Tail) :
    EStateM.Result Error (Parser σ) α → EStateM.Result Error (Parser σ) α → Prop where
  | past {r r' : EStateM.Result Error (Parser σ) α} (h : (stop r).left ≤ u.more.length) :
    Like u u' r r'
  | ok (a : α) (ts : List Token) (s : σ) :
    Like u u' (.ok a (facing u ts s)) (.ok a (facing u' ts s))
  | error (e e' : Error) (q q' : Parser σ) : Like u u' (.error e q) (.error e' q')
  | other {e : Error} {q : Parser σ} {r' : EStateM.Result Error (Parser σ) α}
    (h : ¬Telling u u' e) :
    Like u u' (.error e q) r'

/-- One action does in front of a tail what another does in front of another tail. -/
structure Mimics (u u' : Tail) (P P' : Parse σ α) : Prop where
  forward : Forward P
  like : ∀ ts s, Like u u' (P (facing u ts s)) (P' (facing u' ts s))

variable {u u' : Tail} {P P' : Parse σ α} {f f' : α → Parse σ β} {p p' : Parser σ}
  {ts : List Token} {s : σ} {k : Token.Kind} {n n' : Nat}

private theorem Like.bind (hP : Like u u' (P p) (P' p')) (hf : ∀ a, Mimics u u' (f a) (f' a)) :
    Like u u' ((P >>= f) p) ((P' >>= f') p') := by
  cases hr : P p with
  | ok a q =>
    rw [hr] at hP
    rw [EStateM.bind_of_ok hr]
    cases hr' : P' p' with
    | ok a' q' =>
      rw [hr'] at hP
      rw [EStateM.bind_of_ok hr']
      cases hP with
      | past h => exact .past (Nat.le_trans ((hf a).forward q) h)
      | ok a ts s => exact (hf a).like ts s
    | error e' q' =>
      rw [hr'] at hP
      cases hP with
      | past h => exact .past (Nat.le_trans ((hf a).forward q) h)
  | error e q =>
    rw [hr] at hP
    rw [EStateM.bind_of_error hr]
    cases hr' : P' p' with
    | ok a' q' =>
      rw [hr'] at hP
      cases hP with
      | past h => exact .past h
      | other h => exact .other h
    | error e' q' =>
      rw [EStateM.bind_of_error hr']
      exact .error e e' q q'

private theorem Mimics.bind (hP : Mimics u u' P P') (hf : ∀ a, Mimics u u' (f a) (f' a)) :
    Mimics u u' (P >>= f) (P' >>= f') :=
  ⟨hP.forward.bind fun a => (hf a).forward, fun ts s => (hP.like ts s).bind hf⟩

/-- The next tokens are of one kind, or an end marker faces an inert token. -/
theorem next_alike (h : Alike u u') (ts : List Token) (s : σ) :
    (facing u' ts s).next = (facing u ts s).next ∨
      ts = [] ∧ (facing u ts s).next = .endOfFile ∧ Inert (facing u' ts s).next := by
  cases ts with
  | nil => exact h.imp id fun hcut => ⟨rfl, hcut⟩
  | cons t ts => exact .inl rfl

/-- What is shown where the next tokens are of one kind and where they are not. -/
theorem Mimics.of_next (h : Alike u u') (forward : Forward P)
    (same : ∀ ts s, (facing u' ts s).next = (facing u ts s).next →
      Like u u' (P (facing u ts s)) (P' (facing u' ts s)))
    (cut : ∀ s, (facing u [] s).next = .endOfFile → Inert (facing u' [] s).next →
      Like u u' (P (facing u [] s)) (P' (facing u' [] s))) : Mimics u u' P P' := by
  refine ⟨forward, fun ts s => ?_⟩
  obtain hsame | ⟨rfl, hend, hinert⟩ := next_alike h ts s
  · exact same ts s hsame
  · exact cut s hend hinert

/-! ## Single actions -/

private theorem pure_mimics (a : α) : Mimics u u' (pure a : Parse σ α) (pure a) :=
  ⟨forward_pure a, fun ts s => .ok a ts s⟩

private theorem wanted_mimics (what : String) :
    Mimics u u' (wanted what : Parse σ α) (wanted what) :=
  ⟨forward_wanted what, fun _ _ => .error _ _ _ _⟩

/-- Running out of turns does not count as being stuck. -/
theorem endless_like {r' : EStateM.Result Error (Parser σ) α} :
    Like u u' ((endless : Parse σ α) p) r' := by
  refine .other ?_
  rintro ⟨h | ⟨_, _, _, h⟩, -⟩ <;> cases h

private theorem endless_mimics : Mimics u u' (endless : Parse σ α) P' :=
  ⟨forward_endless, fun _ _ => endless_like⟩

/-- A wrong token is not blamed where an end marker faces an inert token: only a list
that breaks off shows. -/
theorem grammar_like {position : Position} {fault : GrammarFault} {q : Parser σ}
    {r' : EStateM.Result Error (Parser σ) α} (hend : (facing u [] s).next = .endOfFile)
    (hinert : Inert (facing u' [] s).next) : Like u u' (.error (.grammar position fault) q) r' := by
  change u.head.kind = .endOfFile at hend
  change Inert u'.head.kind at hinert
  refine .other ?_
  rintro ⟨-, h | h⟩
  · rw [h, hend] at hinert
    rcases hinert with h | h <;> cases h
  · cases h

private theorem fire_mimics [EventSink σ] (v : Event) :
    Mimics u u' (fire v : Parse σ Unit) (fire v) := by
  refine ⟨forward_fire v, fun ts s => ?_⟩
  simp only [fire, facing]
  cases accept v s with
  | ok _ s' => exact .ok () ts s'
  | error e s' => exact .error _ _ _ _

private theorem advance_facing_cons {t : Token} (h : t.kind ≠ .endOfFile) :
    (facing u (t :: ts) s).cursor.advance = (facing u ts s).cursor := by
  have hend : (facing u (t :: ts) s).cursor.atEnd = false := beq_eq_false_iff_ne.mpr h
  rw [Cursor.advance, hend]
  rfl

private theorem advance_facing_nil (h : (facing u [] s).next ≠ .endOfFile) :
    (facing u [] s).cursor.advance = ⟨u.more, u.last⟩ := by
  have hend : (facing u [] s).cursor.atEnd = false := beq_eq_false_iff_ne.mpr h
  rw [Cursor.advance, hend]
  rfl

private theorem left_advance_facing_nil (h : (facing u [] s).next ≠ .endOfFile) :
    (facing u [] s).cursor.advance.rest.length ≤ u.more.length :=
  Nat.le_of_eq (congrArg (fun c => c.rest.length) (advance_facing_nil h))

/-- Moving on from a token of the common part stays abreast, and moving on
from the tail leaves it. -/
theorem advance_like (h : (facing u ts s).next ≠ .endOfFile) :
    Like u u' (advance (facing u ts s)) (advance (facing u' ts s)) := by
  cases ts with
  | nil =>
    exact .past (left_advance_facing_nil h)
  | cons t ts =>
    change Like u u' (.ok () ⟨(facing u (t :: ts) s).cursor.advance, s⟩)
      (.ok () ⟨(facing u' (t :: ts) s).cursor.advance, s⟩)
    have ht : t.kind ≠ .endOfFile := h
    rw [advance_facing_cons ht, advance_facing_cons ht]
    exact .ok () ts s

/-- A token is seen in front of both tails or of none; an inert one has to be looked
for in the common part. -/
theorem next_eq_iff (h : Alike u u') (hk : k ≠ .endOfFile)
    (hsame : Inert k → (facing u' ts s).next = (facing u ts s).next) :
    (facing u' ts s).next = k ↔ (facing u ts s).next = k := by
  obtain hnext | ⟨-, hend, hinert⟩ := next_alike h ts s
  · rw [hnext]
  · constructor
    · intro hk'
      rw [← hsame (hk' ▸ hinert), hk']
    · intro hk'
      exact absurd (hk'.symm.trans hend) hk

private theorem take?_like (h : Alike u u') (hk : k ≠ .endOfFile)
    (hsame : Inert k → (facing u' ts s).next = (facing u ts s).next) :
    Like u u' (take? k (facing u ts s)) (take? k (facing u' ts s)) := by
  have hiff := next_eq_iff h hk hsame
  by_cases hnext : (facing u ts s).next = k
  · rw [take?, EStateM.bind_of_ok (sees_eq _ _), EStateM.bind_of_ok (sees_eq _ _), hnext,
      hiff.mpr hnext, beq_self_eq_true]
    exact (advance_like (hnext ▸ hk)).bind fun _ => pure_mimics true
  · rw [take?_of_ne hnext, take?_of_ne (mt hiff.mp hnext)]
    exact .ok false ts s

private theorem take?_mimics (h : Alike u u') (hk : Plain k) :
    Mimics u u' (take? k : Parse σ Bool) (take? k) :=
  ⟨forward_take? k, fun _ _ => take?_like h hk.1 fun hinert => absurd hinert hk.2⟩

private theorem sees_mimics (h : Alike u u') (hk : Plain k) :
    Mimics u u' (sees k : Parse σ Bool) (sees k) := by
  refine ⟨forward_sees k, fun ts s => ?_⟩
  have hiff : (facing u' ts s).next = k ↔ (facing u ts s).next = k :=
    next_eq_iff h hk.1 fun hinert => absurd hinert hk.2
  have hsame : ((facing u' ts s).next == k) = ((facing u ts s).next == k) := by
    rw [Bool.eq_iff_iff, beq_iff_eq, beq_iff_eq, hiff]
  rw [sees_eq, sees_eq, hsame]
  exact .ok _ ts s

private theorem expect_error (h : p.next ≠ k) :
    ∃ e q, (expect k : Parse σ Unit) p = .error e q := by
  rw [expect, EStateM.bind_of_ok (sees_eq k p), beq_eq_false_iff_ne.mpr h]
  change ∃ e q, (if p.cursor.atEnd then throw .truncated else wanted k.described : Parse σ Unit)
    p = .error e q
  split <;> exact ⟨_, _, rfl⟩

private theorem expect_like (h : Alike u u') (hk : k ≠ .endOfFile)
    (hsame : Inert k → (facing u' ts s).next = (facing u ts s).next) :
    Like u u' (expect k (facing u ts s)) (expect k (facing u' ts s)) := by
  have hiff := next_eq_iff h hk hsame
  by_cases hnext : (facing u ts s).next = k
  · rw [expect, EStateM.bind_of_ok (sees_eq _ _), EStateM.bind_of_ok (sees_eq _ _), hnext,
      hiff.mpr hnext, beq_self_eq_true]
    exact advance_like (hnext ▸ hk)
  · obtain ⟨e, q, he⟩ := expect_error hnext
    obtain ⟨e', q', he'⟩ := expect_error (mt hiff.mp hnext)
    rw [he, he']
    exact .error e e' q q'

private theorem expect_mimics (h : Alike u u') (hk : Plain k) :
    Mimics u u' (expect k : Parse σ Unit) (expect k) :=
  ⟨forward_expect k, fun _ _ => expect_like h hk.1 fun hinert => absurd hinert hk.2⟩

private theorem name_error (h : ∀ x, p.next ≠ .identifier x) :
    ∃ e q, (name : Parse σ String) p = .error e q := by
  rw [name, EStateM.bind_of_ok (peek_eq p)]
  cases hk : p.cursor.peek.kind with
  | identifier x => exact absurd hk (h x)
  | endOfFile => exact ⟨_, _, rfl⟩
  | _ => exact ⟨_, _, rfl⟩

private theorem Inert.ne_identifier (h : Inert k) (x : String) : k ≠ .identifier x := by
  rintro rfl
  rcases h with h | h <;> cases h

private theorem name_mimics (h : Alike u u') : Mimics u u' (name : Parse σ String) name := by
  refine .of_next h forward_name (fun ts s hsame => ?_) fun s hend hinert => ?_
  · change (facing u' ts s).cursor.peek.kind = (facing u ts s).cursor.peek.kind at hsame
    rw [name, EStateM.bind_of_ok (peek_eq _), EStateM.bind_of_ok (peek_eq _), hsame]
    cases hk : (facing u ts s).cursor.peek.kind with
    | identifier x =>
      refine (advance_like ?_).bind fun _ => pure_mimics x
      rw [next, hk]
      simp
    | endOfFile => exact .error _ _ _ _
    | _ => exact .error _ _ _ _
  · obtain ⟨e, q, he⟩ := name_error (p := facing u [] s) fun x => by rw [hend]; simp
    obtain ⟨e', q', he'⟩ := name_error hinert.ne_identifier
    rw [he, he']
    exact .error e e' q q'

/-- What follows a token that may be missing. -/
theorem Mimics.take? {f f' : Bool → Parse σ α} (h : Alike u u') (hk : Plain k)
    (htrue : Mimics u u' (f true) (f' true)) (hfalse : Mimics u u' (f false) (f' false)) :
    Mimics u u' (take? k >>= f) (take? k >>= f') := by
  refine (take?_mimics h hk).bind fun found => ?_
  cases found with
  | true => exact htrue
  | false => exact hfalse

/-- What follows a look at a token. -/
theorem Mimics.sees {f f' : Bool → Parse σ α} (h : Alike u u') (hk : Plain k)
    (htrue : Mimics u u' (f true) (f' true)) (hfalse : Mimics u u' (f false) (f' false)) :
    Mimics u u' (sees k >>= f) (sees k >>= f') := by
  refine (sees_mimics h hk).bind fun found => ?_
  cases found with
  | true => exact htrue
  | false => exact hfalse

private theorem plain_keyword {w : Keyword} (h : w ≠ .int) : Plain (.keyword w) := by
  simp [Plain, Inert, h]

private theorem plain_sign {x : Sign} (h : x ≠ .assign) : Plain (.sign x) := by
  simp [Plain, Inert, h]

private theorem typeName_mimics (h : Alike u u') :
    Mimics u u' (typeName : Parse σ ValueType) typeName := by
  have hfloat : Mimics u u'
      (do if ← take? (.keyword .float) then return .float else wanted "type `int` or `float`")
      (do if ← take? (.keyword .float) then return .float else wanted "type `int` or `float`" :
        Parse σ ValueType) :=
    .take? h (plain_keyword (by simp)) (pure_mimics _) (wanted_mimics _)
  refine .of_next h forward_typeName (fun ts s hsame => ?_) fun s hend hinert => ?_
  · refine (take?_like h (by simp) fun _ => hsame).bind fun found => ?_
    cases found with
    | true => exact pure_mimics _
    | false => exact hfloat
  · have hint : (facing u [] s).next ≠ .keyword .int := by rw [hend]; simp
    have hfloat : (facing u [] s).next ≠ .keyword .float := by rw [hend]; simp
    have hwanted : (typeName : Parse σ ValueType) (facing u [] s) =
        (wanted "type `int` or `float`" : Parse σ ValueType) (facing u [] s) := by
      rw [typeName, EStateM.bind_of_ok (take?_of_ne hint)]
      exact EStateM.bind_of_ok (take?_of_ne hfloat)
    rw [hwanted]
    exact grammar_like hend hinert

/-! ## Lists and expressions -/

section

variable {item item' : Parse σ Unit}

private theorem moreItems_mimics (h : Alike u u') (hitem : Mimics u u' item item') (hn : n ≤ n') :
    Mimics u u' (moreItems item n) (moreItems item' n') := by
  induction n generalizing n' with
  | zero =>
    rw [moreItems.eq_def, moreItems.eq_def item']
    exact .take? h (plain_sign (by simp)) endless_mimics (pure_mimics ())
  | succ n ih =>
    cases n' with
    | zero => omega
    | succ n' =>
      exact .take? h (plain_sign (by simp)) (hitem.bind fun _ => ih (Nat.le_of_succ_le_succ hn))
        (pure_mimics ())

private theorem items_mimics (h : Alike u u') (hitem : Mimics u u' item item') (hn : n ≤ n') :
    Mimics u u' (items item n) (items item' n') :=
  hitem.bind fun _ => moreItems_mimics h hitem hn

private theorem optionalItems_mimics (h : Alike u u') (hitem : Mimics u u' item item') (hn : n ≤ n')
    {x x' : Parse σ Unit} (hx : Mimics u u' x x') : Mimics u u'
      (do if !(← sees (.sign .rightParen)) then items item n
          expect (.sign .rightParen)
          x)
      (do if !(← sees (.sign .rightParen)) then items item' n'
          expect (.sign .rightParen)
          x') := by
  have hclosed :
      Mimics u u' (do expect (.sign .rightParen); x) (do expect (.sign .rightParen); x') :=
    (expect_mimics h (plain_sign (by simp))).bind fun _ => hx
  exact .sees h (plain_sign (by simp)) hclosed ((items_mimics h hitem hn).bind fun _ => hclosed)

end

variable [EventSink σ]

section

variable {operand operand' : Parse σ Unit}

private theorem moreOperands_mimics {level : Token.Kind → Option Operator} (h : Alike u u')
    (hlevel : ∀ k op, level k = some op → Plain k) (hoperand : Mimics u u' operand operand')
    (hn : n ≤ n') :
    Mimics u u' (moreOperands level operand n) (moreOperands level operand' n') := by
  have hnone {m m' : Nat} {ts : List Token} {s : σ} (hu : level (facing u ts s).next = none)
      (hu' : level (facing u' ts s).next = none) :
      Like u u' (moreOperands level operand m (facing u ts s))
        (moreOperands level operand' m' (facing u' ts s)) := by
    rw [moreOperands_of_none hu, moreOperands_of_none hu']
    exact .ok () ts s
  have hinert {k : Token.Kind} (hk : ¬Plain k) : level k = none := by
    cases hl : level k with
    | none => rfl
    | some op => exact absurd (hlevel k op hl) hk
  have hcut (m m' : Nat) (s : σ) (hend : (facing u [] s).next = .endOfFile)
      (hi : Inert (facing u' [] s).next) :
      Like u u' (moreOperands level operand m (facing u [] s))
        (moreOperands level operand' m' (facing u' [] s)) :=
    hnone (hinert fun hp => hp.1 hend) (hinert fun hp => hp.2 hi)
  induction n generalizing n' with
  | zero =>
    refine .of_next h ?_ (fun ts s hsame => ?_) (hcut 0 n')
    · rw [moreOperands]
      refine forward_peek.bind fun t => ?_
      cases level t.kind with
      | none => exact forward_pure ()
      | some op => exact forward_endless
    · cases hl : level (facing u ts s).next with
      | none => exact hnone hl (hsame ▸ hl)
      | some op =>
        change level (facing u ts s).cursor.peek.kind = some op at hl
        rw [moreOperands, EStateM.bind_of_ok (peek_eq _), hl]
        exact endless_like
  | succ n ih =>
    cases n' with
    | zero => omega
    | succ n' =>
      have hmore (op : Operator) : Mimics u u'
          (do fire (.operator op); operand; moreOperands level operand n)
          (do fire (.operator op); operand'; moreOperands level operand' n') :=
        (fire_mimics _).bind fun _ => hoperand.bind fun _ => ih (Nat.le_of_succ_le_succ hn)
      refine .of_next h ?_ (fun ts s hsame => ?_) (hcut (n + 1) (n' + 1))
      · rw [moreOperands]
        refine forward_peek.bind fun t => ?_
        cases level t.kind with
        | none => exact forward_pure ()
        | some op => exact forward_advance.bind fun _ => (hmore op).forward
      · cases hl : level (facing u ts s).next with
        | none => exact hnone hl (hsame ▸ hl)
        | some op =>
          have hl' := hsame ▸ hl
          have hadvance : Like u u' (advance (facing u ts s)) (advance (facing u' ts s)) :=
            advance_like (hlevel _ _ hl).1
          change level (facing u ts s).cursor.peek.kind = some op at hl
          change level (facing u' ts s).cursor.peek.kind = some op at hl'
          rw [moreOperands, moreOperands, EStateM.bind_of_ok (peek_eq _),
            EStateM.bind_of_ok (peek_eq _), hl, hl']
          exact hadvance.bind fun _ => hmore op

private theorem term_mimics (h : Alike u u') (hoperand : Mimics u u' operand operand')
    (hn : n ≤ n') : Mimics u u' (term operand n) (term operand' n') := by
  have hwhole := hoperand.bind fun _ => fire_mimics .factorEnd
  refine hwhole.bind fun _ => moreOperands_mimics h (fun k op hop => ?_) hwhole hn
  obtain ⟨rfl, hop⟩ := multiplicative?_eq_some hop
  exact plain_sign (by rintro hs; cases op <;> cases hs; cases hop)

private theorem sum_mimics (h : Alike u u') (hoperand : Mimics u u' operand operand')
    (hn : n ≤ n') : Mimics u u' (sum operand n) (sum operand' n') := by
  have hwhole := (term_mimics h hoperand hn).bind fun _ => fire_mimics .termEnd
  refine hwhole.bind fun _ => moreOperands_mimics h (fun k op hop => ?_) hwhole hn
  obtain ⟨rfl, hop⟩ := additive?_eq_some hop
  exact plain_sign (by rintro hs; cases op <;> cases hs; cases hop)

private theorem expressionOf_mimics (h : Alike u u') (hoperand : Mimics u u' operand operand')
    (hn : n ≤ n') : Mimics u u' (expressionOf operand n) (expressionOf operand' n') := by
  have hsum := sum_mimics h hoperand hn
  have hend : Mimics u u' (fire .relationalEnd : Parse σ Unit) (fire .relationalEnd) :=
    fire_mimics _
  have hright (op : Operator) :
      Mimics u u' (do fire (.operator op); sum operand n; fire .relationalEnd)
        (do fire (.operator op); sum operand' n'; fire .relationalEnd) :=
    (fire_mimics _).bind fun _ => hsum.bind fun _ => hend
  refine hsum.bind fun _ => .of_next h ?_ (fun ts s hsame => ?_) fun s hmarker hinert => ?_
  · refine forward_peek.bind fun t => ?_
    cases relational? t.kind with
    | none => exact hend.forward
    | some op => exact forward_advance.bind fun _ => (hright op).forward
  · change (facing u' ts s).cursor.peek.kind = (facing u ts s).cursor.peek.kind at hsame
    rw [EStateM.bind_of_ok (peek_eq _), EStateM.bind_of_ok (peek_eq _), hsame]
    cases hl : relational? (facing u ts s).cursor.peek.kind with
    | none => exact hend.like ts s
    | some op =>
      refine (advance_like ?_).bind fun _ => hright op
      rw [next, (relational?_eq_some hl).1]
      simp
  · have hnone : relational? (facing u [] s).cursor.peek.kind = none := by
      change (facing u [] s).cursor.peek.kind = _ at hmarker
      rw [hmarker]
      rfl
    have hnone' : relational? (facing u' [] s).cursor.peek.kind = none := by
      rcases hinert with hk | hk <;>
      · change (facing u' [] s).cursor.peek.kind = _ at hk
        rw [hk]
        rfl
    rw [EStateM.bind_of_ok (peek_eq _), EStateM.bind_of_ok (peek_eq _), hnone, hnone']
    exact hend.like [] s

end

private theorem forward_leaf (k : Token.Kind) : Forward (leaf k : Parse σ Unit) := by
  cases k with
  | integer n => exact forward_advance.bind fun _ => forward_fire _
  | float x => exact forward_advance.bind fun _ => forward_fire _
  | identifier x => exact forward_advance.bind fun _ => forward_fire _
  | endOfFile => exact forward_throw _
  | _ => exact forward_wanted _

private theorem leaf_like : Like u u' ((leaf (facing u ts s).next : Parse σ Unit) (facing u ts s))
    ((leaf (facing u ts s).next : Parse σ Unit) (facing u' ts s)) := by
  cases hk : (facing u ts s).next with
  | integer n => exact (advance_like (by rw [hk]; simp)).bind fun _ => fire_mimics _
  | float x => exact (advance_like (by rw [hk]; simp)).bind fun _ => fire_mimics _
  | identifier x => exact (advance_like (by rw [hk]; simp)).bind fun _ => fire_mimics _
  | endOfFile => exact .error _ _ _ _
  | _ => exact .error _ _ _ _

/-- A factor that does not start with one of three signs is one token. -/
theorem factor_eq_leaf (hparen : p.next ≠ .sign .leftParen) (hplus : p.next ≠ .sign .plus)
    (hminus : p.next ≠ .sign .minus) (n : Nat) : (factor n : Parse σ Unit) p = leaf p.next p := by
  cases n <;>
  · rw [factor, EStateM.bind_of_ok (peek_eq p), next]
    cases hk : p.cursor.peek.kind with
    | sign x =>
      cases x with
      | leftParen => exact absurd hk hparen
      | plus => exact absurd hk hplus
      | minus => exact absurd hk hminus
      | _ => rfl
    | _ => rfl

private theorem factor_of_leftParen (hk : p.next = .sign .leftParen) (n : Nat) :
    (factor (n + 1) : Parse σ Unit) p =
      (do advance; fire .openParen; expressionOf (factor n) n; expect (.sign .rightParen)
          fire .closeParen) p := by
  change p.cursor.peek.kind = _ at hk
  rw [factor, EStateM.bind_of_ok (peek_eq p), hk]

private theorem factor_of_unary (negative : Bool)
    (hk : p.next = .sign (if negative then .minus else .plus)) (n : Nat) :
    (factor (n + 1) : Parse σ Unit) p =
      (do advance; fire (.unarySign negative); factor n; fire .unaryEnd) p := by
  change p.cursor.peek.kind = _ at hk
  rw [factor, EStateM.bind_of_ok (peek_eq p), hk]
  cases negative <;> rfl

private theorem factor_leaf_like (hsame : (facing u' ts s).next = (facing u ts s).next)
    (hparen : (facing u ts s).next ≠ .sign .leftParen) (hplus : (facing u ts s).next ≠ .sign .plus)
    (hminus : (facing u ts s).next ≠ .sign .minus) (n n' : Nat) :
    Like u u' ((factor n : Parse σ Unit) (facing u ts s))
      ((factor n' : Parse σ Unit) (facing u' ts s)) := by
  rw [factor_eq_leaf hparen hplus hminus,
    factor_eq_leaf (hsame ▸ hparen) (hsame ▸ hplus) (hsame ▸ hminus), hsame]
  exact leaf_like

private theorem factor_cut_like (hend : (facing u [] s).next = .endOfFile)
    (hinert : Inert (facing u' [] s).next) (n n' : Nat) :
    Like u u' ((factor n : Parse σ Unit) (facing u [] s))
      ((factor n' : Parse σ Unit) (facing u' [] s)) := by
  rw [factor_eq_leaf (by simp [hend]) (by simp [hend]) (by simp [hend]), hend]
  rcases hinert with hk | hk <;>
  · rw [factor_eq_leaf (by simp [hk]) (by simp [hk]) (by simp [hk]), hk]
    exact .error _ _ _ _

private theorem factor_mimics (h : Alike u u') (hn : n ≤ n') :
    Mimics u u' (factor n : Parse σ Unit) (factor n') := by
  induction n generalizing n' with
  | zero =>
    refine .of_next h ?_ (fun ts s hsame => ?_) fun s hend hinert =>
      factor_cut_like hend hinert 0 n'
    · rw [factor]
      refine forward_peek.bind fun t => ?_
      cases t.kind with
      | sign x => cases x <;> first | exact forward_endless | exact forward_leaf _
      | _ => exact forward_leaf _
    · cases hk : (facing u ts s).next with
      | sign x =>
        cases x with
        | leftParen | plus | minus =>
          change (facing u ts s).cursor.peek.kind = _ at hk
          rw [factor, EStateM.bind_of_ok (peek_eq _), hk]
          exact endless_like
        | _ => exact factor_leaf_like hsame (by simp [hk]) (by simp [hk]) (by simp [hk]) _ _
      | _ => exact factor_leaf_like hsame (by simp [hk]) (by simp [hk]) (by simp [hk]) _ _
  | succ n ih =>
    cases n' with
    | zero => omega
    | succ n' =>
      have hn' := Nat.le_of_succ_le_succ hn
      have hsigned (negative : Bool) :
          Mimics u u' (do fire (.unarySign negative); factor n; fire .unaryEnd)
            (do fire (.unarySign negative); factor n'; fire .unaryEnd : Parse σ Unit) :=
        (fire_mimics _).bind fun _ => (ih hn').bind fun _ => fire_mimics _
      have hgroup : Mimics u u'
          (do fire .openParen; expressionOf (factor n) n; expect (.sign .rightParen)
              fire .closeParen)
          (do fire .openParen; expressionOf (factor n') n'; expect (.sign .rightParen)
              fire .closeParen : Parse σ Unit) :=
        (fire_mimics _).bind fun _ => (expressionOf_mimics h (ih hn') hn').bind fun _ =>
          (expect_mimics h (plain_sign (by simp))).bind fun _ => fire_mimics _
      refine .of_next h ?_ (fun ts s hsame => ?_) fun s hend hinert =>
        factor_cut_like hend hinert _ _
      · rw [factor]
        refine forward_peek.bind fun t => ?_
        cases t.kind with
        | sign x =>
          cases x with
          | leftParen => exact forward_advance.bind fun _ => hgroup.forward
          | plus => exact forward_advance.bind fun _ => (hsigned false).forward
          | minus => exact forward_advance.bind fun _ => (hsigned true).forward
          | _ => exact forward_leaf _
        | _ => exact forward_leaf _
      · cases hk : (facing u ts s).next with
        | sign x =>
          cases x with
          | leftParen =>
            rw [factor_of_leftParen hk, factor_of_leftParen (hsame.trans hk)]
            exact (advance_like (by simp [hk])).bind fun _ => hgroup
          | plus =>
            rw [factor_of_unary false hk, factor_of_unary false (hsame.trans hk)]
            exact (advance_like (by simp [hk])).bind fun _ => hsigned false
          | minus =>
            rw [factor_of_unary true hk, factor_of_unary true (hsame.trans hk)]
            exact (advance_like (by simp [hk])).bind fun _ => hsigned true
          | _ => exact factor_leaf_like hsame (by simp [hk]) (by simp [hk]) (by simp [hk]) _ _
        | _ => exact factor_leaf_like hsame (by simp [hk]) (by simp [hk]) (by simp [hk]) _ _

private theorem expression_mimics (h : Alike u u') (hn : n ≤ n') :
    Mimics u u' (expression n : Parse σ Unit) (expression n') :=
  expressionOf_mimics h (factor_mimics h hn) hn

/-! ## Declarations and statements -/

private theorem variableName_mimics (h : Alike u u') :
    Mimics u u' (variableName : Parse σ Unit) variableName :=
  (name_mimics h).bind fun _ => fire_mimics _

private theorem variableLists_mimics (h : Alike u u') (hn : n ≤ n') :
    Mimics u u' (variableLists n : Parse σ Unit) (variableLists n') := by
  induction n using Nat.strongRecOn generalizing n' with
  | ind n ih =>
    rw [variableLists_eq n, variableLists_eq n']
    refine (items_mimics h (variableName_mimics h) hn).bind fun _ =>
      (expect_mimics h (plain_sign (by simp))).bind fun _ => (typeName_mimics h).bind fun _ =>
      (fire_mimics _).bind fun _ => (expect_mimics h (plain_sign (by simp))).bind fun _ =>
      .of_next h ?_ (fun ts s hsame => ?_) fun s hend hinert => ?_
    · refine forward_peek.bind fun t => ?_
      cases t.kind with
      | identifier x =>
        cases n with
        | zero => exact forward_endless
        | succ n => exact (ih n (Nat.lt_succ_self n) (Nat.le_refl n)).forward
      | _ => exact forward_pure ()
    · change (facing u' ts s).cursor.peek.kind = (facing u ts s).cursor.peek.kind at hsame
      rw [EStateM.bind_of_ok (peek_eq _), EStateM.bind_of_ok (peek_eq _), hsame]
      cases (facing u ts s).cursor.peek.kind with
      | identifier x =>
        cases n with
        | zero => exact endless_like
        | succ n =>
          cases n' with
          | zero => omega
          | succ n' => exact (ih n (Nat.lt_succ_self n) (Nat.le_of_succ_le_succ hn)).like ts s
      | _ => exact .ok () ts s
    · change (facing u [] s).cursor.peek.kind = _ at hend
      rw [EStateM.bind_of_ok (peek_eq _), EStateM.bind_of_ok (peek_eq _), hend]
      rcases hinert with hk | hk <;>
      · change (facing u' [] s).cursor.peek.kind = _ at hk
        rw [hk]
        exact .ok () [] s

private theorem declarations_mimics (h : Alike u u') (hn : n ≤ n') :
    Mimics u u' (declarations n : Parse σ Unit) (declarations n') :=
  .take? h (plain_keyword (by simp)) (variableLists_mimics h hn) (pure_mimics ())

omit [EventSink σ] in
private theorem get_eq (p : Parser σ) : (get : Parse σ (Parser σ)) p = .ok p p := rfl

section

variable {statement statement' body body' : Parse σ Unit}

omit [EventSink σ] in
/-- The statements up to a closing brace, where no statement starts with an inert token. -/
theorem statements_mimics (h : Alike u u') (hstatement : Mimics u u' statement statement')
    (hrefused : ∀ p : Parser σ, Inert p.next → ∃ e q, statement' p = .error e q) (hn : n ≤ n') :
    Mimics u u' (statements statement n) (statements statement' n') := by
  induction n using Nat.strongRecOn generalizing n' with
  | ind n ih =>
    rw [statements.eq_def, statements.eq_def statement']
    refine .sees h (plain_sign (by simp)) (pure_mimics ())
      (.of_next h ?_ (fun ts s hsame => ?_) fun s hend hinert => ?_)
    · refine forward_get.bind fun p => ?_
      cases p.cursor.atEnd with
      | true => exact forward_throw _
      | false =>
        cases n with
        | zero => exact forward_endless
        | succ n =>
          exact hstatement.forward.bind fun _ => (ih n (Nat.lt_succ_self n) (Nat.le_refl n)).forward
    · have hatEnd : (facing u' ts s).cursor.atEnd = (facing u ts s).cursor.atEnd :=
        congrArg (· == .endOfFile) hsame
      simp only [Bool.false_eq_true, if_false]
      rw [EStateM.bind_of_ok (get_eq _), EStateM.bind_of_ok (get_eq _), hatEnd]
      cases (facing u ts s).cursor.atEnd with
      | true => exact .error _ _ _ _
      | false =>
        cases n with
        | zero => exact endless_like
        | succ n =>
          cases n' with
          | zero => omega
          | succ n' =>
            exact (hstatement.like ts s).bind fun _ =>
              ih n (Nat.lt_succ_self n) (Nat.le_of_succ_le_succ hn)
    -- The end marker is refused at once, and the inert token as the start of a statement.
    · have hatEnd : (facing u [] s).cursor.atEnd = true := beq_iff_eq.mpr hend
      have hatEnd' : (facing u' [] s).cursor.atEnd = false := by
        rcases hinert with hk | hk <;> exact beq_eq_false_iff_ne.mpr (by rw [← next, hk]; simp)
      simp only [Bool.false_eq_true, if_false]
      rw [EStateM.bind_of_ok (get_eq _), EStateM.bind_of_ok (get_eq _), hatEnd, hatEnd']
      cases n' with
      | zero => exact .error _ _ _ _
      | succ n' =>
        obtain ⟨e, q, he⟩ := hrefused _ hinert
        simp only [Bool.false_eq_true, if_false, EStateM.bind_of_error he]
        exact .error _ _ _ _

omit [EventSink σ] in
private theorem block_mimics (h : Alike u u') (hstatement : Mimics u u' statement statement')
    (hrefused : ∀ p : Parser σ, Inert p.next → ∃ e q, statement' p = .error e q) (hn : n ≤ n') :
    Mimics u u' (block statement n) (block statement' n') :=
  (expect_mimics h (plain_sign (by simp))).bind fun _ =>
    (statements_mimics h hstatement hrefused hn).bind fun _ =>
    expect_mimics h (plain_sign (by simp))

private theorem guarded_mimics (h : Alike u u') (hn : n ≤ n') :
    Mimics u u' (guarded n : Parse σ Unit) (guarded n') :=
  (expect_mimics h (plain_sign (by simp))).bind fun _ => (expression_mimics h hn).bind fun _ =>
    expect_mimics h (plain_sign (by simp))

private theorem condition_mimics (h : Alike u u') (hbody : Mimics u u' body body') (hn : n ≤ n') :
    Mimics u u' (condition body n) (condition body' n') := by
  have hend : Mimics u u' (do fire .ifEnd; expect (.sign .semicolon))
      (do fire .ifEnd; expect (.sign .semicolon) : Parse σ Unit) :=
    (fire_mimics _).bind fun _ => expect_mimics h (plain_sign (by simp))
  have hother : Mimics u u' (do fire .elseBranch; body; fire .ifEnd; expect (.sign .semicolon))
      (do fire .elseBranch; body'; fire .ifEnd; expect (.sign .semicolon)) :=
    (fire_mimics _).bind fun _ => hbody.bind fun _ => hend
  exact (expect_mimics h (plain_keyword (by simp))).bind fun _ =>
    (guarded_mimics h hn).bind fun _ =>
    (fire_mimics _).bind fun _ => hbody.bind fun _ => .take? h (plain_keyword (by simp)) hother hend

private theorem cycle_mimics (h : Alike u u') (hbody : Mimics u u' body body') (hn : n ≤ n') :
    Mimics u u' (cycle body n) (cycle body' n') :=
  (expect_mimics h (plain_keyword (by simp))).bind fun _ =>
    (fire_mimics _).bind fun _ => hbody.bind fun _ =>
    (expect_mimics h (plain_keyword (by simp))).bind fun _ => (guarded_mimics h hn).bind fun _ =>
    (fire_mimics _).bind fun _ => expect_mimics h (plain_sign (by simp))

end

/-- What follows the sign of an assignment. -/
theorem assigned_mimics (h : Alike u u') (hn : n ≤ n') :
    Mimics u u'
      (do fire .assignOperator; expression n; fire .assignValue; expect (.sign .semicolon))
      (do fire .assignOperator; expression n'; fire .assignValue; expect (.sign .semicolon) :
        Parse σ Unit) :=
  (fire_mimics _).bind fun _ => (expression_mimics h hn).bind fun _ => (fire_mimics _).bind fun _ =>
    expect_mimics h (plain_sign (by simp))

/-- What follows the name of a function that is called. -/
theorem called_mimics (h : Alike u u') (hn : n ≤ n') (x : String) : Mimics u u'
    (do fire (.callStart x)
        expect (.sign .leftParen)
        fire .callOpen
        if !(← sees (.sign .rightParen)) then items (argument n) n
        expect (.sign .rightParen)
        fire .callEnd
        expect (.sign .semicolon))
    (do fire (.callStart x)
        expect (.sign .leftParen)
        fire .callOpen
        if !(← sees (.sign .rightParen)) then items (argument n') n'
        expect (.sign .rightParen)
        fire .callEnd
        expect (.sign .semicolon) : Parse σ Unit) := by
  have hargument : Mimics u u' (argument n : Parse σ Unit) (argument n') :=
    (expression_mimics h hn).bind fun _ => fire_mimics _
  have hend : Mimics u u' (do fire .callEnd; expect (.sign .semicolon))
      (do fire .callEnd; expect (.sign .semicolon) : Parse σ Unit) :=
    (fire_mimics _).bind fun _ => expect_mimics h (plain_sign (by simp))
  exact (fire_mimics _).bind fun _ => (expect_mimics h (plain_sign (by simp))).bind fun _ =>
    (fire_mimics _).bind fun _ => optionalItems_mimics h hargument hn hend

private theorem printItem_mimics (h : Alike u u') (hn : n ≤ n') :
    Mimics u u' (printItem n : Parse σ Unit) (printItem n') := by
  have hvalue :
      Mimics u u' (do expression n; fire .printItem)
        (do expression n'; fire .printItem : Parse σ Unit) :=
    (expression_mimics h hn).bind fun _ => fire_mimics _
  have htext (text : String) : Mimics u u' (do fire (.stringLiteral text); fire .printItem)
      (do fire (.stringLiteral text); fire .printItem : Parse σ Unit) :=
    (fire_mimics _).bind fun _ => fire_mimics _
  refine .of_next h ?_ (fun ts s hsame => ?_) fun s hend hinert => ?_
  · refine forward_peek.bind fun t => ?_
    cases t.kind with
    | string text => exact forward_advance.bind fun _ => (htext text).forward
    | _ => exact hvalue.forward
  · change (facing u' ts s).cursor.peek.kind = (facing u ts s).cursor.peek.kind at hsame
    rw [printItem, printItem, EStateM.bind_of_ok (peek_eq _), EStateM.bind_of_ok (peek_eq _), hsame]
    cases hk : (facing u ts s).cursor.peek.kind with
    | string text => exact (advance_like (by rw [next, hk]; simp)).bind fun _ => htext text
    | _ => exact hvalue.like ts s
  · change (facing u [] s).cursor.peek.kind = _ at hend
    rw [printItem, printItem, EStateM.bind_of_ok (peek_eq _), EStateM.bind_of_ok (peek_eq _), hend]
    rcases hinert with hk | hk <;>
    · change (facing u' [] s).cursor.peek.kind = _ at hk
      rw [hk]
      exact hvalue.like [] s

private theorem print_mimics (h : Alike u u') (hn : n ≤ n') :
    Mimics u u' (print n : Parse σ Unit) (print n') :=
  (expect_mimics h (plain_keyword (by simp))).bind fun _ =>
    (expect_mimics h (plain_sign (by simp))).bind fun _ =>
    (items_mimics h (printItem_mimics h hn) hn).bind fun _ =>
    (expect_mimics h (plain_sign (by simp))).bind fun _ => expect_mimics h (plain_sign (by simp))

omit [EventSink σ] in
/-- A name is taken where it is seen. -/
theorem name_of_next {x : String} (h : p.next = .identifier x) :
    (name : Parse σ String) p = .ok x { p with cursor := p.cursor.advance } := by
  change p.cursor.peek.kind = _ at h
  rw [name, EStateM.bind_of_ok (peek_eq p), h]
  rfl

/-- An assignment whose sign stands behind the name in both lists, or in none. -/
theorem assignment_like (h : Alike u u') (hn : n ≤ n') {t : Token} {x : String}
    (ht : t.kind = .identifier x) (hsame : (facing u' ts s).next = (facing u ts s).next) :
    Like u u' (assignment n (facing u (t :: ts) s)) (assignment n' (facing u' (t :: ts) s)) := by
  have hname (v : Tail) : (name : Parse σ String) (facing v (t :: ts) s) =
      .ok x (facing v ts s) := by
    have hk : (facing v (t :: ts) s).next = .identifier x := ht
    rw [name_of_next hk, advance_facing_cons (by simp [ht])]
    rfl
  rw [assignment, assignment, EStateM.bind_of_ok (hname u), EStateM.bind_of_ok (hname u')]
  cases ha : accept (.assignTarget x) s with
  | ok _ s' =>
    have hfire (v : Tail) : fire (.assignTarget x) (facing v ts s) = .ok () (facing v ts s') := by
      simp only [fire, facing, ha]
    rw [EStateM.bind_of_ok (hfire u), EStateM.bind_of_ok (hfire u')]
    exact (expect_like (k := .sign .assign) (s := s') h (by simp) fun _ => hsame).bind
      fun _ => assigned_mimics h hn
  | error e s' =>
    have hfire (v : Tail) : fire (.assignTarget x) (facing v ts s) =
        .error e { facing v ts s with sink := s' } := by
      simp only [fire, facing, ha]
    rw [EStateM.bind_of_error (hfire u), EStateM.bind_of_error (hfire u')]
    exact .error _ _ _ _

private theorem call_mimics (h : Alike u u') (hn : n ≤ n') :
    Mimics u u' (call n : Parse σ Unit) (call n') :=
  (name_mimics h).bind fun x => called_mimics h hn x

private theorem forward_assigned (h : Alike u u') (x : String) :
    Forward (do fire (.assignTarget x); expect (.sign .assign); fire .assignOperator
                expression n; fire .assignValue; expect (.sign .semicolon) : Parse σ Unit) :=
  (forward_fire _).bind fun _ => (forward_expect _).bind fun _ =>
    (assigned_mimics h (Nat.le_refl n)).forward

private theorem forward_assignment (h : Alike u u') : Forward (assignment n : Parse σ Unit) :=
  forward_name.bind fun x => forward_assigned h x

/-- A statement that starts with a name of the tail has left it. -/
theorem statement_past (h : Alike u u') {x : String} (hk : (facing u [] s).next = .identifier x) :
    (stop ((statement (n + 1) : Parse σ Unit) (facing u [] s))).left ≤ u.more.length := by
  have htaken {f : String → Parse σ Unit} (hf : ∀ x, Forward (f x)) :
      (stop ((do f (← name)) (facing u [] s))).left ≤ u.more.length := by
    rw [EStateM.bind_of_ok (name_of_next hk), advance_facing_nil (by simp [hk])]
    exact hf x _
  have hassignment : (stop ((assignment n : Parse σ Unit) (facing u [] s))).left ≤ u.more.length :=
    htaken fun x => forward_assigned h x
  have hcall : (stop ((call n : Parse σ Unit) (facing u [] s))).left ≤ u.more.length :=
    htaken fun x => (called_mimics h (Nat.le_refl n) x).forward
  have hother : (stop ((do advance; wanted "`=` or `(`" : Parse σ Unit) (facing u [] s))).left ≤
      u.more.length :=
    left_advance_facing_nil (by simp [hk])
  rw [statement_of_name hk]
  cases (facing u [] s).cursor.second?.map Token.kind with
  | none => exact hother
  | some k =>
    cases k with
    | sign y =>
      cases y with
      | assign => exact hassignment
      | leftParen => exact hcall
      | _ => exact hother
    | _ => exact hother

/-- Behind a name of the common part the next token tells an assignment from
a call, or is blamed. -/
theorem statement_name_like (h : Alike u u') (hn : n ≤ n') {t : Token} {x : String}
    (ht : t.kind = .identifier x) :
    Like u u' ((statement (n + 1) : Parse σ Unit) (facing u (t :: ts) s))
      ((statement (n' + 1) : Parse σ Unit) (facing u' (t :: ts) s)) := by
  have hk (v : Tail) : (facing v (t :: ts) s).next = .identifier x := ht
  have hsecond (v : Tail) : (facing v (t :: ts) s).cursor.second?.map Token.kind =
      some (facing v ts s).next := by
    cases ts <;> rfl
  have hadvance : Like u u' (advance (facing u (t :: ts) s)) (advance (facing u' (t :: ts) s)) :=
    advance_like (by simp [hk])
  have hother : Like u u' ((do advance; wanted "`=` or `(`" : Parse σ Unit) (facing u (t :: ts) s))
      ((do advance; wanted "`=` or `(`" : Parse σ Unit) (facing u' (t :: ts) s)) :=
    hadvance.bind fun _ => wanted_mimics _
  rw [statement_of_name (hk u), statement_of_name (hk u'), hsecond, hsecond]
  obtain hsame | ⟨rfl, hend, hinert⟩ := next_alike h ts s
  · rw [hsame]
    cases (facing u ts s).next with
    | sign y =>
      cases y with
      | assign => exact assignment_like h hn ht hsame
      | leftParen => exact (call_mimics h hn).like (t :: ts) s
      | _ => exact hother
    | _ => exact hother
  · rw [hend]
    exact grammar_like hend hinert

omit [EventSink σ] in
private theorem wanted_error (what : String) : ∃ e q, (wanted what : Parse σ α) p = .error e q :=
  ⟨_, _, rfl⟩

/-- No statement starts with an inert token. -/
theorem statement_error (hk : Inert p.next) (n : Nat) :
    ∃ e q, (statement n : Parse σ Unit) p = .error e q := by
  cases n with
  | zero => exact ⟨_, _, rfl⟩
  | succ n =>
    rcases hk with hk | hk <;>
    · change p.cursor.peek.kind = _ at hk
      rw [statement, EStateM.bind_of_ok (peek_eq p), hk]
      exact wanted_error _

private theorem statement_mimics (h : Alike u u') (hn : n ≤ n') :
    Mimics u u' (statement n : Parse σ Unit) (statement n') := by
  induction n generalizing n' with
  | zero => exact endless_mimics
  | succ n ih =>
    cases n' with
    | zero => omega
    | succ n' =>
      have hn' := Nat.le_of_succ_le_succ hn
      have hbody := block_mimics h (ih hn') (fun p hk => statement_error hk n') hn'
      refine .of_next h ?_ (fun ts s hsame => ?_) fun s hend hinert => ?_
      · rw [statement]
        refine forward_peek.bind fun t => ?_
        cases t.kind with
        | identifier x =>
          refine forward_get.bind fun p => ?_
          have hother : Forward (do advance; wanted "`=` or `(`" : Parse σ Unit) :=
            forward_advance.bind fun _ => forward_wanted _
          cases p.cursor.second?.map Token.kind with
          | none => exact hother
          | some k =>
            cases k with
            | sign y =>
              cases y with
              | assign => exact forward_assignment h
              | leftParen => exact (call_mimics h hn').forward
              | _ => exact hother
            | _ => exact hother
        | keyword w =>
          cases w with
          | cond => exact (condition_mimics h hbody hn').forward
          | loop => exact (cycle_mimics h hbody hn').forward
          | print => exact (print_mimics h hn').forward
          | _ => exact forward_wanted _
        | _ => exact forward_wanted _
      · cases hk : (facing u ts s).next with
        | identifier x =>
          cases ts with
          | nil => exact .past (statement_past h hk)
          | cons t ts => exact statement_name_like h hn' hk
        | keyword w =>
          have hk' := hsame.trans hk
          change (facing u ts s).cursor.peek.kind = _ at hk
          change (facing u' ts s).cursor.peek.kind = _ at hk'
          rw [statement, statement, EStateM.bind_of_ok (peek_eq _),
            EStateM.bind_of_ok (peek_eq _), hk, hk']
          cases w with
          | cond => exact (condition_mimics h hbody hn').like ts s
          | loop => exact (cycle_mimics h hbody hn').like ts s
          | print => exact (print_mimics h hn').like ts s
          | _ => exact .error _ _ _ _
        | _ =>
          have hk' := hsame.trans hk
          change (facing u ts s).cursor.peek.kind = _ at hk
          change (facing u' ts s).cursor.peek.kind = _ at hk'
          rw [statement, statement, EStateM.bind_of_ok (peek_eq _),
            EStateM.bind_of_ok (peek_eq _), hk, hk']
          exact .error _ _ _ _
      · change (facing u [] s).cursor.peek.kind = _ at hend
        rw [statement, EStateM.bind_of_ok (peek_eq _), hend]
        exact grammar_like hend hinert

/-! ## Functions and programs -/

private theorem parameter_mimics (h : Alike u u') :
    Mimics u u' (parameter : Parse σ Unit) parameter :=
  (name_mimics h).bind fun _ => (expect_mimics h (plain_sign (by simp))).bind fun _ =>
    (typeName_mimics h).bind fun _ => fire_mimics _

/-- A block of statements. -/
theorem statementBlock_mimics (h : Alike u u') (hn : n ≤ n') :
    Mimics u u' (block (statement n) n : Parse σ Unit) (block (statement n') n') :=
  block_mimics h (statement_mimics h hn) (fun _ hk => statement_error hk n') hn

private theorem function_mimics (h : Alike u u') (hn : n ≤ n') :
    Mimics u u' (function n : Parse σ Unit) (function n') := by
  have hbody : Mimics u u'
      (do expect (.sign .leftBracket); declarations n; fire .functionBodyStart
          block (statement n) n; expect (.sign .rightBracket); expect (.sign .semicolon)
          fire .functionEnd)
      (do expect (.sign .leftBracket); declarations n'; fire .functionBodyStart
          block (statement n') n'; expect (.sign .rightBracket); expect (.sign .semicolon)
          fire .functionEnd : Parse σ Unit) :=
    (expect_mimics h (plain_sign (by simp))).bind fun _ => (declarations_mimics h hn).bind fun _ =>
      (fire_mimics _).bind fun _ => (statementBlock_mimics h hn).bind fun _ =>
      (expect_mimics h (plain_sign (by simp))).bind fun _ =>
      (expect_mimics h (plain_sign (by simp))).bind fun _ => fire_mimics _
  exact (take?_mimics h (plain_keyword (by simp))).bind fun _ =>
    (expect_mimics h (plain_keyword (by simp))).bind fun _ =>
    (name_mimics h).bind fun _ => (fire_mimics _).bind fun _ =>
    (expect_mimics h (plain_sign (by simp))).bind fun _ =>
    optionalItems_mimics h (parameter_mimics h) hn hbody

private theorem functions_mimics (h : Alike u u') (hn : n ≤ n') :
    Mimics u u' (functions n : Parse σ Unit) (functions n') := by
  induction n generalizing n' with
  | zero =>
    rw [functions.eq_def, functions.eq_def n']
    refine (sees_mimics h (plain_keyword (by simp))).bind fun marked =>
      (sees_mimics h (plain_keyword (by simp))).bind fun begun => ?_
    cases marked || begun with
    | true => exact endless_mimics
    | false => exact pure_mimics ()
  | succ n ih =>
    cases n' with
    | zero => omega
    | succ n' =>
      rw [functions.eq_def, functions.eq_def (n' + 1)]
      refine (sees_mimics h (plain_keyword (by simp))).bind fun marked =>
        (sees_mimics h (plain_keyword (by simp))).bind fun begun => ?_
      cases marked || begun with
      | true => exact (function_mimics h hn).bind fun _ => ih (Nat.le_of_succ_le_succ hn)
      | false => exact pure_mimics ()

/-- Where one action is stuck at the first token of its tail, the other one fails too. -/
structure FailsLike (u u' : Tail) (P P' : Parse σ Unit) : Prop where
  forward : Forward P
  fails : ∀ ts s e q, P (facing u ts s) = .error e q → Telling u u' e → u.more.length < q.left →
    ∃ e' q', P' (facing u' ts s) = .error e' q'

omit [EventSink σ] in
private theorem FailsLike.bind {f f' : α → Parse σ Unit} (hP : Mimics u u' P P')
    (hf : ∀ a, FailsLike u u' (f a) (f' a)) : FailsLike u u' (P >>= f) (P' >>= f') := by
  refine ⟨hP.forward.bind fun a => (hf a).forward, fun ts s e q hr htelling hleft => ?_⟩
  have hlike := hP.like ts s
  obtain hr | ⟨a, q₁, hr₁, hr⟩ := EStateM.bind_eq_error.mp hr
  · rw [hr] at hlike
    cases hr' : P' (facing u' ts s) with
    | error e' q' => exact ⟨e', q', EStateM.bind_of_error hr'⟩
    | ok a' q' =>
      rw [hr'] at hlike
      cases hlike with
      | past h => exact absurd hleft (Nat.not_lt.mpr h)
      | other h => exact absurd htelling h
  · have hback := (hf a).forward q₁
    rw [hr] at hback
    have hpast : ¬q₁.left ≤ u.more.length :=
      fun h => absurd hleft (Nat.not_lt.mpr (Nat.le_trans hback h))
    rw [hr₁] at hlike
    cases hr' : P' (facing u' ts s) with
    | error e' q' => exact ⟨e', q', EStateM.bind_of_error hr'⟩
    | ok a' q' =>
      rw [hr'] at hlike
      rw [EStateM.bind_of_ok hr']
      cases hlike with
      | past h => exact absurd h hpast
      | ok a ts' s' => exact (hf a).fails ts' s' e q hr htelling hleft

omit [EventSink σ] in
/-- The end of a list is missed in front of both tails, or a list that breaks
off was not to blame. -/
theorem ending_failsLike (h : Alike u u') :
    FailsLike u u' (do if !(← get).cursor.atEnd then wanted "end of file" : Parse σ Unit)
      (do if !(← get).cursor.atEnd then wanted "end of file") := by
  refine ⟨forward_get.bind fun p => ?_, fun ts s e q hr htelling hleft => ?_⟩
  · cases p.cursor.atEnd with
    | true => exact forward_pure ()
    | false => exact forward_wanted _
  · rw [EStateM.bind_of_ok (get_eq _)] at hr ⊢
    cases hend : (facing u ts s).cursor.atEnd with
    | true => rw [hend] at hr; cases hr
    | false =>
      obtain hsame | ⟨rfl, hmarker, -⟩ := next_alike h ts s
      · have hend' : (facing u' ts s).cursor.atEnd = false :=
          (congrArg (· == .endOfFile) hsame).trans hend
        rw [hend']
        exact wanted_error _
      · rw [Cursor.atEnd, ← next, hmarker] at hend
        cases hend

theorem programWithin_failsLike (h : Alike u u') (hn : n ≤ n') :
    FailsLike u u' (programWithin n : Parse σ Unit) (programWithin n') :=
  .bind (expect_mimics h (plain_keyword (by simp))) fun _ => .bind (name_mimics h) fun _ =>
    .bind (fire_mimics _) fun _ => .bind (expect_mimics h (plain_sign (by simp))) fun _ =>
    .bind (declarations_mimics h hn) fun _ => .bind (functions_mimics h hn) fun _ =>
    .bind (expect_mimics h (plain_keyword (by simp))) fun _ => .bind (fire_mimics _) fun _ =>
    .bind (statementBlock_mimics h hn) fun _ =>
    .bind (expect_mimics h (plain_keyword (by simp))) fun _ =>
    .bind (fire_mimics _) fun _ => ending_failsLike h

end Parse

end Quadlet
