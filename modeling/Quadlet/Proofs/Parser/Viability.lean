import Mathlib.Computability.Language
import Mathlib.Order.CompletePartialOrder
import Quadlet.Proofs.Parser.Completeness
import Quadlet.Proofs.Parser.Refusal

/-!
# What the parser has taken can be completed

A part of the parser reads the rows of a language. Where it succeeds it has taken a row, and where
it fails it has taken the beginning of one and stands before the token that it blames. Parts in a
row read the product of their languages, so the statements follow the text of the parser. Main
statement: whenever the parser fails, the tokens in front of it begin some program.
-/

namespace Quadlet

namespace Syntax

variable {L M : Language Token.Kind} {ks ls : List Token.Kind}

/-- The rows of tokens of some trees. -/
def rows {α : Type} (tokens : α → List Token.Kind) : Language Token.Kind :=
  {ks | ∃ a, tokens a = ks}

/-- The row that is one token. -/
def single (k : Token.Kind) : Language Token.Kind := {[k]}

/-- Some row of a language begins with these tokens. -/
def Viable (L : Language Token.Kind) (ks : List Token.Kind) : Prop := ∃ more, ks ++ more ∈ L

/-- Every row begins with nothing. -/
theorem Viable.nil (h : ∃ ks, ks ∈ L) : Viable L [] := h

private theorem Viable.mono (h : Viable L ks) (hLM : L ≤ M) : Viable M ks := by
  obtain ⟨more, hmore⟩ := h
  exact ⟨more, hLM hmore⟩

/-- What begins a row may be followed by whole rows. -/
theorem Viable.mul (h : Viable L ks) (hM : ∃ ls, ls ∈ M) : Viable (L * M) ks := by
  obtain ⟨more, hmore⟩ := h
  obtain ⟨ls, hls⟩ := hM
  exact ⟨more ++ ls, Language.mem_mul.mpr ⟨_, hmore, _, hls, by rw [List.append_assoc]⟩⟩

/-- What begins a row is begun by its own beginning. -/
theorem Viable.left (h : Viable L (ks ++ ls)) : Viable L ks := by
  obtain ⟨more, hmore⟩ := h
  exact ⟨ls ++ more, by rwa [← List.append_assoc]⟩

/-- A row may stand in front of what begins one. -/
theorem Viable.mul_left (hks : ks ∈ L) (h : Viable M ls) : Viable (L * M) (ks ++ ls) := by
  obtain ⟨more, hmore⟩ := h
  exact ⟨more, Language.mem_mul.mpr ⟨_, hks, _, hmore, by rw [List.append_assoc]⟩⟩

end Syntax

namespace Parse

open EventSink Quadlet.Parser Syntax

/-- The sink that takes every event. -/
abbrev Record := Array Event

/-- What a parser blames for its failure, in front of `ks` of a language: the end marker, or the
token where it stands. It blames an end marker as a wrong token only where a type or an
assignment sign may follow. -/
inductive Blames (L : Language Token.Kind) (ks : List Token.Kind) (q : Parser Record) :
    Error → Prop where
  | truncated (atEnd : q.next = .endOfFile) : Blames L ks q .truncated
  | expected (what : String) (atEnd : q.next = .endOfFile →
      Viable L (ks ++ [.keyword .int]) ∨ Viable L (ks ++ [.sign .assign])) :
    Blames L ks q (.grammar q.cursor.peek.position (.expected what q.next))

/-- The result of a part of the parser that starts at `p` and reads a language. -/
inductive Lands {α : Type} (eof : EndMarker) (L : Language Token.Kind) (p : Parser Record) :
    EStateM.Result Error (Parser Record) α → Prop where
  | ok {ks : List Token.Kind} {es : List Event} {q : Parser Record} {a : α} (row : ks ∈ L)
    (takes : Takes eof p q ks es) : Lands eof L p (.ok a q)
  | error {ks : List Token.Kind} {es : List Event} {q : Parser Record} {e : Error}
    (viable : Viable L ks) (takes : Takes eof p q ks es) (blames : Blames L ks q e) :
    Lands eof L p (.error e q)

/-- A part of the parser follows a language that has a row, where at most `n` tokens are left. -/
structure Follows {α : Type} (eof : EndMarker) (n : Nat) (P : Parse Record α)
    (L : Language Token.Kind) : Prop where
  row : ∃ ks, ks ∈ L
  lands : ∀ p, Standing eof p → p.left ≤ n → Lands eof L p (P p)

variable {α β : Type} {eof : EndMarker} {n : Nat} {P : Parse Record α} {f : α → Parse Record β}
  {L M : Language Token.Kind} {ks ls : List Token.Kind} {p q : Parser Record} {e : Error}
  {k : Token.Kind}

private theorem Blames.mono (h : Blames L ks q e)
    (hL : ∀ k, Viable L (ks ++ [k]) → Viable M (ls ++ [k])) : Blames M ls q e := by
  cases h with
  | truncated atEnd => exact .truncated atEnd
  | expected what atEnd => exact .expected what fun hq => (atEnd hq).imp (hL _) (hL _)

private theorem Lands.mono {r : EStateM.Result Error (Parser Record) α} (h : Lands eof L p r)
    (hLM : L ≤ M) : Lands eof M p r := by
  cases h with
  | ok row takes => exact .ok (hLM row) takes
  | error viable takes blames =>
    exact .error (viable.mono hLM) takes (blames.mono fun _ hk => hk.mono hLM)

/-- Behind a row another language is read. -/
theorem Lands.after {r : EStateM.Result Error (Parser Record) α} {es : List Event} (row : ks ∈ L)
    (takes : Takes eof p q ks es) (h : Lands eof M q r) : Lands eof (L * M) p r := by
  cases h with
  | ok row' takes' => exact .ok (Language.mem_mul.mpr ⟨_, row, _, row', rfl⟩) (takes.trans takes')
  | error viable takes' blames =>
    refine .error (.mul_left row viable) (takes.trans takes') (blames.mono fun k hk => ?_)
    rw [List.append_assoc]
    exact .mul_left row hk

/-- Two parts in a row read rows of both languages. -/
theorem Lands.bind (hP : Lands eof L p (P p)) (hM : ∃ ls, ls ∈ M)
    (hf : ∀ a q ks es, ks ∈ L → Takes eof p q ks es → Lands eof M q (f a q)) :
    Lands eof (L * M) p ((P >>= f) p) := by
  cases hr : P p with
  | error e q =>
    rw [hr] at hP
    rw [EStateM.bind_of_error hr]
    cases hP with
    | error viable takes blames =>
      exact .error (viable.mul hM) takes (blames.mono fun _ hk => hk.mul hM)
  | ok a q =>
    rw [hr] at hP
    rw [EStateM.bind_of_ok hr]
    cases hP with
    | ok row takes => exact .after row takes (hf a q _ _ row takes)

namespace Follows

private theorem mono (h : Follows eof n P L) (hLM : L ≤ M) : Follows eof n P M := by
  obtain ⟨ks, hks⟩ := h.row
  exact ⟨⟨ks, hLM hks⟩, fun p hp hn => (h.lands p hp hn).mono hLM⟩

private theorem of_le {m : Nat} (h : Follows eof n P L) (hm : m ≤ n) : Follows eof m P L :=
  ⟨h.row, fun p hp hleft => h.lands p hp (hleft.trans hm)⟩

/-- The end marker is always left. -/
theorem zero (hL : ∃ ks, ks ∈ L) : Follows eof 0 P L :=
  ⟨hL, fun _ hp hn => absurd hp.left_pos (Nat.not_lt.mpr hn)⟩

private theorem bind [Nonempty α] (hP : Follows eof n P L) (hf : ∀ a, Follows eof n (f a) M) :
    Follows eof n (P >>= f) (L * M) := by
  obtain ⟨ks, hks⟩ := hP.row
  obtain ⟨ls, hls⟩ := (hf Classical.ofNonempty).row
  refine ⟨⟨_, Language.mem_mul.mpr ⟨_, hks, _, hls, rfl⟩⟩, fun p hp hn => ?_⟩
  exact (hP.lands p hp hn).bind ⟨ls, hls⟩ fun a q ks es _ takes =>
    (hf a).lands q takes.right_standing (takes.left_le.trans hn)

/-- Behind a part that takes a token there is one less to take. -/
theorem next [Nonempty α] (hP : Follows eof (n + 1) P L) (hpos : ∀ ks ∈ L, ks ≠ [])
    (hf : ∀ a, Follows eof n (f a) M) : Follows eof (n + 1) (P >>= f) (L * M) := by
  obtain ⟨ks, hks⟩ := hP.row
  obtain ⟨ls, hls⟩ := (hf Classical.ofNonempty).row
  refine ⟨⟨_, Language.mem_mul.mpr ⟨_, hks, _, hls, rfl⟩⟩, fun p hp hn => ?_⟩
  refine (hP.lands p hp hn).bind ⟨ls, hls⟩ fun a q ks es hks takes =>
    (hf a).lands q takes.right_standing ?_
  have hlength := List.length_pos_iff.mpr (hpos ks hks)
  have hleft := takes.left_eq
  omega

end Follows

/-! ## Single actions -/

/-- A part that asks for something else has taken nothing. -/
theorem wanted_lands {what : String} (hp : Standing eof p) (hL : ∃ ks, ks ∈ L)
    (hend : p.next = .endOfFile →
    Viable L [.keyword .int] ∨ Viable L [.sign .assign]) :
    Lands eof L p ((wanted what : Parse Record α) p) :=
  .error (.nil hL) (.refl hp) (.expected what hend)

private theorem truncated_lands (hp : Standing eof p) (hL : ∃ ks, ks ∈ L)
    (hend : p.next = .endOfFile) : Lands eof L p ((throw .truncated : Parse Record α) p) :=
  .error (.nil hL) (.refl hp) (.truncated hend)

private theorem fire_follows (v : Event) : Follows eof n (fire v : Parse Record Unit) 1 :=
  ⟨⟨[], rfl⟩, fun _ hp _ => .ok rfl ((fire_iff hp).mp rfl)⟩

private theorem expect_of_ne {σ : Type} {p : Parser σ} (h : p.next ≠ k) :
    expect k p =
      (if p.cursor.atEnd then throw .truncated else wanted k.described : Parse σ Unit) p := by
  rw [expect, EStateM.bind_of_ok (sees_eq k p), beq_eq_false_iff_ne.mpr h]
  rfl

private theorem expect_follows (hk : k ≠ .endOfFile) :
    Follows eof n (expect k : Parse Record Unit) (single k) := by
  refine ⟨⟨[k], rfl⟩, fun p hp _ => ?_⟩
  by_cases hnext : p.next = k
  · have takes := (takes_token hp hk).mpr ⟨hnext, rfl⟩
    rw [(expect_iff hp hk).mpr takes]
    exact .ok rfl takes
  · rw [expect_of_ne hnext]
    split
    · next hend => exact truncated_lands hp ⟨[k], rfl⟩ (beq_iff_eq.mp hend)
    · next hend => exact wanted_lands hp ⟨[k], rfl⟩ fun h => absurd (beq_iff_eq.mpr h) hend

/-- Behind an expected token there is one less to take. -/
theorem Follows.expect (h : Follows eof n P L) (hk : k ≠ .endOfFile) :
    Follows eof (n + 1) (do expect k; P) (single k * L) := by
  refine (expect_follows hk).next ?_ fun _ => h
  rintro _ rfl
  simp

/-- The rows that are one name. -/
def names : Language Token.Kind := rows fun x : String => [.identifier x]

private theorem name_follows : Follows eof n (name : Parse Record String) names := by
  have hrow : ∃ ks, ks ∈ names := ⟨_, "", rfl⟩
  refine ⟨hrow, fun p hp _ => ?_⟩
  cases hr : name p with
  | ok x q => exact .ok ⟨x, rfl⟩ ((name_iff hp).mp hr)
  | error e q =>
    rw [name, EStateM.bind_of_ok (peek_eq p)] at hr
    cases hk : p.cursor.peek.kind with
    | identifier x => rw [hk] at hr; cases hr
    | endOfFile =>
      rw [hk] at hr
      cases hr
      exact truncated_lands hp hrow hk
    | _ =>
      rw [hk] at hr
      cases hr
      exact wanted_lands hp hrow fun hend => by rw [next, hk] at hend; cases hend

/-- The rows that are the name of a type. -/
def types : Language Token.Kind := rows fun τ : Numeric => [.keyword τ.keyword]

private theorem typeName_follows : Follows eof n (typeName : Parse Record ValueType) types := by
  have hrow : ∃ ks, ks ∈ types := ⟨_, .int, rfl⟩
  refine ⟨hrow, fun p hp _ => ?_⟩
  cases hr : typeName p with
  | ok τ q =>
    obtain ⟨τ, -, takes⟩ := typeName_eq_ok hp hr
    exact .ok ⟨τ, rfl⟩ takes
  | error e q =>
    obtain h | ⟨found, p₁, h₁, h⟩ := EStateM.bind_eq_error.mp hr
    · exact (take?_ne_error h).elim
    obtain ⟨rfl, -⟩ | ⟨rfl, -, rfl⟩ := take?_eq_ok hp (by simp) h₁
    · cases h
    obtain h' | ⟨found, p₂, h₂, h'⟩ := EStateM.bind_eq_error.mp h
    · exact (take?_ne_error h').elim
    obtain ⟨rfl, -⟩ | ⟨rfl, -, rfl⟩ := take?_eq_ok hp (by simp) h₂
    · cases h'
    cases h'
    exact wanted_lands hp hrow fun _ => .inl ⟨[], .int, rfl⟩

/-- A part goes on with or without a token, as it finds it. -/
theorem take?_follows {m : Nat} {f : Bool → Parse Record α} (hk : k ≠ .endOfFile)
    (htrue : Follows eof m (f true) L) (hm : n ≤ m + 1) (hfalse : Follows eof n (f false) M) :
    Follows eof n (take? k >>= f) (single k * L + M) := by
  refine ⟨hfalse.row.imp fun ks hks => .inr hks, fun p hp hn => ?_⟩
  by_cases hnext : p.next = k
  · have takes := (takes_token hp hk).mpr ⟨hnext, rfl⟩
    have hleft := takes.left_token
    rw [EStateM.bind_of_ok (take?_of_takes hk takes)]
    have hlands := htrue.lands _ takes.right_standing (by omega)
    exact (hlands.after (L := single k) rfl takes).mono le_sup_left
  · rw [EStateM.bind_of_ok (take?_of_ne hnext)]
    exact (hfalse.lands p hp hn).mono le_sup_right

/-- A part goes on as it finds a token or not, and takes nothing yet. -/
theorem sees_follows {f : Bool → Parse Record α} (htrue : Follows eof n (f true) L)
    (hfalse : Follows eof n (f false) M) : Follows eof n (sees k >>= f) (L + M) := by
  refine ⟨htrue.row.imp fun ks hks => .inl hks, fun p hp hn => ?_⟩
  rw [EStateM.bind_of_ok (sees_eq k p)]
  cases p.next == k with
  | true => exact (htrue.lands p hp hn).mono le_sup_left
  | false => exact (hfalse.lands p hp hn).mono le_sup_right

private theorem peek_follows {f : Token → Parse Record α} (hrow : ∃ ks, ks ∈ L)
    (hf : ∀ t, Follows eof n (f t) L) : Follows eof n (peek >>= f) L := by
  refine ⟨hrow, fun p hp hn => ?_⟩
  rw [EStateM.bind_of_ok (peek_eq p)]
  exact (hf _).lands p hp hn

private theorem pure_follows (a : α) : Follows eof n (pure a : Parse Record α) 1 :=
  ⟨⟨[], rfl⟩, fun _ hp _ => .ok rfl (.refl hp)⟩

/-- Behind a part an event is told. -/
theorem Follows.close {P : Parse Record Unit} (h : Follows eof n P L) (v : Event) :
    Follows eof n (do P; fire v) L := by
  rw [← mul_one L]
  exact h.bind fun _ => fire_follows v

/-- In front of a part an event is told. -/
theorem Follows.told {P : Parse Record α} (h : Follows eof n P L) (v : Event) :
    Follows eof n (do fire v; P) L := by
  rw [← one_mul L]
  exact (fire_follows v).bind fun _ => h

/-! ## Expressions -/

/-- A token that was seen is taken as an expected one. -/
theorem advance_eq_expect {σ : Type} {p : Parser σ} (h : p.next = k) : advance p = expect k p := by
  rw [expect, EStateM.bind_of_ok (sees_eq k p), h, beq_self_eq_true]
  rfl

private theorem advance_bind_eq {σ : Type} {p : Parser σ} (h : p.next = k) (x : Parse σ α) :
    (do advance; x : Parse σ α) p = (do expect k; x : Parse σ α) p := by
  change EStateM.bind _ _ p = EStateM.bind _ _ p
  rw [EStateM.bind, EStateM.bind, advance_eq_expect h]

/-- The rows that are the sign of an operator of one level. -/
def signs (legal : Operator → Bool) : Language Token.Kind :=
  rows fun op : {op // legal op = true} => [.sign op.val.sign]

private theorem single_le_signs {legal : Operator → Bool} {op : Operator} (h : legal op = true) :
    single (.sign op.sign) ≤ signs legal := by
  rintro _ rfl
  exact ⟨⟨op, h⟩, rfl⟩

/-- Further operands are read, each behind the sign of an operator. -/
theorem moreOperands_follows {level : Token.Kind → Option Operator} {legal : Operator → Bool}
    {operand : Parse Record Unit}
    (hlevel : ∀ k op, level k = some op → k = .sign op.sign ∧ legal op = true)
    (hoperand : Follows eof n operand L) :
    Follows eof n (moreOperands level operand n) (KStar.kstar (signs legal * L)) := by
  induction n with
  | zero => exact .zero ⟨[], Language.nil_mem_kstar _⟩
  | succ n ih =>
    refine ⟨⟨[], Language.nil_mem_kstar _⟩, fun p hp hn => ?_⟩
    rw [moreOperands, EStateM.bind_of_ok (peek_eq p)]
    cases hk : level p.cursor.peek.kind with
    | none => exact .ok (Language.nil_mem_kstar _) (.refl hp)
    | some op =>
      obtain ⟨hsign, hlegal⟩ := hlevel _ _ hk
      have hless := hoperand.of_le (Nat.le_succ n)
      have hmore : Follows eof (n + 1)
          (do expect (.sign op.sign); fire (.operator op); operand; moreOperands level operand n)
          (single (.sign op.sign) * (L * KStar.kstar (signs legal * L))) :=
        ((hless.bind fun _ => ih hless).told _).expect (by simp)
      have hle : single (.sign op.sign) * (L * KStar.kstar (signs legal * L)) ≤
          KStar.kstar (signs legal * L) := by
        rw [← mul_assoc]
        exact (mul_le_mul_left (mul_le_mul_left (single_le_signs hlegal) _) _).trans
          mul_kstar_le_kstar
      change Lands _ _ _
        ((do advance; fire (.operator op); operand; moreOperands level operand n) p)
      rw [advance_bind_eq hsign]
      exact (hmore.lands p hp hn).mono hle

/-- A first operand and further ones make a tree that grows on its right. -/
theorem rows_chain {a b : Rank} {legal : Operator → Bool} (lift : Tree b → Tree a)
    (hlift : ∀ e, (lift e).tokens = e.tokens)
    (join : Tree a → (op : Operator) → legal op = true → Tree b → Tree a)
    (hjoin : ∀ l op h e, (join l op h e).tokens = l.tokens ++ .sign op.sign :: e.tokens) :
    rows (Tree.tokens (r := b)) * KStar.kstar (signs legal * rows (Tree.tokens (r := b))) ≤
      rows (Tree.tokens (r := a)) := by
  refine mul_kstar_le ?_ ?_
  · rintro _ ⟨e, rfl⟩
    exact ⟨lift e, hlift e⟩
  · rintro _ ⟨_, ⟨l, rfl⟩, _, ⟨_, ⟨⟨op, hop⟩, rfl⟩, _, ⟨e, rfl⟩, rfl⟩, rfl⟩
    exact ⟨join l op hop e, hjoin l op hop e⟩

variable {operand : Parse Record Unit}

private theorem term_follows (h : Follows eof n operand (rows (Tree.tokens (r := .factor)))) :
    Follows eof n (term operand n) (rows (Tree.tokens (r := .term))) := by
  have hwhole := h.close .factorEnd
  refine (hwhole.bind fun _ =>
    moreOperands_follows (fun _ _ => multiplicative?_eq_some) hwhole).mono ?_
  exact rows_chain .ofFactor (fun _ => rfl) .product fun _ _ _ _ => rfl

private theorem sum_follows (h : Follows eof n operand (rows (Tree.tokens (r := .factor)))) :
    Follows eof n (sum operand n) (rows (Tree.tokens (r := .sum))) := by
  have hwhole := (term_follows h).close .termEnd
  refine (hwhole.bind fun _ => moreOperands_follows (fun _ _ => additive?_eq_some) hwhole).mono ?_
  exact rows_chain .ofTerm (fun _ => rfl) .addition fun _ _ _ _ => rfl

private theorem expressionOf_follows
    (h : Follows eof n operand (rows (Tree.tokens (r := .factor)))) :
    Follows eof n (expressionOf operand n) (rows (Tree.tokens (r := .whole))) := by
  have hsum := sum_follows h
  have hle :
      rows (Tree.tokens (r := .sum)) *
        (signs Operator.isRelational * rows (Tree.tokens (r := .sum)) + 1) ≤
          rows (Tree.tokens (r := .whole)) := by
    rintro _ ⟨_, ⟨l, rfl⟩, _, ⟨_, ⟨⟨op, hop⟩, rfl⟩, _, ⟨r, rfl⟩, rfl⟩ | rfl, rfl⟩
    · exact ⟨.comparison l op hop r, rfl⟩
    · exact ⟨.ofSum l, (List.append_nil _).symm⟩
  refine ⟨⟨_, .zero .whole, rfl⟩, fun p hp hn => ?_⟩
  refine ((hsum.lands p hp hn).bind ⟨[], .inr rfl⟩ fun _ q ks es _ takes => ?_).mono hle
  rw [EStateM.bind_of_ok (peek_eq q)]
  cases hk : relational? q.cursor.peek.kind with
  | none =>
    have hq : q.left ≤ n := takes.left_le.trans hn
    exact ((fire_follows .relationalEnd).lands q takes.right_standing hq).mono le_sup_right
  | some op =>
    obtain ⟨hsign, hop⟩ := relational?_eq_some hk
    change Lands _ _ _ ((do advance; fire (.operator op); sum operand n; fire .relationalEnd) q)
    rw [advance_bind_eq hsign]
    have hmore :
        Follows eof n
          (do expect (.sign op.sign); fire (.operator op); sum operand n; fire .relationalEnd)
            (single (.sign op.sign) * rows (Tree.tokens (r := .sum))) :=
      (expect_follows (by simp)).bind fun _ => (hsum.close _).told _
    refine (hmore.lands q takes.right_standing (takes.left_le.trans hn)).mono ?_
    exact (mul_le_mul_left (single_le_signs hop) _).trans le_sup_left

/-- A factor of one token is read, as its event is told. -/
theorem leaf_lands (hp : Standing eof p) :
    Lands eof (rows (Tree.tokens (r := .factor))) p (leaf p.next p) := by
  have hrow : ∃ ks, ks ∈ rows (Tree.tokens (r := .factor)) := ⟨_, .zero .factor, rfl⟩
  have htoken {k : Token.Kind} (v : Event) (f : Tree .factor) (hf : f.tokens = [k])
      (hk : k ≠ .endOfFile) (hnext : p.next = k) :
      Lands eof (rows (Tree.tokens (r := .factor))) p
        ((do advance; fire v : Parse Record Unit) p) := by
    rw [advance_bind_eq hnext]
    refine (((expect_follows hk).close v).lands p hp le_rfl).mono ?_
    rintro _ rfl
    exact ⟨f, hf⟩
  cases hk : p.next with
  | integer n => exact htoken _ (.int n) rfl (by simp) hk
  | float x => exact htoken _ (.float x) rfl (by simp) hk
  | identifier x => exact htoken _ (.name x) rfl (by simp) hk
  | endOfFile => exact truncated_lands hp hrow hk
  | _ => exact wanted_lands hp hrow fun hend => by rw [hk] at hend; cases hend

private theorem factor_follows (n : Nat) :
    Follows eof n (factor n : Parse Record Unit) (rows (Tree.tokens (r := .factor))) := by
  have hrow : ∃ ks, ks ∈ rows (Tree.tokens (r := .factor)) := ⟨_, .zero .factor, rfl⟩
  induction n with
  | zero => exact .zero hrow
  | succ n ih =>
    refine ⟨hrow, fun p hp hn => ?_⟩
    have hsigned (negative : Bool) (hk : p.next = .sign (if negative then .minus else .plus)) :
        Lands eof (rows (Tree.tokens (r := .factor))) p
          ((do advance; fire (.unarySign negative); factor n; fire .unaryEnd : Parse Record Unit)
            p) := by
      rw [advance_bind_eq hk]
      refine ((((ih.close _).told _).expect (by simp)).lands p hp hn).mono ?_
      rintro _ ⟨_, rfl, _, ⟨f, rfl⟩, rfl⟩
      exact ⟨.signed negative f, rfl⟩
    have hgroup (hk : p.next = .sign .leftParen) : Lands eof (rows (Tree.tokens (r := .factor))) p
        ((do advance; fire .openParen; expressionOf (factor n) n; expect (.sign .rightParen)
             fire .closeParen : Parse Record Unit) p) := by
      rw [advance_bind_eq hk]
      have hinner := (expressionOf_follows ih).bind fun _ =>
        (expect_follows (k := .sign .rightParen) (by simp)).close .closeParen
      refine (((hinner.told _).expect (by simp)).lands p hp hn).mono ?_
      rintro _ ⟨_, rfl, _, ⟨_, ⟨e, rfl⟩, _, rfl, rfl⟩, rfl⟩
      exact ⟨.group e, rfl⟩
    have hleaf : Lands eof (rows (Tree.tokens (r := .factor))) p (leaf p.cursor.peek.kind p) :=
      leaf_lands hp
    rw [factor, EStateM.bind_of_ok (peek_eq p)]
    cases hk : p.cursor.peek.kind with
    | sign s =>
      rw [hk] at hleaf
      cases s with
      | plus => exact hsigned false hk
      | minus => exact hsigned true hk
      | leftParen => exact hgroup hk
      | _ => exact hleaf
    | _ => rw [hk] at hleaf; exact hleaf

private theorem expression_follows (n : Nat) :
    Follows eof n (expression n : Parse Record Unit) (rows (Tree.tokens (r := .whole))) :=
  expressionOf_follows (factor_follows n)

/-! ## Lists and declarations -/

section

variable {γ : Type} {item : Parse Record Unit} {tokens : γ → List Token.Kind}

private theorem moreItems_follows (h : Follows eof n item L) :
    Follows eof n (moreItems item n) (KStar.kstar (single (.sign .comma) * L)) := by
  induction n with
  | zero => exact .zero ⟨[], Language.nil_mem_kstar _⟩
  | succ n ih =>
    have hless := h.of_le (Nat.le_succ n)
    refine (take?_follows (by simp) (hless.bind fun _ => ih hless) le_rfl (pure_follows ())).mono
      (add_le ?_ one_le_kstar)
    rw [← mul_assoc]
    exact mul_kstar_le_kstar

/-- Items with commas between them are read, at least one. -/
theorem items_follows (h : Follows eof n item (rows tokens)) :
    Follows eof n (items item n) (rows fun as : γ × List γ => listed tokens (as.1 :: as.2)) := by
  refine (h.bind fun _ => moreItems_follows h).mono (mul_kstar_le ?_ ?_)
  · rintro _ ⟨a, rfl⟩
    exact ⟨(a, []), by simp [listed]⟩
  · rintro _ ⟨_, ⟨⟨a, as⟩, rfl⟩, _, ⟨_, rfl, _, ⟨b, rfl⟩, rfl⟩, rfl⟩
    exact ⟨(a, as ++ [b]), by simp [listed]⟩

/-- The items between two parentheses are read, where there may be none. -/
theorem optionalItems_follows (h : Follows eof n item (rows tokens)) {x : Parse Record Unit}
    (hx : Follows eof n x M) :
    Follows eof n
      (do if !(← sees (.sign .rightParen)) then items item n
          expect (.sign .rightParen)
          x)
      (rows (listed tokens) * (single (.sign .rightParen) * M)) := by
  have hclosed :
      Follows eof n (do expect (.sign .rightParen); x) (single (.sign .rightParen) * M) :=
    (expect_follows (by simp)).bind fun _ => hx
  refine (sees_follows hclosed ((items_follows h).bind fun _ => hclosed)).mono
    (add_le ?_ (mul_le_mul_left ?_ _))
  · rintro ks hks
    exact ⟨[], ⟨[], rfl⟩, ks, hks, rfl⟩
  · rintro _ ⟨⟨a, as⟩, rfl⟩
    exact ⟨a :: as, rfl⟩

end

private theorem variableName_follows : Follows eof n (variableName : Parse Record Unit) names := by
  rw [← mul_one names]
  exact name_follows.bind fun _ => fire_follows _

instance : Nonempty ValueType := ⟨.int⟩

/-- Lists of variables are read, at least one. -/
theorem variableLists_follows (n : Nat) :
    Follows eof n (variableLists n : Parse Record Unit)
      (rows fun ds : Declaration × List Declaration =>
        (ds.1 :: ds.2).flatMap Declaration.tokens) := by
  induction n with
  | zero => exact .zero ⟨_, (⟨"", [], .int⟩, []), rfl⟩
  | succ n ih =>
    rw [variableLists_eq]
    refine ((items_follows variableName_follows).next ?_ fun _ =>
      (expect_follows (k := .sign .colon) (by simp)).bind fun _ => typeName_follows.bind fun τ =>
        ((expect_follows (k := .sign .semicolon) (by simp)).bind fun _ => peek_follows
          (L := rows fun ds : List Declaration => ds.flatMap Declaration.tokens) ⟨_, [], rfl⟩
          fun t => ?_).told (.varType τ)).mono ?_
    · rintro _ ⟨⟨a, as⟩, rfl⟩
      simp [listed]
    · cases t.kind with
      | identifier x =>
        refine ih.mono ?_
        rintro _ ⟨⟨d, ds⟩, rfl⟩
        exact ⟨d :: ds, rfl⟩
      | _ =>
        refine (pure_follows ()).mono ?_
        rintro _ rfl
        exact ⟨[], rfl⟩
    · rintro _ ⟨_, ⟨⟨x, xs⟩, rfl⟩, _,
        ⟨_, rfl, _, ⟨_, ⟨τ, rfl⟩, _, ⟨_, rfl, _, ⟨ds, rfl⟩, rfl⟩, rfl⟩, rfl⟩, rfl⟩
      exact ⟨(⟨x, xs, τ⟩, ds), by simp [Declaration.tokens, Declaration.names]⟩

private theorem declarations_follows (n : Nat) :
    Follows eof n (declarations n : Parse Record Unit) (rows Declaration.sectionTokens) := by
  refine (take?_follows (by simp) (variableLists_follows n) (Nat.le_succ n) (pure_follows ())).mono
    (add_le ?_ ?_)
  · rintro _ ⟨_, rfl, _, ⟨⟨d, ds⟩, rfl⟩, rfl⟩
    exact ⟨d :: ds, rfl⟩
  · rintro _ rfl
    exact ⟨[], rfl⟩

/-! ## Statements -/

/-- The rows of tokens of some statements. -/
abbrev statementRows : Language Token.Kind := rows (Phrase.tokens (r := .statement))

/-- The rows of tokens of statements between braces. -/
abbrev blockRows : Language Token.Kind :=
  rows fun b : Block => .sign .leftBrace :: b.tokens ++ [.sign .rightBrace]

section

variable {statement : Parse Record Unit}
  (hstatement : ∀ p, Standing eof p → p.next ≠ .endOfFile → p.left ≤ n →
    Lands eof statementRows p (statement p))

include hstatement

/-- The statements up to a closing brace are followed; at the end marker none is begun. -/
theorem statements_follows :
    Follows eof n (statements statement n) (rows (Phrase.tokens (r := .block))) := by
  have hrow : ∃ ks, ks ∈ rows (Phrase.tokens (r := .block)) := ⟨_, .nil, rfl⟩
  induction n with
  | zero => exact .zero hrow
  | succ n ih =>
    have hrest := ih fun p hp hend hn => hstatement p hp hend (hn.trans (Nat.le_succ n))
    refine ⟨hrow, fun p hp hn => ?_⟩
    rw [statements, EStateM.bind_of_ok (sees_eq _ p)]
    cases hbrace : p.next == .sign .rightBrace with
    | true => exact .ok ⟨.nil, rfl⟩ (.refl hp)
    | false =>
      change Lands _ _ _ ((if p.cursor.atEnd then throw .truncated
        else do statement; statements statement n : Parse Record Unit) p)
      split
      · next hend => exact truncated_lands hp hrow (beq_iff_eq.mp hend)
      · next hend =>
        have hfirst := hstatement p hp (fun h => hend (beq_iff_eq.mpr h)) hn
        refine (hfirst.bind hrow fun _ q ks es hks takes =>
          hrest.lands q takes.right_standing ?_).mono ?_
        · obtain ⟨s, rfl⟩ := hks
          have hlength := List.length_pos_iff.mpr (tokens_statement_ne_nil s)
          have hleft := takes.left_eq
          omega
        · rintro _ ⟨_, ⟨s, rfl⟩, _, ⟨b, rfl⟩, rfl⟩
          exact ⟨.cons s b, rfl⟩

private theorem block_follows : Follows eof n (block statement n) blockRows := by
  refine ((expect_follows (by simp)).bind fun _ => (statements_follows hstatement).bind fun _ =>
    expect_follows (by simp)).mono ?_
  rintro _ ⟨_, rfl, _, ⟨_, ⟨b, rfl⟩, _, rfl, rfl⟩, rfl⟩
  exact ⟨b, rfl⟩

end

/-- The rows of tokens of an expression between parentheses. -/
abbrev guardRows : Language Token.Kind :=
  rows fun g : Expression => .sign .leftParen :: g.tokens ++ [.sign .rightParen]

private theorem guarded_follows (n : Nat) :
    Follows eof n (guarded n : Parse Record Unit) guardRows := by
  refine ((expect_follows (by simp)).bind fun _ => (expression_follows n).bind fun _ =>
    expect_follows (by simp)).mono ?_
  rintro _ ⟨_, rfl, _, ⟨_, ⟨g, rfl⟩, _, rfl, rfl⟩, rfl⟩
  exact ⟨g, rfl⟩

private theorem semicolon_follows :
    Follows eof n (expect (.sign .semicolon) : Parse Record Unit) (single (.sign .semicolon)) :=
  expect_follows (by simp)

private theorem assignment_follows (n : Nat) :
    Follows eof (n + 1) (assignment n : Parse Record Unit) statementRows := by
  have hvalue : Follows eof n _ _ :=
    (expression_follows n).bind fun _ => semicolon_follows.told .assignValue
  have hsign :=
    (expect_follows (k := .sign .assign) (by simp)).bind fun _ => hvalue.told .assignOperator
  refine (name_follows.next ?_ fun x => hsign.told (.assignTarget x)).mono ?_
  · rintro _ ⟨x, rfl⟩
    simp
  · rintro _ ⟨_, ⟨x, rfl⟩, _, ⟨_, rfl, _, ⟨_, ⟨e, rfl⟩, _, rfl, rfl⟩, rfl⟩, rfl⟩
    exact ⟨.assign x e, rfl⟩

variable {body : Parse Record Unit}

private theorem condition_follows (h : Follows eof n body blockRows) :
    Follows eof (n + 1) (condition body n) statementRows := by
  have hend : Follows eof n _ _ := semicolon_follows.told .ifEnd
  have hother := (h.bind fun _ => hend).told .elseBranch
  have hbranches := h.bind fun _ =>
    take?_follows (k := .keyword .otherwise) (f := fun found => do
      if found then
        fire .elseBranch
        body
      fire .ifEnd
      expect (.sign .semicolon)) (by simp) hother (Nat.le_succ n) hend
  refine (((guarded_follows n).bind fun _ => hbranches.told .ifGuardEnd).expect
    (k := .keyword .cond) (by simp)).mono ?_
  rintro _ ⟨_, rfl, _, ⟨_, ⟨g, rfl⟩, _, ⟨_, ⟨b, rfl⟩, _,
    ⟨_, rfl, _, ⟨_, ⟨c, rfl⟩, _, rfl, rfl⟩, rfl⟩ | rfl, rfl⟩, rfl⟩, rfl⟩
  · exact ⟨.choice g b c, by simp [Phrase.tokens]⟩
  · exact ⟨.branch g b, by simp [Phrase.tokens]⟩

private theorem cycle_follows (h : Follows eof n body blockRows) :
    Follows eof (n + 1) (cycle body n) statementRows := by
  have hguard : Follows eof n _ _ :=
    (guarded_follows n).bind fun _ => semicolon_follows.told .loopGuardEnd
  have hbody :=
    h.bind fun _ => (expect_follows (k := .keyword .whilst) (by simp)).bind fun _ => hguard
  refine ((hbody.told .loopStart).expect (k := .keyword .loop) (by simp)).mono ?_
  rintro _ ⟨_, rfl, _, ⟨_, ⟨b, rfl⟩, _, ⟨_, rfl, _, ⟨_, ⟨g, rfl⟩, _, rfl, rfl⟩, rfl⟩, rfl⟩, rfl⟩
  exact ⟨.loop b g, by simp [Phrase.tokens]⟩

private theorem call_follows (n : Nat) :
    Follows eof (n + 1) (call n : Parse Record Unit) statementRows := by
  have hend : Follows eof n _ _ := semicolon_follows.told .callEnd
  have harguments :=
    (optionalItems_follows ((expression_follows n).close .argument) hend).told .callOpen
  refine (name_follows.next ?_ fun f =>
    ((expect_follows (k := .sign .leftParen) (by simp)).bind fun _ => harguments).told
      (.callStart f)).mono ?_
  · rintro _ ⟨x, rfl⟩
    simp
  · rintro _ ⟨_, ⟨f, rfl⟩, _, ⟨_, rfl, _, ⟨_, ⟨es, rfl⟩, _, ⟨_, rfl, _, rfl, rfl⟩, rfl⟩, rfl⟩, rfl⟩
    exact ⟨.call f es, by simp [Phrase.tokens]⟩

private theorem printItem_follows (n : Nat) :
    Follows eof n (printItem n : Parse Record Unit) (rows Item.tokens) := by
  refine ⟨⟨_, .text "", rfl⟩, fun p hp hn => ?_⟩
  have hvalue :
      Lands eof (rows Item.tokens) p
        ((do expression n; fire .printItem : Parse Record Unit) p) := by
    refine (((expression_follows n).close _).lands p hp hn).mono ?_
    rintro _ ⟨e, rfl⟩
    exact ⟨.value e, rfl⟩
  rw [printItem, EStateM.bind_of_ok (peek_eq p)]
  cases hk : p.cursor.peek.kind with
  | string text =>
    change Lands _ _ _ ((do advance; fire (.stringLiteral text); fire .printItem) p)
    rw [advance_bind_eq hk]
    have htext : Follows eof (n + 1) _ _ :=
      ((fire_follows .printItem).told (.stringLiteral text)).expect (k := .string text) (by simp)
    refine (htext.lands p hp (hn.trans (Nat.le_succ n))).mono ?_
    rintro _ ⟨_, rfl, _, rfl, rfl⟩
    exact ⟨.text text, rfl⟩
  | _ => exact hvalue

private theorem print_follows (n : Nat) :
    Follows eof (n + 1) (print n : Parse Record Unit) statementRows := by
  have hend : Follows eof n _ _ :=
    (expect_follows (k := .sign .rightParen) (by simp)).bind fun _ => semicolon_follows
  refine (((expect_follows (k := .sign .leftParen) (by simp)).bind fun _ =>
    (items_follows (printItem_follows n)).bind fun _ => hend).expect (k := .keyword .print) (by
      simp)).mono ?_
  rintro _ ⟨_, rfl, _, ⟨_, rfl, _, ⟨_, ⟨⟨i, is⟩, rfl⟩, _, ⟨_, rfl, _, rfl, rfl⟩, rfl⟩, rfl⟩, rfl⟩
  exact ⟨.print i is, by simp [Phrase.tokens]⟩

/-- A statement that is begun before the end marker is followed. Behind a name that is neither
assigned to nor called it has taken the name. -/
theorem statement_lands (n : Nat) (p : Parser Record) (hp : Standing eof p)
    (hend : p.next ≠ .endOfFile) (hn : p.left ≤ n) : Lands eof statementRows p (statement n p) := by
  have hrow : ∃ ks, ks ∈ statementRows := ⟨_, .call "" [], rfl⟩
  induction n generalizing p with
  | zero => exact absurd hp.left_pos (Nat.not_lt.mpr hn)
  | succ n ih =>
    have hbody := block_follows ih
    have hother : Lands eof statementRows p ((wanted "statement" : Parse Record Unit) p) :=
      wanted_lands hp hrow fun h => absurd h hend
    cases hk : p.cursor.peek.kind with
    | keyword w =>
      rw [statement, EStateM.bind_of_ok (peek_eq p), hk]
      cases w with
      | cond => exact (condition_follows hbody).lands p hp hn
      | loop => exact (cycle_follows hbody).lands p hp hn
      | print => exact (print_follows n).lands p hp hn
      | _ => exact hother
    | identifier x =>
      have hnext : p.next = .identifier x := hk
      have takes := (takes_token hp (k := .identifier x) (by simp)).mpr ⟨hnext, rfl⟩
      have viable : Viable statementRows ([.identifier x] ++ [.sign .assign]) :=
        ⟨_, .assign x (.zero .whole), rfl⟩
      have hname :
          Lands eof statementRows p ((do advance; wanted "`=` or `(`" : Parse Record Unit) p) :=
        .error viable.left takes (.expected _ fun _ => .inr viable)
      rw [statement_of_name hnext]
      cases p.cursor.second?.map Token.kind with
      | none => exact hname
      | some k =>
        cases k with
        | sign s =>
          cases s with
          | assign => exact (assignment_follows n).lands p hp hn
          | leftParen => exact (call_follows n).lands p hp hn
          | _ => exact hname
        | _ => exact hname
    | _ =>
      rw [statement, EStateM.bind_of_ok (peek_eq p), hk]
      exact hother

/-! ## Functions and programs -/

private theorem parameter_follows :
    Follows eof n (parameter : Parse Record Unit) (rows Parameter.tokens) := by
  refine (name_follows.bind fun x => (expect_follows (k := .sign .colon) (by simp)).bind fun _ =>
    typeName_follows.bind fun τ => fire_follows (.param x τ)).mono ?_
  rintro _ ⟨_, ⟨x, rfl⟩, _, ⟨_, rfl, _, ⟨_, ⟨τ, rfl⟩, _, rfl, rfl⟩, rfl⟩, rfl⟩
  exact ⟨⟨x, τ⟩, rfl⟩

private theorem function_follows (n : Nat) :
    Follows eof n (function n : Parse Record Unit) (rows Function.tokens) := by
  have hend : Follows eof n _ _ :=
    (expect_follows (k := .sign .rightBracket) (by simp)).bind fun _ =>
    semicolon_follows.close .functionEnd
  have hbody := ((block_follows (statement_lands n)).bind fun _ => hend).told .functionBodyStart
  have hbracket := (expect_follows (k := .sign .leftBracket) (by simp)).bind fun _ =>
    (declarations_follows n).bind fun _ => hbody
  have hparameters := (expect_follows (k := .sign .leftParen) (by simp)).bind fun _ =>
    optionalItems_follows parameter_follows hbracket
  have hvoid := (expect_follows (k := .keyword .void) (by simp)).bind fun _ =>
    name_follows.bind fun f => hparameters.told (.functionStart f)
  refine (take?_follows (k := .keyword .func) (by simp) hvoid (Nat.le_succ n) hvoid).mono
    (add_le ?_ ?_)
  · rintro _ ⟨_, rfl, _,
      ⟨_, rfl, _, ⟨_, ⟨f, rfl⟩, _, ⟨_, rfl, _, ⟨_, ⟨ps, rfl⟩, _, ⟨_, rfl, _, ⟨_, rfl, _,
      ⟨_, ⟨ds, rfl⟩, _, ⟨_, ⟨b, rfl⟩, _, ⟨_, rfl, _, rfl, rfl⟩, rfl⟩, rfl⟩, rfl⟩, rfl⟩, rfl⟩, rfl⟩,
        rfl⟩, rfl⟩, rfl⟩
    exact ⟨⟨true, f, ps, ds, b⟩, by simp [Function.tokens]⟩
  · rintro _ ⟨_, rfl, _,
      ⟨_, ⟨f, rfl⟩, _, ⟨_, rfl, _, ⟨_, ⟨ps, rfl⟩, _, ⟨_, rfl, _, ⟨_, rfl, _, ⟨_, ⟨ds, rfl⟩, _,
      ⟨_, ⟨b, rfl⟩, _, ⟨_, rfl, _, rfl, rfl⟩, rfl⟩, rfl⟩, rfl⟩, rfl⟩, rfl⟩, rfl⟩, rfl⟩, rfl⟩
    exact ⟨⟨false, f, ps, ds, b⟩, by simp [Function.tokens]⟩

/-- The functions of a program are followed, where there may be none. -/
theorem functions_follows (n : Nat) :
    Follows eof n (functions n : Parse Record Unit)
    (rows fun fs : List Function => fs.flatMap Function.tokens) := by
  have hrow : ∃ ks, ks ∈ rows fun fs : List Function => fs.flatMap Function.tokens := ⟨_, [], rfl⟩
  induction n with
  | zero => exact .zero hrow
  | succ n ih =>
    have hmore : Follows eof (n + 1) (do function (n + 1); functions n : Parse Record Unit)
        (rows fun fs : List Function => fs.flatMap Function.tokens) := by
      refine ((function_follows (n + 1)).next ?_ fun _ => ih).mono ?_
      · rintro _ ⟨f, rfl⟩
        simp [Function.tokens]
      · rintro _ ⟨_, ⟨f, rfl⟩, _, ⟨fs, rfl⟩, rfl⟩
        exact ⟨f :: fs, rfl⟩
    refine ⟨hrow, fun p hp hn => ?_⟩
    rw [functions, EStateM.bind_of_ok (sees_eq _ p), EStateM.bind_of_ok (sees_eq _ p)]
    cases p.next == .keyword .func || p.next == .keyword .void with
    | true => exact hmore.lands p hp hn
    | false => exact .ok ⟨[], rfl⟩ (.refl hp)

/-- Behind a program only the end marker may stand. -/
theorem ending_follows :
    Follows eof n (do if !(← get).cursor.atEnd then wanted "end of file" : Parse Record Unit)
      1 := by
  refine ⟨⟨[], rfl⟩, fun p hp _ => ?_⟩
  change Lands _ _ _
    ((if !p.cursor.atEnd then wanted "end of file" else pure () : Parse Record Unit) p)
  split
  · next hend =>
    refine wanted_lands hp ⟨[], rfl⟩ fun h => ?_
    have hmarker : p.cursor.atEnd = true := beq_iff_eq.mpr h
    rw [hmarker] at hend
    cases hend
  · exact .ok rfl (.refl hp)

theorem programWithin_follows (n : Nat) :
    Follows eof n (programWithin n : Parse Record Unit) (rows Program.tokens) := by
  have hend : Follows eof n _ _ := (expect_follows (k := .keyword .finish) (by simp)).bind fun _ =>
    ending_follows.told .programEnd
  have hbody := ((block_follows (statement_lands n)).bind fun _ => hend).told .mainStart
  have hmain := (expect_follows (k := .keyword .main) (by simp)).bind fun _ => hbody
  have hparts := (declarations_follows n).bind fun _ => (functions_follows n).bind fun _ => hmain
  refine ((expect_follows (k := .keyword .program) (by simp)).bind fun _ =>
    name_follows.bind fun x =>
      (semicolon_follows.bind fun _ => hparts).told (.programStart x)).mono ?_
  rintro _ ⟨_, rfl, _,
    ⟨_, ⟨x, rfl⟩, _, ⟨_, rfl, _, ⟨_, ⟨ds, rfl⟩, _, ⟨_, ⟨fs, rfl⟩, _, ⟨_, rfl, _, ⟨_, ⟨b, rfl⟩, _,
    ⟨_, rfl, _, rfl, rfl⟩, rfl⟩, rfl⟩, rfl⟩, rfl⟩, rfl⟩, rfl⟩, rfl⟩
  exact ⟨⟨x, ds, fs, b⟩, by simp [Program.tokens]⟩

end Parse

end Quadlet
