import Quadlet.Compilation
import Quadlet.Proofs.Parser.Grammar

/-!
# Telling events while they are found

The parser tells an event to its sink as soon as it has found it, between tests of tokens. A record
takes every event, so the parser with a record for its sink finds all there is to find. Main
statement: with any other sink the parser ends at the first recorded event that the sink refuses; if
there is none, it ends as it does with the record. So a draft that takes the events while they are
found becomes what it becomes from the list of them.
-/

namespace Quadlet

open EventSink

namespace EventSink

variable {σ : Type} [EventSink σ]

/-- What comes behind a refused event does not matter. -/
theorem feed_append_of_error {es : List Event} {s t : σ} {e : Error} (h : feed es s = .error e t)
    (fs : List Event) : feed (es ++ fs) s = .error e t := by
  induction es generalizing s with
  | nil => cases h
  | cons ev es ih =>
    rw [feed_cons, EStateM.bind_eq_error] at h
    rw [List.cons_append, feed_cons, EStateM.bind_eq_error]
    rcases h with h | ⟨_, u, hu, h⟩
    · exact .inl h
    · exact .inr ⟨(), u, hu, ih h⟩

/-- Where a row of events is taken, the row behind it meets what it leaves. -/
theorem feed_append_of_ok {es : List Event} {s t : σ} (h : feed es s = .ok () t) (fs : List Event) :
    feed (es ++ fs) s = feed fs t := by
  induction es generalizing s with
  | nil =>
    cases h
    rfl
  | cons ev es ih =>
    obtain ⟨u, hu, h⟩ := feed_cons_eq_ok.mp h
    rw [List.cons_append, feed_cons, EStateM.bind_of_ok hu]
    exact ih h

/-- A row of events is refused exactly if it has a first event that is refused. -/
theorem feed_eq_error_iff {es : List Event} {s u : σ} {err : Error} :
    feed es s = .error err u ↔
      ∃ front e back t, es = front ++ e :: back ∧ feed front s = .ok () t ∧
      accept e t = .error err u := by
  constructor
  · intro h
    induction es generalizing s with
    | nil => cases h
    | cons e es ih =>
      rw [feed_cons, EStateM.bind_eq_error] at h
      rcases h with h | ⟨_, t, ht, h⟩
      · exact ⟨[], e, es, s, rfl, rfl, h⟩
      · obtain ⟨front, e', back, t', rfl, hfront, he⟩ := ih h
        exact ⟨e :: front, e', back, t', rfl, feed_cons_eq_ok.mpr ⟨t, ht, hfront⟩, he⟩
  · rintro ⟨front, e, back, t, rfl, hfront, he⟩
    rw [feed_append_of_ok hfront, feed_cons, EStateM.bind_of_error he]

end EventSink

namespace Parse

open Parser

variable {σ α β : Type} [EventSink σ]

/-- What a part of the parser makes of a sink, beside what it makes of a record: the events it adds
to the record are told to the sink, up to the first one that the sink refuses. -/
inductive Retold (es : Array Event) (s : σ) :
    EStateM.Result Error (Parser (Array Event)) α → EStateM.Result Error (Parser σ) α → Prop where
  | ok {new : List Event} {t : σ} (taken : feed new s = .ok () t) (a : α) (c : Cursor) :
    Retold es s (.ok a ⟨c, es ++ new.toArray⟩) (.ok a ⟨c, t⟩)
  | error {new : List Event} {t : σ} (taken : feed new s = .ok () t) (e : Error) (c : Cursor) :
    Retold es s (.error e ⟨c, es ++ new.toArray⟩) (.error e ⟨c, t⟩)
  | refused {new : List Event} {t : σ} {e : Error} (refused : feed new s = .error e t)
    {x : EStateM.Result Error (Parser (Array Event)) α}
    (recorded : (outcome x).2.sink = es ++ new.toArray) (c : Cursor) :
      Retold es s x (.error e ⟨c, t⟩)

/-- A record only grows. -/
theorem Retold.recorded {es : Array Event} {s : σ}
    {x : EStateM.Result Error (Parser (Array Event)) α} {y : EStateM.Result Error (Parser σ) α}
    (h : Retold es s x y) : ∃ new : List Event, (outcome x).2.sink = es ++ new.toArray := by
  cases h with
  | ok _ a c => exact ⟨_, rfl⟩
  | error _ e c => exact ⟨_, rfl⟩
  | refused _ recorded c => exact ⟨_, recorded⟩

/-- What is retold behind a row of events that the sink has taken is retold
with this row before it. -/
theorem Retold.append {es : Array Event} {s t : σ} {front : List Event}
    (hfront : feed front s = .ok () t) {x : EStateM.Result Error (Parser (Array Event)) α}
    {y : EStateM.Result Error (Parser σ) α} (h : Retold (es ++ front.toArray) t x y) :
    Retold es s x y := by
  have hrow (new : List Event) :
      es ++ front.toArray ++ new.toArray = es ++ (front ++ new).toArray := by
    simp
  cases h with
  | ok taken a c =>
    rw [hrow]
    exact .ok ((feed_append_of_ok hfront _).trans taken) a c
  | error taken e c =>
    rw [hrow]
    exact .error ((feed_append_of_ok hfront _).trans taken) e c
  | refused refused recorded c =>
    exact .refused ((feed_append_of_ok hfront _).trans refused) (recorded.trans (hrow _)) c

/-- Telling a part of the grammar to a sink is recording it and telling the record. -/
def Streams (recorded : Parse (Array Event) α) (told : Parse σ α) : Prop :=
  ∀ (c : Cursor) (es : Array Event) (s : σ), Retold es s (recorded ⟨c, es⟩) (told ⟨c, s⟩)

namespace Streams

/-- What tells nothing streams if it does the same at the same cursor. -/
theorem silent {x : Parse (Array Event) α} {y : Parse σ α}
    (h : ∀ c, (∃ a c', (∀ es, x ⟨c, es⟩ = .ok a ⟨c', es⟩) ∧ ∀ s, y ⟨c, s⟩ = .ok a ⟨c', s⟩) ∨
      ∃ e c', (∀ es, x ⟨c, es⟩ = .error e ⟨c', es⟩) ∧ ∀ s, y ⟨c, s⟩ = .error e ⟨c', s⟩) :
    Streams x y := by
  intro c es s
  have hes : es ++ ([] : List Event).toArray = es := by simp
  rcases h c with ⟨a, c', hx, hy⟩ | ⟨e, c', hx, hy⟩
  · have hok : Retold es s (.ok a ⟨c', es ++ ([] : List Event).toArray⟩) (.ok a ⟨c', s⟩) :=
      .ok (feed_nil s) a c'
    rwa [hes, ← hx, ← hy] at hok
  · have herror : Retold es s (α := α) (.error e ⟨c', es ++ ([] : List Event).toArray⟩)
        (.error e ⟨c', s⟩) :=
      .error (feed_nil s) e c'
    rwa [hes, ← hx, ← hy] at herror

private theorem pure (a : α) : Streams (pure a) (pure a : Parse σ α) :=
  silent fun c => .inl ⟨a, c, fun _ => rfl, fun _ => rfl⟩

private theorem throw (e : Error) : Streams (throw e) (throw e : Parse σ α) :=
  silent fun c => .inr ⟨e, c, fun _ => rfl, fun _ => rfl⟩

private theorem peek : Streams peek (peek : Parse σ Token) :=
  silent fun c => .inl ⟨c.peek, c, fun _ => rfl, fun _ => rfl⟩

private theorem advance : Streams advance (advance : Parse σ Unit) :=
  silent fun c => .inl ⟨(), c.advance, fun _ => rfl, fun _ => rfl⟩

private theorem fire (e : Event) : Streams (fire e) (fire e : Parse σ Unit) := by
  intro c es s
  have hrecord : Parse.fire e ⟨c, es⟩ = .ok () ⟨c, es ++ [e].toArray⟩ := by
    rw [Array.append_singleton]
    rfl
  rw [hrecord, Parse.fire]
  cases h : accept e s with
  | ok u t => exact .ok (feed_singleton_eq_ok.mpr h) () c
  | error err t =>
    exact .refused (feed_eq_error_iff.mpr ⟨[], e, [], s, rfl, rfl, h⟩) rfl c

/-- Parts in a row stream. Where the sink refuses an event of the first part,
only the record goes on. -/
theorem bind {x : Parse (Array Event) α} {y : Parse σ α} {f : α → Parse (Array Event) β}
    {g : α → Parse σ β} (h : Streams x y) (hf : ∀ a, Streams (f a) (g a)) :
    Streams (x >>= f) (y >>= g) := by
  intro c es s
  have hxy := h c es s
  generalize hx : x ⟨c, es⟩ = rx at hxy
  generalize hy : y ⟨c, s⟩ = ry at hxy
  cases hxy with
  | ok taken a c' =>
    rw [EStateM.bind_of_ok hx, EStateM.bind_of_ok hy]
    exact (hf a c' _ _).append taken
  | error taken e c' =>
    rw [EStateM.bind_of_error hx, EStateM.bind_of_error hy]
    exact .error taken e c'
  | @refused new t e refused _ recorded c' =>
    rw [EStateM.bind_of_error hy]
    cases rx with
    | error e' p =>
      rw [EStateM.bind_of_error hx]
      refine .refused refused ?_ c'
      exact recorded
    | ok a p =>
      rw [EStateM.bind_of_ok hx]
      obtain ⟨more, hmore⟩ := (hf a p.cursor p.sink s).recorded
      have hsink : p.sink = es ++ new.toArray := recorded
      refine .refused (feed_append_of_error refused more) (hmore.trans ?_) c'
      rw [hsink]
      simp

/-- What is read of a parser streams if only the cursor matters. -/
theorem get {f : Parser (Array Event) → Parse (Array Event) β} {g : Parser σ → Parse σ β}
    (h : ∀ c es s, Streams (f ⟨c, es⟩) (g ⟨c, s⟩)) : Streams (get >>= f) (get >>= g) :=
  fun c es s => h c es s c es s

/-- A choice streams if both alternatives do. -/
theorem ite {b : Prop} [Decidable b] {x x' : Parse (Array Event) α} {y y' : Parse σ α}
    (h : Streams x y) (h' : Streams x' y') :
    Streams (if b then x else x') (if b then y else y') := by
  split
  · exact h
  · exact h'

end Streams

/-! ## Tokens -/

private theorem wanted_streams (what : String) : Streams (wanted what) (wanted what : Parse σ α) :=
  .bind .peek fun _ => .throw _

private theorem endless_streams : Streams endless (endless : Parse σ α) :=
  .bind .peek fun _ => .throw _

private theorem sees_streams (k : Token.Kind) : Streams (sees k) (sees k : Parse σ Bool) :=
  .bind .peek fun _ => .pure _

private theorem take?_streams (k : Token.Kind) : Streams (take? k) (take? k : Parse σ Bool) :=
  .bind (sees_streams k) fun _ => .ite (.bind .advance fun _ => .pure _) (.pure _)

private theorem expect_streams (k : Token.Kind) : Streams (expect k) (expect k : Parse σ Unit) :=
  .bind (sees_streams k) fun _ => .ite .advance
    (.get fun _ _ _ => .ite (.throw _) (wanted_streams _))

private theorem name_streams : Streams name (name : Parse σ String) := by
  refine .bind .peek fun t => ?_
  cases t.kind with
  | identifier x => exact .bind .advance fun _ => .pure x
  | endOfFile => exact .throw _
  | _ => exact wanted_streams _

private theorem typeName_streams : Streams typeName (typeName : Parse σ ValueType) :=
  .bind (take?_streams _) fun _ => .ite (.pure _)
    (.bind (take?_streams _) fun _ => .ite (.pure _) (wanted_streams _))

private theorem moreItems_streams {x : Parse (Array Event) Unit} {y : Parse σ Unit}
    (h : Streams x y) (n : Nat) : Streams (moreItems x n) (moreItems y n) := by
  induction n with
  | zero => exact .bind (take?_streams _) fun _ => .ite endless_streams (.pure _)
  | succ n ih => exact .bind (take?_streams _) fun _ => .ite (.bind h fun _ => ih) (.pure _)

private theorem items_streams {x : Parse (Array Event) Unit} {y : Parse σ Unit}
    (h : Streams x y) (n : Nat) : Streams (items x n) (items y n) :=
  .bind h fun _ => moreItems_streams h n

/-! ## Expressions -/

private theorem moreOperands_streams (level : Token.Kind → Option Operator)
    {x : Parse (Array Event) Unit} {y : Parse σ Unit} (h : Streams x y) (n : Nat) :
    Streams (moreOperands level x n) (moreOperands level y n) := by
  induction n with
  | zero =>
    unfold moreOperands
    refine .bind .peek fun t => ?_
    cases level t.kind with
    | none => exact .pure ()
    | some op => exact endless_streams
  | succ n ih =>
    unfold moreOperands
    refine .bind .peek fun t => ?_
    cases level t.kind with
    | none => exact .pure ()
    | some op => exact .bind .advance fun _ => .bind (.fire _) fun _ => .bind h fun _ => ih

section

variable {x : Parse (Array Event) Unit} {y : Parse σ Unit}

private theorem term_streams (h : Streams x y) (n : Nat) : Streams (term x n) (term y n) := by
  have hwhole := Streams.bind h fun _ => Streams.fire .factorEnd
  exact .bind hwhole fun _ => moreOperands_streams _ hwhole n

private theorem sum_streams (h : Streams x y) (n : Nat) : Streams (sum x n) (sum y n) := by
  have hwhole := Streams.bind (term_streams h n) fun _ => Streams.fire .termEnd
  exact .bind hwhole fun _ => moreOperands_streams _ hwhole n

private theorem expressionOf_streams (h : Streams x y) (n : Nat) :
    Streams (expressionOf x n) (expressionOf y n) := by
  refine .bind (sum_streams h n) fun _ => .bind .peek fun t => ?_
  cases relational? t.kind with
  | none => exact .fire _
  | some op =>
    exact .bind .advance fun _ => .bind (.fire _) fun _ => .bind (sum_streams h n) fun _ => .fire _

end

private theorem leaf_streams (k : Token.Kind) : Streams (leaf k) (leaf k : Parse σ Unit) := by
  cases k with
  | integer | float | identifier => exact .bind .advance fun _ => .fire _
  | endOfFile => exact .throw _
  | _ => exact wanted_streams _

private theorem factor_streams (n : Nat) : Streams (factor n) (factor n : Parse σ Unit) := by
  induction n with
  | zero =>
    refine .bind .peek fun t => ?_
    split
    all_goals first | exact endless_streams | exact leaf_streams _
  | succ n ih =>
    refine .bind .peek fun t => ?_
    split
    · exact .bind .advance fun _ => .bind (.fire _) fun _ =>
        .bind (expressionOf_streams ih n) fun _ =>
        .bind (expect_streams _) fun _ => .fire _
    · exact .bind .advance fun _ => .bind (.fire _) fun _ => .bind ih fun _ => .fire _
    · exact .bind .advance fun _ => .bind (.fire _) fun _ => .bind ih fun _ => .fire _
    · exact leaf_streams _

private theorem expression_streams (n : Nat) :
    Streams (expression n) (expression n : Parse σ Unit) :=
  expressionOf_streams (factor_streams n) n

/-! ## Declarations -/

private theorem variableName_streams : Streams variableName (variableName : Parse σ Unit) :=
  .bind name_streams fun _ => .fire _

private theorem variableLists_streams (n : Nat) :
    Streams (variableLists n) (variableLists n : Parse σ Unit) := by
  induction n with
  | zero =>
    rw [variableLists_eq (σ := Array Event), variableLists_eq (σ := σ)]
    refine .bind (items_streams variableName_streams 0) fun _ => .bind (expect_streams _) fun _ =>
      .bind typeName_streams fun _ => .bind (.fire _) fun _ => .bind (expect_streams _) fun _ =>
      .bind .peek fun t => ?_
    split
    · exact endless_streams
    · exact .pure ()
  | succ n ih =>
    rw [variableLists_eq (σ := Array Event), variableLists_eq (σ := σ)]
    refine .bind (items_streams variableName_streams (n + 1)) fun _ =>
      .bind (expect_streams _) fun _ =>
      .bind typeName_streams fun _ => .bind (.fire _) fun _ => .bind (expect_streams _) fun _ =>
      .bind .peek fun t => ?_
    split
    · exact ih
    · exact .pure ()

private theorem declarations_streams (n : Nat) :
    Streams (declarations n) (declarations n : Parse σ Unit) :=
  .bind (take?_streams _) fun _ => .ite (variableLists_streams n) (.pure _)

/-! ## Statements -/

section

variable {x : Parse (Array Event) Unit} {y : Parse σ Unit}

private theorem statements_streams (h : Streams x y) (n : Nat) :
    Streams (statements x n) (statements y n) := by
  induction n with
  | zero =>
    exact .bind (sees_streams _) fun _ =>
      .ite (.pure _) (.get fun _ _ _ => .ite (.throw _) endless_streams)
  | succ n ih =>
    exact .bind (sees_streams _) fun _ => .ite (.pure _)
      (.get fun _ _ _ => .ite (.throw _) (.bind h fun _ => ih))

private theorem block_streams (h : Streams x y) (n : Nat) : Streams (block x n) (block y n) :=
  .bind (expect_streams _) fun _ => .bind (statements_streams h n) fun _ => expect_streams _

private theorem guarded_streams (n : Nat) : Streams (guarded n) (guarded n : Parse σ Unit) :=
  .bind (expect_streams _) fun _ => .bind (expression_streams n) fun _ => expect_streams _

private theorem assignment_streams (n : Nat) :
    Streams (assignment n) (assignment n : Parse σ Unit) :=
  .bind name_streams fun _ => .bind (.fire _) fun _ => .bind (expect_streams _) fun _ =>
    .bind (.fire _) fun _ => .bind (expression_streams n) fun _ =>
      .bind (.fire _) fun _ => expect_streams _

private theorem condition_streams (h : Streams x y) (n : Nat) :
    Streams (condition x n) (condition y n) :=
  .bind (expect_streams _) fun _ => .bind (guarded_streams n) fun _ => .bind (.fire _) fun _ =>
    .bind h fun _ => .bind (take?_streams _) fun _ =>
      .ite (.bind (.fire _) fun _ => .bind h fun _ => .bind (.fire _) fun _ => expect_streams _)
        (.bind (.fire _) fun _ => expect_streams _)

private theorem cycle_streams (h : Streams x y) (n : Nat) : Streams (cycle x n) (cycle y n) :=
  .bind (expect_streams _) fun _ => .bind (.fire _) fun _ => .bind h fun _ =>
    .bind (expect_streams _) fun _ => .bind (guarded_streams n) fun _ => .bind (.fire _) fun _ =>
    expect_streams _

end

private theorem argument_streams (n : Nat) : Streams (argument n) (argument n : Parse σ Unit) :=
  .bind (expression_streams n) fun _ => .fire _

private theorem call_streams (n : Nat) : Streams (call n) (call n : Parse σ Unit) := by
  have hend : Streams (do expect (.sign .rightParen); fire .callEnd; expect (.sign .semicolon))
      (do expect (.sign .rightParen); fire .callEnd; expect (.sign .semicolon) : Parse σ Unit) :=
    .bind (expect_streams _) fun _ => .bind (.fire _) fun _ => expect_streams _
  exact .bind name_streams fun _ => .bind (.fire _) fun _ => .bind (expect_streams _) fun _ =>
    .bind (.fire _) fun _ => .bind (sees_streams _) fun _ =>
      .ite (.bind (items_streams (argument_streams n) n) fun _ => hend) hend

private theorem printItem_streams (n : Nat) :
    Streams (printItem n) (printItem n : Parse σ Unit) := by
  refine .bind .peek fun t => ?_
  split
  · exact .bind .advance fun _ => .bind (.fire _) fun _ => .fire _
  · exact .bind (expression_streams n) fun _ => .fire _

private theorem print_streams (n : Nat) : Streams (print n) (print n : Parse σ Unit) :=
  .bind (expect_streams _) fun _ => .bind (expect_streams _) fun _ =>
    .bind (items_streams (printItem_streams n) n) fun _ =>
      .bind (expect_streams _) fun _ => expect_streams _

private theorem statement_streams (n : Nat) :
    Streams (statement n) (statement n : Parse σ Unit) := by
  induction n with
  | zero => exact endless_streams
  | succ n ih =>
    refine .bind .peek fun t => ?_
    split
    · exact condition_streams (block_streams ih n) n
    · exact cycle_streams (block_streams ih n) n
    · exact print_streams n
    · -- A name starts an assignment or a call, by the token behind it.
      refine .get fun c es s => ?_
      dsimp only
      split
      · exact assignment_streams n
      · exact call_streams n
      · exact .bind .advance fun _ => wanted_streams _
    · exact wanted_streams _

/-! ## Programs -/

private theorem parameter_streams : Streams parameter (parameter : Parse σ Unit) :=
  .bind name_streams fun _ => .bind (expect_streams _) fun _ =>
    .bind typeName_streams fun _ => .fire _

private theorem function_streams (n : Nat) : Streams (function n) (function n : Parse σ Unit) := by
  have hbody : Streams
      (do expect (.sign .rightParen); expect (.sign .leftBracket); declarations n
          fire .functionBodyStart; block (statement n) n; expect (.sign .rightBracket)
          expect (.sign .semicolon); fire .functionEnd)
      (do expect (.sign .rightParen); expect (.sign .leftBracket); declarations n
          fire .functionBodyStart; block (statement n) n; expect (.sign .rightBracket)
          expect (.sign .semicolon); fire .functionEnd : Parse σ Unit) :=
    .bind (expect_streams _) fun _ => .bind (expect_streams _) fun _ =>
      .bind (declarations_streams n) fun _ => .bind (.fire _) fun _ =>
      .bind (block_streams (statement_streams n) n) fun _ => .bind (expect_streams _) fun _ =>
      .bind (expect_streams _) fun _ => .fire _
  exact .bind (take?_streams _) fun _ =>
    .bind (expect_streams _) fun _ => .bind name_streams fun _ =>
    .bind (.fire _) fun _ => .bind (expect_streams _) fun _ => .bind (sees_streams _) fun _ =>
      .ite (.bind (items_streams parameter_streams n) fun _ => hbody) hbody

private theorem functions_streams (n : Nat) :
    Streams (functions n) (functions n : Parse σ Unit) := by
  induction n with
  | zero =>
    exact .bind (sees_streams _) fun _ => .bind (sees_streams _) fun _ =>
      .ite endless_streams (.pure _)
  | succ n ih =>
    exact .bind (sees_streams _) fun _ => .bind (sees_streams _) fun _ =>
      .ite (.bind (function_streams (n + 1)) fun _ => ih) (.pure _)

private theorem programWithin_streams (n : Nat) :
    Streams (programWithin n) (programWithin n : Parse σ Unit) :=
  .bind (expect_streams _) fun _ => .bind name_streams fun _ => .bind (.fire _) fun _ =>
    .bind (expect_streams _) fun _ => .bind (declarations_streams n) fun _ =>
    .bind (functions_streams n) fun _ => .bind (expect_streams _) fun _ => .bind (.fire _) fun _ =>
    .bind (block_streams (statement_streams n) n) fun _ => .bind (expect_streams _) fun _ =>
    .bind (.fire _) fun _ => .get fun _ _ _ => .ite (wanted_streams _) (.pure _)

private theorem program_streams : Streams program (program : Parse σ Unit) :=
  .get fun _ _ _ => programWithin_streams _

end Parse

namespace Parser

/-- A run that tells its events to a sink ends at the first recorded event that the sink refuses, or
as it ends with the record. -/
theorem run_streams {σ : Type} [EventSink σ] (c : Cursor) (s : σ) :
    (∃ front e back t err, (run c (#[] : Array Event)).2.sink.toList = front ++ e :: back ∧
      feed front s = .ok () t ∧ accept e t = .error err (run c s).2.sink ∧
      (run c s).1 = .error err) ∨
    ∃ t, feed (run c (#[] : Array Event)).2.sink.toList s = .ok () t ∧
      run c s = ((run c (#[] : Array Event)).1, ⟨(run c (#[] : Array Event)).2.cursor, t⟩) := by
  have h := Parse.program_streams (σ := σ) c #[] s
  rw [run, run]
  generalize Parse.program ⟨c, (#[] : Array Event)⟩ = x at h
  generalize Parse.program ⟨c, s⟩ = y at h
  cases h with
  | ok taken a c' => exact .inr ⟨_, by simpa [outcome] using taken, rfl⟩
  | error taken e c' => exact .inr ⟨_, by simpa [outcome] using taken, rfl⟩
  | refused refused recorded c' =>
    obtain ⟨front, e, back, t, rfl, hfront, he⟩ := feed_eq_error_iff.mp refused
    exact .inl ⟨front, e, back, t, _, by rw [recorded]; simp, hfront, he, rfl⟩

/-- Whatever the tokens, a draft that takes their events while they are found ends in the state
behind the first recorded event that it refuses, with the error of that event; if it refuses none,
the parser ends as it does with the record, and the draft in the state behind all recorded events.
So tokens that have events are compiled to what their events are compiled to. -/
theorem draft_streams (tokens : List Token) :
    let recorded := run (.ofTokens tokens) (#[] : Array Event)
    let streamed := run (.ofTokens tokens) Draft.empty
    ((∃ front e back t err, recorded.2.sink.toList = front ++ e :: back ∧
        feed front Draft.empty = .ok () t ∧ accept e t = .error err streamed.2.sink ∧
        streamed.1 = .error err) ∨
      ∃ t, feed recorded.2.sink.toList Draft.empty = .ok () t ∧
        streamed = (recorded.1, ⟨recorded.2.cursor, t⟩)) ∧
    ∀ es, events tokens = .ok es → ObjectFile.ofTokens tokens = ObjectFile.ofEvents es := by
  intro recorded streamed
  have hstreams := run_streams (.ofTokens tokens) Draft.empty
  refine ⟨hstreams, fun es hes => ?_⟩
  obtain ⟨hok, rfl⟩ : recorded.1 = .ok () ∧ recorded.2.sink.toList = es := by
    rw [events] at hes
    split at hes
    · next p hp =>
      have hrecorded : recorded = (.ok (), p) := hp
      cases hes
      exact ⟨congrArg Prod.fst hrecorded, congrArg (fun r => r.2.sink.toList) hrecorded⟩
    · cases hes
  rcases hstreams with ⟨front, e, back, t, err, hrow, hfront, he, herr⟩ | ⟨t, htaken, hrun⟩
  · have hrefused := feed_eq_error_iff.mpr ⟨front, e, back, t, hrow, hfront, he⟩
    rw [ObjectFile.ofEvents, show recorded.2.sink.toList.forM Drafting.handle Draft.empty = _
      from hrefused, ObjectFile.ofTokens, show run (.ofTokens tokens) Draft.empty = (.error err,
        streamed.2) from
        Prod.ext herr rfl]
  · rw [ObjectFile.ofEvents, show recorded.2.sink.toList.forM Drafting.handle Draft.empty = _
      from htaken, ObjectFile.ofTokens, hrun,
      show (run (.ofTokens tokens) (#[] : Array Event)).1 = _ from hok]

/-- The theorem at a program that assigns to a name it does not declare. -/
theorem draft_streams_undeclared :
    let tokens :=
      ([.keyword .program, .identifier "p", .sign .semicolon, .keyword .main, .sign .leftBrace,
      .identifier "x", .sign .assign, .integer 1, .sign .semicolon, .sign .rightBrace,
        .keyword .finish,
      .endOfFile] : List Token.Kind).map fun k => ⟨k, "", .start⟩
    let es : List Event := [.programStart "p", .mainStart, .assignTarget "x", .assignOperator,
      .intLiteral 1, .factorEnd, .termEnd, .relationalEnd, .assignValue, .programEnd]
    events tokens = .ok es ∧ ObjectFile.ofTokens tokens = ObjectFile.ofEvents es ∧
      ObjectFile.ofEvents es = .error (.undeclared "x") := by
  intro tokens es
  have hes : events tokens = .ok es := Except.toOption_eq_some.mp (by decide +kernel)
  exact ⟨hes, (draft_streams tokens).2 es hes, by rfl⟩

end Parser

end Quadlet
