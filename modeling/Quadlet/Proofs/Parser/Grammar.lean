import Quadlet.Proofs.Parser.Completeness
import Quadlet.Proofs.Syntax.Unambiguous

/-!
# The parser accepts exactly the grammar

A run of the parser over a list of tokens with one end marker, at its end, succeeds exactly if the
tokens before the marker are those of a program and the sink takes the program's events. A record
takes all events, so the parser's own answer is the walk through the one tree that the tokens have.
-/

namespace Quadlet

open EventSink Syntax

namespace Parser

/-- A run over a list with an end marker tells the events of the program
whose tokens the list has. -/
theorem run_eq_ok_iff {σ : Type} [EventSink σ] (eof : EndMarker) {ts : List Token}
    (hts : ∀ t ∈ ts, t.kind ≠ .endOfFile) (s : σ) (q : Parser σ) :
    run (.ofTokens (ts ++ [eof.val])) s = (.ok (), q) ↔
      ∃ a : Program, a.tokens = ts.map Token.kind ∧
        ∃ s', feed a.events s = .ok () s' ∧ q = before eof [] s' := by
  have hstart : (⟨.ofTokens (ts ++ [eof.val]), s⟩ : Parser σ) = before eof ts s := by
    simp [Cursor.ofTokens, before]
  have hrun : run (.ofTokens (ts ++ [eof.val])) s = (.ok (), q) ↔
      Parse.programWithin ((before eof ts s).left + 1) (before eof ts s) = .ok () q := by
    have hprogram : Parse.program (before eof ts s) =
        Parse.programWithin ((before eof ts s).left + 1) (before eof ts s) := rfl
    rw [run, hstart, hprogram]
    cases Parse.programWithin ((before eof ts s).left + 1) (before eof ts s) <;> simp [outcome]
  rw [hrun]
  constructor
  · intro h
    obtain ⟨a, ⟨pre, rest, s₁, s', hks, hes, hp, hq⟩, hend⟩ :=
      Parse.programWithin_sound ⟨ts, s, rfl⟩ h
    obtain ⟨rfl, rfl⟩ := before_inj hp
    -- A token before the marker would have to be the marker that the program ends at.
    cases rest with
    | nil => exact ⟨a, by rw [← hks, List.append_nil], s', hes, hq⟩
    | cons t rest =>
      subst hq
      exact absurd hend (hts t (by simp))
  · rintro ⟨a, ha, s', hes, rfl⟩
    have htakes : Takes eof (before eof ts s) (before eof [] s') a.tokens a.events :=
      ⟨ts, [], s, s', ha.symm, hes, by rw [List.append_nil], rfl⟩
    exact Parse.programWithin_complete a (Nat.le_succ _) htakes eof.property

/-- The events of a list of tokens, if it is a program. -/
def events (ts : List Token) : Except Error (List Event) :=
  match run (.ofTokens ts) (#[] : Array Event) with
  | (.ok (), p) => .ok p.sink.toList
  | (.error e, _) => .error e

/-- A record takes every row of events. -/
theorem feed_record (es : List Event) (as : Array Event) :
    feed es as = .ok () (as ++ es.toArray) := by
  induction es generalizing as with
  | nil => simp [feed_nil]
  | cons e es ih =>
    rw [feed_cons_eq_ok]
    refine ⟨as.push e, rfl, ?_⟩
    rw [ih]
    simp

/-- A list of tokens with one end marker, at its end, has events exactly if the tokens before the
marker are those of a program; the program is then the only one, and the events are its own. -/
theorem events_eq_ok_iff (ts : List Token) (eof : Token) (hts : ∀ t ∈ ts, t.kind ≠ .endOfFile)
    (heof : eof.kind = .endOfFile) :
    (∀ es : List Event, events (ts ++ [eof]) = .ok es ↔
      ∃ a : Program, a.tokens = ts.map Token.kind ∧ a.events = es) ∧
    ∀ a b : Program, a.tokens = ts.map Token.kind → b.tokens = ts.map Token.kind → a = b := by
  refine ⟨fun es => ?_, fun a b ha hb => Program.tokens_injective (ha.trans hb.symm)⟩
  have hiff := run_eq_ok_iff ⟨eof, heof⟩ hts (#[] : Array Event)
  constructor
  · intro h
    rw [events] at h
    split at h
    · next p hrun =>
      obtain ⟨a, ha, s', hs', rfl⟩ := (hiff p).mp hrun
      rw [feed_record] at hs'
      cases hs'
      refine ⟨a, ha, ?_⟩
      simpa [before] using h
    · cases h
  · rintro ⟨a, ha, rfl⟩
    rw [events, (hiff _).mpr ⟨a, ha, _, feed_record _ _, rfl⟩]
    simp [before]

/-- The theorem at a program that prints `1 - 2 * x`. -/
theorem events_print_difference :
    events ((([.keyword .program, .identifier "p", .sign .semicolon, .keyword .main,
        .sign .leftBrace, .keyword .print, .sign .leftParen, .integer 1, .sign .minus, .integer 2,
        .sign .star, .identifier "x", .sign .rightParen, .sign .semicolon, .sign .rightBrace,
        .keyword .finish] : List Token.Kind).map fun k => ⟨k, "", .start⟩) ++
        [⟨.endOfFile, "", .start⟩]) =
      .ok [.programStart "p", .mainStart, .intLiteral 1, .factorEnd, .termEnd, .operator .sub,
        .intLiteral 2, .factorEnd, .operator .mul, .identifier "x", .factorEnd, .termEnd,
        .relationalEnd, .printItem, .programEnd] := by
  refine ((events_eq_ok_iff _ _ (by simp) rfl).1 _).mpr ⟨⟨"p", [], [], .cons (.print (.value (.ofSum
    (.addition (.ofTerm (.ofFactor (.int 1))) .sub rfl
      (.product (.ofFactor (.int 2)) .mul rfl (.name "x"))))) []) .nil⟩, ?_, ?_⟩
  · rfl
  · rfl

end Parser

end Quadlet
