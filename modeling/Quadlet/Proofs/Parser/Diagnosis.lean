import Quadlet.Proofs.Parser.Grammar
import Quadlet.Proofs.Parser.Lookahead
import Quadlet.Proofs.Parser.Viability

/-!
# Errors name the first impossible token

What the parser has taken when it fails begins some program, and what it has looked at decides its
failure. So the token that it blames is the first one with which the list cannot go on. Main
statements: every failure names this token, and a program that breaks off is told as such, but for
two places where the end marker is blamed as a wrong token.
-/

namespace Quadlet

open EventSink Syntax

namespace Parse

open Quadlet.Parser

variable {eof : EndMarker} {n : Nat} {pre rest : List Token} {e : Error} {q : Parser Record}

/-- The rows of tokens of all programs. -/
abbrev programs : Language Token.Kind := rows Program.tokens

/-- A token of a kind. -/
def tokenOf (k : Token.Kind) : Token := ⟨k, "", .start⟩

private theorem map_kind_tokenOf (ks : List Token.Kind) : (ks.map tokenOf).map Token.kind = ks := by
  rw [List.map_map]
  exact List.map_id ks

/-- A program is recognised within every bound that covers its tokens. -/
theorem programWithin_program {ts : List Token} {a : Program} (h : a.tokens = ts.map Token.kind)
    (hn : ts.length < n) : ∃ q, programWithin n (before eof ts (#[] : Record)) = .ok () q := by
  have htakes : Takes eof (before eof ts (#[] : Record)) (before eof [] (#[] ++ a.events.toArray))
      a.tokens a.events :=
    ⟨ts, [], #[], _, h.symm, feed_record _ _, by rw [List.append_nil], rfl⟩
  exact ⟨_, programWithin_complete a (by rw [left_before]; omega) htakes eof.property⟩

/-- No program goes on with a token that would be refused as the one that is blamed. -/
theorem not_viable_of_error {k : Token.Kind} {s : Record}
    (h : programWithin n (before eof (pre ++ rest) (#[] : Record)) = .error e q)
    (hq : q = before eof rest s) (hstuck : Stuck e)
    (hk : k = q.next ∨ q.next = .endOfFile ∧ Inert k ∧ e = .truncated) :
    ¬Viable programs (pre.map Token.kind ++ [k]) := by
  rintro ⟨more, b, hb⟩
  subst hq
  obtain ⟨t, behind, htail⟩ : ∃ t behind, rest ++ [eof.val] = t :: behind := by
    cases rest with
    | nil => exact ⟨_, _, rfl⟩
    | cons t rest => exact ⟨_, _, rfl⟩
  have hnext : (before eof rest s).next = t.kind := by
    simp [before, next, Cursor.peek, htail]
  rw [hnext] at hk
  -- The same tokens up to the one that is blamed, and behind it those of the program.
  let u : Tail := ⟨t, behind, eof.val⟩
  let u' : Tail := ⟨tokenOf k, more.map tokenOf ++ [eof.val], eof.val⟩
  let ts := pre ++ tokenOf k :: more.map tokenOf
  have hu : before eof (pre ++ rest) (#[] : Record) = facing u pre #[] := by
    simp [before, facing, u, htail]
  have hu' : before eof ts (#[] : Record) = facing u' pre #[] := by
    simp [before, facing, u', ts]
  have halike : Alike u u' := hk.imp id fun hcut => ⟨hcut.1, hcut.2.1⟩
  have htelling : Telling u u' e := ⟨hstuck, hk.imp id fun hcut => hcut.2.2⟩
  have hleft : u.more.length < (before eof rest s).left := by
    have hlength := congrArg List.length htail
    simp only [List.length_append, List.length_cons, List.length_nil] at hlength
    rw [left_before]
    change behind.length < _
    omega
  have hkinds : b.tokens = ts.map Token.kind := by
    rw [hb, List.map_append, List.map_cons, map_kind_tokenOf, List.append_assoc]
    rfl
  obtain ⟨q', hok⟩ :
      ∃ q', programWithin (n + ts.length + 1) (before eof ts (#[] : Record)) = .ok () q' :=
    programWithin_program hkinds (by omega)
  have hbound : n ≤ n + ts.length + 1 := by omega
  rw [hu] at h
  obtain ⟨e', q', herror⟩ :=
    (programWithin_failsLike halike hbound).fails pre #[] e _ h htelling hleft
  rw [← hu', hok] at herror
  cases herror

private theorem Blames.stuck {L : Language Token.Kind} {ks : List Token.Kind}
    (h : Blames L ks q e) : Stuck e := by
  cases h with
  | truncated _ => exact .inl rfl
  | expected what _ => exact .inr ⟨_, _, _, rfl⟩

/-- Where the parser fails on a list it stands behind the beginning of a program. -/
theorem programWithin_error {ts : List Token}
    (h : programWithin n (before eof ts (#[] : Record)) = .error e q) (hn : ts.length < n) :
    ∃ pre rest s, ts = pre ++ rest ∧ q = before eof rest s ∧ Viable programs (pre.map Token.kind) ∧
      Blames programs (pre.map Token.kind) q e := by
  have hlands :=
    (programWithin_follows n).lands (before eof ts #[]) ⟨ts, _, rfl⟩ (by rw [left_before]; omega)
  rw [h] at hlands
  cases hlands with
  | error viable takes blames =>
    obtain ⟨pre, rest, s, s', rfl, -, hp, hq⟩ := takes
    obtain ⟨rfl, -⟩ := before_inj hp
    exact ⟨pre, rest, s', rfl, hq, viable, blames⟩

end Parse

namespace Parser

variable {eof : EndMarker} {ts : List Token}

/-- What a run over a list with an end marker gives, and what the list then has. -/
theorem events_cases (eof : EndMarker) (ts : List Token) :
    (∃ q, Parse.programWithin (ts.length + 2) (before eof ts (#[] : Parse.Record)) = .ok () q ∧
      events (ts ++ [eof.val]) = .ok q.sink.toList) ∨
    ∃ e q, Parse.programWithin (ts.length + 2) (before eof ts (#[] : Parse.Record)) = .error e q ∧
      events (ts ++ [eof.val]) = .error e := by
  have hrun : run (.ofTokens (ts ++ [eof.val])) (#[] : Parse.Record) =
      outcome (Parse.programWithin (ts.length + 2) (before eof ts #[])) := by
    have hstart : (⟨.ofTokens (ts ++ [eof.val]), #[]⟩ : Parser Parse.Record) =
        before eof ts #[] := by
      simp [Cursor.ofTokens, before]
    have hprogram : Parse.program (before eof ts (#[] : Parse.Record)) =
        Parse.programWithin ((before eof ts (#[] : Parse.Record)).left + 1) (before eof ts #[]) :=
      rfl
    rw [run, hstart, hprogram, left_before]
  rw [events, hrun]
  cases Parse.programWithin (ts.length + 2) (before eof ts (#[] : Parse.Record)) with
  | ok _ q => exact .inl ⟨q, rfl, rfl⟩
  | error e q => exact .inr ⟨e, q, rfl, rfl⟩

/-- If a list of tokens with one end marker, at its end, has no events, some token of it is the
first one that cannot stand there. The tokens before it begin a program. With it they begin none,
or, where it is the end marker, they are no program. A wrong token is reported at this token, and
only the end marker is reported as an end. -/
theorem events_error_at_first_fault (ts : List Token) (eof : Token)
    (hts : ∀ t ∈ ts, t.kind ≠ .endOfFile) (heof : eof.kind = .endOfFile) (e : Error)
    (h : events (ts ++ [eof]) = .error e) :
    ∃ pre t rest, ts ++ [eof] = pre ++ t :: rest ∧ Viable Parse.programs (pre.map Token.kind) ∧
      (t.kind ≠ .endOfFile → ¬Viable Parse.programs ((pre ++ [t]).map Token.kind)) ∧
      (t.kind = .endOfFile → pre.map Token.kind ∉ Parse.programs) ∧
      (e = .truncated ∧ t.kind = .endOfFile ∨
        ∃ what, e = .grammar t.position (.expected what t.kind)) := by
  obtain ⟨q, -, hok⟩ | ⟨e', q, hrun, herror⟩ := events_cases ⟨eof, heof⟩ ts
  · rw [h] at hok
    cases hok
  obtain rfl : e = e' := Except.error.inj (h.symm.trans herror)
  obtain ⟨pre, rest, s, rfl, rfl, viable, blames⟩ := Parse.programWithin_error hrun (by omega)
  have hfirst := Parse.not_viable_of_error hrun rfl blames.stuck (.inl rfl)
  have hblamed : e = .truncated ∧ (before ⟨eof, heof⟩ rest s).next = .endOfFile ∨
      ∃ what, e = .grammar (before ⟨eof, heof⟩ rest s).cursor.peek.position
        (.expected what (before ⟨eof, heof⟩ rest s).next) := by
    cases blames with
    | truncated atEnd => exact .inl ⟨rfl, atEnd⟩
    | expected what _ => exact .inr ⟨what, rfl⟩
  cases rest with
  | nil =>
    refine ⟨pre, eof, [], by rw [List.append_nil], viable, fun hne => absurd heof hne,
      fun _ => ?_, hblamed⟩
    rintro ⟨a, ha⟩
    obtain ⟨q, hok⟩ : ∃ q,
        Parse.programWithin (pre.length + 2) (before ⟨eof, heof⟩ pre (#[] : Parse.Record)) =
          .ok () q :=
      Parse.programWithin_program ha (by omega)
    rw [List.append_nil, hok] at hrun
    cases hrun
  | cons t rest =>
    have ht : t.kind ≠ .endOfFile := hts t (by simp)
    refine ⟨pre, t, rest ++ [eof], by simp, viable, fun _ => ?_,
      fun hend => absurd hend ht, hblamed⟩
    rw [List.map_append]
    exact hfirst

/-- The theorem at a program whose name is followed by a block without a
semicolon: the block is blamed. -/
theorem events_error_missing_semicolon :
    let ts : List Token := [⟨.keyword .program, "program", ⟨1, 1⟩⟩, ⟨.identifier "p", "p", ⟨1, 9⟩⟩,
      ⟨.keyword .main, "main", ⟨1, 11⟩⟩]
    let eof : Token := ⟨.endOfFile, "", ⟨1, 15⟩⟩
    let e : Error := .grammar ⟨1, 11⟩ (.expected "`;`" (.keyword .main))
    events (ts ++ [eof]) = .error e ∧
    ∃ pre t rest, ts ++ [eof] = pre ++ t :: rest ∧ Viable Parse.programs (pre.map Token.kind) ∧
      (t.kind ≠ .endOfFile → ¬Viable Parse.programs ((pre ++ [t]).map Token.kind)) ∧
      (t.kind = .endOfFile → pre.map Token.kind ∉ Parse.programs) ∧
      (e = .truncated ∧ t.kind = .endOfFile ∨
        ∃ what, e = .grammar t.position (.expected what t.kind)) := by
  intro ts eof e
  have h : events (ts ++ [eof]) = .error e := Except.eq_error_of_error? (by decide +kernel)
  exact ⟨h, events_error_at_first_fault ts eof (by simp [ts]) rfl e h⟩

/-- A list that breaks off inside a program has no events. It is reported as broken off exactly
where neither a type nor the sign of an assignment may follow; there the end marker itself is
reported as a wrong token. -/
theorem events_of_cut_program (a : Program) (ts : List Token) (eof : Token) (k : Token.Kind)
    (more : List Token.Kind) (hcut : ts.map Token.kind ++ k :: more = a.tokens)
    (heof : eof.kind = .endOfFile) :
    (events (ts ++ [eof]) = .error .truncated ↔
      ¬Viable Parse.programs (ts.map Token.kind ++ [.keyword .int]) ∧
      ¬Viable Parse.programs (ts.map Token.kind ++ [.sign .assign])) ∧
    (events (ts ++ [eof]) = .error .truncated ∨
      ∃ what, events (ts ++ [eof]) =
        .error (.grammar eof.position (.expected what .endOfFile))) := by
  obtain ⟨q, hrun, -⟩ | ⟨e, q, hrun, herror⟩ := events_cases ⟨eof, heof⟩ ts
  · -- A program at the start of the list would be shorter than the one that it breaks off from.
    obtain ⟨b, ⟨pre, rest, s, s', hb, -, hp, -⟩, -⟩ := Parse.programWithin_sound ⟨ts, _, rfl⟩ hrun
    obtain ⟨rfl, -⟩ := before_inj hp
    rw [List.map_append, hb, List.append_assoc] at hcut
    have hrest := (Program.tokens_append_inj (hcut.trans (List.append_nil _).symm)).2
    simp at hrest
  obtain ⟨pre, rest, s, rfl, rfl, viable, blames⟩ := Parse.programWithin_error hrun (by omega)
  cases rest with
  | cons t rest =>
    refine absurd ?_ (Parse.not_viable_of_error hrun rfl blames.stuck (.inl rfl))
    exact ⟨rest.map Token.kind ++ k :: more, a, by rw [← hcut]; simp [next_before_cons]⟩
  | nil =>
    have hend : (before ⟨eof, heof⟩ [] s).next = .endOfFile := heof
    rw [List.append_nil] at herror ⊢
    cases blames with
    | truncated _ =>
      have hrefused {k : Token.Kind} (hk : Parse.Inert k) :
          ¬Viable Parse.programs (pre.map Token.kind ++ [k]) :=
        Parse.not_viable_of_error hrun rfl (.inl rfl) (.inr ⟨hend, hk, rfl⟩)
      exact ⟨⟨fun _ => ⟨hrefused (.inl rfl), hrefused (.inr rfl)⟩, fun _ => herror⟩, .inl herror⟩
    | expected what wanted =>
      rw [hend] at herror
      refine ⟨⟨fun h => ?_, ?_⟩, .inr ⟨what, herror⟩⟩
      · rw [herror] at h
        cases h
      · rintro ⟨hint, hassign⟩
        exact absurd (wanted hend) (not_or.mpr ⟨hint, hassign⟩)

/-- The theorem at a program that breaks off behind the sign of an assignment. -/
theorem events_of_cut_assignment :
    let ts := ([.keyword .program, .identifier "p", .sign .semicolon, .keyword .main,
      .sign .leftBrace, .identifier "x", .sign .assign] : List Token.Kind).map Parse.tokenOf
    let eof := Parse.tokenOf .endOfFile
    ts.map Token.kind ++ .integer 1 :: [.sign .semicolon, .sign .rightBrace, .keyword .finish] =
      (⟨"p", [], [], .cons (.assign "x" (.ofSum (.ofTerm (.ofFactor (.int 1))))) .nil⟩ :
        Program).tokens ∧
    events (ts ++ [eof]) = .error .truncated ∧
    ¬Viable Parse.programs (ts.map Token.kind ++ [.keyword .int]) ∧
    ¬Viable Parse.programs (ts.map Token.kind ++ [.sign .assign]) := by
  intro ts eof
  have hcut :
      ts.map Token.kind ++ .integer 1 :: [.sign .semicolon, .sign .rightBrace, .keyword .finish] =
      (⟨"p", [], [], .cons (.assign "x" (.ofSum (.ofTerm (.ofFactor (.int 1))))) .nil⟩ :
        Program).tokens := rfl
  have herror : events (ts ++ [eof]) = .error .truncated :=
    Except.eq_error_of_error? (by decide +kernel)
  exact ⟨hcut, herror, (events_of_cut_program _ ts eof _ _ hcut rfl).1.mp herror⟩

/-- A program that breaks off before the type of a variable is not reported as broken off. -/
theorem cut_before_type_blamed :
    let ts := ([.keyword .program, .identifier "p", .sign .semicolon, .keyword .var,
      .identifier "x", .sign .colon] : List Token.Kind).map Parse.tokenOf
    let eof := Parse.tokenOf .endOfFile
    ts.map Token.kind ++ .keyword .int :: [.sign .semicolon, .keyword .main, .sign .leftBrace,
      .sign .rightBrace, .keyword .finish] = (⟨"p", [⟨"x", [], .int⟩], [], .nil⟩ : Program).tokens ∧
    events (ts ++ [eof]) = .error (.grammar .start (.expected "type `int` or `float`" .endOfFile)) ∧
    events (ts ++ [eof]) ≠ .error .truncated := by
  intro ts eof
  have herror : events (ts ++ [eof]) =
      .error (.grammar .start (.expected "type `int` or `float`" .endOfFile)) :=
    Except.eq_error_of_error? (by decide +kernel)
  refine ⟨rfl, herror, ?_⟩
  rw [herror]
  simp

end Parser

end Quadlet
