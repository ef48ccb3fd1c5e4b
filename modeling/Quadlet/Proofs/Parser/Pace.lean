import Quadlet.Proofs.Parser.Script

/-!
# Places on the way

Where a walker may stand while it follows the scripts of the parser, and how far a step takes it.
Behind its end marker, or behind its last token, a list shows one token for ever. A walker that goes
on there takes tokens of one kind only, so two different kinds in a row cannot be taken there. A
script and a part of the bounded parser agree where they come to the same outcome; a bound that
exceeds the tokens left is never felt.
-/

namespace Quadlet

namespace Parser

/-- The place of the first end marker, or the end of the list if there is none. -/
def ending (ts : List Token) : Nat := ts.findIdx fun t => t.kind == .endOfFile

/-- Some token of a list is an end marker. -/
def Marked (ts : List Token) : Prop := ∃ t ∈ ts, t.kind = .endOfFile

/-- The tokens that a factor may begin with and that call for another factor. -/
def Opens (k : Token.Kind) : Prop := k = .sign .leftParen ∨ k = .sign .plus ∨ k = .sign .minus

/-- A list has an end marker, or its last token does not call for another factor. -/
def Settled (ts : List Token) : Prop := Marked ts ∨ ∀ t, ts.getLast? = some t → ¬Opens t.kind

theorem ending_le_length (ts : List Token) : ending ts ≤ ts.length := List.findIdx_le_length

private theorem Marked.ending_lt {ts : List Token} (h : Marked ts) : ending ts < ts.length := by
  obtain ⟨t, ht, hk⟩ := h
  exact List.findIdx_lt_length_of_exists ⟨t, ht, beq_iff_eq.mpr hk⟩

/-- The token at the ending of a list with an end marker is one. -/
theorem kind_ending {ts : List Token} (h : ending ts < ts.length) :
    ts[ending ts].kind = .endOfFile :=
  beq_iff_eq.mp (List.findIdx_getElem (p := fun t : Token => t.kind == .endOfFile) (w := h))

/-- No end marker has been passed at a place up to the first one. -/
theorem not_passed_iff {ts : List Token} {i : Nat} :
    (∀ t ∈ ts.take i, t.kind ≠ .endOfFile) ↔ (Marked ts → i ≤ ending ts) := by
  constructor
  · intro h hm
    have hlength := hm.ending_lt
    apply Nat.le_of_not_lt
    intro hlt
    have hmem : ts[ending ts] ∈ ts.take i :=
      List.mem_take_iff_getElem.mpr ⟨ending ts, by omega, rfl⟩
    exact h _ hmem (kind_ending hlength)
  · intro h t ht hk
    obtain ⟨j, hj, rfl⟩ := List.mem_take_iff_getElem.mp ht
    have hle := h ⟨_, List.getElem_mem _, hk⟩
    have hlt : j < ending ts := by omega
    have hother : (ts[j].kind == .endOfFile) = false := List.not_of_lt_findIdx hlt
    exact beq_eq_false_iff_ne.mp hother hk

end Parser

namespace Walker

open Parser

variable {σ : Type}

/-- The kind of the token that a walker sees. -/
def next (w : Walker σ) : Token.Kind := w.parser.next

/-- The token that a walker sees is one of its list. -/
theorem inside (w : Walker σ) (h : w.tokens ≠ []) :
    w.tokens[min w.current (w.tokens.length - 1)]? = some w.parser.cursor.peek := by
  have hlength : 0 < w.tokens.length := List.length_pos_iff.mpr h
  by_cases hc : w.current < w.tokens.length
  · have hmin : min w.current (w.tokens.length - 1) = w.current := by omega
    rw [hmin, List.getElem?_eq_getElem hc]
    change _ = some ((w.tokens.drop w.current).headD _)
    rw [List.drop_eq_getElem_cons hc]
    rfl
  · have hmin : min w.current (w.tokens.length - 1) = w.tokens.length - 1 := by omega
    rw [hmin, ← List.getLast?_eq_getElem?]
    change _ = some ((w.tokens.drop w.current).headD _)
    rw [List.drop_eq_nil_of_le (by omega), List.getLast?_eq_some_getLast h]
    change _ = some (w.tokens.getLast?.getD _)
    rw [List.getLast?_eq_some_getLast h]
    rfl

/-- Behind the end of its list a walker sees the last token. -/
theorem peek_of_length_le {w : Walker σ} (h : w.tokens.length ≤ w.current) :
    w.parser.cursor.peek = (Cursor.ofTokens w.tokens).last := by
  change (w.tokens.drop w.current).headD _ = _
  rw [List.drop_eq_nil_of_le h]
  rfl

/-- A walker has gone no further than to the end marker of a list, and has left
its marks in good order. -/
structure Legal (ts : List Token) (w : Walker σ) : Prop where
  tokens : w.tokens = ts
  unpassed : Marked ts → w.current ≤ ending ts
  places : ∀ m ∈ w.marks, m.place ≤ w.current
  paced : w.marks.Pairwise Mark.Before

/-- A walker stands at a place or behind it, may call at the stations from a rank on, and has last
taken a token of some kinds if it is behind the end. -/
structure At (ts : List Token) (place rank : Nat) (P : Token.Kind → Prop) (w : Walker σ) : Prop
    extends Legal ts w where
  reached : place ≤ w.current
  ready : ∀ m ∈ w.marks, m.place = w.current → m.station.rank < rank
  behind : ending ts < w.current → P w.next

/-- A walker has taken a token of a kind. -/
structure Took (ts : List Token) (w : Walker σ) (k : Token.Kind) (w' : Walker σ) : Prop
    extends At ts (w.current + 1) 0 (· = k) w' where
  seen : w.next = k
  moved : w'.current = w.current + 1

/-- A walker has taken the semicolon of a statement, which stands before the end or at it. -/
structure Ended (ts : List Token) (place : Nat) (w : Walker σ) : Prop
    extends At ts place 0 (· = .sign .semicolon) w where
  within : w.current ≤ ending ts + 1

variable {ts : List Token} {place rank : Nat} {P : Token.Kind → Prop} {w w' : Walker σ}
  {k : Token.Kind}

/-- Before the end marker a walker sees it only if it stands there. -/
theorem Legal.lt_ending (h : Legal ts w) (hne : ts ≠ []) (hm : Marked ts)
    (hk : w.next ≠ .endOfFile) : w.current < ending ts := by
  apply Nat.lt_of_le_of_ne (h.unpassed hm)
  intro hc
  have hlt := hm.ending_lt
  have hinside := w.inside (h.tokens ▸ hne)
  have hmin : min w.current (w.tokens.length - 1) = ending ts := by
    rw [h.tokens]
    omega
  rw [hmin, h.tokens, List.getElem?_eq_getElem hlt] at hinside
  apply hk
  change w.parser.cursor.peek.kind = _
  rw [← Option.some.inj hinside]
  exact kind_ending hlt

/-- A list without an end marker shows its last token from the end on. -/
theorem Legal.peek_of_not_marked (h : Legal ts w) (hm : ¬Marked ts) (hc : ending ts ≤ w.current) :
    w.parser.cursor.peek = (Cursor.ofTokens ts).last := by
  have hending : ending ts = ts.length := by
    apply List.findIdx_eq_length.mpr
    intro t ht
    exact beq_eq_false_iff_ne.mpr fun hk => hm ⟨t, ht, hk⟩
  rw [peek_of_length_le, h.tokens]
  rw [h.tokens]
  omega

/-- In a settled list a token that calls for another factor stands before the end. -/
theorem Legal.lt_of_opens (h : Legal ts w) (hne : ts ≠ []) (hs : Settled ts) (ho : Opens w.next) :
    w.current < ending ts := by
  have hk : w.next ≠ .endOfFile := by
    rintro hk
    rw [hk] at ho
    rcases ho with ho | ho | ho <;> cases ho
  by_cases hm : Marked ts
  · exact h.lt_ending hne hm hk
  · apply Nat.lt_of_not_le
    intro hc
    have hpeek := h.peek_of_not_marked hm hc
    have hlast := List.getLast?_eq_some_getLast hne
    have hopens := (hs.resolve_left hm) _ hlast
    apply hopens
    change Opens w.parser.cursor.peek.kind at ho
    rw [hpeek] at ho
    change Opens (ts.getLast?.getD _).kind at ho
    rw [hlast] at ho
    exact ho

theorem At.mono {place' rank' : Nat} {P' : Token.Kind → Prop} (h : At ts place rank P w)
    (hplace : place' ≤ place) (hrank : rank ≤ rank') (hP : ∀ k, P k → P' k) :
    At ts place' rank' P' w where
  toLegal := h.toLegal
  reached := Nat.le_trans hplace h.reached
  ready m hm hc := Nat.lt_of_lt_of_le (h.ready m hm hc) hrank
  behind hc := hP _ (h.behind hc)

theorem At.earlier {place' : Nat} (h : At ts place rank P w) (hplace : place' ≤ place) :
    At ts place' rank P w :=
  h.mono hplace (Nat.le_refl _) fun _ hk => hk

theorem Ended.earlier {place' : Nat} (h : Ended ts place w) (hplace : place' ≤ place) :
    Ended ts place' w :=
  ⟨h.toAt.earlier hplace, h.within⟩

theorem At.here (h : At ts place rank P w) : At ts w.current rank P w :=
  ⟨h.toLegal, Nat.le_refl _, h.ready, h.behind⟩

/-- A token of another kind than the last ones is taken before the end, or at it. -/
theorem At.current_le (h : At ts place rank P w) (hk : ¬P w.next) : w.current ≤ ending ts := by
  apply Nat.le_of_not_lt
  intro hc
  exact hk (h.behind hc)

/-- The sink does not matter. -/
theorem Legal.told (h : Legal ts w) (s : σ) : Legal ts { w with sink := s } :=
  ⟨h.tokens, h.unpassed, h.places, h.paced⟩

private theorem At.told (h : At ts place rank P w) (s : σ) :
    At ts place rank P { w with sink := s } :=
  ⟨h.toLegal.told s, h.reached, h.ready, h.behind⟩

/-- A call at a station that is not before the rank leaves its mark behind the others. -/
theorem At.calling {s : Station} (h : At ts place rank P w) (hrank : rank ≤ s.rank) :
    At ts place (s.rank + 1) P (w.calling s) where
  tokens := h.tokens
  unpassed := h.unpassed
  places := by
    intro m hm
    rcases List.mem_append.mp hm with hm | hm
    · exact h.places m hm
    · rw [List.mem_singleton.mp hm]
      exact Nat.le_refl _
  paced := by
    apply List.pairwise_append.mpr
    refine ⟨h.paced, List.pairwise_singleton _ _, ?_⟩
    intro m hm m' hm'
    rw [List.mem_singleton.mp hm']
    rcases Nat.lt_or_eq_of_le (h.places m hm) with hlt | heq
    · exact .inl hlt
    · exact .inr ⟨heq, Nat.lt_of_lt_of_le (h.ready m hm heq) hrank⟩
  reached := h.reached
  ready := by
    intro m hm hc
    rcases List.mem_append.mp hm with hm | hm
    · exact Nat.lt_succ_of_lt (Nat.lt_of_lt_of_le (h.ready m hm hc) hrank)
    · rw [List.mem_singleton.mp hm]
      exact Nat.lt_succ_self _
  behind := h.behind

/-- A token other than the end marker is taken by going on to the next place. -/
theorem Legal.took (h : Legal ts w) (hne : ts ≠ []) (hk : w.next = k) (hend : k ≠ .endOfFile) :
    Took ts w k { w with current := w.current + 1 } where
  tokens := h.tokens
  unpassed hm := h.lt_ending hne hm (hk ▸ hend)
  places m hm := Nat.le_succ_of_le (h.places m hm)
  paced := h.paced
  reached := Nat.le_refl _
  ready := by
    intro m hm hc
    have hplace := h.places m hm
    change m.place = w.current + 1 at hc
    omega
  behind := by
    intro hc
    change ending ts < w.current + 1 at hc
    by_cases hm : Marked ts
    · have hlt := h.lt_ending hne hm (hk ▸ hend)
      omega
    · -- From the end on the list shows its last token before and after the step.
      have hmoved : Legal ts { w with current := w.current + 1 } := by
        refine ⟨h.tokens, fun hm' => absurd hm' hm, ?_, h.paced⟩
        exact fun m hm => Nat.le_succ_of_le (h.places m hm)
      have hhere := h.peek_of_not_marked hm (by omega)
      have hthere := hmoved.peek_of_not_marked hm (Nat.le_of_lt hc)
      rw [← hk]
      change Token.kind _ = Token.kind _
      rw [hhere, hthere]
  seen := hk
  moved := rfl

end Walker

/-! ## Agreement -/

namespace Script

open Parser Walker

variable {σ α β : Type} [EventSink σ]

/-- A script comes to the outcome of a part of the bounded parser, at the same place; where it
succeeds, a condition holds there. -/
inductive Agree (ts : List Token) (w : Walker σ) (x : Script α) (y : Parse σ α)
    (Q : α → Walker σ → Prop) : Prop where
  | ok {a : α} {w' : Walker σ} (hx : x.Yields w (.ok a) w') (hy : y w.parser = .ok a w'.parser)
    (h : Q a w')
  | error {e : Error} {w' : Walker σ} (hx : x.Yields w (.error e) w')
    (hy : y w.parser = .error e w'.parser) (h : Legal ts w')

variable {ts : List Token} {w : Walker σ} {x : Script α} {y : Parse σ α} {f : α → Script β}
  {g : α → Parse σ β} {Q Q' : α → Walker σ → Prop} {R : β → Walker σ → Prop} {place rank : Nat}
  {P : Token.Kind → Prop} {k : Token.Kind}

namespace Agree

theorem mono (h : Agree ts w x y Q) (hQ : ∀ a w', Q a w' → Q' a w') : Agree ts w x y Q' := by
  cases h with
  | ok hx hy h => exact .ok hx hy (hQ _ _ h)
  | error hx hy h => exact .error hx hy h

/-- Parts that agree come to one outcome. -/
theorem outcome (h : Agree ts w x y fun _ => Legal ts) :
    ∃ r w', x.Yields w r w' ∧ Parser.outcome (y w.parser) = (r, w'.parser) ∧ Legal ts w' := by
  cases h with
  | ok hx hy h => exact ⟨_, _, hx, congrArg Parser.outcome hy, h⟩
  | error hx hy h => exact ⟨_, _, hx, congrArg Parser.outcome hy, h⟩

/-- Parts in a row agree if each does where the one before ends. -/
theorem bind (h : Agree ts w x y Q) (hf : ∀ a w', Q a w' → Agree ts w' (f a) (g a) R) :
    Agree ts w (x >>= f) (y >>= g) R := by
  cases h with
  | error hx hy h => exact .error (hx.bind_error f) (EStateM.bind_of_error hy) h
  | ok hx hy h =>
    cases hf _ _ h with
    | ok hfx hfy h' => exact .ok (hx.bind hfx) ((EStateM.bind_of_ok hy).trans hfy) h'
    | error hfx hfy h' => exact .error (hx.bind hfx) ((EStateM.bind_of_ok hy).trans hfy) h'

theorem pure {a : α} (h : Q a w) : Agree ts w (pure a) (pure a) Q := .ok (.done a w) rfl h

theorem fails {e : Error} (h : Legal ts w) : Agree ts w (.fails e) (throw e) Q :=
  .error (.fails e w) rfl h

/-- A choice agrees if both alternatives do. -/
theorem ite {b : Bool} {x' : Script α} {y' : Parse σ α} (yes : b = true → Agree ts w x y Q)
    (no : b = false → Agree ts w x' y' Q) :
    Agree ts w (if b then x else x') (if b then y else y') Q := by
  cases b with
  | true => exact yes rfl
  | false => exact no rfl

/-- A part that may be left out agrees, with what stands behind it. -/
theorem optional {b : Bool} {x : Script Unit} {y : Parse σ Unit} {f : Unit → Script β}
    {g : Unit → Parse σ β} {Q : Walker σ → Prop} (yes : b = true → Agree ts w x y fun _ => Q)
    (no : b = false → Q w) (rest : ∀ w', Q w' → Agree ts w' (f ()) (g ()) R) :
    Agree ts w (if b then x >>= f else f ()) (if b then y >>= g else g ()) R :=
  ite (fun hb => bind (yes hb) fun _ w' h => rest w' h) fun hb => rest w (no hb)

/-- A call agrees with what its script agrees with. -/
theorem call {s : Station} {y : Parse σ Unit} {Q : Unit → Walker σ → Prop}
    (h : Agree ts (w.calling s) s.script y Q) : Agree ts w (call s) y Q := by
  cases h with
  | ok hx hy h => exact .ok hx.of_script hy h
  | error hx hy h => exact .error hx.of_script hy h

theorem fire (h : At ts place rank P w) (e : Event) :
    Agree ts w (fire e) (Parse.fire e) fun _ => At ts place rank P := by
  cases ha : EventSink.accept e w.parser.sink with
  | ok u s =>
    refine .ok (.told ha (.done () _)) ?_ (h.told s)
    rw [Parse.fire, ha]
    rfl
  | error err s =>
    refine .error (.refused ha) ?_ (h.toLegal.told s)
    rw [Parse.fire, ha]
    rfl

/-! ### Tokens -/

/-- Looking at the token behind the one here changes nothing. -/
theorem second {f : Option Token → Script β} {g : Parser σ → Parse σ β}
    (h : Agree ts w (f w.parser.cursor.second?) (g w.parser) R) :
    Agree ts w (second? >>= f) (get >>= g) R := by
  have hsecond : w.parser.cursor.second? = w.tokens[w.current + 1]? := by
    change (w.tokens.drop w.current)[1]? = _
    rw [List.getElem?_drop]
  rw [hsecond] at h
  cases h with
  | ok hx hy h => exact .ok (.looksBehind hx) hy h
  | error hx hy h => exact .error (.looksBehind hx) hy h

section

variable (hne : ts ≠ []) (hw : Legal ts w)

include hne hw

/-- Looking at the token here changes nothing. -/
theorem peek {f : Token → Script β} {g : Token → Parse σ β}
    (h : Agree ts w (f w.parser.cursor.peek) (g w.parser.cursor.peek) R) :
    Agree ts w (peek >>= f) (Parse.peek >>= g) R := by
  have hinside := w.inside (hw.tokens ▸ hne)
  cases h with
  | ok hx hy h => exact .ok (.looks hinside hx) hy h
  | error hx hy h => exact .error (.looks hinside hx) hy h

theorem sees {f : Bool → Script β} {g : Bool → Parse σ β}
    (h : Agree ts w (f (w.next == k)) (g (w.next == k)) R) :
    Agree ts w (sees k >>= f) (Parse.sees k >>= g) R := by
  have hsees : Agree ts w (Script.sees k) (Parse.sees k) fun b w' => b = (w.next == k) ∧ w' = w :=
    peek hne hw (pure ⟨rfl, rfl⟩)
  apply bind hsees
  rintro b w' ⟨rfl, rfl⟩
  exact h

/-- Asking for the end marker is looking at the token here. -/
theorem atEnd {f : Bool → Script β} {g : Parser σ → Parse σ β}
    (h : Agree ts w (f (w.next == .endOfFile)) (g w.parser) R) :
    Agree ts w (atEnd >>= f) (get >>= g) R := by
  have hinside := w.inside (hw.tokens ▸ hne)
  cases h with
  | ok hx hy h => exact .ok (.looks hinside hx) hy h
  | error hx hy h => exact .error (.looks hinside hx) hy h

theorem wanted (what : String) : Agree ts w (wanted what) (Parse.wanted what) Q :=
  peek hne hw (fails hw)

/-- A token other than the end marker is taken. -/
theorem advance (hk : w.next = k) (hend : k ≠ .endOfFile) :
    Agree ts w advance Parse.advance fun _ => Took ts w k := by
  have hinside := w.inside (hw.tokens ▸ hne)
  have hpeek : (w.parser.cursor.peek.kind == .endOfFile) = false :=
    beq_eq_false_iff_ne.mpr fun h => hend (hk ▸ h)
  have hscript : Script.advance.Yields w (.ok ()) { w with current := w.current + 1 } := by
    apply Yields.looks hinside
    change Yields (if (w.parser.cursor.peek.kind == .endOfFile) = true then _ else _) _ _ _
    rw [if_neg (by simp [hpeek])]
    exact .moves (.done () _)
  have hparser : Parse.advance w.parser =
      .ok () (Walker.parser { w with current := w.current + 1 }) := by
    change EStateM.Result.ok () { w.parser with cursor := w.parser.cursor.advance } = _
    have hend' : w.parser.cursor.atEnd = false := hpeek
    rw [Cursor.advance, hend']
    change EStateM.Result.ok () _ = EStateM.Result.ok () _
    simp [Walker.parser]
  exact .ok hscript hparser (hw.took hne hk hend)

/-- A kind of token is taken, or another one stands there. -/
theorem taking (hend : k ≠ .endOfFile) :
    Agree ts w (Script.take? k) (Parse.take? k) fun b w' =>
      b = true ∧ Took ts w k w' ∨ b = false ∧ w.next ≠ k ∧ w' = w := by
  apply sees hne hw
  by_cases hk : w.next = k
  · rw [beq_iff_eq.mpr hk]
    exact bind (advance hne hw hk hend) fun _ w' h => pure (.inl ⟨rfl, h⟩)
  · rw [beq_eq_false_iff_ne.mpr hk]
    exact pure (.inr ⟨rfl, hk, rfl⟩)

/-- What stands behind a token that may be there agrees if it does in both cases. -/
theorem take? {f : Bool → Script β} {g : Bool → Parse σ β} (hend : k ≠ .endOfFile)
    (yes : ∀ w', Took ts w k w' → Agree ts w' (f true) (g true) R)
    (no : w.next ≠ k → Agree ts w (f false) (g false) R) :
    Agree ts w (take? k >>= f) (Parse.take? k >>= g) R := by
  apply bind (taking hne hw hend)
  rintro b w' (⟨rfl, h⟩ | ⟨rfl, hk, rfl⟩)
  · exact yes w' h
  · exact no hk

theorem expect (hend : k ≠ .endOfFile) :
    Agree ts w (expect k) (Parse.expect k) fun _ => Took ts w k := by
  apply sees hne hw
  apply ite
  · intro hk
    exact advance hne hw (beq_iff_eq.mp hk) hend
  · intro _
    apply atEnd hne hw
    refine ite (fun _ => ?_) fun _ => ?_
    · exact fails hw
    · exact wanted hne hw _

theorem name : Agree ts w name Parse.name fun x => Took ts w (.identifier x) := by
  apply peek hne hw
  cases hk : w.parser.cursor.peek.kind with
  | identifier x => exact bind (advance hne hw hk (by simp)) fun _ _ h => pure h
  | endOfFile => exact fails hw
  | _ => exact wanted hne hw _

/-- A type that can be declared is taken as a keyword. -/
theorem typeName : Agree ts w typeName Parse.typeName fun _ =>
    At ts (w.current + 1) 0 fun k => k = .keyword .int ∨ k = .keyword .float := by
  apply take? hne hw (by simp)
  · intro w' h
    exact pure (h.mono (Nat.le_refl _) (Nat.le_refl _) fun _ hk => .inl hk)
  · intro _
    apply take? hne hw (by simp)
    · intro w' h
      exact pure (h.mono (Nat.le_refl _) (Nat.le_refl _) fun _ hk => .inr hk)
    · intro _
      exact wanted hne hw _

end

end Agree

end Script

end Quadlet
