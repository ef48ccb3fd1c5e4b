import Quadlet.Proofs.Parser.Pace
import Quadlet.Proofs.Parser.Soundness

/-!
# The parser comes to an end

Main statement: in a list with an end marker, and in a list whose last token does not call for
another factor, the parser without bounds comes to an outcome, the one of the bounded parser. It
stays inside the list and before its end marker, and each round of a loop and each descent
starts at a later token than the one before. The statements follow the text of the parser: a
part ends if its bound exceeds the number of tokens left. In any other list a factor at the last
token descends for ever.
-/

namespace Quadlet

namespace Script

open Parser Walker Agree

variable {σ : Type} [EventSink σ] {ts : List Token} {w : Walker σ} {place rank n : Nat}
  {P : Token.Kind → Prop}

/-! ## Expressions -/

/-- The tokens that an operand or a printed string ends with. -/
def Closes : Token.Kind → Prop
  | .integer _ | .float _ | .string _ | .identifier _ | .sign .rightParen => True
  | _ => False

private theorem multiplicative?_of_closes {k : Token.Kind} (h : Closes k) :
    Parse.multiplicative? k = none := by
  unfold Parse.multiplicative?
  split
  · cases h
  · cases h
  · rfl

private theorem additive?_of_closes {k : Token.Kind} (h : Closes k) : Parse.additive? k = none := by
  unfold Parse.additive?
  split
  · cases h
  · cases h
  · rfl

private theorem not_closes_comma : ¬Closes (.sign .comma) := fun h => h

section

variable (hne : ts ≠ [])

include hne

/-- Further operands: a round that finds an operator takes it, and an
operand never ends with one. -/
theorem operands_agree {s : Station} {level : Token.Kind → Option Operator} {x : Script Unit}
    {y : Parse σ Unit} {bound : Nat} (hs : s.script = operandRound s level x)
    (hclosed : ∀ k, Closes k → level k = none) (hend : level .endOfFile = none)
    (operand : ∀ {w : Walker σ} {place : Nat} {P : Token.Kind → Prop}, At ts place 0 P w →
      ending ts < w.current + bound → Agree ts w x y fun _ => At ts (w.current + 1) s.rank Closes)
    (hw : At ts place rank Closes w) (hrank : rank ≤ s.rank)
    (hbound : ending ts < w.current + bound) (hn : ending ts < w.current + n) :
    Agree ts w (call s) (Parse.moreOperands level y n) fun _ =>
      At ts w.current (s.rank + 1) Closes := by
  induction n generalizing w place rank with
  | zero =>
    have hcalling := hw.here.calling hrank
    apply Agree.call
    rw [hs]
    unfold Parse.moreOperands
    apply Agree.peek hne hcalling.toLegal
    -- Without a bound the walker is behind the end, where it sees the end of the last operand
    -- again.
    have hnone : level (w.calling s).parser.cursor.peek.kind = none := hclosed _ (hw.behind hn)
    rw [hnone]
    exact Agree.pure hcalling
  | succ n ih =>
    have hcalling := hw.here.calling hrank
    apply Agree.call
    rw [hs]
    unfold Parse.moreOperands
    apply Agree.peek hne hcalling.toLegal
    cases hk : level (w.calling s).parser.cursor.peek.kind with
    | none => exact Agree.pure hcalling
    | some op =>
      have hnext : (w.calling s).next ≠ .endOfFile := by
        intro heof
        have hop : level (w.calling s).next = some op := hk
        rw [heof, hend] at hop
        cases hop
      refine .bind (Agree.advance hne hcalling.toLegal rfl hnext) fun _ w₁ h₁ => ?_
      have hc₁ : w₁.current = w.current + 1 := h₁.moved
      refine .bind (Agree.fire h₁.toAt _) fun _ w₂ h₂ => ?_
      have hc₂ : w.current + 1 ≤ w₂.current := h₂.reached
      refine .bind (operand h₂ (by omega)) fun _ w₃ h₃ => ?_
      have hc₃ := h₃.reached
      refine (ih h₃ (Nat.le_refl _) (by omega) (by omega)).mono fun _ w₄ h₄ => ?_
      exact h₄.earlier (by omega)

/-- A factor of one token. -/
theorem token_agrees {k : Token.Kind} (hw : Legal ts w) (hk : w.next = k)
    (hc : Closes k) (e : Event) :
    Agree ts w (do advance; fire e) (do Parse.advance; Parse.fire e) fun _ =>
      At ts (w.current + 1) 0 Closes := by
  have hend : k ≠ .endOfFile := by
    rintro rfl
    exact hc
  refine .bind (Agree.advance hne hw hk hend) fun _ w₁ h₁ => ?_
  refine Agree.fire (h₁.mono (Nat.le_refl _) (Nat.le_refl _) fun k' hk' => ?_) e
  rw [hk']
  exact hc

private theorem leaf_agrees {k : Token.Kind} (hw : Legal ts w) (hk : w.next = k) :
    Agree ts w (leaf k) (Parse.leaf k) fun _ => At ts (w.current + 1) 0 Closes := by
  cases k with
  | integer | float | identifier => exact token_agrees hne hw hk trivial _
  | endOfFile => exact Agree.fails hw
  | _ => exact Agree.wanted hne hw _

section

variable
  (hfactor : ∀ {w : Walker σ} {place rank : Nat} {P : Token.Kind → Prop}, At ts place rank P w →
    rank ≤ Station.factor.rank → ending ts < w.current + n →
    Agree ts w (call .factor) (Parse.factor n) fun _ => At ts (w.current + 1) 0 Closes)
  (hw : At ts place rank P w) (hrank : rank ≤ Station.factor.rank) (hn : ending ts < w.current + n)

include hfactor hw hrank hn

omit hne in
private theorem wholeFactor_agrees :
    Agree ts w wholeFactor (do Parse.factor n; Parse.fire .factorEnd) fun _ =>
      At ts (w.current + 1) 0 Closes :=
  .bind (hfactor hw hrank hn) fun _ _ h₁ => Agree.fire h₁ _

private theorem term_agrees :
    Agree ts w term (Parse.term (Parse.factor n) n) fun _ =>
      At ts (w.current + 1) Station.terms.rank Closes := by
  refine .bind (wholeFactor_agrees hfactor hw hrank hn) fun _ w₁ h₁ => ?_
  have hc₁ := h₁.reached
  have hn₁ : ending ts < w₁.current + n := by omega
  refine (operands_agree hne rfl (fun _ => multiplicative?_of_closes) rfl ?_ h₁ (Nat.zero_le _)
      hn₁ hn₁).mono
    fun _ w₂ h₂ => ?_
  · intro v _ _ hv hv'
    refine (wholeFactor_agrees hfactor hv (Nat.zero_le _) hv').mono fun _ v' h => ?_
    exact h.mono (Nat.le_refl _) (Nat.zero_le _) fun _ hk => hk
  · exact h₂.earlier hc₁

private theorem wholeTerm_agrees :
    Agree ts w wholeTerm (do Parse.term (Parse.factor n) n; Parse.fire .termEnd) fun _ =>
      At ts (w.current + 1) Station.terms.rank Closes :=
  .bind (term_agrees hne hfactor hw hrank hn) fun _ _ h₁ => Agree.fire h₁ _

private theorem sum_agrees :
    Agree ts w sum (Parse.sum (Parse.factor n) n) fun _ =>
      At ts (w.current + 1) (Station.terms.rank + 1) Closes := by
  refine .bind (wholeTerm_agrees hne hfactor hw hrank hn) fun _ w₁ h₁ => ?_
  have hc₁ := h₁.reached
  have hn₁ : ending ts < w₁.current + n := by omega
  refine (operands_agree hne rfl (fun _ => additive?_of_closes) rfl ?_ h₁ (Nat.le_refl _)
      hn₁ hn₁).mono
    fun _ w₂ h₂ => ?_
  · intro v _ _ hv hv'
    exact wholeTerm_agrees hne hfactor hv (Nat.zero_le _) hv'
  · exact h₂.earlier hc₁

private theorem expressionOf_agrees :
    Agree ts w expression (Parse.expressionOf (Parse.factor n) n) fun _ =>
      At ts (w.current + 1) (Station.terms.rank + 1) Closes := by
  refine .bind (sum_agrees hne hfactor hw hrank hn) fun _ w₁ h₁ => ?_
  have hc₁ := h₁.reached
  apply Agree.peek hne h₁.toLegal
  cases hk : Parse.relational? w₁.parser.cursor.peek.kind with
  | none => exact Agree.fire h₁ _
  | some op =>
    have hnext : w₁.next ≠ .endOfFile := by
      intro heof
      have hop : Parse.relational? w₁.next = some op := hk
      rw [heof] at hop
      cases hop
    refine .bind (Agree.advance hne h₁.toLegal rfl hnext) fun _ w₂ h₂ => ?_
    have hc₂ := h₂.moved
    refine .bind (Agree.fire h₂.toAt _) fun _ w₃ h₃ => ?_
    have hc₃ := h₃.reached
    refine .bind (sum_agrees hne hfactor h₃ (Nat.zero_le _) (by omega)) fun _ w₄ h₄ => ?_
    have hc₄ := h₄.reached
    exact Agree.fire (h₄.earlier (by omega)) _

end

variable (hsettled : Settled ts)

include hsettled

/-- A factor ends, since only a token before the end calls for another one. -/
theorem factor_agrees (hw : At ts place rank P w) (hrank : rank ≤ Station.factor.rank)
    (hn : ending ts < w.current + n) :
    Agree ts w (call .factor) (Parse.factor n) fun _ => At ts (w.current + 1) 0 Closes := by
  induction n generalizing w place rank P with
  | zero =>
    have hcalling := hw.calling hrank
    -- Behind the end of a settled list no token calls for another factor.
    have hopens : ¬Opens (w.calling .factor).next := by
      intro ho
      have hlt : w.current < ending ts := hcalling.lt_of_opens hne hsettled ho
      omega
    apply Agree.call
    apply Agree.peek hne hcalling.toLegal
    generalize hk : (w.calling .factor).parser.cursor.peek.kind = k
    have hleaf := leaf_agrees hne hcalling.toLegal hk
    cases k with
    | sign x =>
      cases x with
      | leftParen => exact absurd (.inl hk) hopens
      | plus => exact absurd (.inr (.inl hk)) hopens
      | minus => exact absurd (.inr (.inr hk)) hopens
      | _ => exact hleaf
    | _ => exact hleaf
  | succ n ih =>
    have hcalling := hw.here.calling hrank
    apply Agree.call
    apply Agree.peek hne hcalling.toLegal
    generalize hk : (w.calling .factor).parser.cursor.peek.kind = k
    have hleaf := leaf_agrees hne hcalling.toLegal hk
    have hsigned (negative : Bool) {k : Token.Kind} (hk : (w.calling .factor).next = k)
        (hend : k ≠ .endOfFile) :
        Agree ts (w.calling .factor)
          (do advance; fire (.unarySign negative); call .factor; fire .unaryEnd)
          (do Parse.advance; Parse.fire (.unarySign negative); Parse.factor n; Parse.fire .unaryEnd)
          fun _ => At ts (w.current + 1) 0 Closes := by
      refine .bind (Agree.advance hne hcalling.toLegal hk hend) fun _ w₁ h₁ => ?_
      refine .bind (Agree.fire h₁.toAt _) fun _ w₂ h₂ => ?_
      have hc₂ : w.current + 1 ≤ w₂.current := h₂.reached
      refine .bind (ih h₂ (Nat.zero_le _) (by omega)) fun _ w₃ h₃ => ?_
      exact Agree.fire (h₃.earlier (by omega)) _
    cases k with
    | sign x =>
      cases x with
      | leftParen =>
        refine .bind (Agree.advance hne hcalling.toLegal hk (by simp)) fun _ w₁ h₁ => ?_
        refine .bind (Agree.fire h₁.toAt _) fun _ w₂ h₂ => ?_
        have hc₂ : w.current + 1 ≤ w₂.current := h₂.reached
        refine .bind (expressionOf_agrees hne ih h₂ (Nat.zero_le _) (by omega)) fun _ w₃ h₃ => ?_
        have hc₃ := h₃.reached
        refine .bind (Agree.expect hne h₃.toLegal (by simp)) fun _ w₄ h₄ => ?_
        refine Agree.fire (h₄.mono (by omega) (Nat.le_refl _) fun k' hk' => ?_) _
        rw [hk']
        trivial
      | plus => exact hsigned false hk (by simp)
      | minus => exact hsigned true hk (by simp)
      | _ => exact hleaf
    | _ => exact hleaf

private theorem expression_agrees (hw : At ts place rank P w) (hrank : rank ≤ Station.factor.rank)
    (hn : ending ts < w.current + n) :
    Agree ts w expression (Parse.expression n) fun _ =>
      At ts (w.current + 1) (Station.terms.rank + 1) Closes :=
  expressionOf_agrees hne (factor_agrees hne hsettled) hw hrank hn

end

/-! ## Lists with commas -/

section

variable (hne : ts ≠ [])

include hne

/-- Items with commas between them: a round takes an item, and an item never ends with a comma. -/
theorem items_agree {s : Station} {x : Script Unit} {y : Parse σ Unit} {bound last : Nat}
    {E : Token.Kind → Prop} (hs : s.script = round s x) (hcomma : ¬E (.sign .comma))
    (item : ∀ {w : Walker σ} {place : Nat} {P : Token.Kind → Prop}, At ts place (s.rank + 1) P w →
      ending ts < w.current + bound → Agree ts w x y fun _ => At ts (w.current + 1) last E)
    (hw : At ts place rank P w) (hrank : rank ≤ s.rank) (hbound : ending ts < w.current + bound)
    (hn : ending ts < w.current + n) :
    Agree ts w (call s) (Parse.items y n) fun _ => At ts (w.current + 1) last E := by
  induction n generalizing w place rank P with
  | zero =>
    apply Agree.call
    rw [hs]
    refine .bind (item (hw.calling hrank) hbound) fun _ w₁ h₁ => ?_
    have hc₁ : w.current + 1 ≤ w₁.current := h₁.reached
    apply Agree.take? hne h₁.toLegal (by simp)
    · intro w₂ h₂
      -- A comma behind an item stands before the end, where there would be a bound.
      have hle := h₁.current_le (h₂.seen ▸ hcomma)
      omega
    · intro _
      exact Agree.pure h₁
  | succ n ih =>
    apply Agree.call
    rw [hs]
    refine .bind (item (hw.calling hrank) hbound) fun _ w₁ h₁ => ?_
    have hc₁ : w.current + 1 ≤ w₁.current := h₁.reached
    apply Agree.take? hne h₁.toLegal (by simp)
    · intro w₂ h₂
      have hc₂ := h₂.moved
      refine (ih h₂.toAt (Nat.zero_le _) (by omega) (by omega)).mono fun _ w₃ h₃ => ?_
      exact h₃.earlier (by omega)
    · intro _
      exact Agree.pure h₁

/-! ## Declarations -/

/-- The token is a name. -/
def IsName (k : Token.Kind) : Prop := ∃ x, k = .identifier x

private theorem variableName_agrees (hw : Legal ts w) :
    Agree ts w variableName Parse.variableName fun _ => At ts (w.current + 1) 0 IsName := by
  refine .bind (Agree.name hne hw) fun x w₁ h₁ => ?_
  exact Agree.fire (h₁.mono (Nat.le_refl _) (Nat.le_refl _) fun _ hk => ⟨x, hk⟩) _

/-- Further names: a round that finds a comma takes it. -/
theorem moreNames_agree (hw : At ts place rank IsName w) (hrank : rank ≤ Station.names.rank)
    (hn : ending ts < w.current + n) :
    Agree ts w (call .names) (Parse.moreItems Parse.variableName n) fun _ =>
      At ts w.current (Station.names.rank + 1) IsName := by
  have hcomma : ¬IsName (.sign .comma) := by
    rintro ⟨x, hx⟩
    cases hx
  induction n generalizing w place rank with
  | zero =>
    have hcalling := hw.here.calling hrank
    apply Agree.call
    apply Agree.take? hne hcalling.toLegal (by simp)
    · intro w₁ h₁
      have hle : w.current ≤ ending ts := hcalling.current_le (h₁.seen ▸ hcomma)
      omega
    · intro _
      exact Agree.pure hcalling
  | succ n ih =>
    have hcalling := hw.here.calling hrank
    apply Agree.call
    apply Agree.take? hne hcalling.toLegal (by simp)
    · intro w₁ h₁
      have hc₁ : w₁.current = w.current + 1 := h₁.moved
      refine .bind (variableName_agrees hne h₁.toLegal) fun _ w₂ h₂ => ?_
      have hc₂ := h₂.reached
      refine (ih h₂ (Nat.zero_le _) (by omega)).mono fun _ w₃ h₃ => ?_
      exact h₃.earlier (by omega)
    · intro _
      exact Agree.pure hcalling

private theorem nameList_agrees (hw : Legal ts w) (hn : ending ts < w.current + n) :
    Agree ts w nameList (Parse.items Parse.variableName n) fun _ =>
      At ts (w.current + 1) (Station.names.rank + 1) IsName := by
  refine .bind (variableName_agrees hne hw) fun _ w₁ h₁ => ?_
  have hc₁ := h₁.reached
  refine (moreNames_agree hne h₁ (Nat.zero_le _) (by omega)).mono fun _ w₂ h₂ => ?_
  exact h₂.earlier hc₁

/-- One list of variables, with what is done by the token behind it. -/
theorem variableList_agrees {f : Token → Script Unit} {g : Token → Parse σ Unit}
    {R : Unit → Walker σ → Prop} (hw : Legal ts w) (hn : ending ts < w.current + n)
    (rest : ∀ w', At ts (w.current + 1) 0 (· = .sign .semicolon) w' →
      Agree ts w' (f w'.parser.cursor.peek) (g w'.parser.cursor.peek) R) :
    Agree ts w
      (do nameList; expect (.sign .colon); fire (.varType (← typeName))
          expect (.sign .semicolon); f (← peek))
      (do Parse.items Parse.variableName n; Parse.expect (.sign .colon)
          Parse.fire (.varType (← Parse.typeName)); Parse.expect (.sign .semicolon)
          g (← Parse.peek)) R := by
  refine .bind (nameList_agrees hne hw hn) fun _ w₁ h₁ => ?_
  have hc₁ := h₁.reached
  refine .bind (Agree.expect hne h₁.toLegal (by simp)) fun _ w₂ h₂ => ?_
  have hc₂ := h₂.moved
  refine .bind (Agree.typeName hne h₂.toLegal) fun type w₃ h₃ => ?_
  have hc₃ := h₃.reached
  refine .bind (Agree.fire h₃ _) fun _ w₄ h₄ => ?_
  have hc₄ := h₄.reached
  refine .bind (Agree.expect hne h₄.toLegal (by simp)) fun _ w₅ h₅ => ?_
  apply Agree.peek hne h₅.toLegal
  exact rest w₅ (h₅.earlier (by omega))

/-- Lists of variables: a round ends with a semicolon, and the next one starts with a name. -/
theorem variableLists_agree (hw : At ts place rank P w) (hrank : rank ≤ Station.lists.rank)
    (hn : ending ts < w.current + n) :
    Agree ts w (call .lists) (Parse.variableLists n) fun _ =>
      At ts (w.current + 1) 0 (· = .sign .semicolon) := by
  induction n generalizing w place rank P with
  | zero =>
    apply Agree.call
    rw [Parse.variableLists_eq]
    refine variableList_agrees hne (hw.calling hrank).toLegal hn fun w₁ h₁ => ?_
    cases hk : w₁.parser.cursor.peek.kind with
    | identifier x =>
      have hname : ¬w₁.next = .sign .semicolon := fun h => Token.Kind.noConfusion (hk.symm.trans h)
      have hle := h₁.current_le hname
      have hc₁ : w.current + 1 ≤ w₁.current := h₁.reached
      omega
    | _ => exact Agree.pure h₁
  | succ n ih =>
    apply Agree.call
    rw [Parse.variableLists_eq]
    refine variableList_agrees hne (hw.calling hrank).toLegal hn fun w₁ h₁ => ?_
    have hc₁ : w.current + 1 ≤ w₁.current := h₁.reached
    cases w₁.parser.cursor.peek.kind with
    | identifier x =>
      refine (ih h₁ (Nat.zero_le _) (by omega)).mono fun _ w₂ h₂ => ?_
      exact h₂.earlier (by omega)
    | _ => exact Agree.pure h₁

/-- Behind declarations stands what stood before them, or the semicolon that ends the last list. -/
theorem declarations_agree (hw : At ts place rank P w) (hn : ending ts < w.current + n) :
    Agree ts w declarations (Parse.declarations n) fun _ =>
      At ts w.current rank fun k => P k ∨ k = .sign .semicolon := by
  apply Agree.take? hne hw.toLegal (by simp)
  · intro w₁ h₁
    have hc₁ := h₁.moved
    refine (variableLists_agree hne h₁.toAt (Nat.zero_le _) (by omega)).mono fun _ w₂ h₂ => ?_
    exact h₂.mono (by omega) (Nat.zero_le _) fun _ hk => .inr hk
  · intro _
    exact Agree.pure (hw.here.mono (Nat.le_refl _) (Nat.le_refl _) fun _ hk => .inl hk)

/-! ## Statements -/

/-- A semicolon that ends a statement stands before the end of the list, or at it. -/
theorem semicolon_agrees (hw : At ts place rank P w) (hP : ¬P (.sign .semicolon)) :
    Agree ts w (expect (.sign .semicolon)) (Parse.expect (.sign .semicolon))
      fun _ => Ended ts (place + 1) := by
  refine (Agree.expect hne hw.toLegal (by simp)).mono fun _ w₁ h₁ => ?_
  have hle := hw.current_le (h₁.seen ▸ hP)
  have hc := hw.reached
  have hc₁ := h₁.moved
  exact ⟨h₁.earlier (by omega), by omega⟩

section

variable {bound : Nat}
  (hstatement : ∀ {w : Walker σ} {place rank : Nat} {P : Token.Kind → Prop}, At ts place rank P w →
    rank ≤ Station.statement.rank → w.current ≤ ending ts + 1 → ending ts + 1 < w.current + bound →
    Agree ts w (call .statement) (Parse.statement bound) fun _ => Ended ts (w.current + 1))

include hstatement

/-- Statements up to a brace: a round takes a statement, and a statement ends before the end
of the list, or at it. -/
theorem statements_agree (hw : At ts place rank P w) (hrank : rank ≤ Station.statements.rank)
    (hle : w.current ≤ ending ts + 1) (hbound : ending ts + 1 < w.current + bound)
    (hn : ending ts + 1 < w.current + n) :
    Agree ts w (call .statements) (Parse.statements (Parse.statement bound) n) fun _ =>
      At ts w.current (Station.statements.rank + 1) fun _ => True := by
  induction n generalizing w place rank P with
  | zero => omega
  | succ n ih =>
    have hcalling := hw.here.calling hrank
    apply Agree.call
    apply Agree.sees hne hcalling.toLegal
    refine Agree.ite (fun _ => ?_) fun _ => ?_
    · exact Agree.pure (hcalling.mono (Nat.le_refl _) (Nat.le_refl _) fun _ _ => trivial)
    · apply Agree.atEnd hne hcalling.toLegal
      refine Agree.ite (fun _ => ?_) fun _ => ?_
      · exact Agree.fails hcalling.toLegal
      · refine .bind (hstatement hcalling (Nat.le_refl _) hle hbound) fun _ w₁ h₁ => ?_
        have hc₁ : w.current + 1 ≤ w₁.current := h₁.reached
        refine (ih h₁.toAt (Nat.zero_le _) h₁.within (by omega) (by omega)).mono fun _ w₂ h₂ => ?_
        exact h₂.earlier (by omega)

/-- A block: behind its opening brace there is a bound left for the statements. -/
theorem block_agrees (hw : At ts place rank P w) (hP : ¬P (.sign .leftBrace))
    (hbound : ending ts < w.current + bound) :
    Agree ts w block (Parse.block (Parse.statement bound) bound) fun _ =>
      At ts (w.current + 1) 0 (· = .sign .rightBrace) := by
  refine .bind (Agree.expect hne hw.toLegal (by simp)) fun _ w₁ h₁ => ?_
  -- Of two different kinds in a row the second one stands before the end, so the brace has used up
  -- a token.
  have hle := hw.current_le (h₁.seen ▸ hP)
  have hc₁ := h₁.moved
  have hbound₁ : ending ts + 1 < w₁.current + bound := by omega
  refine .bind (statements_agree hne hstatement h₁.toAt (Nat.zero_le _) (by omega) hbound₁ hbound₁)
    fun _ w₂ h₂ => ?_
  have hc₂ := h₂.reached
  refine (Agree.expect hne h₂.toLegal (by simp)).mono fun _ w₃ h₃ => ?_
  exact h₃.earlier (by omega)

end

end

section

variable (hne : ts ≠ []) (hsettled : Settled ts)

include hne hsettled

private theorem guarded_agrees (hw : Legal ts w) (hn : ending ts < w.current + n) :
    Agree ts w guarded (Parse.guarded n) fun _ =>
      At ts (w.current + 1) 0 (· = .sign .rightParen) := by
  refine .bind (Agree.expect hne hw (by simp)) fun _ w₁ h₁ => ?_
  have hc₁ := h₁.moved
  refine .bind (expression_agrees hne hsettled h₁.toAt (Nat.zero_le _) (by omega)) fun _ w₂ h₂ => ?_
  have hc₂ := h₂.reached
  refine (Agree.expect hne h₂.toLegal (by simp)).mono fun _ w₃ h₃ => ?_
  exact h₃.earlier (by omega)

private theorem assignment_agrees (hw : Legal ts w) (hn : ending ts < w.current + n) :
    Agree ts w assignment (Parse.assignment n) fun _ => Ended ts (w.current + 1) := by
  refine .bind (Agree.name hne hw) fun x w₁ h₁ => ?_
  refine .bind (Agree.fire h₁.toAt _) fun _ w₂ h₂ => ?_
  have hc₂ := h₂.reached
  refine .bind (Agree.expect hne h₂.toLegal (by simp)) fun _ w₃ h₃ => ?_
  refine .bind (Agree.fire h₃.toAt _) fun _ w₄ h₄ => ?_
  have hc₄ := h₄.reached
  refine .bind (expression_agrees hne hsettled h₄ (Nat.zero_le _) (by omega)) fun _ w₅ h₅ => ?_
  refine .bind (Agree.fire h₅ _) fun _ w₆ h₆ => ?_
  refine (semicolon_agrees hne h₆ (fun h => h)).mono fun _ w₇ h₇ => ?_
  exact h₇.earlier (by omega)

private theorem argument_agrees (hw : At ts place rank P w) (hrank : rank ≤ Station.factor.rank)
    (hn : ending ts < w.current + n) :
    Agree ts w argument (Parse.argument n) fun _ =>
      At ts (w.current + 1) (Station.terms.rank + 1) Closes :=
  .bind (expression_agrees hne hsettled hw hrank hn) fun _ _ h₁ => Agree.fire h₁ _

private theorem arguments_agree (hw : At ts place rank P w) (hrank : rank ≤ Station.arguments.rank)
    (hn : ending ts < w.current + n) :
    Agree ts w (call .arguments) (Parse.items (Parse.argument n) n) fun _ =>
      At ts (w.current + 1) (Station.terms.rank + 1) Closes :=
  items_agree hne rfl not_closes_comma (fun hv hv' =>
    argument_agrees hne hsettled hv (by decide) hv') hw hrank hn hn

private theorem invocation_agrees (hw : Legal ts w) (hn : ending ts < w.current + n) :
    Agree ts w invocation (Parse.call n) fun _ => Ended ts (w.current + 1) := by
  refine .bind (Agree.name hne hw) fun x w₁ h₁ => ?_
  refine .bind (Agree.fire h₁.toAt _) fun _ w₂ h₂ => ?_
  have hc₂ := h₂.reached
  refine .bind (Agree.expect hne h₂.toLegal (by simp)) fun _ w₃ h₃ => ?_
  refine .bind (Agree.fire h₃.toAt _) fun _ w₄ h₄ => ?_
  have hc₄ := h₄.reached
  apply Agree.sees hne h₄.toLegal
  refine Agree.optional (Q := fun v => Legal ts v ∧ w.current + 1 ≤ v.current) (fun _ => ?_)
    (fun _ => ?_) ?_
  · refine (arguments_agree hne hsettled h₄ (Nat.zero_le _) (by omega)).mono fun _ w₅ h₅ => ?_
    have hc₅ := h₅.reached
    exact ⟨h₅.toLegal, by omega⟩
  · exact ⟨h₄.toLegal, by omega⟩
  rintro w₅ ⟨h₅, hc₅⟩
  refine .bind (Agree.expect hne h₅ (by simp)) fun _ w₆ h₆ => ?_
  refine .bind (Agree.fire h₆.toAt _) fun _ w₇ h₇ => ?_
  refine (semicolon_agrees hne h₇ (by simp)).mono fun _ w₈ h₈ => ?_
  exact h₈.earlier (by omega)

private theorem printItem_agrees (hw : At ts place rank P w) (hrank : rank ≤ Station.factor.rank)
    (hn : ending ts < w.current + n) :
    Agree ts w printItem (Parse.printItem n) fun _ =>
      At ts (w.current + 1) (Station.terms.rank + 1) Closes := by
  have hexpression :
      Agree ts w (do expression; fire .printItem) (do Parse.expression n; Parse.fire .printItem)
        fun _ => At ts (w.current + 1) (Station.terms.rank + 1) Closes :=
    .bind (expression_agrees hne hsettled hw hrank hn) fun _ _ h₁ => Agree.fire h₁ _
  apply Agree.peek hne hw.toLegal
  cases hk : w.parser.cursor.peek.kind with
  | string text =>
    refine .bind (Agree.advance hne hw.toLegal hk (by simp)) fun _ w₁ h₁ => ?_
    refine .bind (Agree.fire h₁.toAt _) fun _ w₂ h₂ => ?_
    refine Agree.fire (h₂.mono (Nat.le_refl _) (Nat.zero_le _) fun k hk => ?_) _
    rw [hk]
    trivial
  | _ => exact hexpression

private theorem printItems_agree (hw : At ts place rank P w)
    (hrank : rank ≤ Station.printItems.rank) (hn : ending ts < w.current + n) :
    Agree ts w (call .printItems) (Parse.items (Parse.printItem n) n) fun _ =>
      At ts (w.current + 1) (Station.terms.rank + 1) Closes :=
  items_agree hne rfl not_closes_comma (fun hv hv' =>
    printItem_agrees hne hsettled hv (by decide) hv') hw hrank hn hn

private theorem print_agrees (hw : Legal ts w) (hn : ending ts < w.current + n) :
    Agree ts w print (Parse.print n) fun _ => Ended ts (w.current + 1) := by
  refine .bind (Agree.expect hne hw (by simp)) fun _ w₁ h₁ => ?_
  have hc₁ := h₁.moved
  refine .bind (Agree.expect hne h₁.toLegal (by simp)) fun _ w₂ h₂ => ?_
  have hc₂ := h₂.moved
  refine .bind (printItems_agree hne hsettled h₂.toAt (Nat.zero_le _) (by omega)) fun _ w₃ h₃ => ?_
  have hc₃ := h₃.reached
  refine .bind (Agree.expect hne h₃.toLegal (by simp)) fun _ w₄ h₄ => ?_
  refine (semicolon_agrees hne h₄.toAt (by simp)).mono fun _ w₅ h₅ => ?_
  exact h₅.earlier (by omega)

section

variable
  (hblock : ∀ {w : Walker σ} {place rank : Nat} {P : Token.Kind → Prop}, At ts place rank P w →
    ¬P (.sign .leftBrace) → ending ts < w.current + n →
    Agree ts w block (Parse.block (Parse.statement n) n) fun _ =>
      At ts (w.current + 1) 0 (· = .sign .rightBrace))
  (hw : Legal ts w) (hn : ending ts < w.current + n)

include hblock hw hn

private theorem condition_agrees :
    Agree ts w condition (Parse.condition (Parse.block (Parse.statement n) n) n) fun _ =>
      Ended ts (w.current + 1) := by
  refine .bind (Agree.expect hne hw (by simp)) fun _ w₁ h₁ => ?_
  have hc₁ := h₁.moved
  refine .bind (guarded_agrees hne hsettled h₁.toLegal (by omega)) fun _ w₂ h₂ => ?_
  have hc₂ := h₂.reached
  refine .bind (Agree.fire h₂ _) fun _ w₃ h₃ => ?_
  have hc₃ := h₃.reached
  refine .bind (hblock h₃ (by simp) (by omega)) fun _ w₄ h₄ => ?_
  have hc₄ := h₄.reached
  have hclose {v : Walker σ} (hv : At ts (w.current + 1) 0 (· = .sign .rightBrace) v) :
      Agree ts v (do fire .ifEnd; expect (.sign .semicolon))
        (do Parse.fire .ifEnd; Parse.expect (.sign .semicolon))
        fun _ => Ended ts (w.current + 1) := by
    refine .bind (Agree.fire hv _) fun _ v₁ g₁ => ?_
    refine (semicolon_agrees hne g₁ (by simp)).mono fun _ v₂ g₂ => ?_
    exact g₂.earlier (by omega)
  apply Agree.take? hne h₄.toLegal (by simp)
  · intro w₅ h₅
    have hc₅ := h₅.moved
    refine .bind (Agree.fire h₅.toAt _) fun _ w₆ h₆ => ?_
    have hc₆ := h₆.reached
    refine .bind (hblock h₆ (by simp) (by omega)) fun _ w₇ h₇ => ?_
    exact hclose (h₇.earlier (by omega))
  · intro _
    exact hclose (h₄.earlier (by omega))

private theorem cycle_agrees :
    Agree ts w cycle (Parse.cycle (Parse.block (Parse.statement n) n) n) fun _ =>
      Ended ts (w.current + 1) := by
  refine .bind (Agree.expect hne hw (by simp)) fun _ w₁ h₁ => ?_
  refine .bind (Agree.fire h₁.toAt _) fun _ w₂ h₂ => ?_
  have hc₂ := h₂.reached
  refine .bind (hblock h₂ (by simp) (by omega)) fun _ w₃ h₃ => ?_
  have hc₃ := h₃.reached
  refine .bind (Agree.expect hne h₃.toLegal (by simp)) fun _ w₄ h₄ => ?_
  have hc₄ := h₄.moved
  refine .bind (guarded_agrees hne hsettled h₄.toLegal (by omega)) fun _ w₅ h₅ => ?_
  have hc₅ := h₅.reached
  refine .bind (Agree.fire h₅ _) fun _ w₆ h₆ => ?_
  refine (semicolon_agrees hne h₆ (by simp)).mono fun _ w₇ h₇ => ?_
  exact h₇.earlier (by omega)

end

/-- A statement ends, since a block in it stands behind a token of it. -/
theorem statement_agrees (hw : At ts place rank P w) (hrank : rank ≤ Station.statement.rank)
    (hle : w.current ≤ ending ts + 1) (hn : ending ts + 1 < w.current + n) :
    Agree ts w (call .statement) (Parse.statement n) fun _ => Ended ts (w.current + 1) := by
  induction n generalizing w place rank P with
  | zero => omega
  | succ n ih =>
    have hcalling := hw.calling hrank
    have hlegal := hcalling.toLegal
    have hn' : ending ts < (w.calling .statement).current + n := by
      change ending ts < w.current + n
      omega
    apply Agree.call
    apply Agree.peek hne hlegal
    cases hk : (w.calling .statement).parser.cursor.peek.kind with
    | keyword x =>
      cases x with
      | cond => exact condition_agrees hne hsettled (block_agrees hne ih) hlegal hn'
      | loop => exact cycle_agrees hne hsettled (block_agrees hne ih) hlegal hn'
      | print => exact print_agrees hne hsettled hlegal hn'
      | _ => exact Agree.wanted hne hlegal _
    | identifier x =>
      -- A name starts an assignment or a call, by the token behind it.
      have hother : Agree ts (w.calling .statement) (do advance; wanted "`=` or `(`")
          (do Parse.advance; Parse.wanted "`=` or `(`")
          fun (_ : Unit) => Ended ts (w.current + 1) :=
        .bind (Agree.advance hne hlegal hk (by simp)) fun _ _ h₁ => Agree.wanted hne h₁.toLegal _
      apply Agree.second
      cases (w.calling .statement).parser.cursor.second?.map Token.kind with
      | none => exact hother
      | some k =>
        cases k with
        | sign x =>
          cases x with
          | assign => exact assignment_agrees hne hsettled hlegal hn'
          | leftParen => exact invocation_agrees hne hsettled hlegal hn'
          | _ => exact hother
        | _ => exact hother
    | _ => exact Agree.wanted hne hlegal _

/-! ## Programs -/

private theorem body_agrees (hw : At ts place rank P w) (hP : ¬P (.sign .leftBrace))
    (hn : ending ts < w.current + n) :
    Agree ts w block (Parse.block (Parse.statement n) n) fun _ =>
      At ts (w.current + 1) 0 (· = .sign .rightBrace) :=
  block_agrees hne (statement_agrees hne hsettled) hw hP hn

omit hsettled in
private theorem parameter_agrees (hw : Legal ts w) :
    Agree ts w parameter Parse.parameter fun _ =>
      At ts (w.current + 1) 0 fun k => k = .keyword .int ∨ k = .keyword .float := by
  refine .bind (Agree.name hne hw) fun x w₁ h₁ => ?_
  have hc₁ := h₁.moved
  refine .bind (Agree.expect hne h₁.toLegal (by simp)) fun _ w₂ h₂ => ?_
  have hc₂ := h₂.moved
  refine .bind (Agree.typeName hne h₂.toLegal) fun type w₃ h₃ => ?_
  exact Agree.fire (h₃.earlier (by omega)) _

omit hsettled in
private theorem parameters_agree (hw : At ts place rank P w)
    (hrank : rank ≤ Station.parameters.rank) (hn : ending ts < w.current + n) :
    Agree ts w (call .parameters) (Parse.items Parse.parameter n) fun _ =>
      At ts (w.current + 1) 0 fun k => k = .keyword .int ∨ k = .keyword .float :=
  items_agree hne rfl (by simp) (fun hv _ => parameter_agrees hne hv.toLegal) hw hrank hn hn

private theorem function_agrees (hw : Legal ts w) (hn : ending ts < w.current + n) :
    Agree ts w function (Parse.function n) fun _ =>
      At ts (w.current + 1) 0 (· = .sign .semicolon) := by
  refine .bind (Agree.taking hne hw (by simp)) fun _ w₁ h => ?_
  have h₁ : Legal ts w₁ ∧ w.current ≤ w₁.current := by
    rcases h with ⟨-, h₁⟩ | ⟨-, -, rfl⟩
    · exact ⟨h₁.toLegal, Nat.le_of_succ_le h₁.reached⟩
    · exact ⟨hw, Nat.le_refl _⟩
  have hc₁ := h₁.2
  refine .bind (Agree.expect hne h₁.1 (by simp)) fun _ w₂ h₂ => ?_
  have hc₂ := h₂.moved
  refine .bind (Agree.name hne h₂.toLegal) fun x w₃ h₃ => ?_
  have hc₃ := h₃.moved
  refine .bind (Agree.fire h₃.toAt _) fun _ w₄ h₄ => ?_
  have hc₄ := h₄.reached
  refine .bind (Agree.expect hne h₄.toLegal (by simp)) fun _ w₅ h₅ => ?_
  have hc₅ := h₅.moved
  apply Agree.sees hne h₅.toLegal
  refine Agree.optional (Q := fun v => Legal ts v ∧ w.current + 1 ≤ v.current) (fun _ => ?_)
    (fun _ => ?_) ?_
  · refine (parameters_agree hne h₅.toAt (Nat.zero_le _) (by omega)).mono fun _ w₆ h₆ => ?_
    have hc₆ := h₆.reached
    exact ⟨h₆.toLegal, by omega⟩
  · exact ⟨h₅.toLegal, by omega⟩
  rintro w₆ ⟨h₆, hc₆⟩
  refine .bind (Agree.expect hne h₆ (by simp)) fun _ w₇ h₇ => ?_
  have hc₇ := h₇.moved
  refine .bind (Agree.expect hne h₇.toLegal (by simp)) fun _ w₈ h₈ => ?_
  have hc₈ := h₈.moved
  refine .bind (declarations_agree hne h₈.toAt (by omega)) fun _ w₉ h₉ => ?_
  refine .bind (Agree.fire h₉ _) fun _ w₁₀ h₁₀ => ?_
  have hc₁₀ := h₁₀.reached
  refine .bind (body_agrees hne hsettled h₁₀ (by simp) (by omega)) fun _ w₁₁ h₁₁ => ?_
  have hc₁₁ := h₁₁.reached
  refine .bind (Agree.expect hne h₁₁.toLegal (by simp)) fun _ w₁₂ h₁₂ => ?_
  have hc₁₂ := h₁₂.moved
  refine .bind (Agree.expect hne h₁₂.toLegal (by simp)) fun _ w₁₃ h₁₃ => ?_
  exact Agree.fire (h₁₃.earlier (by omega)) _

/-- Functions: a round ends with a semicolon, and the next one starts with a keyword. -/
theorem functions_agree (hw : At ts place rank (· = .sign .semicolon) w)
    (hrank : rank ≤ Station.functions.rank) (hn : ending ts < w.current + n) :
    Agree ts w (call .functions) (Parse.functions n) fun _ =>
      At ts w.current (Station.functions.rank + 1) (· = .sign .semicolon) := by
  induction n generalizing w place rank with
  | zero =>
    have hcalling := hw.here.calling hrank
    -- Behind the end stands the last semicolon, which starts no function.
    have hnext : (w.calling .functions).next = .sign .semicolon := hw.behind hn
    apply Agree.call
    apply Agree.sees hne hcalling.toLegal
    apply Agree.sees hne hcalling.toLegal
    rw [hnext]
    exact Agree.pure hcalling
  | succ n ih =>
    have hcalling := hw.here.calling hrank
    apply Agree.call
    apply Agree.sees hne hcalling.toLegal
    apply Agree.sees hne hcalling.toLegal
    refine Agree.ite (fun _ => ?_) fun _ => ?_
    · refine .bind (function_agrees hne hsettled hcalling.toLegal hn) fun _ w₁ h₁ => ?_
      have hc₁ : w.current + 1 ≤ w₁.current := h₁.reached
      refine (ih h₁ (Nat.zero_le _) (by omega)).mono fun _ w₂ h₂ => ?_
      exact h₂.earlier (by omega)
    · exact Agree.pure hcalling

/-- A program ends: each bound in it is the number of tokens left at its start, or more. -/
theorem program_agrees (hw : Legal ts w) (hn : ending ts < w.current + n) :
    Agree ts w program (Parse.programWithin n) fun _ => Legal ts := by
  refine .bind (Agree.expect hne hw (by simp)) fun _ w₁ h₁ => ?_
  have hc₁ := h₁.moved
  refine .bind (Agree.name hne h₁.toLegal) fun x w₂ h₂ => ?_
  have hc₂ := h₂.moved
  refine .bind (Agree.fire h₂.toAt _) fun _ w₃ h₃ => ?_
  have hc₃ := h₃.reached
  refine .bind (Agree.expect hne h₃.toLegal (by simp)) fun _ w₄ h₄ => ?_
  have hc₄ := h₄.moved
  refine .bind (declarations_agree hne h₄.toAt (by omega)) fun _ w₅ h => ?_
  have h₅ := h.mono (Nat.le_refl _) (Nat.le_refl _) fun _ => or_self_iff.mp
  have hc₅ := h₅.reached
  refine .bind (functions_agree hne hsettled h₅ (Nat.le_refl _) (by omega)) fun _ w₆ h₆ => ?_
  have hc₆ := h₆.reached
  refine .bind (Agree.expect hne h₆.toLegal (by simp)) fun _ w₇ h₇ => ?_
  have hc₇ := h₇.moved
  refine .bind (Agree.fire h₇.toAt _) fun _ w₈ h₈ => ?_
  have hc₈ := h₈.reached
  refine .bind (body_agrees hne hsettled h₈ (by simp) (by omega)) fun _ w₉ h₉ => ?_
  refine .bind (Agree.expect hne h₉.toLegal (by simp)) fun _ w₁₀ h₁₀ => ?_
  refine .bind (Agree.fire h₁₀.toAt _) fun _ w₁₁ h₁₁ => ?_
  apply Agree.atEnd hne h₁₁.toLegal
  refine Agree.ite (fun _ => ?_) fun _ => ?_
  · exact Agree.wanted hne h₁₁.toLegal _
  · exact Agree.pure h₁₁.toLegal

end

end Script

namespace Parser

open Script Walker

/-- A parser that has passed no end marker of its list comes to exactly one outcome without
any bound, and it is the one of the bounded parser. It passes no end marker on the way, and of
any two rounds of a loop, descents into a statement or descents into a factor, the later one
starts at a later token. -/
theorem run_ends {σ : Type} [EventSink σ] {ts : List Token} (hne : ts ≠ [])
    (hsettled : Settled ts) {i : Nat} (hi : ∀ t ∈ ts.take i, t.kind ≠ .endOfFile) (s : σ) :
    ∃ r w, (∀ r' w', program.Yields (start ts i s) r' w' ↔ r' = r ∧ w' = w) ∧
      run ⟨ts.drop i, (Cursor.ofTokens ts).last⟩ s = (r, w.parser) ∧
      (∀ t ∈ ts.take w.current, t.kind ≠ .endOfFile) ∧
      w.marks.Pairwise fun m m' => m.station = m'.station → m.place < m'.place := by
  have hstart : Legal ts (start ts i s) := ⟨rfl, not_passed_iff.mp hi, List.forall_mem_nil _, .nil⟩
  have hbound : ending ts < i + ((ts.drop i).length + 1) := by
    have hle := ending_le_length ts
    rw [List.length_drop]
    omega
  obtain ⟨r, w, hyields, hrun, hw⟩ := (program_agrees hne hsettled hstart hbound).outcome
  refine ⟨r, w, fun r' w' => ⟨hyields.unique, ?_⟩, hrun, not_passed_iff.mpr hw.unpassed, ?_⟩
  · rintro ⟨rfl, rfl⟩
    exact hyields
  · exact hw.paced.imp Mark.Before.place_lt

/-- The start of a program, up to a parenthesis that closes two others. -/
def unclosed : List Token :=
  ([.keyword .program, .identifier "p", .sign .semicolon, .keyword .main, .sign .leftBrace,
    .keyword .print, .sign .leftParen, .sign .leftParen, .integer 1, .sign .rightParen] :
    List Token.Kind).map fun k => ⟨k, "", .start⟩

/-- The theorem at a list without an end marker. -/
theorem run_ends_unclosed :
    (∀ t ∈ unclosed, t.kind ≠ .endOfFile) ∧ Settled unclosed ∧
      ∃ r, ∃ w : Walker (Array Event),
        (∀ r' w', program.Yields (start unclosed 0 #[]) r' w' ↔ r' = r ∧ w' = w) ∧
        run (Cursor.ofTokens unclosed) #[] = (r, w.parser) ∧
        (∀ t ∈ unclosed.take w.current, t.kind ≠ .endOfFile) ∧
        w.marks.Pairwise fun m m' => m.station = m'.station → m.place < m'.place := by
  have hsettled : Settled unclosed := by
    apply Or.inr
    simp [unclosed, Opens]
  exact ⟨by simp [unclosed], hsettled, run_ends (by simp [unclosed]) hsettled (by simp) #[]⟩

end Parser

/-! ## Lists that are not settled -/

namespace Script

open Parser Walker

/-- A script that descends into a factor as long as it finds tokens of one kind only. -/
inductive Descends (k : Token.Kind) {α : Type} : Script α → Prop where
  | call (next : Script α) : Descends k (.calls .factor next)
  | looks {next : Token → Script α} (h : ∀ t, t.kind = k → Descends k (next t)) :
    Descends k (.looks next)
  | moves {next : Script α} (h : Descends k next) : Descends k (.moves next)
  | tells {e : Event} {next : Script α} (h : Descends k next) : Descends k (.tells e next)

namespace Descends

variable {σ α : Type} [EventSink σ] {k : Token.Kind} {w w' : Walker σ}

private theorem advance {f : Unit → Script α} (hend : k ≠ .endOfFile) (h : Descends k (f ())) :
    Descends k (advance >>= f) := by
  apply Descends.looks
  intro t ht
  have hother : (t.kind == .endOfFile) = false := by
    rw [ht]
    exact beq_eq_false_iff_ne.mpr hend
  change Descends k ((if (t.kind == .endOfFile) = true then pure () else .moves (.done ())) >>= f)
  rw [hother]
  exact .moves h

/-- A factor descends into the next one at each token that calls for it. -/
theorem factor (hk : Opens k) : Descends k factor := by
  apply Descends.looks
  intro t ht
  rcases hk with rfl | rfl | rfl
  all_goals simp only [andThen, ht]
  · exact .advance (by simp) (.tells (.call _))
  · exact .advance (by simp) (.tells (.call _))
  · exact .advance (by simp) (.tells (.call _))

/-- No descent comes to an end from the last token on, if that calls for another factor. -/
theorem endless (hk : Opens k) (haccept : ∀ e (s : σ), ∃ s', EventSink.accept e s = .ok () s')
    {x : Script α} {r : Except Error α} (hx : Descends k x)
    (hlast : ∀ t, w.tokens.getLast? = some t → t.kind = k) (hw : w.tokens.length ≤ w.current + 1) :
    ¬x.Yields w r w' := by
  intro h
  induction h with
  | done | fails | looksBehind => cases hx
  | looks inside rest ih =>
    cases hx with
    | looks hnext =>
      rw [Nat.min_eq_right (by omega), ← List.getLast?_eq_getElem?] at inside
      exact ih (hnext _ (hlast _ inside)) hlast hw
  | moves rest ih =>
    cases hx with
    | moves hnext => exact ih hnext hlast (Nat.le_succ_of_le hw)
  | told taken rest ih =>
    cases hx with
    | tells hnext => exact ih hnext hlast hw
  | refused refused =>
    obtain ⟨s', hs'⟩ := haccept _ _
    cases refused.symm.trans hs'
  | called call rest ihcall ihrest =>
    cases hx with
    | call => exact ihcall (.factor hk) hlast hw
  | failed call ih =>
    cases hx with
    | call => exact ih (.factor hk) hlast hw

end Descends

/-- In a list that is not settled a factor at the last token has no outcome, unless the
sink refuses an event. -/
theorem factor_endless {σ : Type} [EventSink σ]
    (haccept : ∀ e (s : σ), ∃ s', EventSink.accept e s = .ok () s') {w w' : Walker σ}
    {r : Except Error Unit} (hopen : ¬Settled w.tokens) (hw : w.tokens.length ≤ w.current + 1) :
    ¬(call .factor).Yields w r w' := by
  intro h
  apply hopen
  apply Or.inr
  intro t ht hk
  apply Descends.endless hk haccept (.call _) ?_ hw h
  intro t' ht'
  rw [Option.some.inj (ht'.symm.trans ht)]

end Script

end Quadlet
