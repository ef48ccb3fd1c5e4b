import Quadlet.Proofs.Draft.Soundness
import Quadlet.Proofs.Static.Formulas

/-!
# Expressions are lowered in postorder

The code of an expression is a walk through its formula, operands before their operator,
with one quadruple for each operator and sign and a temporary of its own for each result.
Main statement: this is what the events of an expression do to a draft, behind whatever
events the draft was sent before.
-/

namespace Quadlet

open Syntax Request Planner

/-! ## Postorder -/

/-- Code of a formula in postorder, and the operand that it leaves. Literals stand among the
constants, and a sign multiplies by the literal that it stands for. -/
inductive Postorder (env : Environment) (constants : Array Constant) :
    Formula → List Quadruple → Operand → Prop where
  | int {n : Int64} {a : Address} (known : ⟨a, .int n⟩ ∈ constants) :
    Postorder env constants (.int n) [] ⟨a, .int⟩
  | float {x : Float} {a : Address} (known : ⟨a, .float x⟩ ∈ constants) :
    Postorder env constants (.float x) [] ⟨a, .float⟩
  | name {x : String} {o : Operand} (known : env.operand x = .ok o) :
    Postorder env constants (.name x) [] o
  | signed {negative : Bool} {E : Formula} {code : List Quadruple} {o : Operand} {sign a : Address}
    {type : ValueType} {i : Nat} (inner : Postorder env constants E code o)
    (known : ⟨sign, .int (if negative then -1 else 1)⟩ ∈ constants)
    (typed : Typing.result? .mul o.type .int = some type)
    (placed : Segment.locate? a = some (⟨.temporary, type⟩, i)) :
    Postorder env constants (.signed negative E) (code ++ [⟨.mul, o.address, sign, a⟩]) ⟨a, type⟩
  | binary {op : Operator} {L R : Formula} {code code' : List Quadruple} {l r : Operand}
    {a : Address} {type : ValueType} {i : Nat} (left : Postorder env constants L code l)
    (right : Postorder env constants R code' r)
      (typed : Typing.result? op l.type r.type = some type)
    (placed : Segment.locate? a = some (⟨.temporary, type⟩, i)) :
    Postorder env constants (.binary op L R)
      (code ++ code' ++ [⟨op.opcode, l.address, r.address, a⟩]) ⟨a, type⟩

/-- More constants do no harm. -/
theorem Postorder.mono {env : Environment} {constants constants' : Array Constant} {E : Formula}
    {code : List Quadruple} {o : Operand} (h : Postorder env constants E code o)
    (hsub : ∀ c ∈ constants, c ∈ constants') : Postorder env constants' E code o := by
  induction h with
  | int known => exact .int (hsub _ known)
  | float known => exact .float (hsub _ known)
  | name known => exact .name known
  | signed inner known typed placed ih => exact .signed ih (hsub _ known) typed placed
  | binary left right typed placed ihl ihr => exact .binary ihl ihr typed placed

/-- The types of the variables that names stand for. -/
def Environment.type? (env : Environment) : String → Option ValueType :=
  fun x => (env.operand x).toOption.map Operand.type

/-- The operand that is left has the type of the formula. -/
theorem Postorder.type_eq {env : Environment} {constants : Array Constant} {E : Formula}
    {code : List Quadruple} {o : Operand} (h : Postorder env constants E code o) :
    E.type? env.type? = some o.type := by
  induction h with
  | int known | float known => rfl
  | name known =>
    rw [Formula.type?, Environment.type?, known]
    rfl
  | signed inner known typed placed ih =>
    rw [Formula.type?, ih]
    exact typed
  | binary left right typed placed ihl ihr =>
    rw [Formula.type?, ihl, ihr]
    exact typed

namespace Planner

variable {p p₁ p₂ : Planner} {as bs : List Address} {rs ss : List Request}

/-- Temporaries that are handed out on the way from one planner to another, none of them twice. -/
structure Handed (p p₁ : Planner) (as : List Address) : Prop where
  distinct : as.Nodup
  between : ∀ a ∈ as, ∃ τ i, Segment.locate? a = some (⟨.temporary, τ⟩, i) ∧
    p.count ⟨.temporary, τ⟩ ≤ i ∧ i < p₁.count ⟨.temporary, τ⟩

private theorem handed_nil (p p₁ : Planner) : Handed p p₁ [] := ⟨List.nodup_nil, by simp⟩

/-- What is handed out later stands behind what was handed out before. -/
theorem Handed.append (h : Handed p p₁ as) (h' : Handed p₁ p₂ bs) (hp : Advances p p₁)
    (hp₁ : Advances p₁ p₂) : Handed p p₂ (as ++ bs) := by
  refine ⟨List.nodup_append.mpr ⟨h.distinct, h'.distinct, fun a ha b hb hab => ?_⟩, fun a ha => ?_⟩
  · subst hab
    obtain ⟨τ, i, hi, -, hlt⟩ := h.between a ha
    obtain ⟨τ', i', hi', hle, -⟩ := h'.between a hb
    cases hi.symm.trans hi'
    omega
  · rcases List.mem_append.mp ha with ha | ha
    · obtain ⟨τ, i, hi, hle, hlt⟩ := h.between a ha
      exact ⟨τ, i, hi, hle, Nat.lt_of_lt_of_le hlt (hp₁.count_le _)⟩
    · obtain ⟨τ, i, hi, hle, hlt⟩ := h'.between a ha
      exact ⟨τ, i, hi, Nat.le_trans (hp.count_le _) hle, hlt⟩

/-- A planner forgets no constant. -/
theorem Served.mem_constants (h : Served rs p) (h' : Served (rs ++ ss) p₁) {c : Constant}
    (hc : c ∈ p.constants) : c ∈ p₁.constants := by
  rw [← Array.mem_toList_iff] at hc ⊢
  rw [h.constants] at hc
  rw [h'.constants, literals_append, List.eraseDups_append, Constant.number_append]
  exact List.mem_append_left _ hc

end Planner

section

variable {rs : List Request} {p : Planner}

/-- An operator reads its operands and writes the next temporary. -/
theorem handed_operation {op : Operator} {left right : Operand} {code : List Quadruple}
    {a : Computed} (hp : Served rs p) (h : p.operation op left right code = .ok a) :
    ∃ b τ i, Typing.result? op left.type right.type = some τ ∧
      Segment.locate? b = some (⟨.temporary, τ⟩, i) ∧ Handed p a.planner [b] ∧
      a.code = code ++ [⟨op.opcode, left.address, right.address, b⟩] ∧ a.operand = ⟨b, τ⟩ := by
  obtain ⟨τ, b, p', hτ, hb, rfl⟩ := operation_eq_ok.mp h
  obtain ⟨-, i, hi, hcount⟩ := hp.assign hb
  obtain ⟨rfl, hlt⟩ := hcount (.inr rfl)
  refine ⟨b, τ, _, hτ, hi, ⟨List.nodup_singleton b, fun c hc => ?_⟩, rfl, rfl⟩
  rw [List.mem_singleton.mp hc]
  exact ⟨τ, _, hi, Nat.le_refl _, hlt⟩

/-- Two operands are handed their temporaries before their operator. -/
theorem handed_binary {op : Operator} {a b c : Computed} {ss ss' : List Request}
    (ha : Handed p a.planner (a.code.map Quadruple.result))
    (hb : Handed a.planner b.planner (b.code.map Quadruple.result)) (hp : Served rs p)
    (hsa : Served (rs ++ ss) a.planner) (hsb : Served (rs ++ ss ++ ss') b.planner)
    {env : Environment} {L R : Formula} (hL : Postorder env a.planner.constants L a.code a.operand)
    (hR : Postorder env b.planner.constants R b.code b.operand) {ts : List Request}
    (hsc : Served (rs ++ ss ++ ss' ++ ts) c.planner)
    (h : b.planner.operation op a.operand b.operand (a.code ++ b.code) = .ok c) :
    Postorder env c.planner.constants (.binary op L R) c.code c.operand ∧
      Handed p c.planner (c.code.map Quadruple.result) := by
  obtain ⟨d, τ, i, hτ, hi, hd, hcode, hoperand⟩ := handed_operation hsb h
  rw [hcode, hoperand]
  constructor
  · have hbc {k : Constant} (hk : k ∈ b.planner.constants) : k ∈ c.planner.constants :=
      hsb.mem_constants hsc hk
    refine .binary (hL.mono fun k hk => ?_) (hR.mono fun k hk => hbc hk) hτ hi
    exact hbc (hsa.mem_constants hsb hk)
  · rw [List.map_append, List.map_append]
    have hab := ha.append hb (hp.advances hsa) (hsa.advances hsb)
    exact hab.append hd ((hp.advances hsa).trans (hsa.advances hsb)) (hsb.advances hsc)

/-- The code of an expression is in postorder, and its results are new temporaries. -/
theorem postorder_of_lower {r : Rank} {Γ : Scope} {env : Environment} (henv : env.Knows Γ)
    (e : Tree r) {a : Computed} (hp : Served rs p) (h : e.lower env p = .ok a) :
    Postorder env a.planner.constants e.formula a.code a.operand ∧
      Handed p a.planner (a.code.map Quadruple.result) := by
  induction e generalizing rs p a with
  | int n =>
    obtain ⟨htype, -, -, hcode, hmem⟩ := served_literal hp h
    obtain ⟨code, ⟨b, type⟩, p'⟩ := a
    cases htype
    cases hcode
    exact ⟨.int hmem, handed_nil p p'⟩
  | float x =>
    obtain ⟨htype, -, -, hcode, hmem⟩ := served_literal hp h
    obtain ⟨code, ⟨b, type⟩, p'⟩ := a
    cases htype
    cases hcode
    exact ⟨.float hmem, handed_nil p p'⟩
  | name x =>
    obtain ⟨o, ho, h⟩ := Except.bind_eq_ok.mp h
    cases h
    exact ⟨.name ho, handed_nil p p⟩
  | group e ih | ofFactor e ih | ofTerm e ih | ofSum e ih => exact ih hp h
  | signed negative e ih =>
    have hserved := (computes henv (.signed negative e) hp h).served
    obtain ⟨b, hb, h⟩ := Except.bind_eq_ok.mp h
    obtain ⟨c, hc, h⟩ := Except.bind_eq_ok.mp h
    obtain ⟨hpost, hhanded⟩ := ih hp hb
    have hsb := (computes henv e hp hb).served
    obtain ⟨htype, hsc, -, -, hmem⟩ := served_literal hsb hc
    obtain ⟨d, τ, i, hτ, hi, hd, hcode, hoperand⟩ := handed_operation hsc h
    rw [Tree.requests, ← List.singleton_append, ← List.append_assoc, ← List.append_assoc] at hserved
    have hsign : ⟨c.operand.address, .int (if negative then -1 else 1)⟩ ∈ a.planner.constants :=
      hsc.mem_constants hserved hmem
    rw [htype] at hτ
    rw [hcode, hoperand]
    constructor
    · refine .signed (hpost.mono fun k hk => ?_) hsign hτ hi
      exact hsc.mem_constants hserved (hsb.mem_constants hsc hk)
    · rw [List.map_append]
      have hd' : Handed b.planner a.planner [d] := by
        simpa using (handed_nil b.planner c.planner).append hd (hsb.advances hsc)
          (hsc.advances hserved)
      exact hhanded.append hd' (hp.advances hsb) ((hsb.advances hsc).trans (hsc.advances hserved))
  | product l op hop r ihl ihr | addition l op hop r ihl ihr | comparison l op hop r ihl ihr =>
    have hserved := (computes henv _ hp h).served
    obtain ⟨b, hb, h⟩ := Except.bind_eq_ok.mp h
    obtain ⟨c, hc, h⟩ := Except.bind_eq_ok.mp h
    have hsb := (computes henv l hp hb).served
    have hsc := (computes henv r hsb hc).served
    obtain ⟨hL, hhl⟩ := ihl hp hb
    obtain ⟨hR, hhr⟩ := ihr hsb hc
    rw [Tree.requests, ← List.append_assoc, ← List.append_assoc] at hserved
    exact handed_binary hhl hhr hp hsb hsc hL hR hserved h

end

/-! ## Drafts -/

private theorem Segment.base?_layout :
    ∀ n : Fin layout.length, layout[n].base? = some ((size * (n.val + 1) : Nat) : Int) := by
  decide

/-- An address is found at the base of its segment plus its place. -/
theorem Segment.eq_of_locate? {a : Address} {s : Segment} {i : Nat} (h : locate? a = some (s, i)) :
    a = s.base?.getD 0 + i := by
  rw [locate?] at h
  split at h
  · cases h
  · next hle =>
    obtain ⟨s', hget, heq⟩ := Option.map_eq_some_iff.mp h
    cases heq
    obtain ⟨n, rfl⟩ := Int.eq_ofNat_of_zero_le (Int.le_trans (by decide) (Int.not_lt.mp hle))
    have hn : 1000 ≤ n := Int.ofNat_le.mp (Int.not_lt.mp hle)
    rw [Int.toNat_natCast] at hget ⊢
    obtain ⟨hlt, hs⟩ := List.getElem?_eq_some_iff.mp hget
    have hplace : size * (n / size - 1 + 1) + n % size = n := by
      simp only [size]
      omega
    have hbase := base?_layout ⟨_, hlt⟩
    rw [show layout[(⟨_, hlt⟩ : Fin layout.length)] = s from hs] at hbase
    rw [hbase, Option.getD_some]
    exact_mod_cast hplace.symm

namespace Draft

variable {t : Draft}

/-- What the names of a sound draft stand for. -/
theorem Sound.exists_scope (h : t.Sound) : ∃ Γ : Scope, t.environment.Knows Γ := by
  have hname (x : String) :
      ∃ v? : Option Variable, (∀ v, v? = some v → t.environment.operand x = .ok v.operand) ∧
        (v? = none → ∀ o, t.environment.operand x ≠ .ok o) := by
    cases ho : t.environment.operand x with
    | error e => exact ⟨none, by simp, by simp⟩
    | ok o =>
      obtain ⟨τ, l, i, hτ, -, hi⟩ := Directory.exists_of_operand h.names ho
      refine ⟨some ⟨x, l, τ, i⟩, ?_, by simp⟩
      rintro _ ⟨⟩
      rw [hτ] at hi
      rw [Variable.operand, Variable.address, Variable.segment, ← Segment.eq_of_locate? hi, ← hτ]
  obtain ⟨Γ, hΓ⟩ := Classical.axiomOfChoice hname
  exact ⟨Γ, fun hv => (hΓ _).1 _ hv, fun hnone => (hΓ _).2 hnone _⟩

end Draft

/-- The types of an environment are those of its scope. -/
theorem Environment.Knows.type?_eq {env : Environment} {Γ : Scope} (h : env.Knows Γ) :
    env.type? = Γ.type? := by
  funext x
  rw [Environment.type?, Scope.type?]
  cases hx : Γ x with
  | some v =>
    rw [h.some hx]
    rfl
  | none =>
    cases ho : env.operand x with
    | error e => rfl
    | ok o => exact absurd ho (h.none hx)

/-- No segment runs out of cells for a formula: there is room for its results, and for its literals
that are not among the constants. -/
structure Planner.Room (p : Planner) (types : String → Option ValueType) (E : Formula) : Prop where
  results : ∀ τ, p.count ⟨.temporary, τ⟩ + (E.results types).count τ ≤ Segment.size
  literals : ∀ τ, p.count ⟨.constant, τ⟩ +
    ((E.literals.removeAll (p.constants.toList.map Constant.literal)).eraseDups.countP
      fun l => l.type = τ) ≤
      Segment.size

/-- Where there is room for a formula, the requests of an expression with that formula fit. -/
theorem Planner.Room.fits {rs : List Request} {p : Planner} {Γ : Scope} {e : Expression}
    (hp : Served rs p) (hresolves : e.Resolves Γ) (h : p.Room Γ.type? e.formula) :
    Fits (rs ++ e.requests Γ) := by
  have hnew : e.formula.literals.removeAll (p.constants.toList.map Constant.literal) =
      e.formula.literals.removeAll (Request.literals rs) := by
    rw [hp.constants, Constant.map_literal_number, List.removeAll, List.removeAll]
    simp
  intro s
  rw [demand_append, Tree.literals_requests, Tree.count_requests hresolves, ← hp.count, ← hnew]
  obtain ⟨l, τ⟩ := s
  cases l with
  | temporary => simpa using h.results τ
  | constant =>
    have hroom := h.literals τ
    simpa [eq_comm] using hroom
  | global =>
    have hle := hp.fits ⟨.global, τ⟩
    simpa [← hp.count] using hle
  | call =>
    have hle := hp.fits ⟨.call, τ⟩
    simpa [← hp.count] using hle

namespace Draft

/-- Addresses that a draft has not used: temporaries that were not handed out, that no operator in
the code writes and that no operand is waiting in. -/
structure Fresh (t : Draft) (as : List Address) : Prop where
  distinct : as.Nodup
  temporary : ∀ a ∈ as, ∃ τ i, Segment.locate? a = some (⟨.temporary, τ⟩, i) ∧
    t.planner.count ⟨.temporary, τ⟩ ≤ i
  unwritten : ∀ a ∈ as, ∀ q ∈ t.code.quads, q.op.isOperator = true → q.result ≠ a
  unread : ∀ a ∈ as, ∀ o ∈ t.operands, o.address ≠ a

/-- A sound draft has not used what its planner hands out next. -/
theorem Sound.fresh {t : Draft} (h : t.Sound) {p : Planner} {as : List Address}
    (has : Handed t.planner p as) : t.Fresh as := by
  have hnew {a : Address} (ha : a ∈ as) : ¬t.planner.Owns a := by
    obtain ⟨τ, i, hi, hle, -⟩ := has.between a ha
    exact fun howns => Nat.not_lt.mpr hle (howns τ i hi)
  refine ⟨has.distinct, fun a ha => ?_, ?_, ?_⟩
  · obtain ⟨τ, i, hi, hle, -⟩ := has.between a ha
    exact ⟨τ, i, hi, hle⟩
  · rintro _ ha q hq hop rfl
    exact hnew ha (h.results q hq hop)
  · rintro _ ha o ho rfl
    exact hnew ha (h.operands o ho)

/-- The operand that an expression leaves has a cell in a segment of its type. -/
theorem Sound.locate?_operand {t : Draft} (h : t.Sound) {rs : List Request} {p : Planner}
    (hp : Served rs p) {E : Formula} {code : List Quadruple} {o : Operand}
    (ho : Postorder t.environment p.constants E code o) :
    ∃ l i, Segment.locate? o.address = some (⟨l, o.type⟩, i) := by
  cases ho with
  | int known | float known =>
    obtain ⟨i, hi, -⟩ := locate?_constant hp known
    exact ⟨.constant, i, hi⟩
  | name known =>
    obtain ⟨-, l, i, -, -, hi⟩ := Directory.exists_of_operand h.names known
    exact ⟨l, i, hi⟩
  | signed _ _ _ placed => exact ⟨.temporary, _, placed⟩
  | binary _ _ _ placed => exact ⟨.temporary, _, placed⟩

private theorem forM_of_take {t t' : Draft} {es : List Event} (h : t.take es = .ok t') :
    es.forM Drafting.handle t = .ok () t' := by
  rw [take, Drafting.settle] at h
  cases hes : es.forM Drafting.handle t with
  | ok u s =>
    rw [hes] at h
    cases h
    rfl
  | error e s =>
    rw [hes] at h
    cases h

/-- The events of an expression behind any history, in a program in progress in which no binary
operator waits for the expression as its operand: if names stand for variables and there is room,
the events succeed. They add code in postorder with new temporaries, and an operand of the
expression's type in a cell of that type; all else is as before. The formula in question is the one
that the tokens of the expression denote by the binding powers of operators. -/
theorem expression_postorder (history : List Event) {t : Draft} (ht : empty.passAll history = t)
    (hrunning : t.Running) (htop : ∀ op, t.operators.head? ≠ some (.binary op)) (e : Expression)
    (hnames : ∀ x ∈ e.formula.names, ∃ o, t.environment.operand x = .ok o)
    (hroom : t.planner.Room t.environment.type? e.formula) :
    (∃ (code : List Quadruple) (o : Operand) (p : Planner),
      e.events.forM Drafting.handle t = .ok ()
        { t with planner := p, code := t.code.append code, operands := o :: t.operands } ∧
      Kept t.planner p ∧ (∀ c ∈ t.planner.constants, c ∈ p.constants) ∧
      Postorder t.environment p.constants e.formula code o ∧ t.Fresh (code.map Quadruple.result) ∧
      e.formula.type? t.environment.type? = some o.type ∧
      ∃ l i, Segment.locate? o.address = some (⟨l, o.type⟩, i)) ∧
    ∀ E, Denotes 0 e.tokens E ↔ E = e.formula := by
  refine ⟨?_, denotes_tokens_iff e⟩
  subst ht
  have hsound := sound_passAll history
  generalize empty.passAll history = t at *
  obtain ⟨Γ, hΓ⟩ := hsound.exists_scope
  obtain ⟨rs, hserved⟩ := hsound.served
  have hresolves : e.Resolves Γ := by
    intro x hx
    rw [← Tree.names_formula] at hx
    obtain ⟨o, ho⟩ := hnames x hx
    cases hv : Γ x with
    | none => exact absurd ho (hΓ.none hv)
    | some v => rfl
  rw [hΓ.type?_eq] at hroom
  obtain ⟨a, ha⟩ := lowerable hΓ e hserved hresolves (hroom.fits hserved hresolves)
  have hcomputes := computes hΓ e hserved ha
  obtain ⟨hpost, hhanded⟩ := postorder_of_lower hΓ e hserved ha
  have hquiet : t.Quiet .whole := fun op hop => absurd hop (htop op)
  have htake : t.take e.events = .ok (t.push a) := by
    rw [lowers e t hrunning hquiet, ha]
    rfl
  exact ⟨a.code, a.operand, a.planner, forM_of_take htake, hcomputes.kept,
    fun c hc => hserved.mem_constants hcomputes.served hc, hpost, hsound.fresh hhanded,
    hpost.type_eq, hsound.locate?_operand hcomputes.served hpost⟩

/-- The theorem at `-x * (2 + 3) < 4` behind the start of an assignment to the variable `x`. -/
theorem expression_postorder_comparison :
    let t := empty.passAll
      [.programStart "p", .varName "x", .varType .float, .mainStart, .assignTarget "x",
        .assignOperator]
    let e : Expression :=
      .comparison (.ofTerm (.product (.ofFactor (.signed true (.name "x"))) .mul rfl
      (.group (.ofSum (.addition (.ofTerm (.ofFactor (.int 2))) .add rfl (.ofFactor (.int 3)))))))
      .lt rfl (.ofTerm (.ofFactor (.int 4)))
    t.operators = [.assign] ∧ (∃ (code : List Quadruple) (o : Operand) (p : Planner),
      e.events.forM Drafting.handle t = .ok ()
        { t with planner := p, code := t.code.append code, operands := o :: t.operands } ∧
      Postorder t.environment p.constants e.formula code o ∧ t.Fresh (code.map Quadruple.result) ∧
      o.type = .bool) := by
  intro t e
  have hprogram : t.directory.program = some (.ofProgram "p") := rfl
  have hrunning : t.Running := ⟨rfl, by simp [hprogram]⟩
  have hx : t.environment.operand "x" = .ok ⟨3000, .float⟩ := rfl
  have hroom : t.planner.Room t.environment.type? e.formula := by
    constructor
    · intro τ
      cases τ <;> decide
    · intro τ
      cases τ <;> decide
  have hnames : ∀ x ∈ e.formula.names, ∃ o, t.environment.operand x = .ok o :=
    List.forall_mem_singleton.mpr ⟨_, hx⟩
  obtain ⟨⟨code, o, p, htake, -, -, hpost, hfresh, htype, -⟩, -⟩ :=
    expression_postorder _ rfl hrunning (by rintro op ⟨⟩) e hnames hroom
  exact ⟨rfl, code, o, p, htake, hpost, hfresh, Option.some.inj (htype.symm.trans rfl)⟩

end Draft

end Quadlet
