import Quadlet.Proofs.Semantics.Calls

/-!
# Code of statements

The code of a statement does what the interpreter does, if the code of the routines does. Main
statement: this holds of every statement and every block, wherever its code stands.
-/

namespace Quadlet

open Syntax Request Planner

section

variable (a b t : Address)

private theorem consumes_assign : Quadruple.Consumes ⟨.assign, a, b, t⟩ a := by
  intro ω printer m out e h
  rw [Machine.step_assign, Memory.copy, h]
  rfl

private theorem consumes_print : Quadruple.Consumes ⟨.print, a, b, t⟩ a := by
  intro ω printer m out e h
  exact Machine.step_print_error m out b t h

private theorem consumes_gotoFalse : Quadruple.Consumes ⟨.gotoFalse, a, b, t⟩ a := by
  intro ω printer m out e h
  exact Machine.step_gotoFalse_error m out b t h

private theorem consumes_gotoTrue : Quadruple.Consumes ⟨.gotoTrue, a, b, t⟩ a := by
  intro ω printer m out e h
  exact Machine.step_gotoTrue_error m out b t h

end

namespace Session

variable {ω : Type} {S : Session ω} {stack : List Routine} {waiting : List Frame} {w : World}
  {returns : List Nat} {ip n : Nat} {c : Config ω} {rs : List Request} {p : Planner} {Γ : Scope}
  {env : Environment}

/-- What is known behind the code of a statement. -/
abbrev Done (S : Session ω) (stack : List Routine) (returns : List Nat) (ip : Nat)
    (_ : Unit) (w : World) (c : Config ω) : Prop :=
  S.Stands stack [] w returns ip c

/-! ## Jumps -/

/-- A jump goes elsewhere and changes nothing. -/
theorem Stands.goto (hc : S.Stands stack waiting w returns ip c) {a b : Address} {t : Nat}
    (hq : S.object.quadruples[ip]? = some ⟨.goto, a, b, t⟩) : S.Goes 1 c (c.move c.memory t) := by
  rw [← hc.ip] at hq
  exact Config.goes_step hq fun steps => Machine.step_goto ..

/-- A jump that is taken unless a value is true. -/
theorem Stands.gotoFalse (hc : S.Stands stack waiting w returns ip c) {a b : Address}
    {t : Nat} {x : Value} (hq : S.object.quadruples[ip]? = some ⟨.gotoFalse, a, b, t⟩)
    (hx : c.memory.read a = .ok x) :
    S.Goes 1 c (c.move c.memory (if x.truthy then ip + 1 else t)) := by
  rw [← hc.ip] at hq ⊢
  exact Config.goes_step hq fun steps => Machine.step_gotoFalse_ok (c.machine _ steps) c.out b t hx

/-- A jump that is taken if a value is true. -/
theorem Stands.gotoTrue (hc : S.Stands stack waiting w returns ip c) {a b : Address}
    {t : Nat} {x : Value} (hq : S.object.quadruples[ip]? = some ⟨.gotoTrue, a, b, t⟩)
    (hx : c.memory.read a = .ok x) :
    S.Goes 1 c (c.move c.memory (if x.truthy then t else ip + 1)) := by
  rw [← hc.ip] at hq ⊢
  exact Config.goes_step hq fun steps => Machine.step_gotoTrue_ok (c.machine _ steps) c.out b t hx

/-! ## Printing -/

/-- A printed line is delivered. -/
theorem Stands.print (hc : S.Stands stack waiting w returns ip c) {a b d : Address} {x : Value}
    (hq : S.object.quadruples[ip]? = some ⟨.print, a, b, d⟩) (hx : c.memory.read a = .ok x) :
    ∃ c', S.Goes 1 c c' ∧ S.Stands stack waiting (w.print x.text) returns (ip + 1) c' := by
  rw [← hc.ip] at hq
  refine ⟨⟨c.memory, c.returns, c.ip + 1, S.write "\n" (S.write x.text c.out)⟩,
    Config.goes_step hq fun steps => Machine.step_print_ok (c.machine _ steps) c.out S.write b d hx,
    hc.mirrors.print x.text, ?_, hc.returns, by rw [hc.ip]⟩
  rw [World.print, delivered_append, hc.out]

/-- The code of a printed item does what the interpreter does. -/
theorem simulates_item (henv : env.Knows Γ) (hΓ : ∀ {x v}, Γ x = some v → Placed S.object stack v)
    {i : Item} {a : Computed} (hp : Served rs p) (ha : i.computed env p = .ok a)
    (hsupplies : S.object.Supplies (rs ++ i.requests Γ)) {code : List Quadruple}
    (hcode : CodeAt S.object.quadruples ip
      (a.code ++ ⟨.print, a.operand.address, unused, unused⟩ :: code))
    (hc : S.Stands stack [] w returns ip c) :
    S.Simulates n c (S.Done stack returns (ip + a.code.length + 1)) (i.exec Γ w) := by
  have hvalue : S.Simulates n c (S.Ready stack [] w returns (ip + a.code.length) a.operand)
      (Action.ask (i.content Γ) w) := by
    cases i with
    | text s =>
      obtain ⟨hempty, hevaluated⟩ := evaluated_literal hp ha hsupplies hc.mirrors
      have hyields : Yields (.total S.write) S.object c 0 _ _ := .ok hevaluated
      rw [hempty] at hcode ⊢
      exact hc.ask hyields hcode.head (consumes_print _ _ _) rfl
    | value e => exact hc.value henv hΓ hp ha hsupplies hcode (consumes_print _ _ _)
  apply hvalue.bind
  rintro x w' d ⟨rfl, hstands, hread, -⟩
  obtain ⟨d', hgoes, hstands'⟩ := hstands.print hcode.right.head hread
  exact Simulates.behind hgoes (.ok hstands')

/-- The code of printed items does what the interpreter does. -/
theorem simulates_items (henv : env.Knows Γ) (hΓ : ∀ {x v}, Γ x = some v → Placed S.object stack v)
    {is : List Item} {l : Laid} (hp : Served rs p) (hl : Item.Lowers env is p l)
    (hsupplies : S.object.Supplies (rs ++ is.flatMap (Item.requests Γ)))
    (hcode : CodeAt S.object.quadruples ip l.code) (hc : S.Stands stack [] w returns ip c) :
    S.Simulates n c (S.Done stack returns (ip + l.code.length)) (is.forM (Item.exec Γ) w) := by
  induction hl generalizing rs ip c w with
  | nil p => exact .ok hc
  | cons first more ih =>
    rw [List.flatMap_cons, ← List.append_assoc] at hsupplies
    rw [List.append_assoc, List.singleton_append] at hcode
    apply (simulates_item henv hΓ hp first hsupplies.of_append hcode hc).bind
    intro _ w' d hd
    have hrest := ih (serves_item henv hp first).2.served hsupplies hcode.right.tail hd
    simpa [Nat.add_assoc, Nat.add_comm 1] using hrest

/-! ## Statements -/

/-- The code of a routine does what the interpreter does when it runs the function: it starts at a
call quadruple with a frame that waits, and goes on behind it. -/
structure Callable (S : Session ω) (n : Nat) (call : String → List Value → Action Unit)
    (r : Routine) : Prop where
  frame : S.object.memory.lastFrame? r.id = some r.frame
  simulates : ∀ {stack : List Routine} {f : Frame} {s : Slots} {xs : List Value} {w : World}
    {returns : List Nat} {ip : Nat} {c : Config ω}, S.Stands stack [f] w returns ip c →
    S.object.quadruples[ip]? = some ⟨.call, r.id, unused, r.start⟩ →
    Slots.empty.fill r.function.locals xs = .ok s → Holds r s f →
    S.Simulates n c (S.Done stack returns (ip + 1)) (call r.function.name xs w)

variable {call : String → List Value → Action Unit}

/-- The code of a loop does what the interpreter does, if the code of one turn leads in front of a
step that goes back to the start or on to the exit. Each turn takes a step, so a loop that is cut
off has taken as many steps as turns. -/
theorem simulates_loop {turn : Action Bool} {exit : Nat} (hip : ip < S.object.quadruples.size)
    (hturn : ∀ {w c}, S.Stands stack [] w returns ip c → S.Simulates n c
      (fun again w d =>
        ∃ e, S.Goes 1 d e ∧ S.Stands stack [] w returns (if again then ip else exit) e)
      (turn w))
    {j : Nat} (hj : j ≤ n) (hc : S.Stands stack [] w returns ip c) :
    S.Simulates j c (S.Done stack returns exit) (Action.repeatWhile turn j w) := by
  induction j generalizing w c with
  | zero => exact ⟨0, c, Nat.le_refl 0, .refl c, hc.ip ▸ hip, hc.out⟩
  | succ j ih =>
    apply ((hturn hc).mono hj).bind
    rintro again w' d ⟨e, hgoes, hstands⟩
    cases again with
    | false => exact Simulates.behind hgoes (.ok hstands)
    | true =>
      have hrest := (ih (Nat.le_of_succ_le hj) hstands).after hgoes
      rw [Nat.add_comm] at hrest
      exact hrest

/-- The code of an assignment does what the interpreter does. -/
theorem simulates_assign (henv : env.Knows Γ) (hΓ : ∀ {x v}, Γ x = some v → Placed S.object stack v)
    {x : String} {e : Expression} {target : Operand} {a : Computed} (hp : Served rs p)
    (htarget : env.operand x = .ok target) (ha : e.lower env p = .ok a)
    (hsupplies : S.object.Supplies (rs ++ e.requests Γ))
    (hcode : CodeAt S.object.quadruples ip
      (a.code ++ [⟨.assign, a.operand.address, unused, target.address⟩]))
    (hc : S.Stands stack [] w returns ip c) :
    S.Simulates n c (S.Done stack returns (ip + a.code.length + 1))
      ((Phrase.assign x e).exec n call Γ w) := by
  obtain ⟨v, hx, rfl⟩ := henv.find htarget
  rw [Phrase.exec, hx]
  apply (hc.value henv hΓ hp ha hsupplies hcode (consumes_assign _ _ _)).bind
  rintro y w' d ⟨rfl, hstands, hread, htype⟩
  have hoperable : Typing.isOperable y.type = true := by
    rw [htype]
    exact (computes henv e hp ha).operable
  obtain ⟨w', m, hw', hm, hmirrors, hlines⟩ := hstands.mirrors.write (hΓ hx) hoperable
  have hgoes := hstands.changed hcode.right.head (Memory.copy a.operand.address v.address)
    (fun m out => Machine.step_assign m out ..) (by rw [Memory.copy, hread]; exact hm)
  apply Simulates.behind hgoes
  rw [Action.change, hw']
  exact .ok (hstands.move hmirrors hlines _)

/-- The code of a call does what the interpreter does: a frame is set up, filled with the
arguments and entered. -/
theorem simulates_call {callable : List Routine} (henv : env.Knows Γ) (hcalls : env.Calls callable)
    (hΓ : ∀ {x v}, Γ x = some v → Placed S.object stack v)
    (hcallable : ∀ r ∈ callable, S.Callable n call r) {f : String} {es : List Expression}
    {g : Callee} {l : Laid} {types : List ValueType} {entry : Nat} (hp : Served rs p)
    (hg : env.callee f = .ok g) (hl : Tree.LowersArguments env 0 es p l types)
    (hcount : types.length = g.parameters.length)
    (hchecked : checkArguments f 1 g.parameters types = .ok ()) (hbody : g.start = some entry)
    (hsupplies : S.object.Supplies (rs ++ es.flatMap (Tree.requests Γ)))
    (hcode : CodeAt S.object.quadruples ip
      (⟨.allocate, g.id, unused, unused⟩ :: (l.code ++ [⟨.call, g.id, unused, entry⟩])))
    (hc : S.Stands stack [] w returns ip c) :
    S.Simulates n c (S.Done stack returns (ip + 1 + l.code.length + 1))
      ((Phrase.call f es).exec n call Γ w) := by
  obtain ⟨r, hr, rfl, rfl⟩ := hcalls.find hg
  cases hbody
  have hr := hcallable r hr
  have htypes : es.map (Tree.type Γ) = r.function.parameters.map fun x => x.type.type :=
    (serves_arguments henv hp hl).2.1.symm.trans ((checkArguments_eq_ok hcount).mp hchecked)
  obtain ⟨m, hm, hmirrors⟩ := hc.mirrors.allocate hr.frame
  apply Simulates.behind (hc.changed hcode.head (fun m => m.allocate r.id)
    (fun m out => Machine.step_allocate m out ..) hm)
  apply (simulates_arguments henv hΓ hp hl hsupplies hcode.tail.left rfl htypes (filled_ofSize r)
    (hc.move hmirrors rfl _)).bind
  rintro xs w' d ⟨rfl, t, f, hfill, hholds, hstands⟩
  exact hr.simulates hstands hcode.tail.right.head hfill hholds

/-- The code of a statement or block does what the interpreter does. -/
theorem simulates_phrase {role : Role} {callable : List Routine} (henv : env.Knows Γ)
    (hcalls : env.Calls callable) (hΓ : ∀ {x v}, Γ x = some v → Placed S.object stack v)
    (hcallable : ∀ r ∈ callable, S.Callable n call r) {s : Phrase role} {l : Laid}
    (hp : Served rs p) (hl : s.Lowers env ip p l)
    (hsupplies : S.object.Supplies (rs ++ s.requests Γ))
    (hcode : CodeAt S.object.quadruples ip l.code) (hc : S.Stands stack [] w returns ip c) :
    S.Simulates n c (S.Done stack returns (ip + l.code.length)) (s.exec n call Γ w) := by
  induction hl generalizing rs c w with
  | assign name value type =>
    rw [List.length_append]
    exact simulates_assign henv hΓ hp name value hsupplies hcode hc
  | @branch g b ip p a l guard bool body ih =>
    rw [Phrase.requests, ← List.append_assoc] at hsupplies
    have hexit : ip + (a.code ++ ⟨.gotoFalse, a.operand.address, unused,
        (ip + a.code.length + 1 + l.code.length : Nat)⟩ :: l.code).length =
          ip + a.code.length + 1 + l.code.length := by
      rw [List.length_append, List.length_cons]
      omega
    rw [hexit]
    apply (hc.value henv hΓ hp guard hsupplies.of_append hcode (consumes_gotoFalse _ _ _)).bind
    rintro x w' d ⟨rfl, hstands, hread, -⟩
    apply Simulates.behind (hstands.gotoFalse hcode.right.head hread)
    cases x.truthy with
    | true =>
      exact ih (computes henv g hp guard).served hsupplies hcode.right.tail
        (hstands.move hstands.mirrors rfl _)
    | false => exact .ok (hstands.move hstands.mirrors rfl _)
  | @choice g b c ip p a l m guard bool body other ihb ihc =>
    rw [Phrase.requests, ← List.append_assoc, ← List.append_assoc] at hsupplies
    have hexit : ip + (a.code ++ ⟨.gotoFalse, a.operand.address, unused,
        (ip + a.code.length + 1 + l.code.length + 1 : Nat)⟩ :: l.code ++ ⟨.goto, unused, unused,
        (ip + a.code.length + 1 + l.code.length + 1 + m.code.length : Nat)⟩ :: m.code).length =
          ip + a.code.length + 1 + l.code.length + 1 + m.code.length := by
      simp only [List.length_append, List.length_cons]
      omega
    rw [hexit]
    rw [List.append_assoc, List.cons_append] at hcode
    have hguard := computes henv g hp guard
    apply (hc.value henv hΓ hp guard hsupplies.of_append.of_append hcode
      (consumes_gotoFalse _ _ _)).bind
    rintro x w' d ⟨rfl, hstands, hread, -⟩
    apply Simulates.behind (hstands.gotoFalse hcode.right.head hread)
    cases x.truthy with
    | true =>
      have hthen := ihb hguard.served hsupplies.of_append hcode.right.tail.left
        (hstands.move hstands.mirrors rfl _)
      -- The interpreter is done here; the machine still has to jump over the other branch.
      apply hthen.finish
      intro _ w' d hd
      exact ⟨1, _, hd.goto hcode.right.tail.right.head, hd.move hd.mirrors rfl _⟩
    | false =>
      exact ihc (serves henv hcalls hguard.served body).2.served hsupplies
        hcode.right.tail.right.tail (hstands.move hstands.mirrors rfl _)
  | @loop b g ip p l a body guard bool ih =>
    rw [Phrase.requests, ← List.append_assoc] at hsupplies
    rw [List.append_assoc] at hcode
    have hexit : ip + (l.code ++ a.code ++
        [(⟨.gotoTrue, a.operand.address, unused, ip⟩ : Quadruple)]).length =
          ip + l.code.length + a.code.length + 1 := by
      simp only [List.length_append, List.length_singleton]
      omega
    rw [hexit]
    have hip : ip < S.object.quadruples.size := by
      rw [← List.append_assoc] at hcode
      exact hcode.lt_size
    refine simulates_loop hip (fun {w c} hc => ?_) (Nat.le_refl n) hc
    apply (ih hp hsupplies.of_append hcode.left hc).bind
    intro _ w' d hd
    have hserved := (serves henv hcalls hp body).2.served
    apply (hd.value henv hΓ hserved guard hsupplies hcode.right (consumes_gotoTrue _ _ _)).bind
    rintro x w' e ⟨rfl, hstands, hread, -⟩
    apply Simulates.ok
    exact ⟨_, hstands.gotoTrue hcode.right.right.head hread, hstands.move hstands.mirrors rfl _⟩
  | @call f es ip p g l types entry callee arguments count checked body =>
    have hexit : ip + (⟨.allocate, g.id, unused, unused⟩ :: l.code ++
        [(⟨.call, g.id, unused, entry⟩ : Quadruple)]).length = ip + 1 + l.code.length + 1 := by
      simp only [List.length_append, List.length_cons, List.length_nil]
      omega
    rw [hexit]
    rw [List.cons_append] at hcode
    exact simulates_call henv hcalls hΓ hcallable hp callee arguments count checked body
      hsupplies hcode hc
  | print items => exact simulates_items henv hΓ hp items hsupplies hcode hc
  | nil ip p => exact .ok hc
  | cons first more ihfirst ihmore =>
    rw [Phrase.requests, ← List.append_assoc] at hsupplies
    apply (ihfirst hp hsupplies.of_append hcode.left hc).bind
    intro _ w' d hd
    rw [List.length_append, ← Nat.add_assoc]
    exact ihmore (serves henv hcalls hp first).2.served hsupplies hcode.right hd

end Session

end Quadlet
