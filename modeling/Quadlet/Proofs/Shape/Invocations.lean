import Quadlet.Proofs.Shape.Program
import Quadlet.Proofs.Shape.Size

/-!
# Calls and their quadruples

Where the calls of a program stand in its object file, told from the tree alone: a statement has as
many quadruples as its operators, jumps and other actions say. Main statement: every quadruple that
enters a function belongs to a call of the tree, with the code of its arguments in front.
-/

namespace Quadlet

namespace Syntax

/-! ## Numbers of quadruples -/

/-- The number of quadruples of an expression: one for each operator and sign. -/
def Tree.size {r : Rank} : Tree r → Nat
  | .int _ | .float _ | .name _ => 0
  | .signed _ e => e.size + 1
  | .group e | .ofFactor e | .ofTerm e | .ofSum e => e.size
  | .product l _ _ r | .addition l _ _ r | .comparison l _ _ r => l.size + r.size + 1

/-- The number of quadruples of arguments: an argument is worked out and handed over. -/
def Tree.sizeArguments : List Expression → Nat
  | [] => 0
  | e :: es => e.size + 1 + sizeArguments es

/-- The number of quadruples of a printed item. -/
def Item.size : Item → Nat
  | .text _ => 1
  | .value e => e.size + 1

/-- The number of quadruples of printed items. -/
def Item.sizeAll : List Item → Nat
  | [] => 0
  | i :: is => i.size + sizeAll is

/-- The number of quadruples of a statement or a block. -/
def Phrase.size {r : Role} : Phrase r → Nat
  | .assign _ e => e.size + 1
  | .branch g b => g.size + 1 + b.size
  | .choice g b c => g.size + 1 + b.size + 1 + c.size
  | .loop b g => b.size + g.size + 1
  | .call _ es => 1 + Tree.sizeArguments es + 1
  | .print i is => Item.sizeAll (i :: is)
  | .nil => 0
  | .cons s rest => s.size + rest.size

/-- A call in a program. -/
structure Invocation where
  /-- What names stand for at the call. -/
  scope : Scope
  /-- The index of the first quadruple of the call. -/
  first : Nat
  callee : String
  arguments : List Expression

/-- The index of the quadruple that enters the function. -/
def Invocation.last (t : Invocation) : Nat := t.first + 1 + Tree.sizeArguments t.arguments

/-- The calls in a statement or a block whose first quadruple has the given index. -/
def Phrase.invocations {r : Role} (Γ : Scope) : Phrase r → Nat → List Invocation
  | .assign _ _, _ | .print _ _, _ | .nil, _ => []
  | .branch g b, start => b.invocations Γ (start + g.size + 1)
  | .choice g b c, start =>
    b.invocations Γ (start + g.size + 1) ++ c.invocations Γ (start + g.size + 1 + b.size + 1)
  | .loop b _, start => b.invocations Γ start
  | .call f es, start => [⟨Γ, start, f, es⟩]
  | .cons s rest, start => s.invocations Γ start ++ rest.invocations Γ (start + s.size)

/-- Functions with the indices of the first quadruples of their bodies. -/
def Function.numbered : Nat → List Function → List (Nat × Function)
  | _, [] => []
  | start, f :: fs => (start, f) :: numbered (start + f.body.size + 1) fs

/-- The index behind the bodies of functions. -/
def Function.behind : Nat → List Function → Nat
  | start, [] => start
  | start, f :: fs => behind (start + f.body.size + 1) fs

namespace Program

/-- The functions of a program with the indices of the first quadruples of their bodies. -/
def bodies (a : Program) : List (Nat × Function) := Function.numbered 1 a.functions

/-- The index of the first quadruple of the main part. -/
def mainStart (a : Program) : Nat := Function.behind 1 a.functions

/-- The calls in a program. -/
def invocations (a : Program) : List Invocation :=
  (a.bodies.flatMap fun b => b.2.body.invocations (b.2.scope a.scope) b.1) ++
    a.main.invocations a.scope a.mainStart

/-- The call that enters a function at an index. -/
def invocation? (a : Program) (i : Nat) : Option Invocation :=
  a.invocations.find? fun t => t.last == i

end Program

end Syntax

open Syntax Request Planner

/-! ## Lengths of lowered code -/

section

variable {env : Environment}

private theorem size_tree {r : Rank} (e : Tree r) {p : Planner} {a : Computed}
    (h : e.lower env p = .ok a) : a.code.length = e.size := by
  induction e generalizing p a with
  | int n | float x => rw [length_literal h, Tree.size, List.length_nil]
  | name x =>
    obtain ⟨o, -, h⟩ := Except.bind_eq_ok.mp h
    cases h
    rfl
  | group e ih | ofFactor e ih | ofTerm e ih | ofSum e ih => exact ih h
  | signed negative e ih =>
    obtain ⟨b, hb, h⟩ := Except.bind_eq_ok.mp h
    obtain ⟨c, -, h⟩ := Except.bind_eq_ok.mp h
    rw [length_operation h, ih hb, Tree.size]
  | product l op _ r ihl ihr | addition l op _ r ihl ihr | comparison l op _ r ihl ihr =>
    obtain ⟨b, hb, h⟩ := Except.bind_eq_ok.mp h
    obtain ⟨c, hc, h⟩ := Except.bind_eq_ok.mp h
    rw [length_operation h, List.length_append, ihl hb, ihr hc, Tree.size]

private theorem size_items {is : List Item} {p : Planner} {l : Laid} (h : Item.Lowers env is p l) :
    l.code.length = Item.sizeAll is := by
  induction h with
  | nil p => rfl
  | @cons i is p a l first more ih =>
    have hitem : a.code.length + 1 = i.size := by
      cases i with
      | text s => rw [length_literal first, Item.size, List.length_nil]
      | value e => rw [size_tree e first, Item.size]
    rw [List.length_append, List.length_append, List.length_singleton, hitem, ih, Item.sizeAll]

theorem size_arguments {es : List Expression} {k : Nat} {p : Planner} {l : Laid}
    {types : List ValueType} (h : Tree.LowersArguments env k es p l types) :
    l.code.length = Tree.sizeArguments es := by
  induction h with
  | nil k p => rfl
  | cons first more ih =>
    rw [Tree.sizeArguments, List.length_append, List.length_cons, ih, size_tree _ first]
    omega

/-- A statement or a block has the stated number of quadruples. -/
theorem size_phrase {r : Role} {s : Phrase r} {start : Nat} {p : Planner} {l : Laid}
    (h : s.Lowers env start p l) : l.code.length = s.size := by
  induction h with
  | assign name value type =>
    rw [List.length_append, List.length_singleton, size_tree _ value, Phrase.size]
  | branch guard bool body ih =>
    rw [List.length_append, List.length_cons, size_tree _ guard, ih, Phrase.size]
    omega
  | choice guard bool body other ihb iho =>
    simp only [List.length_append, List.length_cons, size_tree _ guard, ihb, iho, Phrase.size]
    omega
  | loop body guard bool ih =>
    simp only [List.length_append, List.length_singleton, size_tree _ guard, ih, Phrase.size]
  | call callee arguments count checked body =>
    simp only [List.length_append, List.length_cons, List.length_nil, size_arguments arguments,
      Phrase.size]
    omega
  | print items => exact size_items items
  | nil start p => rfl
  | cons first more ihfirst ihmore => rw [List.length_append, ihfirst, ihmore, Phrase.size]

end

/-! ## Code of calls -/

/-- The quadruples of a call of a routine: the frame is made, the arguments are worked out and
handed over, and the function is entered. -/
def Syntax.Invocation.Lowered (o : ObjectFile) (t : Invocation) (r : Routine) : Prop :=
  ∃ env rs p arguments types, env.Knows t.scope ∧ Served rs p ∧
    o.Supplies (rs ++ t.arguments.flatMap (Tree.requests t.scope)) ∧
    Tree.lowerArguments env 0 t.arguments p = .ok (arguments, types) ∧
    t.arguments.map (Tree.type t.scope) = r.function.types ∧
    CodeAt o.quadruples t.first
      (⟨.allocate, r.id, unused, unused⟩ :: arguments.code ++ [⟨.call, r.id, unused, r.start⟩])

theorem Syntax.Invocation.Lowered.callSite {o : ObjectFile} {t : Invocation} {r : Routine}
    (h : t.Lowered o r) : CallSite o.quadruples r t.first t.last := by
  obtain ⟨env, rs, p, arguments, types, henv, hserved, -, hlower, htypes, hcode⟩ := h
  have hlowers := Tree.lowerArguments_eq_ok.mp hlower
  obtain ⟨hstraight, hpositions⟩ := operators_arguments henv hlowers
  obtain ⟨-, hfound, -⟩ := serves_arguments henv hserved hlowers
  have hsize := size_arguments hlowers
  refine ⟨arguments.code, hcode, ?_, hstraight, ?_⟩
  · rw [Invocation.last, ← hsize]
    omega
  · rw [hpositions, hfound, htypes, Function.types, List.length_map, List.range_eq_range']

/-- Code from an index on enters functions at the calls in a list, and nowhere else. -/
structure Located (o : ObjectFile) (callable : List Routine) (Γ : Scope) (start : Nat)
    (code : List Quadruple) (ts : List Invocation) : Prop where
  scope : ∀ t ∈ ts, t.scope = Γ
  bounds : ∀ t ∈ ts, start ≤ t.first ∧ t.last < start + code.length
  lowered : ∀ t ∈ ts, ∃ r ∈ callable, r.function.name = t.callee ∧ t.Lowered o r
  found : ∀ n q, code[n]? = some q → q.op = .call → ∃ t ∈ ts, t.last = start + n

section

variable {o : ObjectFile} {callable : List Routine} {Γ : Scope} {start : Nat}
  {code more : List Quadruple} {ts us : List Invocation}

private theorem Located.append (h : Located o callable Γ start code ts)
    (h' : Located o callable Γ (start + code.length) more us) :
    Located o callable Γ start (code ++ more) (ts ++ us) := by
  refine ⟨List.forall_mem_append.mpr ⟨h.scope, h'.scope⟩, ?_,
    List.forall_mem_append.mpr ⟨h.lowered, h'.lowered⟩, fun n q hq hop => ?_⟩
  · rw [List.length_append]
    refine List.forall_mem_append.mpr ⟨fun t ht => ?_, fun t ht => ?_⟩
    · obtain ⟨hfirst, hlast⟩ := h.bounds t ht
      exact ⟨hfirst, by omega⟩
    · obtain ⟨hfirst, hlast⟩ := h'.bounds t ht
      exact ⟨by omega, by omega⟩
  · rcases Nat.lt_or_ge n code.length with hn | hn
    · rw [List.getElem?_append_left hn] at hq
      obtain ⟨t, ht, hlast⟩ := h.found n q hq hop
      exact ⟨t, List.mem_append_left _ ht, hlast⟩
    · rw [List.getElem?_append_right hn] at hq
      obtain ⟨t, ht, hlast⟩ := h'.found _ q hq hop
      exact ⟨t, List.mem_append_right _ ht, by omega⟩

/-- Code that enters no function. -/
theorem located_of_ne_call (h : ∀ q ∈ code, q.op ≠ .call) : Located o callable Γ start code [] :=
  ⟨by simp, by simp, by simp, fun _ q hq hop => absurd hop (h q (List.mem_of_getElem? hq))⟩

private theorem Opcode.ne_call_of_isOperator {op : Opcode} (h : op.isOperator = true) :
    op ≠ .call := by
  rintro rfl
  cases h

private theorem located_operators (h : ∀ q ∈ code, q.op.isOperator = true) :
    Located o callable Γ start code [] :=
  located_of_ne_call fun q hq => Opcode.ne_call_of_isOperator (h q hq)

private theorem Located.cons (h : Located o callable Γ (start + 1) more ts) {q : Quadruple}
    (hq : q.op ≠ .call) : Located o callable Γ start (q :: more) ts := by
  have hfirst : Located o callable Γ start [q] [] := by
    apply located_of_ne_call
    intro q' hq'
    rw [List.mem_singleton.mp hq']
    exact hq
  exact hfirst.append h

/-- A statement behind an expression and the quadruple that makes use of it. -/
theorem Located.behind (h : Located o callable Γ (start + code.length + 1) more ts)
    (hcode : ∀ q ∈ code, q.op.isOperator = true) {q : Quadruple} (hq : q.op ≠ .call) :
    Located o callable Γ start (code ++ q :: more) ts :=
  (located_operators hcode).append (h.cons hq)

/-- An expression and the quadruple that makes use of it enter no function. -/
theorem located_use (h : ∀ q ∈ code, q.op.isOperator = true) {q : Quadruple} (hq : q.op ≠ .call) :
    Located o callable Γ start (code ++ [q]) [] :=
  (located_of_ne_call (by simp)).behind h hq

variable {env : Environment} {rs : List Request} {p : Planner}

private theorem located_items (henv : env.Knows Γ) {is : List Item} {l : Laid}
    (h : Item.Lowers env is p l) : Located o callable Γ start l.code [] := by
  induction h generalizing start with
  | nil p => exact located_of_ne_call (by simp)
  | cons first more ih => exact (located_use (operators_item henv first) (by simp)).append ih

/-- The code of a call enters its function at its last quadruple. -/
theorem located_call (henv : env.Knows Γ) (hcalls : env.Calls callable) {f : String}
    {es : List Expression} {l : Laid} (hp : Served rs p)
    (h : (Phrase.call f es).Lowers env start p l)
    (hsupplies : o.Supplies (rs ++ (Phrase.call f es).requests Γ))
    (hcode : CodeAt o.quadruples start l.code) :
    Located o callable Γ start l.code [⟨Γ, start, f, es⟩] := by
  have hlength := size_phrase h
  cases h with
  | @call _ _ _ _ c l types entry callee arguments count checked body =>
    obtain ⟨r, hr, rfl, rfl⟩ := hcalls.find callee
    cases body
    have htypes :=
      (serves_arguments henv hp arguments).2.1.symm.trans ((checkArguments_eq_ok count).mp checked)
    rw [Phrase.size] at hlength
    refine ⟨by simp, ?_, ?_, ?_⟩
    · intro t ht
      obtain rfl := List.mem_singleton.mp ht
      rw [hlength]
      exact ⟨Nat.le_refl _, by simp only [Invocation.last]; omega⟩
    · intro t ht
      obtain rfl := List.mem_singleton.mp ht
      exact ⟨r, hr, rfl, env, rs, p, l, types, henv, hp, hsupplies,
        Tree.lowerArguments_eq_ok.mpr arguments, htypes, hcode⟩
    · intro n q hq hop
      refine ⟨_, List.mem_singleton.mpr rfl, ?_⟩
      obtain ⟨hstraight, -⟩ := operators_arguments henv arguments
      have hsize := size_arguments arguments
      rcases Nat.lt_or_ge n (l.code.length + 1) with hn | hn
      · rw [List.cons_append, List.getElem?_cons] at hq
        split at hq
        · cases hq
          cases hop
        · rw [List.getElem?_append_left (by omega)] at hq
          rcases hstraight q (List.mem_of_getElem? hq) with hinner | hinner
          · exact absurd hop (Opcode.ne_call_of_isOperator hinner)
          · rw [hinner] at hop
            cases hop
      · have hlt := (List.getElem?_eq_some_iff.mp hq).1
        simp only [Invocation.last]
        omega

/-- The code of a statement or a block enters functions at its calls, and nowhere else. -/
theorem located_phrase (henv : env.Knows Γ) (hcalls : env.Calls callable) {role : Role}
    {s : Phrase role} {l : Laid} (hp : Served rs p) (h : s.Lowers env start p l)
    (hsupplies : o.Supplies (rs ++ s.requests Γ)) (hcode : CodeAt o.quadruples start l.code) :
    Located o callable Γ start l.code (s.invocations Γ start) := by
  induction h generalizing rs with
  | assign name value type => exact located_use (operators_tree henv _ value).2 (by simp)
  | branch guard bool body ih =>
    rw [Phrase.requests, ← List.append_assoc] at hsupplies
    have hbody := ih (computes henv _ hp guard).served hsupplies hcode.right.tail
    rw [Phrase.invocations, ← size_tree _ guard]
    exact hbody.behind (operators_tree henv _ guard).2 (by simp)
  | choice guard bool body other ihb iho =>
    have hserved := (computes henv _ hp guard).served
    rw [Phrase.requests, ← List.append_assoc, ← List.append_assoc] at hsupplies
    dsimp only at hcode ⊢
    rw [List.append_assoc, List.cons_append] at hcode ⊢
    have hbody := ihb hserved hsupplies.of_append hcode.right.tail.left
    have hother :=
      iho (serves henv hcalls hserved body).2.served hsupplies hcode.right.tail.right.tail
    rw [Phrase.invocations, ← size_tree _ guard, ← size_phrase body]
    exact (hbody.append (hother.cons (by simp))).behind (operators_tree henv _ guard).2 (by simp)
  | loop body guard bool ih =>
    rw [Phrase.requests, ← List.append_assoc] at hsupplies
    have hbody := ih hp hsupplies.of_append hcode.left.left
    dsimp only
    rw [List.append_assoc, ← List.append_nil (Phrase.invocations ..)]
    exact hbody.append (located_use (operators_tree henv _ guard).2 (by simp))
  | call callee arguments count checked body =>
    exact located_call henv hcalls hp (.call callee arguments count checked body) hsupplies hcode
  | print items => exact located_items henv items
  | nil start p => exact located_of_ne_call (by simp)
  | cons first more ihfirst ihmore =>
    rw [Phrase.requests, ← List.append_assoc] at hsupplies
    have hfirst := ihfirst hp hsupplies.of_append hcode.left
    have hsecond := ihmore (serves henv hcalls hp first).2.served hsupplies hcode.right
    rw [Phrase.invocations, ← size_phrase first]
    exact hfirst.append hsecond

end

/-! ## Programs -/

/-- Bodies one behind the other have the indices that their sizes say. -/
theorem Routine.Consecutive.numbered {lo hi : Nat} {routines : List Routine}
    (h : Consecutive lo routines hi)
    (hsize : ∀ r ∈ routines, r.past = r.start + r.function.body.size + 1) :
    Function.numbered lo (routines.map Routine.function) =
      routines.map (fun r => (r.start, r.function)) ∧
      hi = Function.behind lo (routines.map Routine.function) := by
  induction h with
  | nil n => exact ⟨rfl, rfl⟩
  | @cons r rs n hlt rest ih =>
    obtain ⟨hnumbered, hhi⟩ := ih fun s hs => hsize s (List.mem_cons_of_mem _ hs)
    have hpast := hsize r (List.mem_cons_self ..)
    rw [List.map_cons, List.map_cons, Function.numbered, Function.behind, ← hpast]
    exact ⟨congrArg _ hnumbered, hhi⟩

/-- What names stand for in a part of a program. -/
def Syntax.Program.scopeOf (a : Program) : Option Routine → Scope
  | none => a.scope
  | some r => r.function.scope a.scope

/-- A part of the code enters functions at the calls of its statements. -/
theorem Embedded.located {o : ObjectFile} {routines callable : List Routine} {Γ : Scope}
    {role : Role} {s : Phrase role} {start : Nat} {env : Environment} {rs : List Request}
    {p : Planner} {l : Laid} (h : Embedded o routines Γ s start env callable rs p l) :
    Located o routines Γ start l.code (s.invocations Γ start) := by
  have hlocated := located_phrase h.knows h.calls h.served h.lowers h.supplies h.codeAt
  refine ⟨hlocated.scope, hlocated.bounds, fun t ht => ?_, hlocated.found⟩
  obtain ⟨r, hr, hlowered⟩ := hlocated.lowered t ht
  exact ⟨r, h.subset hr, hlowered⟩

namespace Linked

variable {a : Program} {o : ObjectFile} {routines : List Routine}

/-- The body of a routine enters functions at its calls. -/
theorem located_body (h : Linked a o routines) {r : Routine} (hr : r ∈ routines) :
    ∃ code, CodeAt o.quadruples r.start (code ++ [⟨.leave, unused, unused, unused⟩]) ∧
      r.past = r.start + code.length + 1 ∧ code.length = r.function.body.size ∧
      Located o routines (r.function.scope a.scope) r.start code
        (r.function.body.invocations (r.function.scope a.scope) r.start) := by
  obtain ⟨env, callable, rs, p, body, hbody, hcode, hpast⟩ := h.embedded_body hr
  exact ⟨body.code, hcode, hpast, size_phrase hbody.lowers, hbody.located⟩

private theorem past_eq (h : Linked a o routines) {r : Routine} (hr : r ∈ routines) :
    r.past = r.start + r.function.body.size + 1 := by
  obtain ⟨code, -, hpast, hsize, -⟩ := h.located_body hr
  rw [hpast, hsize]

/-- The main part enters functions at its calls. -/
theorem located_main (h : Linked a o routines) :
    ∃ code, CodeAt o.quadruples a.mainStart code ∧ o.quadruples.size = a.mainStart + code.length ∧
      o.quadruples[0]? = some ⟨.goto, unused, unused, (a.mainStart : Nat)⟩ ∧
      Routine.Consecutive 1 routines a.mainStart ∧
      Located o routines a.scope a.mainStart code (a.main.invocations a.scope a.mainStart) := by
  obtain ⟨start, env, rs, p, main, hmain, hentry, hsize, hconsecutive⟩ := h.embedded_main
  obtain rfl : start = a.mainStart := by
    rw [(hconsecutive.numbered fun r hr => h.past_eq hr).2, h.functions]
    rfl
  exact ⟨main.code, hmain.codeAt, hsize, hentry, hconsecutive, hmain.located⟩

/-- The indices of the bodies are those that the tree says. -/
theorem bodies_eq (h : Linked a o routines) :
    a.bodies = routines.map fun r => (r.start, r.function) := by
  obtain ⟨-, -, -, -, hconsecutive, -⟩ := h.located_main
  rw [Program.bodies, ← h.functions]
  exact (hconsecutive.numbered fun r hr => h.past_eq hr).1

/-- A call of the tree is a call of a routine, in a part of the object file. -/
theorem lowered (h : Linked a o routines) {t : Invocation} (ht : t ∈ a.invocations) :
    ∃ part, InPart routines a.mainStart o.quadruples.size part t.first ∧ t.scope = a.scopeOf part ∧
      ∃ r ∈ routines, r.function.name = t.callee ∧ t.Lowered o r := by
  rw [Program.invocations, h.bodies_eq] at ht
  rcases List.mem_append.mp ht with ht | ht
  · obtain ⟨b, hb, ht⟩ := List.mem_flatMap.mp ht
    obtain ⟨r, hr, rfl⟩ := List.mem_map.mp hb
    obtain ⟨code, -, hpast, -, hlocated⟩ := h.located_body hr
    obtain ⟨hfirst, hlast⟩ := hlocated.bounds t ht
    have hle : t.first ≤ t.last := by
      rw [Invocation.last]
      omega
    exact ⟨some r, .body hr hfirst (by omega), hlocated.scope t ht, hlocated.lowered t ht⟩
  · obtain ⟨code, -, hsize, -, -, hlocated⟩ := h.located_main
    obtain ⟨hfirst, hlast⟩ := hlocated.bounds t ht
    have hle : t.first ≤ t.last := by
      rw [Invocation.last]
      omega
    exact ⟨none, .main hfirst (by omega), hlocated.scope t ht, hlocated.lowered t ht⟩

/-- Every quadruple that enters a function belongs to a call of the tree. -/
theorem exists_invocation (h : Linked a o routines) {i : Nat} {q : Quadruple}
    (hq : o.quadruples[i]? = some q) (hop : q.op = .call) : ∃ t ∈ a.invocations, t.last = i := by
  obtain ⟨main, hmain, hsize, hentry, hconsecutive, hlocated⟩ := h.located_main
  have hlt := (Array.getElem?_eq_some_iff.mp hq).1
  have hpos : 0 < i := by
    apply Nat.pos_of_ne_zero
    rintro rfl
    obtain rfl := Option.some.inj (hq.symm.trans hentry)
    cases hop
  rw [Program.invocations, h.bodies_eq]
  rcases Nat.lt_or_ge i a.mainStart with hi | hi
  · obtain ⟨r, hr, hstart, hpast⟩ := hconsecutive.exists_mem hpos hi
    obtain ⟨code, hcode, hpast', -, hbody⟩ := h.located_body hr
    obtain ⟨n, rfl⟩ := Nat.exists_eq_add_of_le hstart
    rw [hcode.getElem? (by rw [List.length_append, List.length_singleton]; omega)] at hq
    rcases Nat.lt_or_ge n code.length with hn | hn
    · rw [List.getElem?_append_left hn] at hq
      obtain ⟨t, ht, hlast⟩ := hbody.found n q hq hop
      exact ⟨t, List.mem_append_left _ (List.mem_flatMap.mpr ⟨_, List.mem_map_of_mem hr, ht⟩),
        hlast⟩
    · obtain rfl : n = code.length := by omega
      rw [List.getElem?_append_right (Nat.le_refl _), Nat.sub_self] at hq
      cases hq
      cases hop
  · obtain ⟨n, rfl⟩ := Nat.exists_eq_add_of_le hi
    rw [hmain.getElem? (by omega)] at hq
    obtain ⟨t, ht, hlast⟩ := hlocated.found n q hq hop
    exact ⟨t, List.mem_append_right _ ht, hlast⟩

/-- The call of a quadruple that enters a function is found in the tree. -/
theorem find?_invocation (h : Linked a o routines) {i : Nat} {q : Quadruple}
    (hq : o.quadruples[i]? = some q) (hop : q.op = .call) :
    ∃ t, a.invocation? i = some t ∧ t ∈ a.invocations ∧ i = t.last := by
  obtain ⟨u, hu, hlast⟩ := h.exists_invocation hq hop
  have hsome : (a.invocation? i).isSome = true := by
    rw [Program.invocation?, List.find?_isSome]
    exact ⟨u, hu, by simp [hlast]⟩
  obtain ⟨t, ht⟩ := Option.isSome_iff_exists.mp hsome
  have hfound := List.find?_some ht
  exact ⟨t, ht, List.mem_of_find?_eq_some ht, (beq_iff_eq.mp hfound).symm⟩

end Linked

end Quadlet
