import Quadlet.Proofs.Machine.Integrity
import Quadlet.Proofs.Semantics.Safety

/-!
# Programs without loops stop

A program without loops in which no function calls itself has nothing to go on with forever: a
function can only call those before it. Main statement: a machine stops with every such program
within a number of steps that depends on the program alone.
-/

namespace Quadlet

namespace Syntax

/-! ## What repeats -/

namespace Phrase

/-- Whether a loop stands in a statement or block. -/
def hasLoop {r : Role} : Phrase r → Bool
  | .assign _ _ | .call _ _ | .print _ _ | .nil => false
  | .branch _ b => b.hasLoop
  | .choice _ b c => b.hasLoop || c.hasLoop
  | .loop _ _ => true
  | .cons s rest => s.hasLoop || rest.hasLoop

/-- The functions that a statement or block calls. -/
def callees {r : Role} : Phrase r → List String
  | .assign _ _ | .print _ _ | .nil => []
  | .branch _ b => b.callees
  | .choice _ b c => b.callees ++ c.callees
  | .loop b _ => b.callees
  | .call f _ => [f]
  | .cons s rest => s.callees ++ rest.callees

/-- What follows the rules calls only what may be called. -/
theorem WellTyped.callees {r : Role} {Γ : Scope} {callable : List Function} {p : Phrase r}
    (h : p.WellTyped Γ callable) {x : String} (hx : x ∈ p.callees) :
    ∃ f ∈ callable, f.name = x := by
  induction p with
  | assign | print | nil => cases hx
  | branch g b ih => exact ih h.2.2 hx
  | choice g b c ihb ihc =>
    rcases List.mem_append.mp hx with hx | hx
    · exact ihb h.2.2.1 hx
    · exact ihc h.2.2.2 hx
  | loop b g ih => exact ih h.1 hx
  | call f es =>
    obtain rfl := List.mem_singleton.mp hx
    obtain ⟨g, hg, hname, -⟩ := h.1
    exact ⟨g, hg, hname⟩
  | cons s rest ihs ihrest =>
    rcases List.mem_append.mp hx with hx | hx
    · exact ihs h.1 hx
    · exact ihrest h.2 hx

end Phrase

/-- Nothing in a program repeats itself: there is no loop, and no function calls itself. -/
structure Program.Unrepeating (a : Program) : Prop where
  main : a.main.hasLoop = false
  bodies : ∀ f ∈ a.functions, f.body.hasLoop = false
  calls : ∀ f ∈ a.functions, f.name ∉ f.body.callees

/-! ## Walks that are not cut off -/

namespace Action

variable {α β : Type}

/-- No bound cuts an action off. -/
def Uncut (x : Action α) : Prop := ∀ w w', x w ≠ .error .cut w'

private theorem uncut_pure (a : α) : Uncut (pure a) := by
  intro w w' h
  cases h

private theorem uncut_failed (e : Error) : Uncut (throw (.failed e) : Action α) := by
  intro w w' h
  cases h

private theorem uncut_modify (f : World → World) : Uncut (modify f) := by
  intro w w' h
  cases h

theorem uncut_ask (f : World → Except Error α) : Uncut (ask f) := by
  intro w w' h
  rw [ask] at h
  split at h <;> cases h

private theorem uncut_change (f : World → Except Error World) : Uncut (change f) := by
  intro w w' h
  rw [change] at h
  split at h <;> cases h

private theorem Uncut.bind {x : Action α} {f : α → Action β} (hx : Uncut x)
    (hf : ∀ a, Uncut (f a)) : Uncut (x >>= f) := by
  intro w w' h
  rcases EStateM.bind_eq_error.mp h with h | ⟨a, t, -, h⟩
  · exact hx w w' h
  · exact hf a t w' h

theorem uncut_mapM {f : α → Action β} (hf : ∀ a, Uncut (f a)) (as : List α) :
    Uncut (as.mapM f) := by
  induction as with
  | nil => exact uncut_pure []
  | cons a as ih =>
    rw [List.mapM_cons]
    exact (hf a).bind fun b => ih.bind fun bs => uncut_pure (b :: bs)

private theorem uncut_forM {f : α → Action Unit} (hf : ∀ a, Uncut (f a)) (as : List α) :
    Uncut (as.forM f) := by
  induction as with
  | nil => exact uncut_pure ()
  | cons a as ih => exact (hf a).bind fun _ => ih

end Action

open Action

private theorem Item.uncut_exec (Γ : Scope) (i : Item) : Uncut (i.exec Γ) :=
  (uncut_ask _).bind fun _ => uncut_modify _

/-- Without loops, a walk is cut off in a call only. -/
theorem Phrase.uncut_exec {r : Role} {p : Phrase r} (hp : p.hasLoop = false) (n : Nat)
    {call : String → List Value → Action Unit} (hcall : ∀ f ∈ p.callees, ∀ xs, Uncut (call f xs))
    (Γ : Scope) : Uncut (p.exec n call Γ) := by
  induction p with
  | assign x e =>
    rw [exec]
    split
    · exact (uncut_ask _).bind fun y => uncut_change _
    · exact uncut_failed _
  | branch g b ih =>
    refine (uncut_ask _).bind fun y => ?_
    split
    · exact ih hp hcall
    · exact uncut_pure ()
  | choice g b c ihb ihc =>
    obtain ⟨hb, hc⟩ := Bool.or_eq_false_iff.mp hp
    refine (uncut_ask _).bind fun y => ?_
    split
    · exact ihb hb fun f hf => hcall f (List.mem_append_left _ hf)
    · exact ihc hc fun f hf => hcall f (List.mem_append_right _ hf)
  | loop b g => cases hp
  | call f es =>
    refine (uncut_mapM (fun e => uncut_ask _) es).bind fun xs => ?_
    exact hcall f (List.mem_singleton_self f) xs
  | print i is => exact uncut_forM (Item.uncut_exec Γ) (i :: is)
  | nil => exact uncut_pure ()
  | cons s rest ihs ihrest =>
    obtain ⟨hs, hrest⟩ := Bool.or_eq_false_iff.mp hp
    refine (ihs hs fun f hf => hcall f (List.mem_append_left _ hf)).bind fun _ => ?_
    exact ihrest hrest fun f hf => hcall f (List.mem_append_right _ hf)

namespace Program

variable {a : Program}

/-- A function that only calls functions whose runs end has a run that ends, one call deeper. -/
theorem Unrepeating.uncut_call (h : a.Unrepeating) (hnodup : (a.functions.map Function.name).Nodup)
    {f : Function} (hf : f ∈ a.functions) {n : Nat}
    (hcalls : ∀ x ∈ f.body.callees, ∀ xs, Uncut (a.call n x xs)) (xs : List Value) :
    Uncut (a.call (n + 1) f.name xs) := by
  rw [call, find?_of_nodup Function.name hnodup hf]
  refine (uncut_change _).bind fun _ => Uncut.bind ?_ fun _ => uncut_modify _
  exact Phrase.uncut_exec (h.bodies f hf) n hcalls _

/-- A chain of calls goes from a function to one before it, so it is no longer than
the list of functions. -/
theorem Unrepeating.uncut_functions (h : a.Unrepeating)
    (hnodup : (a.functions.map Function.name).Nodup) {outer : Scope} {before fs : List Function}
    (hfs : Function.AllWellTyped outer before fs) (hall : a.functions = before ++ fs)
    (hbefore : ∀ f ∈ before, ∀ n, before.length ≤ n → ∀ xs, Uncut (a.call n f.name xs)) :
    ∀ f ∈ a.functions, ∀ n, a.functions.length ≤ n → ∀ xs, Uncut (a.call n f.name xs) := by
  induction fs generalizing before with
  | nil =>
    rw [hall, List.append_nil]
    exact hbefore
  | cons f fs ih =>
    obtain ⟨hbody, hrest⟩ := hfs
    have hf : f ∈ a.functions := by simp [hall]
    refine ih hrest (by simp [hall]) fun g hg n hn xs => ?_
    rw [List.length_append, List.length_singleton] at hn
    rcases List.mem_append.mp hg with hg | hg
    · exact hbefore g hg n (by omega) xs
    · obtain rfl := List.mem_singleton.mp hg
      obtain ⟨k, rfl⟩ := Nat.exists_eq_add_of_le' hn
      refine h.uncut_call hnodup hf (fun x hx ys => ?_) xs
      -- the function that is called is another one, so it stands before this one
      obtain ⟨g', hg', rfl⟩ := hbody.callees hx
      rcases List.mem_append.mp hg' with hg' | hg'
      · exact hbefore g' hg' _ (Nat.le_add_left _ _) ys
      · obtain rfl := List.mem_singleton.mp hg'
        exact absurd hx (h.calls g' hf)

/-- A program that makes sense and in which nothing repeats itself ends. -/
theorem Unrepeating.run_ne_running (h : a.Unrepeating) (ha : a.WellFormed) :
    (a.run a.functions.length).1 ≠ .running := by
  have hnodup : (a.functions.map Function.name).Nodup :=
    (List.nodup_append.mp ha.globals_distinct).2.1
  have hcall := h.uncut_functions hnodup ha.functions rfl fun f hf => by cases hf
  have hmain : Uncut (a.main.exec a.functions.length (a.call a.functions.length) a.scope) := by
    refine Phrase.uncut_exec h.main _ (fun x hx xs => ?_) _
    obtain ⟨f, hf, rfl⟩ := ha.main.callees hx
    exact hcall f hf _ (Nat.le_refl _) xs
  rw [run]
  split
  · simp
  · simp
  · next w hcut => exact absurd hcut (hmain _ w)

end Program

end Syntax

open Syntax

/-! ## Steps that can be made -/

/-- A number of transitions can be made, and then there is still a quadruple to carry out. -/
inductive Core.Far (program : Array Quadruple) : Nat → Core → Prop where
  | here {c : Core} {q : Quadruple} (hq : program[c.ip]? = some q) : Far program 0 c
  | onward {c d : Core} {q : Quadruple} {k : Nat} (hq : program[c.ip]? = some q)
    (hd : c.advance q = .ok d) (h : Far program k d) : Far program (k + 1) c

namespace Machine

variable {ω : Type} {m : Machine}

/-- A run that is cut off has made its steps. -/
theorem far_of_running {printer : Printer ω} {fuel : Nat} {out : ω}
    (h : (run printer fuel m out).1 = .running) : m.core.Far m.program fuel := by
  have hruns := runs printer fuel m out
  generalize run printer fuel m out = r at h hruns
  induction hruns with
  | halted | limit | failed | refused => cases h
  | running hq => exact .here hq
  | moved hq _ hc _ ih => exact .onward hq hc (ih h)

/-- A machine that may go on has not made as many steps as the limit allows. -/
theorem lt_of_not_exhausted {n : Nat} (hlimit : m.limit = some n) (h : m.exhausted = none) :
    m.steps < n := by
  rw [exhausted, hlimit, Option.filter_some] at h
  simpa using h

/-- A run that reaches the limit has made as many steps as the limit allows. -/
theorem far_of_limit {map : MemoryMap} (hm : m.Intact map) {printer : Printer ω}
    {fuel n : Nat} {out : ω} (h : (run printer fuel m out).1 = .failed (.limit n)) :
    m.limit = some n ∧ m.core.Far m.program (n - m.steps) := by
  have hruns := runs printer fuel m out
  generalize run printer fuel m out = r at h hruns
  induction hruns with
  | halted | running | refused => cases h
  | limit hq hlimit =>
    cases h
    obtain ⟨hlimit, hle⟩ := Option.filter_eq_some_iff.mp hlimit
    rw [Nat.sub_eq_zero_of_le (of_decide_eq_true hle)]
    exact ⟨hlimit, .here hq⟩
  | @moved _ m _ _ _ c _ hq hopen hc _ ih =>
    obtain ⟨hlimit, hfar⟩ := ih (hm.stand hc) h
    refine ⟨hlimit, ?_⟩
    have hlt : m.steps < n := lt_of_not_exhausted hlimit hopen
    have hsteps : n - m.steps = n - (m.steps + 1) + 1 := by omega
    rw [hsteps]
    exact .onward hq hc hfar
  | @failed _ m _ _ q e hq he =>
    cases h
    exact absurd rfl ((Core.ordinary_advance hm.framed q _ he).1 n)

/-- A machine without a limit makes the steps that can be made, if the printer takes everything. -/
theorem running_of_far (hlimit : m.limit = none) {k : Nat} (h : m.core.Far m.program k)
    (write : String → ω → ω) (out : ω) : (run (.total write) k m out).1 = .running := by
  generalize hprogram : m.program = program at h
  generalize hcore : m.core = c at h
  induction h generalizing m out with
  | here hq =>
    subst hcore hprogram
    change m.program[m.ip]? = _ at hq
    rw [run, hq, exhausted, hlimit]
    rfl
  | @onward c d q k hq hd h ih =>
    subst hcore hprogram
    obtain ⟨out', hstep⟩ := step_of_advance hd write out
    rw [run_of_step hlimit hq hstep]
    exact ih (m := m.stand d) hlimit out' rfl rfl

/-- What a machine without a limit shows in the end, it shows before so many steps can be made. -/
theorem Shows.not_far {k : Nat} {outcome : Outcome} {lines : List String}
    (h : m.Shows k outcome lines) (hlimit : m.limit = none) (hended : outcome ≠ .running) {j : Nat}
    (hj : k ≤ j) : ¬m.core.Far m.program j := by
  intro hfar
  obtain ⟨i, rfl⟩ := Nat.exists_eq_add_of_le hj
  obtain ⟨m', hshows⟩ := h.ended hended i
  have hrunning := running_of_far hlimit hfar (fun _ u => u) ()
  rw [hshows] at hrunning
  exact hended hrunning

end Machine

/-! ## Source texts -/

/-- A source text that is compiled, and in which nothing repeats itself, has a number of
steps within which every run ends, whatever the printer; a limit of at least as many
steps is never reached. -/
theorem compile_stops {source : String} {strict : Bool} {c : Compilation} {a : Program}
    (h : compile source strict = .ok c) (htree : a.IsTreeOf source strict) (ha : a.Unrepeating) :
    ∃ enough : Nat, ∀ limit : Option Nat, (∀ n ∈ limit, enough ≤ n) →
      ∃ m, Machine.load c.object limit = .ok m ∧
        ∀ {ω : Type} (printer : Printer ω) (fuel : Nat) (out : ω),
          (enough ≤ fuel → (Machine.run printer fuel m out).1 ≠ .running) ∧
            ∀ n, (Machine.run printer fuel m out).1 ≠ .failed (.limit n) := by
  obtain ⟨b, hb, hlower⟩ := lower_of_compile h
  obtain rfl := htree.unique hb
  obtain ⟨routines, hlinked⟩ := linked_of_lower hlower
  have hended := ha.run_ne_running (wellFormed_of_lower hlower)
  obtain ⟨memory, hload, hmirrors⟩ := hlinked.supplies.load
  obtain ⟨⟨enough, -, hshows⟩, -⟩ := hlinked.shows hmirrors a.functions.length
  have hnear {j : Nat} (hj : enough ≤ j) : ¬Core.Far c.object.quadruples j ⟨memory, [], 0⟩ :=
    hshows.not_far rfl hended hj
  refine ⟨enough, fun limit hlimit => ?_⟩
  have hmachine : Machine.load c.object limit = .ok ⟨c.object.quadruples, memory, [],
      0, 0, limit⟩ := by
    rw [Machine.load, hload]
    rfl
  refine ⟨_, hmachine, fun printer fuel out => ⟨?_, ?_⟩⟩
  · intro hfuel hrunning
    exact hnear hfuel (Machine.far_of_running hrunning)
  · intro n hfailed
    obtain ⟨hn, hfar⟩ := Machine.far_of_limit (Machine.intact_load hmachine) hfailed
    exact hnear (hlimit n hn) hfar

/-- The kinds of the tokens of a source text. -/
def Scanner.kinds? (source : String) (strict : Bool) : Option (List Token.Kind) :=
  match Scanner.scan (.ofSource source strict) with
  | .ok tokens _ => some (tokens.map Token.kind)
  | .error _ _ => none

private theorem isTreeOf_of_kinds? {a : Program} {source : String} {strict : Bool}
    (h : Scanner.kinds? source strict = some (a.tokens ++ [.endOfFile])) :
    a.IsTreeOf source strict := by
  rw [Scanner.kinds?] at h
  split at h
  · next tokens scanner hscan => exact ⟨tokens, scanner, hscan, Option.some.inj h⟩
  · cases h

/-- Two functions, the second of which calls the first one twice, and in the
end a division by zero. -/
def relay : String :=
  "program p; void f(n : int) [ \x7b if (n > 0) \x7b print(n); \x7d " ++
  "else \x7b print(1 / n); \x7d; \x7d ]; " ++
  "void g(n : int) [ \x7b f(n); f(n - 1); \x7d ]; main \x7b g(2); g(1); \x7d end"

/-- The tree of the source text. -/
def relayTree : Program where
  name := "p"
  declarations := []
  functions := [
    ⟨false, "f", [⟨"n", .int⟩], [],
      .cons (.choice (.comparison (.ofTerm (.ofFactor (.name "n"))) .gt rfl
        (.ofTerm (.ofFactor (.int 0))))
        (.cons (.print (.value (.ofSum (.ofTerm (.ofFactor (.name "n"))))) []) .nil)
        (.cons (.print (.value (.ofSum (.ofTerm (.product (.ofFactor (.int 1)) .div rfl
          (.name "n"))))) []) .nil))
        .nil⟩,
    ⟨false, "g", [⟨"n", .int⟩], [],
      .cons (.call "f" [.ofSum (.ofTerm (.ofFactor (.name "n")))])
        (.cons (.call "f" [.ofSum (.addition (.ofTerm (.ofFactor (.name "n"))) .sub rfl
          (.ofFactor (.int 1)))]) .nil)⟩]
  main := .cons (.call "g" [.ofSum (.ofTerm (.ofFactor (.int 2)))])
    (.cons (.call "g" [.ofSum (.ofTerm (.ofFactor (.int 1)))]) .nil)

private theorem relayTree_isTreeOf : relayTree.IsTreeOf relay true :=
  isTreeOf_of_kinds? (by decide +kernel)

private theorem relayTree_unrepeating : relayTree.Unrepeating := ⟨by decide, by decide, by decide⟩

private theorem relay_compiles : ∃ c, compile relay true = .ok c :=
  Except.exists_ok_of_isOk (by decide +kernel)

theorem compile_stops_relay : ∃ c, compile relay true = .ok c ∧ relayTree.IsTreeOf relay true ∧
    relayTree.Unrepeating ∧ ∃ enough : Nat, ∀ limit : Option Nat, (∀ n ∈ limit, enough ≤ n) →
      ∃ m, Machine.load c.object limit = .ok m ∧
        ∀ {ω : Type} (printer : Printer ω) (fuel : Nat) (out : ω),
          (enough ≤ fuel → (Machine.run printer fuel m out).1 ≠ .running) ∧
            ∀ n, (Machine.run printer fuel m out).1 ≠ .failed (.limit n) := by
  obtain ⟨c, hc⟩ := relay_compiles
  exact ⟨c, hc, relayTree_isTreeOf, relayTree_unrepeating,
    compile_stops hc relayTree_isTreeOf relayTree_unrepeating⟩

end Quadlet
