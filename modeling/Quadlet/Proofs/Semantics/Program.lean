import Quadlet.Proofs.Lowering.Source
import Quadlet.Proofs.Machine.Printing
import Quadlet.Proofs.Semantics.Linking
import Quadlet.Proofs.Semantics.Loading

/-!
# Compiled programs mean what their trees mean

A machine that runs the object file of a program prints the lines that the interpreter prints and
ends as the interpreter ends. Main statement: this holds of every source text that is compiled.
-/

namespace Quadlet

open Syntax

/-! ## Whole programs -/

/-- The code of a program does what the interpreter does, from a memory on that shows the start. -/
theorem Session.simulates_main {ω : Type} {S : Session ω} {a : Program} {routines : List Routine}
    (h : Linked a S.object routines) {m : Memory} (hm : Mirrors S.object [] [] .start m) (n : Nat) :
    S.Simulates n ⟨m, [], 0, S.out⟩ (S.Done [] [] S.object.quadruples.size)
      (a.main.exec n (a.call n) a.scope .start) := by
  obtain ⟨start, env, rs, p, main, hembedded, hentry, hsize, -⟩ := h.embedded_main
  have hstart : S.Stands [] [] .start [] 0 ⟨m, [], 0, S.out⟩ := ⟨hm, rfl, rfl, rfl⟩
  rw [hsize]
  apply Simulates.behind (hstart.goto hentry)
  exact simulates_phrase hembedded.knows hembedded.calls (fun hv => h.placed_global hv [])
    (callable h n) hembedded.served hembedded.lowers hembedded.supplies hembedded.codeAt
      (hstart.move hm rfl _)

/-- What is collected by one printer is shown to all. -/
theorem Machine.shows_of_collect {m m' : Machine} {k : Nat} {outcome : Outcome}
    {lines : List String} (h : run (.total collect) k m (none, []) = (outcome, m', none, lines)) :
    m.Shows k outcome lines := by
  obtain ⟨outcome', lines', s, hs⟩ := m.exists_shows k
  have hrun := hs _ collect (none, [])
  rw [h, deliver_collect, List.nil_append] at hrun
  cases hrun
  exact ⟨_, hs⟩

/-- What the interpreter does within a bound is shown by the machine, in at least as many steps if
it goes on; and the machine only fails in the ways in which compiled code can fail. -/
theorem Linked.shows {a : Program} {o : ObjectFile} {routines : List Routine}
    (h : Linked a o routines) {m : Memory} (hm : Mirrors o [] [] .start m) (n : Nat) :
    (∃ k, n ≤ k ∧ Machine.Shows ⟨o.quadruples, m, [], 0, 0, none⟩ k (a.run n).1 (a.run n).2) ∧
      ∀ e, (a.run n).1 = .failed e → Trap o e := by
  have hsimulates := Session.simulates_main (S := ⟨o, Machine.collect, (none, [])⟩) h hm n
  rw [Program.run]
  cases hexec : a.main.exec n (a.call n) a.scope .start with
  | ok u w =>
    rw [hexec] at hsimulates
    obtain ⟨k, d, hgoes, hd⟩ := hsimulates
    refine ⟨⟨k + n, Nat.le_add_left n k, ?_⟩, by simp⟩
    have hq : o.quadruples[d.ip]? = none := by
      rw [hd.ip]
      exact Array.getElem?_eq_none (Nat.le_refl _)
    have hrun := (hgoes 0 n).trans (Config.run_halted hq _ n)
    rw [hd.out, Session.delivered, Machine.deliver_collect] at hrun
    exact Machine.shows_of_collect hrun
  | error stop w =>
    rw [hexec] at hsimulates
    cases stop with
    | failed e =>
      obtain ⟨htrap, k, hfails⟩ := hsimulates
      obtain ⟨m', hrun⟩ := hfails 0 n
      rw [Session.delivered, Machine.deliver_collect] at hrun
      refine ⟨⟨k + n, Nat.le_add_left n k, Machine.shows_of_collect hrun⟩, ?_⟩
      intro e' he
      cases he
      exact htrap
    | cut =>
      obtain ⟨k, d, hk, hgoes, hip, hout⟩ := hsimulates
      refine ⟨⟨k, hk, ?_⟩, by simp⟩
      have hrun := (hgoes 0 0).trans (Config.run_running (Array.getElem?_eq_getElem hip) _)
      rw [hout, Session.delivered, Machine.deliver_collect] at hrun
      exact Machine.shows_of_collect hrun

/-! ## Source texts -/

/-- A machine does what the interpreter does with a program. -/
structure Syntax.Program.Describes (a : Program) (m : Machine) : Prop where
  /-- They end alike and have then printed the same lines. -/
  ends : ∀ outcome lines, outcome ≠ .running →
    ((∃ n, a.run n = (outcome, lines)) ↔ ∃ k, m.Shows k outcome lines)
  /-- The one never ends if the other never ends. -/
  endless : (∀ n, (a.run n).1 = .running) ↔ ∀ k, ∃ lines, m.Shows k .running lines
  /-- On the way they print the same lines. -/
  prints : ∀ lines, (∃ n, lines <+: (a.run n).2) ↔
    ∃ k outcome more, m.Shows k outcome more ∧ lines <+: more

/-- It is enough that a machine shows what the interpreter does within each
bound, in no fewer steps. -/
theorem describes_of_shows {a : Program} {m : Machine}
    (h : ∀ n, ∃ k, n ≤ k ∧ m.Shows k (a.run n).1 (a.run n).2) : a.Describes m := by
  -- What the machine shows in `k` steps is the beginning of what the interpreter does within the
  -- bound `k`.
  have hmeets {k : Nat} {outcome : Machine.Outcome} {lines : List String}
      (hk : m.Shows k outcome lines) :
      lines <+: (a.run k).2 ∧ (outcome ≠ .running → a.run k = (outcome, lines)) := by
    obtain ⟨k', hle, hshows⟩ := h k
    obtain ⟨j, rfl⟩ := Nat.exists_eq_add_of_le hle
    refine ⟨hk.added hshows, fun hended => ?_⟩
    obtain ⟨houtcome, hlines⟩ := hshows.unique (hk.ended hended j)
    exact Prod.ext houtcome hlines
  constructor
  · intro outcome lines hended
    constructor
    · rintro ⟨n, hn⟩
      obtain ⟨k, -, hk⟩ := h n
      rw [hn] at hk
      exact ⟨k, hk⟩
    · rintro ⟨k, hk⟩
      exact ⟨k, (hmeets hk).2 hended⟩
  · constructor
    · intro hrunning k
      obtain ⟨outcome, lines, hk⟩ := m.exists_shows k
      by_cases hended : outcome = .running
      · exact ⟨lines, hended ▸ hk⟩
      · have hrun := hrunning k
        rw [(hmeets hk).2 hended] at hrun
        exact absurd hrun hended
    · intro hrunning n
      obtain ⟨k, -, hk⟩ := h n
      obtain ⟨lines, hlines⟩ := hrunning k
      exact (hk.unique hlines).1
  · intro lines
    constructor
    · rintro ⟨n, hn⟩
      obtain ⟨k, -, hk⟩ := h n
      exact ⟨k, _, _, hk, hn⟩
    · rintro ⟨k, outcome, more, hk, hlines⟩
      exact ⟨k, hlines.trans (hmeets hk).1⟩

/-- A program with a loop, a recursive function and, in the end, a division by zero. -/
def countdown : String :=
  "program p; var x : int; " ++
  "void f(n : int) [ \x7b if (n > 0) \x7b print(n); f(n - 1); \x7d; \x7d ]; " ++
  "main \x7b x = 2; do \x7b f(x); x = x - 1; \x7d while (x > 0); print(1 / x); \x7d end"

theorem countdown_compiles : ∃ c, compile countdown true = .ok c :=
  Except.exists_ok_of_isOk (by decide +kernel)

/-- A source text that is compiled has one syntax tree, and a machine that runs its object file
without a limit does what the interpreter does with the tree. -/
theorem compile_describes {source : String} {strict : Bool} {c : Compilation}
    (h : compile source strict = .ok c) :
    ∃ a : Program, a.IsTreeOf source strict ∧ (∀ b : Program, b.IsTreeOf source strict → b = a) ∧
      ∃ m, Machine.load c.object none = .ok m ∧ a.Describes m := by
  obtain ⟨a, htree, hlower⟩ := lower_of_compile h
  obtain ⟨routines, hlinked⟩ := linked_of_lower hlower
  obtain ⟨memory, hload, hmirrors⟩ := hlinked.supplies.load
  refine ⟨a, htree, fun b hb => hb.unique htree, ⟨c.object.quadruples, memory, [], 0, 0, none⟩,
    ?_, ?_⟩
  · rw [Machine.load, hload]
    rfl
  · exact describes_of_shows fun n => (hlinked.shows hmirrors n).1

/-- The theorem at a program with a loop, a recursive function and a division by zero. -/
theorem compile_describes_countdown : ∃ c, compile countdown true = .ok c ∧
    ∃ a : Program, a.IsTreeOf countdown true ∧ (∀ b : Program, b.IsTreeOf countdown true → b = a) ∧
      ∃ m, Machine.load c.object none = .ok m ∧ a.Describes m := by
  obtain ⟨c, hc⟩ := countdown_compiles
  exact ⟨c, hc, compile_describes hc⟩

end Quadlet
