import Quadlet.Proofs.Semantics.Statements

/-!
# Routines of a program

Where the parts of a lowered program stand in its object file. Main statement: the code of every
routine does what the interpreter does when it runs the function, within every bound on the calls.
-/

namespace Quadlet

open Syntax Request Planner

/-! ## Parts of an object file -/

/-- Where the main part stands: behind a jump to it and behind the bodies. -/
def Syntax.Program.MainAt (a : Program) (o : ObjectFile) (routines : List Routine) : Prop :=
  ∃ env before p bodies main, env.Knows a.scope ∧ env.Calls routines ∧ Served before p ∧
    a.requests = before ++ a.main.requests a.scope ∧
    a.main.lower env (1 + bodies.length) p = .ok main ∧
    o.quadruples.toList = ⟨.goto, unused, unused, (1 + bodies.length : Nat)⟩ ::
      bodies ++ main.code ∧
    Routine.Consecutive 1 routines (1 + bodies.length)

/-- An object file that holds a program with its routines. -/
structure Linked (a : Program) (o : ObjectFile) (routines : List Routine) : Prop where
  functions : routines.map Routine.function = a.functions
  distinct : (routines.map fun r => r.function.name).Nodup
  declarable : ∀ r ∈ routines, Declarable r.function.names
  supplies : o.Supplies a.requests
  frames : o.memory.functions = routines.map Routine.frame
  ids : (routines.map Routine.id).Nodup
  below :
    ∀ r ∈ routines, ∃ i : Nat, r.id = Segment.size + i ∧ i < demand a.requests ⟨.global, .void⟩
  installed : ∀ r ∈ routines, r.Installed a.scope routines a.requests 0 o.quadruples.toList
  main : a.MainAt o routines

/-- A program that is lowered is in its object file. -/
theorem linked_of_lower {a : Program} {o : ObjectFile} (h : a.lower = .ok o) :
    ∃ routines, Linked a o routines := by
  obtain ⟨⟨d, p⟩, hd, h⟩ := Except.bind_eq_ok.mp h
  obtain ⟨⟨bodies, d'⟩, hbodies, h⟩ := Except.bind_eq_ok.mp h
  obtain ⟨main, hmain, h⟩ := Except.bind_eq_ok.mp h
  cases h
  have htop := site_atTop.steps a.names (atTop_start a.name) hd
  obtain ⟨routines, hfunctions, -, hnames, hstocked, hinstalled, hconsecutive⟩ :=
    htop.stocked.lower_functions hbodies
  obtain ⟨-, hserved, hkept⟩ :=
    serves hstocked.lists.knows_main (hstocked.lists.calls _) hstocked.served
      (Phrase.lowers_of_lower hmain)
  rw [List.nil_append] at hstocked hinstalled
  refine ⟨routines, hfunctions, (List.nodup_append.mp hstocked.lists.distinct).2.1, ?_,
    ⟨[], main.planner, by rw [List.append_nil]; exact hserved, rfl, rfl⟩,
    hkept.frames.trans hstocked.frames, hstocked.ids, ?_, ?_, ?_⟩
  · intro r hr
    exact hnames r.function (hfunctions ▸ List.mem_map_of_mem hr)
  · intro r hr
    obtain ⟨i, hi, hlt⟩ := hstocked.below r hr
    exact ⟨i, hi, Nat.lt_of_lt_of_le hlt (demand_le_append _ _ _)⟩
  · intro r hr
    have hextend : r.Installed a.scope routines _ 0
        ([⟨.goto, unused, unused, (1 + bodies.code.length : Nat)⟩] ++ bodies.code ++ main.code) :=
      (hinstalled r hr).extend (List.Subset.refl _) (a.main.requests a.scope) main.code
    exact hextend
  · exact ⟨_, _, _, bodies.code, main, hstocked.lists.knows_main, hstocked.lists.calls _,
      hstocked.served, rfl, hmain, rfl, hconsecutive⟩

/-- How a statement or a block was lowered, and where its code stands in an object file. -/
structure Embedded (o : ObjectFile) (routines : List Routine) (Γ : Scope) {role : Role}
    (s : Phrase role) (start : Nat) (env : Environment) (callable : List Routine)
    (rs : List Request) (p : Planner) (l : Laid) : Prop where
  knows : env.Knows Γ
  calls : env.Calls callable
  subset : callable ⊆ routines
  served : Served rs p
  supplies : o.Supplies (rs ++ s.requests Γ)
  lowers : s.Lowers env start p l
  codeAt : CodeAt o.quadruples start l.code

namespace Linked

variable {a : Program} {o : ObjectFile} {routines : List Routine}

/-- The body of a routine stands in front of a quadruple that goes back to the caller. -/
theorem embedded_body (h : Linked a o routines) {r : Routine} (hr : r ∈ routines) :
    ∃ env callable rs p l,
      Embedded o routines (r.function.scope a.scope) r.function.body r.start env callable rs p l ∧
      CodeAt o.quadruples r.start (l.code ++ [⟨.leave, unused, unused, unused⟩]) ∧
      r.past = r.start + l.code.length + 1 := by
  obtain ⟨env, callable, before, rest, p, body, front, back, henv, hcalls, hsub, hserved,
    hrequests, hlower, hprogram, hstart, hpast⟩ := h.installed r hr
  have hcode : CodeAt o.quadruples r.start (body.code ++ [⟨.leave, unused, unused, unused⟩]) :=
    ⟨front, back, by simp [hprogram], by omega⟩
  have hsupplies := h.supplies
  rw [hrequests] at hsupplies
  exact ⟨env, callable, before, p, body, ⟨henv, hcalls, hsub, hserved, hsupplies.of_append,
    Phrase.lowers_of_lower hlower, hcode.left⟩, hcode, hpast⟩

/-- The main part stands behind a jump to it and behind the bodies, at the end of the code. -/
theorem embedded_main (h : Linked a o routines) :
    ∃ (start : Nat) (env : Environment) (rs : List Request) (p : Planner) (l : Laid),
      Embedded o routines a.scope a.main start env routines rs p l ∧
      o.quadruples[0]? = some ⟨.goto, unused, unused, start⟩ ∧
      o.quadruples.size = start + l.code.length ∧ Routine.Consecutive 1 routines start := by
  obtain ⟨env, before, p, bodies, main, henv, hcalls, hserved, hrequests, hlower, hprogram,
    hconsecutive⟩ :=
    h.main
  have hcode : CodeAt o.quadruples 0
      ([⟨.goto, unused, unused, (1 + bodies.length : Nat)⟩] ++ bodies ++ main.code) :=
    ⟨[], [], by rw [hprogram]; simp, rfl⟩
  have hsize : o.quadruples.size = 1 + bodies.length + main.code.length := by
    rw [← Array.length_toList, hprogram]
    simp only [List.cons_append, List.length_cons, List.length_append]
    omega
  have hmain := hcode.right
  rw [List.length_append, List.length_singleton, Nat.zero_add] at hmain
  have hsupplies := h.supplies
  rw [hrequests] at hsupplies
  exact ⟨1 + bodies.length, env, before, p, main, ⟨henv, hcalls, List.Subset.refl _,
    hserved, hsupplies, Phrase.lowers_of_lower hlower, hmain⟩, hcode.left.left.head, hsize,
    hconsecutive⟩

end Linked

/-! ## Variables -/

/-- The place of a variable is below the number of names of its type. -/
theorem Syntax.Variable.mem_number {lifetime : Lifetime} {before xs : List Parameter} {v : Variable}
    (h : v ∈ number lifetime before xs) :
    v.lifetime = lifetime ∧ v.index < (before ++ xs).countP fun x => x.type = v.type := by
  induction xs generalizing before with
  | nil => cases h
  | cons x xs ih =>
    rcases List.mem_cons.mp h with rfl | h
    · refine ⟨rfl, ?_⟩
      rw [List.countP_append, List.countP_cons_of_pos (by simp)]
      dsimp only
      omega
    · rw [← List.singleton_append, ← List.append_assoc]
      exact ih h

namespace Linked

variable {a : Program} {o : ObjectFile} {routines : List Routine}

/-- The variables of the program have cells wherever they are used. -/
theorem placed_global (h : Linked a o routines) {x : String} {v : Variable}
    (hv : a.scope x = some v) (stack : List Routine) : Placed o stack v := by
  obtain ⟨hlifetime, hindex⟩ := Variable.mem_number (List.mem_of_find?_eq_some hv)
  have hsegment : v.segment = ⟨.global, v.type.type⟩ := by
    rw [Variable.segment, hlifetime]
  have hwide : v.segment ∈ Segment.programWide := by
    rw [hsegment]
    cases v.type <;> decide
  have hsupplies : o.Supplies (globalCells a.names) := by
    have hall := h.supplies
    rw [Program.requests, List.append_assoc] at hall
    exact hall.of_append
  obtain ⟨hcells, hsize⟩ := hsupplies.demand_le hwide
  rw [List.nil_append, ← demand_globalCells, ← hsegment] at hindex
  exact .global hlifetime (Nat.lt_of_lt_of_le hindex hsize) (Nat.lt_of_lt_of_le hindex hcells)

/-- The names in a routine stand for variables that have cells while it is active. -/
theorem placed_routine (h : Linked a o routines) {r : Routine} (hr : r ∈ routines) {x : String}
    {v : Variable} (hv : r.function.scope a.scope x = some v) (stack : List Routine) :
    Placed o (r :: stack) v := by
  rw [Function.scope] at hv
  rcases Option.or_eq_some_iff.mp hv with hv | ⟨-, hv⟩
  · obtain ⟨hlifetime, hindex⟩ := Variable.mem_number (List.mem_of_find?_eq_some hv)
    exact .call hlifetime (Nat.lt_of_lt_of_le hindex ((h.declarable r hr).fits v.type)) hindex
  · exact h.placed_global hv (r :: stack)

/-! ## Calls -/

/-- The last entry for a routine is its own. -/
theorem lastFrame? (h : Linked a o routines) {r : Routine} (hr : r ∈ routines) :
    o.memory.lastFrame? r.id = some r.frame := by
  have hnodup : ((routines.map Routine.frame).reverse.map FrameSize.function).Nodup := by
    rw [List.map_reverse, List.map_map]
    exact List.pairwise_reverse.mpr (h.ids.imp Ne.symm)
  rw [MemoryMap.lastFrame?, h.frames]
  exact find?_of_nodup FrameSize.function hnodup (List.mem_reverse.mpr (List.mem_map_of_mem hr))

/-- The interpreter finds the function of a routine under its name. -/
theorem find?_function (h : Linked a o routines) {r : Routine} (hr : r ∈ routines) :
    (a.functions.find? fun f => f.name == r.function.name) = some r.function := by
  rw [← h.functions]
  refine find?_of_nodup Function.name ?_ (List.mem_map_of_mem hr)
  rw [List.map_map]
  exact h.distinct

end Linked

namespace Session

variable {ω : Type} {S : Session ω} {a : Program} {routines : List Routine}

/-- A call quadruple enters the frame that waits and goes on at the start of the body. -/
theorem Stands.enter {stack : List Routine} {f : Frame} {w : World} {returns : List Nat} {ip : Nat}
    {c : Config ω} (hc : S.Stands stack [f] w returns ip c) {r : Routine} {s : Slots}
    (hf : Holds r s f) (hq : S.object.quadruples[ip]? = some ⟨.call, r.id, unused, r.start⟩) :
    ∃ d, S.Goes 1 c d ∧ S.Stands (r :: stack) [] { w with frames := s :: w.frames }
      ((ip + 1) :: returns) r.start d := by
  obtain ⟨m, hm, hmirrors⟩ := hc.mirrors.enter hf
  rw [← hc.ip] at hq
  refine ⟨⟨m, (c.ip + 1) :: c.returns, r.start, c.out⟩,
    Config.goes_step hq fun steps => Machine.step_call (c.machine _ steps) c.out _ _ _ hm,
    hmirrors, hc.out, ?_, rfl⟩
  rw [hc.ip, hc.returns]

/-- A body ends with a quadruple that goes back to the caller. -/
theorem Stands.leave {stack : List Routine} {w : World} {returns : List Nat} {ip back : Nat}
    {c : Config ω} {r : Routine} (hc : S.Stands (r :: stack) [] w (back :: returns) ip c)
    (hq : S.object.quadruples[ip]? = some ⟨.leave, unused, unused, unused⟩) :
    ∃ d, S.Goes 1 c d ∧ S.Stands stack [] w.leave returns back d := by
  obtain ⟨m, hm, hmirrors⟩ := hc.mirrors.release
  rw [← hc.ip] at hq
  exact ⟨⟨m, returns, back, c.out⟩,
    Config.goes_step hq fun steps =>
      Machine.step_leave (c.machine _ steps) c.out _ _ _ hc.returns hm,
    hmirrors, hc.out, rfl, rfl⟩

/-- The code of every routine does what the interpreter does when it runs the function. -/
theorem callable (h : Linked a S.object routines) (n : Nat) :
    ∀ r ∈ routines, S.Callable n (a.call n) r := by
  induction n with
  | zero =>
    intro r hr
    refine ⟨h.lastFrame? hr, ?_⟩
    intro stack f s xs w returns ip c hc hq hfill hholds
    obtain ⟨hip, -⟩ := Array.getElem?_eq_some_iff.mp hq
    exact ⟨0, c, Nat.le_refl 0, .refl c, hc.ip ▸ hip, hc.out⟩
  | succ n ih =>
    intro r hr
    refine ⟨h.lastFrame? hr, ?_⟩
    intro stack f s xs w returns ip c hc hq hfill hholds
    obtain ⟨env, callable, rs, p, body, hembedded, hcode, -⟩ := h.embedded_body hr
    obtain ⟨d, hgoes, hd⟩ := hc.enter hholds hq
    have hbody :=
      simulates_phrase hembedded.knows hembedded.calls (fun hv => h.placed_routine hr hv stack)
      (fun r hr => ih r (hembedded.subset hr)) hembedded.served hembedded.lowers hembedded.supplies
      hembedded.codeAt hd
    have henter : Action.change (fun w => w.enter r.function xs) w =
        .ok () { w with frames := s :: w.frames } := by
      rw [Action.change, World.enter, hfill]
      rfl
    rw [Program.call, h.find?_function hr, Nat.add_comm n 1]
    dsimp only
    rw [EStateM.bind_of_ok henter]
    apply Simulates.after hgoes
    apply hbody.bind
    intro _ w' e he
    obtain ⟨e', hgoes', he'⟩ := he.leave hcode.right.head
    exact Simulates.behind hgoes' (.ok he')

end Session

end Quadlet
