import Quadlet.Proofs.Static.Scopes

/-!
# Which programs are accepted

A function is lowered exactly if its names can be declared together, its body follows the
rules and its cells fit. Main statement: the events of a program are accepted exactly if
the program makes sense.
-/

namespace Quadlet

open Syntax Request Planner

/-- The cells of the calls of a routine. -/
def Routine.frame (r : Routine) : FrameSize := .ofNames r.id r.function.names

/-- What is known between two functions: the variables of the program, the cells asked for
and the routines so far. -/
structure Stocked (xs : List Parameter) (rs : List Request) (done : List Routine) (d : Directory)
    (p : Planner) : Prop where
  lists : d.Lists xs done
  served : Served rs p
  frames : p.frames = done.map Routine.frame
  ids : (done.map Routine.id).Nodup
  below : ∀ r ∈ done, ∃ i : Nat, r.id = Segment.size + i ∧ i < demand rs ⟨.global, .void⟩

/-- Behind the variables of a program there are no routines. -/
theorem AtTop.stocked {xs : List Parameter} {d : Directory} {p : Planner}
    (h : AtTop xs ((Variable.number .global [] xs).map (Variable.symbol .var)) d p) :
    Stocked xs (globalCells xs) [] d p where
  lists := ⟨by simpa using h.globals, by simpa using h.declarable.distinct⟩
  served := h.served
  frames := h.kept.frames
  ids := List.nodup_nil
  below := by simp

/-- What a planner has served does not depend on its frames. -/
theorem Planner.Served.congr {rs : List Request} {p q : Planner} (h : Served rs p)
    (hused : q.used = p.used) (hconstants : q.constants = p.constants) : Served rs q := by
  refine ⟨fun s => ?_, ?_, h.fits, h.plain⟩
  · rw [Planner.count, hused]
    exact h.count s
  · rw [hconstants]
    exact h.constants

/-! ## Functions -/

section

variable {xs : List Parameter} {rs : List Request} {done : List Routine} {d d' : Directory}
  {p : Planner} {f : Function} {start : Nat}

/-- A name is new in a directory exactly if no variable of the program and no routine has it. -/
theorem Stocked.contains (h : Stocked xs rs done d p) (x : String) : d.globals.contains x = false ↔
    x ∉ xs.map Parameter.name ++ done.map fun r => r.function.name := by
  rw [h.lists.globals, SymbolTable.contains_ofList_eq_false, List.map_append, List.map_map,
    List.map_map, ← Variable.map_name_number .global []]
  rfl

/-- What is known inside a function that has just been opened. -/
theorem Stocked.inside (h : Stocked xs rs done d p) {id : Address} {p₀ : Planner}
    (hid : p.assign ⟨.global, .void⟩ none = .ok (id, p₀))
    (hd : d.declare .global (.ofFunction f.name id) = .ok d') :
    id = Segment.size + demand rs ⟨.global, .void⟩ ∧
      Inside d.globals.toList p.frames f.name id (rs ++ [Request.cell ⟨.global, .void⟩]) [] [] d'
        (p₀.enter id) := by
  have hbase : Segment.base? ⟨.global, .void⟩ = some (Segment.size : Address) := rfl
  obtain ⟨rfl, hserved, hkept⟩ := h.served.cell (.inl rfl) hbase hid
  obtain ⟨hfresh, rfl⟩ := (Directory.declare_global h.lists.ordered).mp hd
  have hunknown : (Segment.size + demand rs ⟨.global, .void⟩ : Address) ∉
      p.frames.map FrameSize.function := by
    rw [h.frames, List.map_map]
    intro hmem
    obtain ⟨r, hr, hid⟩ := List.mem_map.mp hmem
    obtain ⟨i, hi, hlt⟩ := h.below r hr
    exact Nat.ne_of_lt hlt (Int.ofNat.inj (Int.add_left_cancel (hi.symm.trans hid)))
  refine ⟨rfl, declarable_nil, rfl, hfresh, rfl, hserved.congr rfl rfl, ?_, rfl, hunknown⟩
  · have hany :
        (p.frames.any fun g => g.function == Segment.size + demand rs ⟨.global, .void⟩) =
          false := by
      rw [List.any_eq_false]
      intro g hg hid
      exact hunknown (List.mem_map.mpr ⟨g, hg, beq_iff_eq.mp hid⟩)
    rw [enter, hkept.frames, hany]
    rfl

/-- What is known inside a function behind all of its declarations. -/
theorem Stocked.inside_all (h : Stocked xs rs done d p) {id : Address} {p₀ p₂ p₃ : Planner}
    {d₁ d₂ d₃ : Directory} (hid : p.assign ⟨.global, .void⟩ none = .ok (id, p₀))
    (hd₁ : d.declare .global (.ofFunction f.name id) = .ok d₁)
    (hd₂ : declareAll (.function f.name) .call .param f.parameters d₁ (p₀.enter id) = .ok (d₂, p₂))
    (hd₃ : declareAll (.function f.name) .call .var (Declaration.allEntries f.declarations) d₂ p₂ =
      .ok (d₃, p₃)) :
    Inside d.globals.toList p.frames f.name id (rs ++ [Request.cell ⟨.global, .void⟩]) f.names
      f.symbols d₃ p₃ :=
  (site_inside .var).steps (Declaration.allEntries f.declarations)
    ((site_inside .param).steps f.parameters (h.inside hid hd₁).2 hd₂) hd₃

/-- The directory at the start of the body of a function. -/
def Directory.begin (d d₃ : Directory) (r : Routine) : Directory :=
  { d₃ with globals := .ofList (d.globals.toList ++ [r.symbol]) }

/-- The body of a function starts behind its declarations. -/
theorem Inside.close {d₃ : Directory} {entered : List FrameSize} {id : Address}
    (h : Inside d.globals.toList entered f.name id rs f.names f.symbols d₃ p) (start past : Nat) :
    d₃.modifyFunction f.name (fun s => { s with start := some start }) =
      .ok (d.begin d₃ ⟨f, id, start, past⟩) :=
  Directory.modifyFunction_last h.globals h.fresh rfl rfl

/-- The directory at the start of a body lists the routine. -/
theorem Stocked.lists_begin (h : Stocked xs rs done d p) (d₃ : Directory) {r : Routine}
    (hfresh : r.function.name ∉ xs.map Parameter.name ++ done.map fun r => r.function.name) :
    (d.begin d₃ r).Lists xs (done ++ [r]) := by
  constructor
  · rw [Directory.begin, h.lists.globals, List.map_append, ← List.append_assoc]
    rfl
  · rw [List.map_append, ← List.append_assoc, List.nodup_append]
    refine ⟨h.lists.distinct, by simp, fun x hx y hy hxy => hfresh ?_⟩
    rw [List.map_singleton, List.mem_singleton] at hy
    exact hy ▸ hxy ▸ hx

/-- A routine whose body was lowered, behind the routines `done` and with the
planner `p` in front. -/
structure Routine.Lowered (r : Routine) (xs : List Parameter) (rs : List Request)
    (done : List Routine) (d : Directory) (p : Planner) (body : Laid) : Prop where
  declarable : Declarable r.function.names
  lists : d.Lists xs (done ++ [r])
  served : Served (rs ++ [Request.cell ⟨.global, .void⟩]) p
  frames : p.frames = (done ++ [r]).map Routine.frame
  past : r.past = r.start + body.code.length + 1
  lower : r.function.body.lower (d.environment [.function r.function.name, .global]) r.start p =
    .ok body

/-- The body of a lowered routine follows the rules. -/
theorem Routine.Lowered.serves {r : Routine} {body : Laid} (h : r.Lowered xs rs done d p body) :
    r.function.body.WellTyped (r.function.scope (.global xs))
        ((done ++ [r]).map Routine.function) ∧
      Serves p (rs ++ r.function.requests (.global xs)) body.planner := by
  have hmem : r ∈ done ++ [r] := List.mem_append_right _ (List.mem_singleton.mpr rfl)
  obtain ⟨htyped, hserves⟩ :=
    Quadlet.serves (h.lists.knows_routine hmem) (h.lists.calls _) h.served
      (Phrase.lowers_of_lower h.lower)
  rw [List.append_assoc, List.singleton_append] at hserves
  exact ⟨htyped, hserves⟩

/-- What is known behind a lowered routine. -/
theorem Stocked.next (h : Stocked xs rs done d p) {r : Routine} {p₁ : Planner} {body : Laid}
    (hid : r.id = Segment.size + demand rs ⟨.global, .void⟩)
    (hr : r.Lowered xs rs done d' p₁ body) :
    Stocked xs (rs ++ r.function.requests (.global xs)) (done ++ [r]) d'
      body.planner.leave := by
  obtain ⟨-, hserved, hkept⟩ := hr.serves
  refine ⟨hr.lists, hserved.congr rfl rfl, hkept.frames.trans hr.frames, ?_, fun s hs => ?_⟩
  · rw [List.map_append, List.nodup_append]
    refine ⟨h.ids, by simp, fun i hi j hj hij => ?_⟩
    obtain ⟨s, hs, rfl⟩ := List.mem_map.mp hi
    obtain ⟨k, hk, hlt⟩ := h.below s hs
    rw [List.map_singleton, List.mem_singleton] at hj
    exact Nat.ne_of_lt hlt
      (Int.ofNat.inj (Int.add_left_cancel (hk.symm.trans (hij.trans (hj.trans hid)))))
  · have hone : demand rs ⟨.global, .void⟩ + 1 ≤
        demand (rs ++ r.function.requests (.global xs)) ⟨.global, .void⟩ := by
      have hle := demand_le_append (rs ++ [Request.cell ⟨.global, .void⟩])
        (r.function.body.requests (r.function.scope (.global xs))) ⟨.global, .void⟩
      rw [demand_cell, if_pos rfl, List.append_assoc, List.singleton_append] at hle
      exact hle
    obtain hs | hs := List.mem_append.mp hs
    · obtain ⟨k, hk, hlt⟩ := h.below s hs
      exact ⟨k, hk, by omega⟩
    · rw [List.mem_singleton.mp hs]
      exact ⟨_, hid, hone⟩

/-- A function that is lowered becomes a routine. -/
theorem Stocked.lower_function (h : Stocked xs rs done d p) {a : Laid}
    (hf : f.lower start d p = .ok (a, d')) :
    ∃ r : Routine, r.function = f ∧ r.start = start ∧ ∃ p₁ body, r.Lowered xs rs done d' p₁ body ∧
      a = ⟨body.code ++ [⟨.leave, unused, unused, unused⟩], body.planner.leave⟩ ∧
      Stocked xs (rs ++ f.requests (.global xs)) (done ++ [r]) d' a.planner := by
  obtain ⟨hcontains, id, p₀, d₁, d₂, p₂, d₃, p₃, d₄, body, hid, hd₁, hd₂, hd₃, hd₄, hbody, hr⟩ :=
    Draft.lower_function_eq_ok hf
  obtain ⟨rfl, rfl⟩ := Prod.mk.inj hr
  have hall := h.inside_all hid hd₁ hd₂ hd₃
  let r : Routine := ⟨f, id, start, start + body.code.length + 1⟩
  obtain rfl : d' = d.begin d₃ r := Except.ok.inj (hd₄.symm.trans (hall.close start r.past))
  have hfresh := (h.contains f.name).mp hcontains
  have hframes : p₃.frames = (done ++ [r]).map Routine.frame := by
    rw [hall.frames, h.frames, List.map_append]
    rfl
  have hlowered : r.Lowered xs rs done (d.begin d₃ r) p₃ body :=
    ⟨hall.declarable, h.lists_begin d₃ hfresh, hall.served, hframes, rfl, hbody⟩
  exact ⟨r, rfl, rfl, p₃, body, hlowered, rfl, h.next (h.inside hid hd₁).1 hlowered⟩

/-- A function is lowered if its name is new, its names can be declared together, its body follows
the rules and its cells fit. -/
theorem Stocked.function_of_fits (h : Stocked xs rs done d p) (start : Nat)
    (hfresh : f.name ∉ xs.map Parameter.name ++ done.map fun r => r.function.name)
    (hnames : Declarable f.names)
    (hbody : f.body.WellTyped (f.scope (.global xs))
      (done.map Routine.function ++ [f]))
    (hfits : Fits (rs ++ f.requests (.global xs))) :
    ∃ a d', f.lower start d p = .ok (a, d') := by
  have hcontains := (h.contains f.name).mpr hfresh
  rw [Function.requests, ← List.singleton_append, ← List.append_assoc] at hfits
  obtain ⟨id, p₀, hid⟩ := h.served.cell_of_fits (.inl rfl) (by rfl) hfits.of_append
  have hnew : f.name ∉ d.globals.toList.map Symbol.name := by
    rw [← SymbolTable.contains_ofList_eq_false, ← h.lists.ordered]
    exact hcontains
  have hd₁ :=
    (Directory.declare_global h.lists.ordered (s := .ofFunction f.name id)).mpr ⟨hnew, rfl⟩
  have hinside := (h.inside hid hd₁).2
  obtain ⟨d₂, p₂, hd₂⟩ := (site_inside .param).accepts_all f.parameters hinside hnames.of_append
  have hparameters := (site_inside .param).steps f.parameters hinside hd₂
  obtain ⟨d₃, p₃, hd₃⟩ :=
    (site_inside .var).accepts_all (Declaration.allEntries f.declarations) hparameters hnames
  have hall := h.inside_all hid hd₁ hd₂ hd₃
  -- Where the body ends is not known yet, and nothing depends on it.
  have hlists := h.lists_begin (r := ⟨f, id, start, start⟩) d₃ hfresh
  have hmem : (⟨f, id, start, start⟩ : Routine) ∈ done ++ [⟨f, id, start, start⟩] :=
    List.mem_append_right _ (List.mem_singleton.mpr rfl)
  have hcallable : (done ++ [(⟨f, id, start, start⟩ : Routine)]).map Routine.function =
      done.map Routine.function ++ [f] := List.map_append
  obtain ⟨body, hlower⟩ := phrase_of_fits (hlists.knows_routine hmem) (hlists.calls _) f.body start
    hall.served (hcallable ▸ hbody) hfits
  refine ⟨⟨body.code ++ [⟨.leave, unused, unused, unused⟩], body.planner.leave⟩,
    d.begin d₃ ⟨f, id, start, start⟩, ?_⟩
  simp only [Function.lower, hcontains, Bool.false_eq_true, if_false, hid, Except.ok_bind,
    hd₁, hd₂, hd₃, hall.close start start, hlower.lower, Except.pure_eq]

/-- Where the body of a routine stands in code whose first quadruple has the index `origin`, and
what its names stood for when it was lowered; `requests` are the cells of the whole program. -/
def Routine.Installed (r : Routine) (outer : Scope) (all : List Routine) (requests : List Request)
    (origin : Nat) (code : List Quadruple) : Prop :=
  ∃ env callable before rest p body front back, env.Knows (r.function.scope outer) ∧
    env.Calls callable ∧ callable ⊆ all ∧ Served before p ∧
    requests = before ++ r.function.body.requests (r.function.scope outer) ++ rest ∧
    r.function.body.lower env r.start p = .ok body ∧
    code = front ++ body.code ++ ⟨.leave, unused, unused, unused⟩ :: back ∧
    r.start = origin + front.length ∧ r.past = r.start + body.code.length + 1

/-- The bodies of routines stand one behind the other, from an index up to another. -/
inductive Routine.Consecutive : Nat → List Routine → Nat → Prop where
  | nil (n : Nat) : Consecutive n [] n
  | cons {r : Routine} {rs : List Routine} {n : Nat} (h : r.start < r.past)
    (rest : Consecutive r.past rs n) : Consecutive r.start (r :: rs) n

/-- A routine stays where it is when code is put in front and behind. -/
theorem Routine.Installed.extend {r : Routine} {outer : Scope} {all all' : List Routine}
    {requests : List Request} {origin : Nat} {front code : List Quadruple}
    (h : r.Installed outer all requests (origin + front.length) code) (hall : all ⊆ all')
    (more : List Request) (back : List Quadruple) :
    r.Installed outer all' (requests ++ more) origin (front ++ code ++ back) := by
  obtain ⟨env, callable, before, rest, p, body, front', back', henv, hcalls, hsub, hserved,
    hrequests, hlower, hcode, hstart, hpast⟩ := h
  refine ⟨env, callable, before, rest ++ more, p, body, front ++ front', back' ++ back,
    henv, hcalls, List.Subset.trans hsub hall, hserved, ?_, hlower, ?_, ?_, hpast⟩
  · rw [hrequests, List.append_assoc]
  · simp [hcode]
  · rw [hstart, List.length_append]
    omega

/-- Functions that are lowered become routines. -/
theorem Stocked.lower_functions {fs : List Function} (h : Stocked xs rs done d p) {a : Laid}
    (hfs : Function.lowerAll fs start d p = .ok (a, d')) :
    ∃ routines : List Routine, routines.map Routine.function = fs ∧
      Function.AllWellTyped (.global xs) (done.map Routine.function) fs ∧
      (∀ f ∈ fs, Declarable f.names) ∧
      Stocked xs (rs ++ fs.flatMap (Function.requests (.global xs)))
        (done ++ routines) d' a.planner ∧
      (∀ r ∈ routines, r.Installed (.global xs) (done ++ routines)
        (rs ++ fs.flatMap (Function.requests (.global xs))) start a.code) ∧
      Routine.Consecutive start routines (start + a.code.length) := by
  induction fs generalizing rs done start d p a d' with
  | nil =>
    cases hfs
    exact ⟨[], rfl, trivial, by simp, by simpa using h, by simp, .nil _⟩
  | cons f fs ih =>
    obtain ⟨⟨b, d₁⟩, hb, hfs⟩ := Except.bind_eq_ok.mp hfs
    obtain ⟨⟨c, d₂⟩, hc, hfs⟩ := Except.bind_eq_ok.mp hfs
    cases hfs
    obtain ⟨r, rfl, rfl, p₁, body, hlowered, rfl, hstocked⟩ := h.lower_function hb
    obtain ⟨routines, rfl, htyped, hnames, hall, hinstalled, hconsecutive⟩ := ih hstocked hc
    simp only [List.append_assoc, List.singleton_append] at hall hinstalled
    rw [List.map_append, List.map_singleton] at htyped
    have hmem : r ∈ done ++ [r] := List.mem_append_right _ (List.mem_singleton.mpr rfl)
    have hsub : done ++ [r] ⊆ done ++ r :: routines := by simp
    refine ⟨r :: routines, rfl, ⟨?_, htyped⟩, ?_, ?_, ?_, ?_⟩
    · have hbody := hlowered.serves.1
      rw [List.map_append] at hbody
      exact hbody
    · intro f hf
      obtain rfl | hf := List.mem_cons.mp hf
      · exact hlowered.declarable
      · exact hnames f hf
    · exact hall
    · intro s hs
      obtain rfl | hs := List.mem_cons.mp hs
      · refine ⟨_, _, _, (routines.map Routine.function).flatMap (Function.requests (.global xs)),
          p₁, body, [], c.code, hlowered.lists.knows_routine hmem, hlowered.lists.calls _, hsub,
          hlowered.served, ?_, hlowered.lower, ?_, rfl, hlowered.past⟩
        · rw [List.flatMap_cons, Function.requests]
          simp
        · simp
      · have hextend := (hinstalled s hs).extend (List.Subset.refl _) [] []
        simpa using hextend
    · have hpast := hlowered.past
      refine .cons (by omega) ?_
      simp only [List.length_append, List.length_singleton, ← Nat.add_assoc] at hconsecutive ⊢
      rw [hpast]
      exact hconsecutive

/-- Functions are lowered if their names are new, their bodies follow the
rules and their cells fit. -/
theorem Stocked.functions_of_fits {fs : List Function} (h : Stocked xs rs done d p) (start : Nat)
    (hdistinct : (xs.map Parameter.name ++ (done.map Routine.function ++ fs).map
      Function.name).Nodup)
    (hnames : ∀ f ∈ fs, Declarable f.names)
    (htyped : Function.AllWellTyped (.global xs) (done.map Routine.function) fs)
    (hfits : Fits (rs ++ fs.flatMap (Function.requests (.global xs)))) :
    ∃ a d', Function.lowerAll fs start d p = .ok (a, d') := by
  induction fs generalizing rs done start d p with
  | nil => exact ⟨_, _, rfl⟩
  | cons f fs ih =>
    have hfresh : f.name ∉ xs.map Parameter.name ++ done.map fun r => r.function.name := by
      rw [List.map_append, ← List.append_assoc, List.nodup_append] at hdistinct
      intro hmem
      refine hdistinct.2.2 f.name ?_ f.name (by simp) rfl
      rw [List.map_map]
      exact hmem
    rw [List.flatMap_cons, ← List.append_assoc] at hfits
    obtain ⟨a, d₁, hf⟩ :=
      h.function_of_fits start hfresh (hnames f (List.mem_cons_self ..)) htyped.1
      hfits.of_append
    obtain ⟨r, rfl, -, p₁, body, -, -, hstocked⟩ := h.lower_function hf
    have hdone : (done ++ [r]).map Routine.function = done.map Routine.function ++ [r.function] :=
      List.map_append
    obtain ⟨b, d₂, hb⟩ := ih hstocked (start + a.code.length) (by rw [hdone]; simpa using hdistinct)
      (fun f' hf' => hnames f' (List.mem_cons_of_mem _ hf')) (hdone ▸ htyped.2) hfits
    exact ⟨_, d₂, by rw [Function.lowerAll, hf, Except.ok_bind]; simp only [hb]; rfl⟩

end

/-! ## Programs -/

/-- A program that is lowered makes sense. -/
theorem wellFormed_of_lower {a : Program} {o : ObjectFile} (h : a.lower = .ok o) :
    a.WellFormed := by
  obtain ⟨⟨d, p⟩, hd, h⟩ := Except.bind_eq_ok.mp h
  obtain ⟨⟨bodies, d'⟩, hbodies, h⟩ := Except.bind_eq_ok.mp h
  obtain ⟨main, hmain, -⟩ := Except.bind_eq_ok.mp h
  have htop := site_atTop.steps a.names (atTop_start a.name) hd
  obtain ⟨routines, hfunctions, htyped, hnames, hstocked, -⟩ := htop.stocked.lower_functions hbodies
  obtain ⟨hmain, hserves⟩ :=
    serves hstocked.lists.knows_main (hstocked.lists.calls _) hstocked.served
      (Phrase.lowers_of_lower hmain)
  rw [List.nil_append] at hmain hstocked
  refine ⟨?_, fun f hf => (hnames f hf).distinct, htyped, hfunctions ▸ hmain, hserves.served.fits,
    fun f hf => (hnames f hf).fits⟩
  have hdistinct := hstocked.lists.distinct
  rw [← hfunctions, List.map_map]
  exact hdistinct

/-- A program that makes sense is lowered. -/
theorem lower_of_wellFormed {a : Program} (h : a.WellFormed) : ∃ o, a.lower = .ok o := by
  have hfits := h.fits
  rw [Program.requests] at hfits
  have hglobals : Declarable a.names := by
    refine ⟨(List.nodup_append.mp h.globals_distinct).1, fun τ => ?_⟩
    rw [← demand_globalCells]
    exact hfits.of_append.of_append _
  obtain ⟨d, p, hd⟩ := site_atTop.accepts_all a.names (atTop_start a.name) hglobals
  have hstocked := (site_atTop.steps a.names (atTop_start a.name) hd).stocked
  obtain ⟨bodies, d', hbodies⟩ := hstocked.functions_of_fits 1 h.globals_distinct
    (fun f hf => ⟨h.locals_distinct f hf, h.locals_fit f hf⟩) h.functions hfits.of_append
  obtain ⟨routines, hfunctions, -, -, hall, -⟩ := hstocked.lower_functions hbodies
  have htyped : a.main.WellTyped a.scope (routines.map Routine.function) := hfunctions ▸ h.main
  obtain ⟨main, hmain⟩ := phrase_of_fits hall.lists.knows_main (hall.lists.calls _) a.main
    (1 + bodies.code.length) hall.served htyped hfits
  exact ⟨_, Except.bind_eq_ok.mpr ⟨(d, p), hd, Except.bind_eq_ok.mpr ⟨(bodies, d'), hbodies,
    Except.bind_eq_ok.mpr ⟨main, hmain.lower, rfl⟩⟩⟩⟩

/-- The events of a program are accepted exactly if the program makes sense. -/
theorem ofEvents_ok_iff_wellFormed (a : Program) :
    (∃ o, ObjectFile.ofEvents a.events = .ok o) ↔ a.WellFormed := by
  rw [ofEvents_eq_lower]
  exact ⟨fun ⟨_, h⟩ => wellFormed_of_lower h, lower_of_wellFormed⟩

end Quadlet
