import Quadlet.Proofs.Semantics.Handover

/-!
# Calls by value

What a function finds in its frame when its body starts, and what becomes of the frames beneath it.
Main statement: wherever a call of a compiled program is executed, the parameters have the values
that the arguments have in the world of the caller, the other cells of the frame are unwritten, and
the frames beneath stay as they are until execution goes on behind the call.
-/

namespace Quadlet

open Syntax

/-! ## Filled slots -/

namespace Syntax.Variable

variable {lifetime : Lifetime} {before xs : List Parameter} {v : Variable}

/-- The place of a variable is not below the number of names of its type in front. -/
theorem le_index_number (h : v ∈ number lifetime before xs) :
    (before.countP fun y => y.type = v.type) ≤ v.index := by
  induction xs generalizing before with
  | nil => cases h
  | cons x xs ih =>
    rcases List.mem_cons.mp h with rfl | h
    · exact Nat.le_refl _
    · have hle := ih h
      rw [List.countP_append] at hle
      omega

private theorem getElem?_number (lifetime : Lifetime) (before : List Parameter) {k : Nat}
    {p : Parameter} (h : xs[k]? = some p) :
    ∃ v, (number lifetime before xs)[k]? = some v ∧ v.name = p.name ∧ v.lifetime = lifetime ∧
    v.type = p.type := by
  induction xs generalizing before k with
  | nil => cases h
  | cons x xs ih =>
    cases k with
    | zero =>
      cases h
      exact ⟨_, rfl, rfl, rfl, rfl⟩
    | succ k => exact ih _ h

end Syntax.Variable

/-- The first variables get the values, and nothing else is written. -/
theorem Syntax.Slots.get?_fill {before ps rest : List Parameter} {s t : Slots} {xs : List Value}
    (htypes : xs.map Value.type = ps.map fun p => p.type.type)
    (h : s.fill (Variable.number .call before (ps ++ rest)) xs = .ok t) :
    (∀ e ∈ (Variable.number .call before ps).zip xs, t.get? e.1.type e.1.index = some e.2) ∧
      ∀ τ i, (∀ v ∈ Variable.number .call before ps, ¬(v.type = τ ∧ v.index = i)) →
        t.get? τ i = s.get? τ i := by
  induction ps generalizing before s xs with
  | nil =>
    obtain rfl : xs = [] := by simpa using htypes
    rw [fill_nil] at h
    cases h
    exact ⟨by simp [Variable.number], fun _ _ _ => rfl⟩
  | cons p ps ih =>
    obtain ⟨x, ys, rfl, hx, hys⟩ := List.map_eq_cons_iff.mp htypes
    obtain ⟨u, hu, h⟩ := Except.bind_eq_ok.mp h
    obtain ⟨u', hu', hset⟩ :=
      s.set_of_coerce (hx ▸ x.coerce_type) (before.countP fun y => y.type = p.type)
    obtain rfl := Except.ok.inj (hu.symm.trans hu')
    obtain ⟨hvalues, hrest⟩ := ih hys h
    rw [Variable.number]
    constructor
    · rw [List.zip_cons_cons]
      refine List.forall_mem_cons.mpr ⟨?_, hvalues⟩
      -- no later variable has the cell: the places of its type go on behind
      rw [hrest, hset, if_pos ⟨rfl, rfl⟩]
      rintro v hv ⟨hτ, hi⟩
      have hle := Variable.le_index_number hv
      rw [hi, hτ, List.countP_append, List.countP_cons_of_pos (by simp)] at hle
      dsimp only at hle
      omega
    · intro τ i hcells
      obtain ⟨hne, hcells⟩ := List.forall_mem_cons.mp hcells
      rw [hrest τ i hcells, hset, if_neg]
      rintro ⟨rfl, rfl⟩
      exact hne ⟨rfl, rfl⟩

/-! ## Received arguments -/

/-- What a function finds when its body starts: its parameters have the values of the arguments, and
nothing else is written in its frame. -/
structure Syntax.Function.Receives (Γ : Scope) (f : Function) (xs : List Value) (g : Frame)
    (m : Memory) : Prop where
  length : xs.length = f.parameters.length
  parameter : ∀ (k : Nat) (p : Parameter) (x : Value), f.parameters[k]? = some p → xs[k]? = some x →
    ∃ v, Γ p.name = some v ∧ v.segment = ⟨.call, p.type.type⟩ ∧ g.read? v.segment v.index = some x ∧
      m.read v.address = .ok x
  unwritten : ∀ (τ : Numeric) (i : Nat),
    (∀ p ∈ f.parameters, ∀ v, Γ p.name = some v → ¬(v.type = τ ∧ v.index = i)) →
    g.read? ⟨.call, τ.type⟩ i = none

/-- Names that are declared together stand for their variables. -/
theorem Syntax.Function.scope_of_mem {f : Function} (hf : Declarable f.names) {v : Variable}
    (hv : v ∈ f.locals) (outer : Scope) : f.scope outer v.name = some v := by
  have hnodup : (f.locals.map Variable.name).Nodup := by
    rw [Function.locals, Variable.map_name_number]
    exact hf.distinct
  rw [Function.scope, Scope.of, find?_of_nodup Variable.name hnodup hv, Option.some_or]

/-- A frame that shows filled slots holds the arguments. -/
theorem Holds.receives {r : Routine} (hr : Declarable r.function.names) {s : Slots} {g : Frame}
    (h : Holds r s g) {xs : List Value} (htypes : xs.map Value.type = r.function.types)
    (hfill : Slots.empty.fill r.function.locals xs = .ok s) {m : Memory}
    (hread : ∀ v ∈ r.function.locals, ∀ x, s.get? v.type v.index = some x →
      m.read v.address = .ok x)
    (outer : Scope) : r.function.Receives (r.function.scope outer) xs g m := by
  obtain ⟨hvalues, hrest⟩ := Slots.get?_fill htypes hfill
  have hlocals : ∀ v ∈ Variable.number .call [] r.function.parameters, v ∈ r.function.locals := by
    intro v hv
    rw [Function.locals, Function.names, Variable.number_append]
    exact List.mem_append_left _ hv
  constructor
  · have hlength := congrArg List.length htypes
    rw [Function.types, List.length_map, List.length_map] at hlength
    exact hlength
  · intro k p x hp hx
    obtain ⟨v, hv, hname, hlifetime, htype⟩ := Variable.getElem?_number .call [] hp
    have hmem := hlocals v (List.mem_of_getElem? hv)
    have hvalue : s.get? v.type v.index = some x := by
      refine hvalues (v, x) (List.mem_of_getElem? (i := k) ?_)
      rw [List.getElem?_zip_eq_some]
      exact ⟨hv, hx⟩
    have hsegment : v.segment = ⟨.call, v.type.type⟩ := by
      rw [Variable.segment, hlifetime]
    refine ⟨v, ?_, ?_, ?_, hread v hmem x hvalue⟩
    · rw [← hname]
      exact Function.scope_of_mem hr hmem outer
    · rw [hsegment, htype]
    · rw [hsegment, Frame.read?_eq, h.value]
      exact hvalue
  · intro τ i hcells
    rw [Frame.read?_eq, h.value, hrest τ i]
    · cases τ <;> rfl
    · intro v hv
      have hname : v.name ∈ r.function.parameters.map Parameter.name := by
        rw [← Variable.map_name_number .call []]
        exact List.mem_map_of_mem hv
      obtain ⟨p, hp, hpv⟩ := List.mem_map.mp hname
      refine hcells p hp v ?_
      rw [hpv]
      exact Function.scope_of_mem hr (hlocals v hv) outer

/-! ## Executed calls -/

namespace Linked

variable {a : Program} {o : ObjectFile} {routines : List Routine} {main : Nat}

/-- The names at a call stand for variables that have cells while the part of the call is active. -/
theorem placed_scopeOf (h : Linked a o routines) {size i : Nat} {stack : List Routine}
    (hpart : InPart routines main size stack.head? i) {x : String} {v : Variable}
    (hv : a.scopeOf stack.head? x = some v) : Placed o stack v := by
  cases stack with
  | nil => exact h.placed_global hv []
  | cons r stack =>
    cases hpart with
    | body hr => exact h.placed_routine hr hv stack

/-- The main part starts where the tree says. -/
theorem main_eq (h : Linked a o routines) (hshaped : Shaped o routines main) :
    main = a.mainStart := by
  obtain ⟨-, -, -, hentry, -⟩ := h.located_main
  have hsame := Option.some.inj (hshaped.entry.symm.trans hentry)
  exact Int.ofNat.inj (congrArg Quadruple.result hsame)

section

variable (h : Linked a o routines) (hshaped : Shaped o routines main) {limit : Option Nat}
  {m : Machine} (hm : Machine.load o limit = .ok m) {c : Core} (hc : m.core.Leads o.quadruples c)
  {t : Invocation} (ht : t ∈ a.invocations) (hlast : c.ip = t.last)

include h hshaped hm hc ht hlast

/-- At a call, the frame that waits shows the slots with the values that the arguments have in
the world of the caller. -/
theorem waits : ∃ r ∈ routines, r.function.name = t.callee ∧
    o.quadruples[c.ip]? = some ⟨.call, r.id, unused, r.start⟩ ∧
    ∃ stack xs s f, t.arguments.mapM (fun e => e.value t.scope c.memory.world) = .ok xs ∧
      xs.map Value.type = r.function.types ∧ Slots.empty.fill r.function.locals xs = .ok s ∧
      Holds r s f ∧ Mirrors o stack [f] c.memory.world c.memory := by
  obtain ⟨part, hpart, hscope, r, hr, hname, hlowered⟩ := h.lowered ht
  rw [← h.main_eq hshaped] at hpart
  have hsite := hlowered.callSite
  obtain ⟨memory, hload, hmirrors⟩ := h.load limit
  have hframed : Framed o.quadruples routines main m.core := by
    obtain rfl := Except.ok.inj (hload.symm.trans hm)
    exact hmirrors.framed routines main
  have hip : m.ip = 0 := by
    obtain rfl := Except.ok.inj (hload.symm.trans hm)
    rfl
  obtain ⟨e, e', he, hfirst, hallocate, hleads⟩ :=
    hc.through hframed hshaped hip hsite (by rw [hlast]; exact hsite.lt) (Nat.le_of_eq hlast)
  have hq := hsite.first
  rw [← hfirst] at hq hpart
  -- the caller at the first quadruple of the call, with no frame that waits
  obtain ⟨stack, waiting, hwaits, hstack, hcaller⟩ :=
    h.mirrors_world hshaped hm he (hshaped.pos hq (by simp))
  obtain rfl : waiting = [] := hwaits.eq_nil hq rfl (by simp) (by simp)
  obtain rfl := hpart.unique hshaped.consecutive hstack
  obtain ⟨memory', hmemory', hmade⟩ := hcaller.allocate (h.lastFrame? hr)
  obtain ⟨memory'', hmemory'', rfl⟩ := Except.map_eq_ok.mp hallocate
  obtain rfl := Except.ok.inj (hmemory'.symm.trans hmemory'')
  obtain ⟨xs, s, f, hxs, htypes, hfill, hholds, hpassed⟩ := hlowered.passes
    (fun hv => h.placed_scopeOf hstack (by rw [← hscope]; exact hv)) hmade (by rw [← hfirst]; rfl)
      hleads hlast
  have hworld : c.memory.world = e.memory.world := hpassed.world_eq
  rw [hworld, hlast]
  exact ⟨r, hr, hname, hsite.last, stack, xs, s, f, hxs, htypes, hfill, hholds, hpassed⟩

/-- A call that is executed enters its function with the values of the arguments. -/
theorem enters {q : Quadruple} (hq : o.quadruples[c.ip]? = some q) :
    ∃ r ∈ routines, r.function.name = t.callee ∧
    ∃ new beneath xs d g, c.memory.frames = new :: beneath ∧ c.memory.entered = beneath ∧
      t.arguments.mapM (fun e => e.value t.scope c.memory.world) = .ok xs ∧
      c.advance q = .ok d ∧ d.ip = r.start ∧ d.memory.frames = g :: beneath ∧
      r.function.Receives (r.function.scope a.scope) xs g d.memory ∧
      Above beneath c.returns (c.ip + 1) d.memory.frames d.returns := by
  obtain ⟨r, hr, hname, hcall, stack, xs, s, f, hxs, htypes, hfill, hholds, hmirrors⟩ :=
    waits h hshaped hm hc ht hlast
  obtain rfl := Option.some.inj (hq.symm.trans hcall)
  obtain ⟨beneath, hframes, hstacked⟩ := hmirrors.frames
  have hentered := hstacked.entered_eq hframes hmirrors.pending
  obtain ⟨memory, hmemory, hcallee⟩ := hmirrors.enter hholds
  have hadvance : c.advance ⟨.call, r.id, unused, r.start⟩ =
      .ok ⟨memory, (c.ip + 1) :: c.returns, r.start⟩ := by
    change (c.memory.enter >>= _) = _
    rw [hmemory, Except.ok_bind]
    exact Core.jump_eq (t := r.start) rfl
  have htop : memory.frames = { f with pending := false } :: beneath := by
    obtain ⟨f', below, hframes', -, rfl⟩ := Memory.enter_eq_ok.mp hmemory
    obtain ⟨rfl, rfl⟩ := List.cons.inj (hframes.symm.trans hframes')
    rfl
  have hread : ∀ v ∈ r.function.locals, ∀ x, s.get? v.type v.index = some x →
      memory.read v.address = .ok x := by
    intro v hv x hx
    have hplaced := h.placed_routine hr (Function.scope_of_mem (h.declarable r hr) hv a.scope) stack
    rw [hcallee.read hplaced, World.read_eq, World.find?_call (Variable.mem_number hv).1 rfl, hx,
      Option.some_or]
    rfl
  have hreceives := Holds.receives (g := { f with pending := false }) (h.declarable r hr)
    (hholds.congr fun τ => by cases τ <;> rfl) htypes hfill hread a.scope
  refine ⟨r, hr, hname, f, beneath, xs, _, _, hframes, hentered, hxs, hadvance, rfl, htop,
    hreceives, ?_⟩
  rw [htop]
  exact .call rfl

end

end Linked

/-- A program that hands numbers of both types over. -/
def mixture : String :=
  "program p; var z : float; " ++
  "void f(n : int, x : float, k : int) [ var y : float; \x7b print(n, x, k); \x7d ]; " ++
  "main \x7b z = 2.5; f(1, z * 2, 3); \x7d end"

/-- Runs of the program lead to its call. -/
theorem mixture_calls :
    ∃ c m m' q, compile mixture true = .ok c ∧ Machine.load c.object none = .ok m ∧ m.Reached m' ∧
      c.object.quadruples[m'.ip]? = some q ∧ q.op = .call := by
  have hcall : ((compile mixture true).toOption.bind fun c =>
      (Machine.load c.object none).toOption.bind fun m =>
      (c.object.quadruples[(Machine.run (.total fun _ out => out) 7 m ()).2.1.ip]?).map
        Quadruple.op) = some .call := by
    decide +kernel
  obtain ⟨c, hc, hcall⟩ := Option.bind_eq_some_iff.mp hcall
  obtain ⟨m, hm, hcall⟩ := Option.bind_eq_some_iff.mp hcall
  obtain ⟨q, hq, hop⟩ := Option.map_eq_some_iff.mp hcall
  exact ⟨c, m, _, q, Except.toOption_eq_some.mp hc, Except.toOption_eq_some.mp hm,
    .run .start _ 7 (), hq, hop⟩

/-- Every call of a compiled program is a call by value. Whenever runs, one after the other, lead to
a call, the arguments have values in the world that the entered calls show; the next step starts the
body of the function in a frame in which the parameters have these values and nothing else is
written; and whatever steps are taken or fail in the call, the frames beneath stay as they are until
it ends, when execution goes on behind it. -/
theorem compile_calls_by_value {source : String} {strict : Bool} {c : Compilation}
    (h : compile source strict = .ok c) :
    ∃ a : Program, a.IsTreeOf source strict ∧ ∀ limit, ∃ m, Machine.load c.object limit = .ok m ∧
      ∀ m' q, m.Reached m' → c.object.quadruples[m'.ip]? = some q → q.op = .call →
        ∃ t f new beneath xs d g,
          a.invocation? m'.ip = some t ∧ (d.ip, f) ∈ a.bodies ∧ f.name = t.callee ∧
          m'.memory.frames = new :: beneath ∧ m'.memory.entered = beneath ∧
          t.arguments.mapM (fun e => e.value t.scope m'.memory.world) = .ok xs ∧
          (∀ {ω : Type} (printer : Printer ω) (out : ω),
            Machine.step printer q (m', out) = .ok () (d, out)) ∧
          d.memory.frames = g :: beneath ∧ f.Receives (f.scope a.scope) xs g d.memory ∧
          ∀ e, d.Inside beneath.length e → beneath <:+ e.memory.frames ∧
            (e.memory.frames = beneath → e.ip = m'.ip + 1 ∧ e.returns = m'.returns) := by
  obtain ⟨a, htree, hlower⟩ := lower_of_compile h
  obtain ⟨routines, hlinked⟩ := linked_of_lower hlower
  obtain ⟨main, hshaped⟩ := hlinked.shaped
  refine ⟨a, htree, fun limit => ?_⟩
  obtain ⟨memory, hload, hmirrors⟩ := hlinked.load limit
  have hstart := hmirrors.framed routines main
  have hprompt := hshaped.prompt (m := ⟨c.object.quadruples, memory, [], 0, 0, limit⟩) rfl hstart
  refine ⟨_, hload, fun m' q hm' hq hop => ?_⟩
  have hfollows := hm'.follows hprompt
  obtain ⟨t, hfound, ht, hlast⟩ := hlinked.find?_invocation hq hop
  obtain ⟨r, hr, hname, new, beneath, xs, d, g, hframes, hentered, hxs, hd, hip, htop,
    hreceives, habove⟩ :=
    hlinked.enters hshaped hload hfollows.leads ht hlast hq
  have hbody : (d.ip, r.function) ∈ a.bodies := by
    rw [hlinked.bodies_eq, hip]
    exact List.mem_map_of_mem hr
  refine ⟨t, r.function, new, beneath, xs, m'.stand d, g, hfound, hbody, hname, hframes,
    hentered, hxs, Machine.step_of_advance_call hop hd, htop, hreceives, fun e he => ?_⟩
  have hstep : m'.Follows (m'.stand d) :=
    ⟨rfl, rfl, Core.Leads.refl.step (hfollows.program ▸ hq) hd⟩
  have hentry := hfollows.trans hstep
  have hframed := hstart.leads hshaped hentry.leads
  rcases he.above hentry.program (hentry.prompt hprompt) hshaped hframed habove with
    habove | ⟨hsame, hreturns, hback⟩
  · exact ⟨habove.suffix, fun hsame => absurd hsame habove.ne⟩
  · exact ⟨hsame ▸ List.suffix_refl _, fun _ => ⟨hback, hreturns⟩⟩

/-- The theorem at a program that hands numbers of both types over, where a run leads to the
call. -/
theorem compile_calls_by_value_mixture : ∃ c, compile mixture true = .ok c ∧
    (∃ m m' q, Machine.load c.object none = .ok m ∧ m.Reached m' ∧
      c.object.quadruples[m'.ip]? = some q ∧ q.op = .call) ∧
    ∃ a : Program, a.IsTreeOf mixture true ∧ ∀ limit, ∃ m, Machine.load c.object limit = .ok m ∧
      ∀ m' q, m.Reached m' → c.object.quadruples[m'.ip]? = some q → q.op = .call →
        ∃ t f new beneath xs d g,
          a.invocation? m'.ip = some t ∧ (d.ip, f) ∈ a.bodies ∧ f.name = t.callee ∧
          m'.memory.frames = new :: beneath ∧ m'.memory.entered = beneath ∧
          t.arguments.mapM (fun e => e.value t.scope m'.memory.world) = .ok xs ∧
          (∀ {ω : Type} (printer : Printer ω) (out : ω),
            Machine.step printer q (m', out) = .ok () (d, out)) ∧
          d.memory.frames = g :: beneath ∧ f.Receives (f.scope a.scope) xs g d.memory ∧
          ∀ e, d.Inside beneath.length e → beneath <:+ e.memory.frames ∧
            (e.memory.frames = beneath → e.ip = m'.ip + 1 ∧ e.returns = m'.returns) := by
  obtain ⟨c, m, m', q, hc, hcalls⟩ := mixture_calls
  exact ⟨c, hc, ⟨m, m', q, hcalls⟩, compile_calls_by_value hc⟩

end Quadlet
