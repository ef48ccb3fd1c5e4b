import Quadlet.Machine.Basic
import Quadlet.Proofs.Object.Text
import Quadlet.Proofs.Shape.Frames
import Quadlet.Proofs.Shape.Size

/-!
# Compiled programs can be stored

The numbers in a compiled program are addresses of the layout, marks of unused fields, and indices
and positions that are no larger than the program. Main statement: saving a program and loading it
again changes nothing, for programs that can be stored, which compiled and loaded programs are.
-/

namespace Quadlet

open Syntax Request Planner Text.Numeral

/-! ## Unused fields -/

/-- A field that holds no address, no index and no position is marked as unused. -/
structure Quadruple.Marked (q : Quadruple) : Prop where
  left : q.left ∈ q.addresses ∨ q.left = unused
  right : q.right ∈ q.addresses ∨ q.right = unused
  result : q.result ∈ q.addresses ∨ (q.op.isJump = true ∨ q.op = .param) ∨ q.result = unused

private theorem Emitted.marked {env : Environment} {q : Quadruple} (h : Emitted env q) :
    q.Marked := by
  cases h with
  | operation op hop left right =>
    have hop := Operator.isOperator_opcode hop
    constructor <;> rw [Quadruple.addresses_of_isOperator hop] <;> simp
  | assign | print | goto | gotoFalse | gotoTrue | allocate | param | call =>
    constructor <;> simp [Quadruple.addresses, Opcode.isJump]

/-- The quadruples of a lowered program are marked. -/
theorem marked_of_lower {a : Program} {o : ObjectFile} (h : a.lower = .ok o) :
    ∀ q ∈ o.quadruples, q.Marked := by
  obtain ⟨⟨d, p⟩, -, h⟩ := Except.bind_eq_ok.mp h
  obtain ⟨⟨bodies, d'⟩, hbodies, h⟩ := Except.bind_eq_ok.mp h
  obtain ⟨main, hmain, h⟩ := Except.bind_eq_ok.mp h
  cases h
  intro q hq
  rcases List.mem_append.mp (List.mem_toArray.mp hq) with hq | hq
  · rcases List.mem_cons.mp hq with rfl | hq
    · exact ⟨.inr rfl, .inr rfl, .inr (.inl (.inl rfl))⟩
    · obtain ⟨env, hemitted⟩ | rfl := Draft.emitted_functions hbodies q hq
      · exact hemitted.marked
      · exact ⟨.inr rfl, .inr rfl, .inr (.inr rfl)⟩
  · exact (emitted_phrase (Phrase.lowers_of_lower hmain) q hq).marked

/-! ## Numbers in quadruples -/

private theorem ObjectFile.Covers.isInt {o : ObjectFile} {frame : Option FrameSize} {a : Address}
    (h : o.Covers frame a) : IsInt a := by
  obtain ⟨s, i, hlocate, -⟩ := h
  refine Segment.isInt_of_ofAddress? (s := s) ?_
  rw [Segment.ofAddress?, hlocate, Option.map_some]

/-- The addresses in a program fit 64 bits. -/
theorem Shaped.isInt_of_mem_addresses {o : ObjectFile} {routines : List Routine} {main : Nat}
    (h : Shaped o routines main) {i : Nat} {q : Quadruple} (hq : o.quadruples[i]? = some q) :
    ∀ b ∈ q.addresses, IsInt b := by
  by_cases hop : q.op = .goto
  · simp [Quadruple.addresses, hop]
  · obtain ⟨frame, hsized⟩ := h.exists_sized hq hop
    exact fun b hb => (hsized.covered b hb).isInt

/-- The position of an argument is below the number of quadruples. -/
theorem CallSite.position_lt {program : Array Quadruple} {r : Routine} {i j k : Nat}
    (h : CallSite program r j k) (hj : j < i) (hk : i < k) {q : Quadruple}
    (hq : program[i]? = some q) (hop : q.op = .param) :
    ∃ t : Nat, q.result = t ∧ t < program.size := by
  have hsize : k < program.size := (Array.getElem?_eq_some_iff.mp h.last).1
  obtain ⟨arguments, hcode, rfl, -, hpositions⟩ := h
  obtain ⟨n, rfl⟩ := Nat.exists_eq_add_of_lt hj
  have hn : n < arguments.length := by omega
  have hget := hcode.left.tail.getElem? hn
  rw [Nat.add_right_comm, hq] at hget
  have hmem : q ∈ arguments.filter fun q => q.op = .param := by
    rw [List.mem_filter]
    exact ⟨List.mem_of_getElem? hget.symm, decide_eq_true hop⟩
  have hresult := List.mem_map_of_mem (f := Quadruple.result) hmem
  have hlength := congrArg List.length hpositions
  rw [hpositions] at hresult
  obtain ⟨t, ht, heq⟩ := List.mem_map.mp hresult
  have hfilter := List.length_filter_le (fun q : Quadruple => q.op = .param) arguments
  simp only [List.length_map, List.length_range] at hlength
  rw [List.mem_range] at ht
  exact ⟨t, heq.symm, by omega⟩

/-- The indices and positions in a program are no larger than the program. -/
theorem Shaped.result_le {o : ObjectFile} {routines : List Routine} {main : Nat}
    (h : Shaped o routines main) {i : Nat} {q : Quadruple} (hq : o.quadruples[i]? = some q)
    (hop : q.op.isJump = true ∨ q.op = .param) :
    ∃ t : Nat, q.result = t ∧ t ≤ o.quadruples.size := by
  rcases hop with hop | hop
  · obtain ⟨t, ht, j, q', rfl, hq', -⟩ := h.landing i q hq hop
    exact ⟨j + 1, ht, (Array.getElem?_eq_some_iff.mp hq').1⟩
  · obtain ⟨r, -, j, k, hsite, hj, hk⟩ := h.params i q hq hop
    obtain ⟨t, ht, hlt⟩ := hsite.position_lt hj hk hq hop
    exact ⟨t, ht, Nat.le_of_lt hlt⟩

/-! ## Compiled programs -/

private theorem isCount_of_le_size {n : Nat} (h : n ≤ Segment.size) : IsCount n :=
  Nat.le_trans h (by decide)

private theorem isInt_of_le {n : Nat} (h : n ≤ intLimit) : IsInt n := by
  simp only [IsInt]
  omega

/-- A lowered program can be stored if its quadruples can be counted. -/
theorem storable_of_lower {a : Program} {o : ObjectFile} (h : a.lower = .ok o)
    (hsize : o.quadruples.size ≤ intLimit) : o.Storable := by
  obtain ⟨routines, hlinked⟩ := linked_of_lower h
  obtain ⟨main, hshaped⟩ := hlinked.shaped
  obtain ⟨more, p, hserved, hmemory, hconstants⟩ := hlinked.supplies
  constructor
  · intro s hs
    rw [hmemory] at hs
    obtain ⟨t, ht, rfl⟩ := List.mem_map.mp hs
    refine ⟨ht, isCount_of_le_size ?_⟩
    dsimp only
    rw [hserved.count]
    exact hserved.fits t
  · intro f hf
    rw [hlinked.frames] at hf
    obtain ⟨r, hr, rfl⟩ := List.mem_map.mp hf
    have hfits := (hlinked.declarable r hr).fits
    exact ⟨(hlinked.covers_id hr none).isInt, isCount_of_le_size (hfits .int),
      isCount_of_le_size (hfits .float)⟩
  · intro c hc
    rw [hconstants, Array.mem_toList_iff] at hc
    obtain ⟨i, hlocate, -⟩ := locate?_constant hserved hc
    exact ⟨⟨.constant, c.literal.type⟩, by rw [Segment.ofAddress?, hlocate, Option.map_some],
      rfl, rfl⟩
  · intro q hq
    obtain ⟨i, hi⟩ := Array.getElem?_of_mem hq
    have haddresses := hshaped.isInt_of_mem_addresses hi
    have hunused : IsInt unused := by decide
    obtain ⟨hleft, hright, hresult⟩ := marked_of_lower h q hq
    refine ⟨?_, ?_, ?_⟩
    · exact hleft.elim (haddresses _) fun heq => heq ▸ hunused
    · exact hright.elim (haddresses _) fun heq => heq ▸ hunused
    · rcases hresult with hmem | hop | heq
      · exact haddresses _ hmem
      · obtain ⟨t, ht, hle⟩ := hshaped.result_le hi hop
        rw [ht]
        exact isInt_of_le (Nat.le_trans hle hsize)
      · rw [heq]
        exact hunused

/-- The object file of a source text can be stored, unless the text has more
characters than can be counted. -/
theorem storable_of_compile {source : String} {strict : Bool} {c : Compilation}
    (h : compile source strict = .ok c) (hsource : source.length ≤ intLimit) :
    c.object.Storable := by
  obtain ⟨a, htree, hlower⟩ := lower_of_compile h
  refine storable_of_lower hlower ?_
  calc c.object.quadruples.size ≤ a.tokens.length := Program.size_lower hlower
    _ ≤ source.length := htree.length_tokens
    _ ≤ intLimit := hsource

namespace ObjectFile

/-- What a program does: how it ends, the machine at the end with the steps that it has counted,
and what was printed. -/
def execute {ω : Type} (o : ObjectFile) (printer : Printer ω) (limit : Option Nat)
    (fuel : Nat) (out : ω) : Except Error (Machine.Outcome × Machine × ω) := do
  return (← Machine.load o limit).run printer fuel out

/-- Saving a program and loading it again changes nothing, for programs that can be stored. Every
program that was loaded can be stored, and every compiled one, so a compiled program does the same
when it is run as when it is saved, loaded and then run. Source texts of more characters than can be
counted are left aside. -/
theorem saving_changes_nothing :
    (∀ o : ObjectFile, o.Storable → ofText o.text = .ok o) ∧
      (∀ (t : String) (o : ObjectFile), ofText t = .ok o → o.Storable ∧ ofText o.text = .ok o) ∧
      ∀ (source : String) (strict : Bool), source.length ≤ intLimit →
        (∀ c, compile source strict = .ok c → c.object.Storable) ∧
        ∀ {ω : Type} (printer : Printer ω) (limit : Option Nat) (fuel : Nat) (out : ω),
          (compile source strict >>= fun c =>
            ofText c.object.text >>= fun o => o.execute printer limit fuel out) =
          compile source strict >>= fun c => c.object.execute printer limit fuel out := by
  refine ⟨fun o h => ofText_text h, fun t o h => ?_,
    fun source strict hsource => ⟨fun c h => ?_, ?_⟩⟩
  · exact ⟨storable_of_ofText h, ofText_text (storable_of_ofText h)⟩
  · exact storable_of_compile h hsource
  · intro ω printer limit fuel out
    cases hc : compile source strict with
    | error e => rw [Except.error_bind, Except.error_bind]
    | ok c =>
      rw [Except.ok_bind, Except.ok_bind, ofText_text (storable_of_compile hc hsource),
        Except.ok_bind]

/-- A program with numbers at their limits, a constant that is no number and
a text full of marks. -/
def strange : ObjectFile :=
  ⟨⟨[⟨⟨.global, .void⟩, countLimit⟩, ⟨⟨.global, .void⟩, 0⟩], [⟨intLimit, 0, countLimit⟩]⟩,
    [⟨7000, .int Int64.minValue⟩, ⟨8999, .float (0.0 / 0.0)⟩, ⟨9000, .string "%%\n\" a, \\ \x7b "⟩],
    #[⟨.leave, intLimit, unused, -(intLimit : Int) - 1⟩]⟩

private theorem storable_strange : strange.Storable := by
  constructor
  · simp only [strange, List.forall_mem_cons]
    exact ⟨by decide, by decide, by simp⟩
  · simp only [strange, List.forall_mem_cons]
    exact ⟨by decide, by simp⟩
  · simp only [strange, List.forall_mem_cons]
    exact ⟨⟨⟨.constant, .int⟩, by decide⟩, ⟨⟨.constant, .float⟩, by decide⟩,
      ⟨⟨.constant, .string⟩, by decide⟩, by simp⟩
  · simp only [strange, List.mem_toArray, List.forall_mem_cons]
    exact ⟨by decide, by simp⟩

/-- A source text that prints a text and a fraction. -/
def tenth : String := "program p; main \x7b print(\"%%\", 0.1); \x7d end"

/-- The theorem at a strange program, and at a source text that prints a text and a fraction. -/
theorem saving_changes_nothing_strange :
    (strange.Storable ∧ ofText strange.text = .ok strange) ∧
      ∃ c, compile tenth true = .ok c ∧ c.object.Storable ∧
        ∀ limit fuel, (ofText c.object.text >>= fun o => o.execute .endless limit fuel "") =
          c.object.execute .endless limit fuel "" := by
  obtain ⟨c, hc⟩ : ∃ c, compile tenth true = .ok c := Except.exists_ok_of_isOk (by decide +kernel)
  obtain ⟨hstored, -, hcompiled⟩ := saving_changes_nothing
  obtain ⟨hstorable, hruns⟩ := hcompiled tenth true (by decide +kernel)
  refine ⟨⟨storable_strange, hstored strange storable_strange⟩, c, hc, hstorable c hc,
    fun limit fuel => ?_⟩
  have hruns := hruns .endless limit fuel ""
  rw [hc, Except.ok_bind, Except.ok_bind] at hruns
  exact hruns

end ObjectFile

end Quadlet
