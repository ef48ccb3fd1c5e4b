import Quadlet.Compilation
import Quadlet.Proofs.Lowering.Program
import Quadlet.Proofs.Parser.Grammar

/-!
# From source texts to syntax trees

A source text that is compiled has a syntax tree: the one whose tokens the scanner finds in front of
the end marker. Main statement: the object file of the text is that of the lowering of its tree.
-/

namespace Quadlet

open Syntax

namespace Scanner

/-- The end marker is not found in a text, and no piece of a text is an endless expression. -/
theorem piece_cut_ne (c : Char) (cs : List Char) :
    (cut c cs).piece ≠ .token .endOfFile ∧ (cut c cs).piece ≠ .fault .endless := by
  unfold cut
  split
  · simp
  · split
    · simp
    · split
      · simp
      · split
        · simp
        · split
          · unfold cutString
            split <;> simp
          · split
            · simp only [cutNumber]
              split
              · simp only [floatKind]
                split <;> simp
              · simp only [integerKind]
                split <;> simp
            · split
              · simp only [cutName]
                split <;> simp
              · simp

/-- What the scanner makes of a piece. -/
inductive Noted (k : Cut) (s : Scanner) : EStateM.Result Error Scanner Unit → Prop where
  | gap (piece : k.piece = .gap) : Noted k s (.ok () (s.pass k))
  | token {kind : Token.Kind} (piece : k.piece = .token kind) : Noted k s (.ok ()
    { s.pass k with tokens := (s.pass k).tokens.push ⟨kind, String.ofList k.lexeme, s.placeOf k⟩ })
  | skipped {c : Char} (piece : k.piece = .illegal c) (lenient : s.strict = false) :
    Noted k s (.ok ()
      { s.pass k with diagnostics := (s.pass k).diagnostics.push (.illegal (s.placeOf k) c) })
  | illegal {c : Char} (piece : k.piece = .illegal c) (strict : s.strict = true) :
    Noted k s (.error (.illegal (s.placeOf k) c) (s.pass k))
  | fault {f : GrammarFault} (piece : k.piece = .fault f) :
    Noted k s (.error (.grammar (s.placeOf k) f) (s.pass k))

theorem noted (k : Cut) (s : Scanner) : Noted k s (note k s) := by
  rw [note]
  cases hk : k.piece with
  | gap => exact .gap hk
  | token kind => exact .token hk
  | illegal c =>
    cases hstrict : s.strict with
    | true => exact .illegal hk hstrict
    | false => exact .skipped hk hstrict
  | fault f => exact .fault hk

/-- None of the tokens that were found is an end marker. -/
def Unended (s : Scanner) : Prop := ∀ t ∈ s.tokens, t.kind ≠ .endOfFile

/-- Passing a piece adds no end marker. -/
theorem Unended.note {s t : Scanner} (h : s.Unended) {c : Char} {cs : List Char}
    (hnote : note (cut c cs) s = .ok () t) : t.Unended := by
  have hnoted := noted (cut c cs) s
  rw [hnote] at hnoted
  cases hnoted with
  | gap | skipped => exact h
  | token piece =>
    intro t ht
    rcases Array.mem_push.mp ht with ht | rfl
    · exact h t ht
    · rintro rfl
      exact (piece_cut_ne c cs).1 piece

private theorem Unended.passPieces {s t : Scanner} (h : s.Unended) {n : Nat}
    (hpass : passPieces n s = .ok () t) : t.Unended := by
  induction n generalizing s with
  | zero =>
    cases hpass
    exact h
  | succ n ih =>
    obtain ⟨u, u', hu, hrest⟩ := EStateM.bind_eq_ok.mp hpass
    cases hu
    cases hcs : s.rest with
    | nil =>
      rw [hcs] at hrest
      cases hrest
      exact h
    | cons c cs =>
      rw [hcs] at hrest
      obtain ⟨⟨⟩, v, hv, hrest⟩ := EStateM.bind_eq_ok.mp hrest
      exact ih (h.note hv) hrest

/-- A scan from the start of a text gives tokens with one end marker, at their end. -/
theorem scan_eq_ok {source : String} {strict : Bool} {tokens : List Token} {s : Scanner}
    (h : scan (.ofSource source strict) = .ok tokens s) :
    ∃ (ts : List Token) (eof : EndMarker), (∀ t ∈ ts, t.kind ≠ .endOfFile) ∧
    tokens = ts ++ [eof.val] := by
  obtain ⟨u, u', hu, h⟩ := EStateM.bind_eq_ok.mp h
  cases hu
  obtain ⟨⟨⟩, t, ht, h⟩ := EStateM.bind_eq_ok.mp h
  have hunended : t.Unended := by
    refine Unended.passPieces (fun t ht => ?_) ht
    simp [ofSource] at ht
  cases h
  exact ⟨t.tokens.toList, ⟨⟨.endOfFile, "", t.position⟩, rfl⟩,
    fun k hk => hunended k (Array.mem_toList_iff.mp hk), Array.toList_push⟩

end Scanner

/-- The syntax tree of a source text: its tokens are those that the scanner finds. -/
def Syntax.Program.IsTreeOf (a : Program) (source : String) (strict : Bool) : Prop :=
  ∃ tokens scanner, Scanner.scan (.ofSource source strict) = .ok tokens scanner ∧
    tokens.map Token.kind = a.tokens ++ [.endOfFile]

/-- A source text has one syntax tree at most. -/
theorem Syntax.Program.IsTreeOf.unique {a b : Program} {source : String} {strict : Bool}
    (ha : a.IsTreeOf source strict) (hb : b.IsTreeOf source strict) : a = b := by
  obtain ⟨tokens, s, hscan, hkinds⟩ := ha
  obtain ⟨tokens', s', hscan', hkinds'⟩ := hb
  rw [hscan] at hscan'
  cases hscan'
  apply Program.tokens_injective
  exact List.append_cancel_right (hkinds.symm.trans hkinds')

/-- A source text that is compiled has a syntax tree, and its object file is the one of the tree. -/
theorem lower_of_compile {source : String} {strict : Bool} {c : Compilation}
    (h : compile source strict = .ok c) :
    ∃ a : Program, a.IsTreeOf source strict ∧ a.lower = .ok c.object := by
  rw [compile] at h
  cases hscan : Scanner.scan (.ofSource source strict) with
  | error e s =>
    rw [hscan] at h
    cases h
  | ok tokens s =>
    rw [hscan] at h
    obtain ⟨ts, eof, hts, rfl⟩ := Scanner.scan_eq_ok hscan
    dsimp only at h
    cases ho : ObjectFile.ofTokens (ts ++ [eof.val]) with
    | error e =>
      rw [ho] at h
      cases h
    | ok o =>
      rw [ho] at h
      cases h
      rw [ObjectFile.ofTokens] at ho
      rcases hrun : Parser.run (.ofTokens (ts ++ [eof.val])) Draft.empty with ⟨r, q⟩
      rw [hrun] at ho
      cases r with
      | error e => cases ho
      | ok u =>
        obtain ⟨a, ha, t, hfeed, rfl⟩ := (Parser.run_eq_ok_iff eof hts Draft.empty q).mp hrun
        refine ⟨a, ⟨_, s, hscan, ?_⟩, ?_⟩
        · rw [List.map_append, ha, List.map_singleton, eof.property]
        · have hevents : a.events.forM Drafting.handle Draft.empty = .ok () t := hfeed
          rw [← ofEvents_eq_lower, ObjectFile.ofEvents, hevents]
          exact ho

end Quadlet
