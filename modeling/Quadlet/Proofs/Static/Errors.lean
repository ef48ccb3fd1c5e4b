import Quadlet.Proofs.Lowering.Source
import Quadlet.Proofs.Parser.Refusal
import Quadlet.Proofs.Static.Faults

/-!
# Which errors a compilation reports

The scanner complains about characters and numerals, the parser about tokens, and the draft takes
the events of every tree up to a wrong name, a wrong type or a full segment. Main statement: a
source text that is not compiled is refused with one of these errors, also where the text breaks off
behind some of its events. No stack runs empty, no event is out of place and no jump stays open.
-/

namespace Quadlet

open Syntax

/-- The errors that a source text can be refused with. -/
inductive Error.Reportable (strict : Bool) : Error → Prop where
  /-- A strange character stops a strict compilation only. -/
  | illegal (h : strict = true) (position : Position) (c : Char) :
    Reportable strict (.illegal position c)
  /-- Tokens that come from a text have an end, so no expression is endless. -/
  | grammar (position : Position) {fault : GrammarFault} (h : fault ≠ .endless) :
    Reportable strict (.grammar position fault)
  | truncated : Reportable strict .truncated
  | redeclared (name : String) : Reportable strict (.redeclared name)
  | undeclared (name : String) : Reportable strict (.undeclared name)
  | typing (fault : TypeFault) : Reportable strict (.typing fault)
  | operation (op : Operator) (left right : ValueType) :
    Reportable strict (.operation op left right)
  /-- The only fault of the protocol. -/
  | exhausted (s : Segment) : Reportable strict (.protocol (.exhausted s))

/-- A tree is refused with such an error. -/
theorem Error.IsRefusal.reportable {e : Error} (h : e.IsRefusal) (strict : Bool) :
    e.Reportable strict := by
  obtain h | ⟨s, rfl⟩ := h
  · cases e with
    | redeclared name => exact .redeclared name
    | undeclared name => exact .undeclared name
    | typing fault => exact .typing fault
    | operation op left right => exact .operation op left right
    | _ => cases h
  · exact .exhausted s

/-- A parser that is stuck has such an error. -/
theorem Parse.Stuck.reportable {e : Error} (h : Parse.Stuck e) (strict : Bool) :
    e.Reportable strict := by
  obtain rfl | ⟨position, wanted, found, rfl⟩ := h
  · exact .truncated
  · exact .grammar position (by simp)

namespace Scanner

/-- A piece that stops the scanner is reported. -/
theorem reportable_of_note {s t : Scanner} {c : Char} {cs : List Char} {e : Error}
    (h : note (cut c cs) s = .error e t) : e.Reportable s.strict := by
  have hnoted := noted (cut c cs) s
  rw [h] at hnoted
  cases hnoted with
  | illegal piece strict => exact .illegal strict _ _
  | fault piece =>
    refine .grammar _ ?_
    rintro rfl
    exact (piece_cut_ne c cs).2 piece

/-- A scanner stays strict or not. -/
theorem strict_of_note {s t : Scanner} {k : Cut} (h : note k s = .ok () t) :
    t.strict = s.strict := by
  have hnoted := noted k s
  rw [h] at hnoted
  cases hnoted with
  | gap | token | skipped => rfl

private theorem reportable_of_passPieces {n : Nat} {s t : Scanner} {e : Error}
    (h : passPieces n s = .error e t) : e.Reportable s.strict := by
  induction n generalizing s with
  | zero => cases h
  | succ n ih =>
    obtain h | ⟨u, u', hu, h⟩ := EStateM.bind_eq_error.mp h
    · cases h
    cases hu
    cases hcs : s.rest with
    | nil =>
      rw [hcs] at h
      cases h
    | cons c cs =>
      rw [hcs] at h
      obtain h | ⟨⟨⟩, v, hv, h⟩ := EStateM.bind_eq_error.mp h
      · exact reportable_of_note h
      · exact strict_of_note hv ▸ ih h

/-- A text that cannot be scanned is refused with an error that can be reported. -/
theorem reportable_of_scan {source : String} {strict : Bool} {e : Error} {s : Scanner}
    (h : scan (.ofSource source strict) = .error e s) : e.Reportable strict := by
  obtain h | ⟨u, u', hu, h⟩ := EStateM.bind_eq_error.mp h
  · cases h
  cases hu
  obtain h | ⟨⟨⟩, t, ht, h⟩ := EStateM.bind_eq_error.mp h
  · exact reportable_of_passPieces h
  · cases h

end Scanner

/-- Events of a tree that a new draft refuses are refused because the tree is. -/
theorem isRefusal_of_refuses {a : Program} {e : Error}
    (h : EventSink.Refuses e a.events Draft.empty) : e.IsRefusal := by
  obtain ⟨d, hd⟩ := h
  refine refusing_program a e ?_
  have hevents : a.events.forM Drafting.handle Draft.empty = .error e d := hd
  rw [← ofEvents_eq_lower, ObjectFile.ofEvents, hevents]

/-- Tokens with an end marker that do not become a program are refused by the
grammar or as a tree is. -/
theorem reportable_of_ofTokens {ts : List Token} {eof : EndMarker}
    (hts : ∀ t ∈ ts, t.kind ≠ .endOfFile) {e : Error}
    (h : ObjectFile.ofTokens (ts ++ [eof.val]) = .error e) (strict : Bool) :
    e.Reportable strict := by
  rw [ObjectFile.ofTokens] at h
  rcases hrun : Parser.run (.ofTokens (ts ++ [eof.val])) Draft.empty with ⟨r, q⟩
  rw [hrun] at h
  cases r with
  | error e' =>
    cases h
    obtain hstuck | ⟨a, ha⟩ := Parser.run_eq_error eof hrun
    · exact hstuck.reportable strict
    · exact (isRefusal_of_refuses ha).reportable strict
  | ok u =>
    obtain ⟨a, -, d, hfeed, rfl⟩ := (Parser.run_eq_ok_iff eof hts Draft.empty q).mp hrun
    have hevents : a.events.forM Drafting.handle Draft.empty = .ok () d := hfeed
    have hlower : a.lower = .error e := by
      rw [← ofEvents_eq_lower, ObjectFile.ofEvents, hevents]
      exact h
    exact (refusing_program a e hlower).reportable strict

/-- A source text that is not compiled is refused because of its characters, its grammar, its names,
its types or its size. -/
theorem compile_reportable {source : String} {strict : Bool} {e : Error}
    (h : compile source strict = .error e) : e.Reportable strict := by
  rw [compile] at h
  cases hscan : Scanner.scan (.ofSource source strict) with
  | error e' s =>
    rw [hscan] at h
    cases h
    exact Scanner.reportable_of_scan hscan
  | ok tokens s =>
    rw [hscan] at h
    obtain ⟨ts, eof, hts, rfl⟩ := Scanner.scan_eq_ok hscan
    dsimp only at h
    cases ho : ObjectFile.ofTokens (ts ++ [eof.val]) with
    | error e' =>
      rw [ho] at h
      cases h
      exact reportable_of_ofTokens hts ho strict
    | ok o =>
      rw [ho] at h
      cases h

/-- The theorem at a text that breaks off inside a guard, behind a name that was refused before. -/
theorem compile_reportable_broken_guard :
    compile "program p; main \x7b if (x" false = .error (.undeclared "x") ∧
      Error.Reportable false (.undeclared "x") := by
  have h : compile "program p; main \x7b if (x" false = .error (.undeclared "x") :=
    Except.eq_error_of_error? (by decide +kernel)
  exact ⟨h, compile_reportable h⟩

end Quadlet
