import Quadlet.Proofs.Token.Pieces

/-!
# Numbers are taken as long as they are

Main statement: wherever a scanner stands, it takes the longest float literal, or the longest
integer literal where no float literal starts, except in front of two fractions in a row; there it
fails. The only other failure is an integer past its limit.
-/

namespace Quadlet

open Decimal (readFloat)

namespace Scanner

open Pattern

private theorem line_after_of_solid {w : List Char} (h : Solid w) (p : Position) :
    (p.after w).line = p.line := by
  induction w generalizing p with
  | nil => rfl
  | cons c w ih =>
    have hc : c ≠ '\n' := by
      rintro rfl
      exact absurd (h '\n' (List.mem_cons_self ..)) (by decide)
    have hnext : (p.next c).line = p.line := by rw [Position.next, if_neg hc]
    exact (ih (fun d hd => h d (List.mem_cons_of_mem _ hd)) _).trans hnext

/-- A piece without blanks stands where it starts. -/
theorem placeAt_of_solid {k : Cut} (h : Solid k.lexeme) (p : Position) : k.placeAt p = p := by
  rw [Cut.placeAt, line_after_of_solid h]

/-- The scanner behind characters. -/
def moved (s : Scanner) (w rest : List Char) : Scanner :=
  { s with rest := rest, position := s.position.after w }

/-- The scanner behind characters that it has taken as a token where it stood. -/
def found (s : Scanner) (kind : Token.Kind) (w rest : List Char) : Scanner :=
  { s.moved w rest with tokens := s.tokens.push ⟨kind, String.ofList w, s.position⟩ }

section

variable {s : Scanner} {c : Char} {cs w rest : List Char} (hs : s.rest = c :: cs)
  (hw : Solid w) (n : Nat)

include hs hw

private theorem passPieces_token {kind : Token.Kind} (h : cut c cs = ⟨.token kind, w, rest⟩) :
    passPieces (n + 1) s = passPieces n (s.found kind w rest) := by
  have hplace : s.placeOf (cut c cs) = s.position :=
    placeAt_of_solid (by rw [h]; exact hw) s.position
  refine passPieces_of_note hs ?_ n
  rw [note, hplace, h]
  rfl

private theorem passPieces_fault {f : GrammarFault} (h : cut c cs = ⟨.fault f, w, rest⟩) :
    passPieces (n + 1) s = .error (.grammar s.position f) (s.moved w rest) := by
  refine passPieces_of_error hs ?_ n
  rw [note_of_fault s (by rw [h]), placeAt_of_solid (by rw [h]; exact hw), h]
  rfl

end

/-- The faults of numbers: two fractions in a row, and integers past the limit. -/
inductive NumberFault : GrammarFault → Prop where
  | twoPoints {w : List Char} (h : w ∈ twoPoints.matches') :
    NumberFault (.invalidFloat (String.ofList w))
  | integer {w : List Char} (h : w ∈ integer.matches')
    (limit : Text.Numeral.intLimit < Decimal.valueOf w) :
    NumberFault (.invalidInteger (String.ofList w))

/-- A text has these faults, and strings without an end. -/
theorem fault_cases {c : Char} {cs : List Char} {f : GrammarFault}
    (h : (cut c cs).piece = .fault f) : f = .unterminatedString ∨ NumberFault f := by
  have hfirst := firstPiece_cut c cs
  generalize cut c cs = k at h hfirst
  generalize c :: cs = text at hfirst
  cases hfirst with
  | unclosed isQuote inside =>
    cases h
    exact .inl rfl
  | number number =>
    refine .inr ?_
    generalize k.lexeme ++ k.rest = text at number
    cases number with
    | twoPoints longest =>
      cases h
      exact .twoPoints longest.mem
    | float free longest value => cases h
    | integer free whole longest =>
      rw [integerKind_eq longest.mem] at h
      split at h
      · cases h
      · next hgt =>
        cases h
        exact .integer longest.mem (Nat.not_le.mp hgt)
  | _ => cases h

/-- Wherever a scanner stands in front of a number, with whatever behind it: two fractions in a row
are taken as one number, which is no number; else the longest float literal is taken as a float of
its value; else the longest integer literal is taken as an integer, and fails past the limit. So the
scan of a source text reports no other wrong float, and no other wrong integer, than these. -/
theorem numbers_longest_match (source : String) (strict : Bool) :
    (∀ (s : Scanner) (n : Nat), StartsNumber s.rest → ∃ w rest, s.rest = w ++ rest ∧
      (IsLongest twoPoints.matches' w s.rest ∧
          passPieces (n + 1) s =
            .error (.grammar s.position (.invalidFloat (String.ofList w))) (s.moved w rest) ∨
        NoFront twoPoints.matches' s.rest ∧ IsLongest float.matches' w s.rest ∧
          (∃ x, readFloat w = some x ∧
            passPieces (n + 1) s = passPieces n (s.found (.float x) w rest)) ∨
        NoFront twoPoints.matches' s.rest ∧ NoFront float.matches' s.rest ∧
        IsLongest integer.matches' w s.rest ∧
          passPieces (n + 1) s =
            if Decimal.valueOf w ≤ Text.Numeral.intLimit then
              passPieces n (s.found (.integer (Int64.ofInt (Decimal.valueOf w))) w rest)
            else .error (.grammar s.position (.invalidInteger (String.ofList w)))
              (s.moved w rest))) ∧
    ∀ (p : Position) (f : GrammarFault), scanned source strict = .error (.grammar p f) →
      f = .unterminatedString ∨ NumberFault f := by
  constructor
  · intro s n hstart
    obtain ⟨c, cs, hs⟩ := List.exists_cons_of_ne_nil hstart.ne_nil
    rw [hs] at hstart ⊢
    have hpiece := numberPiece_cut hstart
    refine ⟨(cut c cs).lexeme, (cut c cs).rest, (cut_append c cs).symm, ?_⟩
    generalize hk : cut c cs = k at hpiece
    cases hpiece with
    | twoPoints longest =>
      exact .inl ⟨longest, passPieces_fault hs (solid_twoPoints longest.mem) n hk⟩
    | float free longest value =>
      exact .inr (.inl ⟨free, longest, _, value,
        passPieces_token hs (solid_float longest.mem) n hk⟩)
    | integer free whole longest =>
      refine .inr (.inr ⟨free, whole, longest, ?_⟩)
      rw [integerKind_eq longest.mem] at hk
      split at hk
      · next hle => rw [if_pos hle, passPieces_token hs (solid_integer longest.mem) n hk]
      · next hgt => rw [if_neg hgt, passPieces_fault hs (solid_integer longest.mem) n hk]
  · intro p f h
    obtain ⟨ks, c, cs, -, hf⟩ := exists_fault_of_scanned h
    exact fault_cases hf

/-- The theorem in front of a literal with an exponent that lacks its digits, and on an
integer past the limit. -/
theorem numbers_longest_match_exponent :
    let s := ofSource "12.5e+x" true
    let source := "@ 9223372036854775808"
    let f := GrammarFault.invalidInteger "9223372036854775808"
    (StartsNumber s.rest ∧ ∃ w rest, s.rest = w ++ rest ∧ IsLongest float.matches' w s.rest ∧
      ∃ x, readFloat w = some x ∧ passPieces 7 s = passPieces 6 (s.found (.float x) w rest)) ∧
    scanned source false = .error (.grammar ⟨1, 3⟩ f) ∧ NumberFault f := by
  intro s source f
  have hstart : StartsNumber s.rest := .inl (by decide)
  have hscanned : scanned source false = .error (.grammar ⟨1, 3⟩ f) :=
    Except.eq_error_of_error? (by decide +kernel)
  obtain ⟨hnumbers, hfaults⟩ := numbers_longest_match source false
  refine ⟨⟨hstart, ?_⟩, hscanned, (hfaults _ _ hscanned).resolve_left (by decide)⟩
  obtain ⟨w, rest, hrest, htwo | ⟨-, hfloat, hx⟩ | ⟨-, hnone, -⟩⟩ := hnumbers s 6 hstart
  · exact absurd htwo.1.front (noFront_twoPoints_of_ne (by decide) _ w htwo.1.mem)
  · exact ⟨w, rest, hrest, hfloat, hx⟩
  · exact absurd (by decide) (hnone ['1', '2', '.', '5'] (by decide))

/-- A literal that starts with its point is not taken where another point and a digit come behind
it, though one that starts with a digit is. -/
theorem point_literal_before_point :
    IsLongest float.matches' ['.', '5'] ".5.6".toList ∧
    scanned ".5.6" false = .error (.grammar .start (.invalidFloat ".5.6")) ∧
    (scanned "1.5.6" false).map (List.map Token.lexeme) = .ok ["1.5", ".6", ""] := by
  have hfraction : (splitFraction (".5.6".toList.dropWhile Char.isDigit)).1 ∈
      fraction.matches' := by decide
  refine ⟨isLongest_float hfraction, ?_, ?_⟩
  · exact Except.eq_error_of_error? (by decide +kernel)
  · exact Except.toOption_eq_some.mp (by decide +kernel)

end Scanner

end Quadlet
