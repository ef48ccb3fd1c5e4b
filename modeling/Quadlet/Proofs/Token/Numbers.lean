import Mathlib.Computability.RegularExpressions
import Quadlet.Proofs.Decimal.Floats
import Quadlet.Proofs.Token.Passing

/-!
# Number literals

The literals of numbers as regular expressions, and what the scanner makes of a text that starts
with a number. Main statement: such a text is cut behind its longest float literal, or behind its
longest integer literal where no float literal starts, except where two fractions come in a row;
these are cut off together.
-/

namespace Quadlet

open Decimal (AreDigits Ended readFloat)

/-! ## Patterns -/

namespace Pattern

/-- One of the given characters. -/
def anyOf : List Char → RegularExpression Char
  | [] => 0
  | c :: cs => .char c + anyOf cs

/-- A decimal digit, `[0-9]`. -/
def digit : RegularExpression Char := anyOf ['0', '1', '2', '3', '4', '5', '6', '7', '8', '9']

/-- An integer literal, `[0-9]+`. -/
def integer : RegularExpression Char := digit * digit.star

/-- A point with digits behind it, `\.[0-9]+`. -/
def fraction : RegularExpression Char := .char '.' * integer

/-- An exponent, `[eE][+-]?[0-9]+`. -/
def exponent : RegularExpression Char := anyOf ['e', 'E'] * (1 + anyOf ['+', '-']) * integer

/-- A float literal, `[0-9]*\.[0-9]+([eE][+-]?[0-9]+)?`. -/
def float : RegularExpression Char := digit.star * fraction * (1 + exponent)

/-- Two fractions in a row, with nothing before them: `\.[0-9]+\.[0-9]+([eE][+-]?[0-9]+)?`. -/
def twoPoints : RegularExpression Char := fraction * fraction * (1 + exponent)

private theorem mem_anyOf {cs w : List Char} : w ∈ (anyOf cs).matches' ↔ ∃ c ∈ cs, w = [c] := by
  induction cs with
  | nil => simp [anyOf]
  | cons c cs ih =>
    rw [anyOf, RegularExpression.matches'_add, Language.mem_add, ih, List.exists_mem_cons_iff]
    rfl

theorem isDigit_iff {c : Char} :
    c.isDigit = true ↔ c ∈ ['0', '1', '2', '3', '4', '5', '6', '7', '8', '9'] := by
  constructor
  · intro h
    obtain ⟨hlow, hhigh⟩ : 48 ≤ c.toNat ∧ c.toNat ≤ 57 := by
      simpa [Char.isDigit, UInt32.le_iff_toNat_le] using h
    rw [← Char.ofNat_toNat c]
    generalize c.toNat = n at hlow hhigh
    interval_cases n <;> decide
  · intro h
    exact List.all_eq_true.mp (by decide) c h

private theorem mem_digit {w : List Char} :
    w ∈ digit.matches' ↔ ∃ c, c.isDigit = true ∧ w = [c] := by
  rw [digit, mem_anyOf]
  simp only [isDigit_iff]

private theorem mem_star_digit {w : List Char} : w ∈ digit.star.matches' ↔ AreDigits w := by
  rw [RegularExpression.matches'_star, Language.mem_kstar]
  constructor
  · rintro ⟨ws, rfl, hws⟩ c hc
    obtain ⟨v, hv, hcv⟩ := List.mem_flatten.mp hc
    obtain ⟨d, hd, rfl⟩ := mem_digit.mp (hws v hv)
    rw [List.mem_singleton.mp hcv]
    exact hd
  · intro h
    refine ⟨w.map fun c => [c], ?_, ?_⟩
    · induction w with
      | nil => rfl
      | cons c w ih => simpa using ih fun d hd => h d (List.mem_cons_of_mem _ hd)
    · intro v hv
      obtain ⟨c, hc, rfl⟩ := List.mem_map.mp hv
      exact mem_digit.mpr ⟨c, h c hc, rfl⟩

/-- An integer literal is a row of digits. -/
theorem mem_integer {w : List Char} : w ∈ integer.matches' ↔ w ≠ [] ∧ AreDigits w := by
  rw [integer, RegularExpression.matches'_mul, Language.mem_mul]
  constructor
  · rintro ⟨v, hv, ds, hds, rfl⟩
    obtain ⟨c, hc, rfl⟩ := mem_digit.mp hv
    refine ⟨by simp, ?_⟩
    rintro d hd
    obtain rfl | hd := List.mem_cons.mp hd
    · exact hc
    · exact mem_star_digit.mp hds d hd
  · rintro ⟨hne, h⟩
    cases w with
    | nil => exact absurd rfl hne
    | cons c ds =>
      exact ⟨[c], mem_digit.mpr ⟨c, h c (List.mem_cons_self ..), rfl⟩, ds,
        mem_star_digit.mpr fun d hd => h d (List.mem_cons_of_mem _ hd), rfl⟩

theorem mem_fraction {w : List Char} :
    w ∈ fraction.matches' ↔ ∃ ds, ds ≠ [] ∧ AreDigits ds ∧ w = '.' :: ds := by
  rw [fraction, RegularExpression.matches'_mul, Language.mem_mul]
  constructor
  · rintro ⟨v, rfl, ds, hds, rfl⟩
    obtain ⟨hne, hds⟩ := mem_integer.mp hds
    exact ⟨ds, hne, hds, rfl⟩
  · rintro ⟨ds, hne, hds, rfl⟩
    exact ⟨['.'], rfl, ds, mem_integer.mpr ⟨hne, hds⟩, rfl⟩

/-- The signs that the digits of an exponent may stand behind. -/
def exponentSigns : List (List Char) := [[], ['+'], ['-']]

theorem mem_exponent {w : List Char} :
    w ∈ exponent.matches' ↔ ∃ m sign ds, (m = 'e' ∨ m = 'E') ∧ sign ∈ exponentSigns ∧ ds ≠ [] ∧
      AreDigits ds ∧ w = m :: (sign ++ ds) := by
  have hsign {v : List Char} :
      v ∈ (1 + anyOf ['+', '-'] : RegularExpression Char).matches' ↔ v ∈ exponentSigns := by
    rw [RegularExpression.matches'_add, Language.mem_add, RegularExpression.matches'_epsilon,
      Language.mem_one, mem_anyOf]
    simp [exponentSigns]
  rw [exponent, RegularExpression.matches'_mul, RegularExpression.matches'_mul, Language.mem_mul]
  constructor
  · rintro ⟨u, hu, ds, hds, rfl⟩
    obtain ⟨m, hm, sign, hs, rfl⟩ := Language.mem_mul.mp hu
    obtain ⟨c, hc, rfl⟩ := mem_anyOf.mp hm
    obtain ⟨hne, hds⟩ := mem_integer.mp hds
    exact ⟨c, sign, ds, by simpa using hc, hsign.mp hs, hne, hds, by simp⟩
  · rintro ⟨m, sign, ds, hm, hs, hne, hds, rfl⟩
    exact ⟨m :: sign, Language.mem_mul.mpr ⟨[m], mem_anyOf.mpr ⟨m, by simpa using hm, rfl⟩, sign,
      hsign.mpr hs, rfl⟩, ds, mem_integer.mpr ⟨hne, hds⟩, by simp⟩

/-- An exponent or nothing. -/
theorem mem_tail {w : List Char} :
    w ∈ (1 + exponent : RegularExpression Char).matches' ↔ w = [] ∨ w ∈ exponent.matches' := by
  rw [RegularExpression.matches'_add, Language.mem_add, RegularExpression.matches'_epsilon,
    Language.mem_one]

/-- Behind the digits of a fraction, an exponent starts with no digit. -/
theorem ended_tail {e : List Char} (h : e = [] ∨ e ∈ exponent.matches') : Ended e := by
  obtain rfl | h := h
  · exact Decimal.ended_nil
  · obtain ⟨m, sign, ds, hm, -, -, -, rfl⟩ := mem_exponent.mp h
    obtain rfl | rfl := hm <;> simp [Ended]

theorem mem_float {w : List Char} :
    w ∈ float.matches' ↔ ∃ whole f e, AreDigits whole ∧ f ∈ fraction.matches' ∧
      (e = [] ∨ e ∈ exponent.matches') ∧ w = whole ++ (f ++ e) := by
  rw [float, RegularExpression.matches'_mul, RegularExpression.matches'_mul, Language.mem_mul]
  constructor
  · rintro ⟨u, hu, e, he, rfl⟩
    obtain ⟨whole, hwhole, f, hf, rfl⟩ := Language.mem_mul.mp hu
    exact ⟨whole, f, e, mem_star_digit.mp hwhole, hf, mem_tail.mp he, List.append_assoc ..⟩
  · rintro ⟨whole, f, e, hwhole, hf, he, rfl⟩
    exact ⟨whole ++ f, Language.mem_mul.mpr ⟨whole, mem_star_digit.mpr hwhole, f, hf, rfl⟩, e,
      mem_tail.mpr he, List.append_assoc ..⟩

theorem mem_twoPoints {w : List Char} :
    w ∈ twoPoints.matches' ↔ ∃ f g e, f ∈ fraction.matches' ∧ g ∈ fraction.matches' ∧
      (e = [] ∨ e ∈ exponent.matches') ∧ w = f ++ (g ++ e) := by
  rw [twoPoints, RegularExpression.matches'_mul, RegularExpression.matches'_mul, Language.mem_mul]
  constructor
  · rintro ⟨u, hu, e, he, rfl⟩
    obtain ⟨f, hf, g, hg, rfl⟩ := Language.mem_mul.mp hu
    exact ⟨f, g, e, hf, hg, mem_tail.mp he, List.append_assoc ..⟩
  · rintro ⟨f, g, e, hf, hg, he, rfl⟩
    exact ⟨f ++ g, Language.mem_mul.mpr ⟨f, hf, g, hg, rfl⟩, e, mem_tail.mpr he,
      List.append_assoc ..⟩

/-! ### The characters of numbers -/

/-- No blank stands in a text. -/
def Solid (w : List Char) : Prop := ∀ c ∈ w, Scanner.isSpace c = false

private theorem Solid.append {v w : List Char} (hv : Solid v) (hw : Solid w) : Solid (v ++ w) := by
  intro c hc
  obtain hc | hc := List.mem_append.mp hc
  · exact hv c hc
  · exact hw c hc

theorem isSpace_of_isNamePart {c : Char} (h : Scanner.isNamePart c = true) :
    Scanner.isSpace c = false := by
  have hne (d : Char) (hd : Scanner.isNamePart d = false) : c ≠ d := by
    rintro rfl
    rw [h] at hd
    cases hd
  simp [Scanner.isSpace, hne ' ' (by decide), hne '\r' (by decide), hne '\t' (by decide),
    hne '\n' (by decide)]

private theorem solid_digits {w : List Char} (h : AreDigits w) : Solid w := fun c hc =>
  isSpace_of_isNamePart (by simp [Scanner.isNamePart, Char.isAlphanum, h c hc])

theorem solid_integer {w : List Char} (h : w ∈ integer.matches') : Solid w :=
  solid_digits (mem_integer.mp h).2

private theorem solid_fraction {w : List Char} (h : w ∈ fraction.matches') : Solid w := by
  obtain ⟨ds, -, hds, rfl⟩ := mem_fraction.mp h
  exact Solid.append (v := ['.']) (by simp [Solid, Scanner.isSpace]) (solid_digits hds)

private theorem solid_tail {w : List Char} (h : w = [] ∨ w ∈ exponent.matches') : Solid w := by
  obtain rfl | h := h
  · simp [Solid]
  · obtain ⟨m, sign, ds, hm, hsign, -, hds, rfl⟩ := mem_exponent.mp h
    have hfront : Solid (m :: sign) := by
      simp only [exponentSigns, List.mem_cons, List.not_mem_nil, or_false] at hsign
      obtain rfl | rfl := hm <;> obtain rfl | rfl | rfl := hsign <;> simp [Solid, Scanner.isSpace]
    exact hfront.append (solid_digits hds)

theorem solid_float {w : List Char} (h : w ∈ float.matches') : Solid w := by
  obtain ⟨whole, f, e, hwhole, hf, he, rfl⟩ := mem_float.mp h
  exact (solid_digits hwhole).append ((solid_fraction hf).append (solid_tail he))

theorem solid_twoPoints {w : List Char} (h : w ∈ twoPoints.matches') : Solid w := by
  obtain ⟨f, g, e, hf, hg, he, rfl⟩ := mem_twoPoints.mp h
  exact (solid_fraction hf).append ((solid_fraction hg).append (solid_tail he))

/-! ### The values of numbers -/

/-- A float literal is read as a double. -/
theorem readFloat_of_mem_float {w : List Char} (h : w ∈ float.matches') :
    ∃ x, readFloat w = some x := by
  obtain ⟨whole, f, e, hwhole, hf, he, rfl⟩ := mem_float.mp h
  obtain ⟨ds, hne, hds, rfl⟩ := mem_fraction.mp hf
  obtain ⟨n, hn⟩ : ∃ n, Decimal.readExponent e = some n := by
    obtain rfl | he := he
    · exact ⟨0, rfl⟩
    · obtain ⟨m, sign, es, hm, hsign, hes, hdigits, rfl⟩ := mem_exponent.mp he
      simp only [exponentSigns, List.mem_cons, List.not_mem_nil, or_false] at hsign
      obtain rfl | rfl | rfl := hsign
      · exact ⟨_, Decimal.readExponent_plain hm hdigits hes⟩
      · exact ⟨_, Decimal.readExponent_plus hm hdigits hes⟩
      · exact ⟨_, Decimal.readExponent_minus hm hdigits hes⟩
  have hread := Decimal.readUnsigned_point e hwhole hds (fun hnil => hne hnil.2) (ended_tail he)
  rw [hn, Option.map_some] at hread
  obtain ⟨c, rest, hcs, hc⟩ := Decimal.exists_cons_of_readUnsigned hread
  rw [List.cons_append, hcs, Decimal.readFloat_plain, Decimal.readMagnitude_plain hc, ← hcs, hread]
  · exact ⟨_, rfl⟩
  all_goals
    rintro rfl
    exact absurd hc (by decide)

/-- Two fractions in a row are no number. -/
theorem readFloat_of_mem_twoPoints {w : List Char} (h : w ∈ twoPoints.matches') :
    readFloat w = none := by
  obtain ⟨f, g, e, hf, hg, he, rfl⟩ := mem_twoPoints.mp h
  obtain ⟨ds, hne, hds, rfl⟩ := mem_fraction.mp hf
  obtain ⟨es, hes, hdigits, rfl⟩ := mem_fraction.mp hg
  have hpoint : Ended ('.' :: es ++ e) := by simp [Ended]
  have hnil : AreDigits [] := by simp [AreDigits]
  have hread := Decimal.readUnsigned_point _ hnil hds (fun hnil => hne hnil.2) hpoint
  rw [List.cons_append, Decimal.readFloat_plain (by decide) (by decide),
    Decimal.readMagnitude_plain (.inr rfl)]
  rw [List.nil_append] at hread
  rw [hread]
  simp [Decimal.readExponent]

end Pattern

/-! ## Longest fronts -/

/-- A text of a language stands in front of another text, and no longer one does. -/
structure IsLongest (L : Language Char) (w text : List Char) : Prop where
  mem : w ∈ L
  front : w <+: text
  longest : ∀ v ∈ L, v <+: text → v.length ≤ w.length

/-- No text of a language stands in front of another text. -/
def NoFront (L : Language Char) (text : List Char) : Prop := ∀ v ∈ L, ¬ v <+: text

/-- There is one longest front at most. -/
theorem IsLongest.unique {L : Language Char} {v w text : List Char} (hv : IsLongest L v text)
    (hw : IsLongest L w text) : v = w := by
  have hprefix := List.prefix_of_prefix_length_le hv.front hw.front (hw.longest v hv.mem hv.front)
  exact hprefix.eq_of_length_le (hv.longest w hw.mem hw.front)

theorem prefix_takeWhile {p : Char → Bool} {v cs : List Char} (hv : ∀ c ∈ v, p c = true)
    (h : v <+: cs) : v <+: cs.takeWhile p := by
  obtain ⟨rest, rfl⟩ := h
  rw [List.takeWhile_append_of_pos hv]
  exact List.prefix_append ..

namespace Scanner

open Pattern

private theorem areDigits_takeWhile (cs : List Char) : AreDigits (cs.takeWhile Char.isDigit) :=
  fun _ hc => List.mem_takeWhile_imp hc

/-- Digits with something else behind them are all digits that a text starts with. -/
theorem digits_front {ds r cs : List Char} (hds : AreDigits ds) (hr : Ended r) (hne : r ≠ [])
    (h : ds ++ r <+: cs) : cs.takeWhile Char.isDigit = ds ∧ r <+: cs.dropWhile Char.isDigit := by
  obtain ⟨rest, rfl⟩ := h
  have hended : Ended (r ++ rest) := by
    cases r with
    | nil => exact absurd rfl hne
    | cons c r => exact hr
  rw [List.append_assoc, Decimal.takeWhile_digits hds hended, Decimal.dropWhile_digits hds hended]
  exact ⟨rfl, List.prefix_append ..⟩

theorem startsWithDigit_of_front {ds cs : List Char} (hds : AreDigits ds) (hne : ds ≠ [])
    (h : ds <+: cs) : startsWithDigit cs = true := by
  obtain ⟨rest, rfl⟩ := h
  cases ds with
  | nil => exact absurd rfl hne
  | cons d ds => simpa [startsWithDigit] using hds d (List.mem_cons_self ..)

private theorem takeWhile_ne_nil {cs : List Char} (h : startsWithDigit cs = true) :
    cs.takeWhile Char.isDigit ≠ [] := by
  cases cs with
  | nil => cases h
  | cons c cs =>
    have hc : c.isDigit = true := by simpa [startsWithDigit] using h
    rw [List.takeWhile_cons_of_pos hc]
    simp

/-! ## Fractions and exponents -/

theorem point_digits_mem {cs : List Char} (h : startsWithDigit cs = true) :
    '.' :: cs.takeWhile Char.isDigit ∈ fraction.matches' :=
  mem_fraction.mpr ⟨_, takeWhile_ne_nil h, areDigits_takeWhile cs, rfl⟩

private theorem splitFraction_point {cs : List Char} (h : startsWithDigit cs = true) :
    splitFraction ('.' :: cs) = ('.' :: cs.takeWhile Char.isDigit, cs.dropWhile Char.isDigit) := by
  rw [splitFraction, if_pos h]

/-- A fraction is split off where one starts. -/
theorem splitFraction_cases (cs : List Char) :
    (splitFraction cs = ([], cs) ∧ NoFront fraction.matches' cs) ∨
    (splitFraction cs).1 ∈ fraction.matches' := by
  unfold splitFraction
  split
  · next ds =>
    split
    · next h => exact .inr (point_digits_mem h)
    · next h =>
      refine .inl ⟨rfl, fun v hv hfront => h ?_⟩
      obtain ⟨es, hne, hes, rfl⟩ := mem_fraction.mp hv
      exact startsWithDigit_of_front hes hne (List.cons_prefix_cons.mp hfront).2
  · next h =>
    refine .inl ⟨rfl, fun v hv hfront => ?_⟩
    obtain ⟨es, hne, hes, rfl⟩ := mem_fraction.mp hv
    obtain ⟨rest, rfl⟩ := hfront
    exact h _ rfl

private theorem splitExponent_signed {m sign : Char} {cs : List Char} (hm : m = 'e' ∨ m = 'E')
    (hsign : sign = '+' ∨ sign = '-') (h : startsWithDigit cs = true) :
    splitExponent (m :: sign :: cs) =
      (m :: sign :: cs.takeWhile Char.isDigit, cs.dropWhile Char.isDigit) := by
  rw [splitExponent, if_pos hm, if_pos hsign, if_pos h]

private theorem splitExponent_plain {m : Char} {cs : List Char} (hm : m = 'e' ∨ m = 'E')
    (h : startsWithDigit cs = true) :
    splitExponent (m :: cs) = (m :: cs.takeWhile Char.isDigit, cs.dropWhile Char.isDigit) := by
  cases cs with
  | nil => cases h
  | cons d cs =>
    have hd : d.isDigit = true := by simpa [startsWithDigit] using h
    have hsign : ¬(d = '+' ∨ d = '-') := by
      rintro (rfl | rfl) <;> exact absurd hd (by decide)
    rw [splitExponent, if_pos hm, if_neg hsign, if_pos hd]

/-- What is split off is an exponent or nothing. -/
theorem splitExponent_mem (cs : List Char) :
    (splitExponent cs).1 = [] ∨ (splitExponent cs).1 ∈ exponent.matches' := by
  unfold splitExponent
  split
  · next m sign ds =>
    split
    · next hm =>
      split
      · next hsign =>
        split
        · next h =>
          refine .inr (mem_exponent.mpr ⟨m, [sign], _, hm, ?_, takeWhile_ne_nil h,
            areDigits_takeWhile ds, rfl⟩)
          obtain rfl | rfl := hsign <;> decide
        · exact .inl rfl
      · split
        · next h =>
          have hstarts : startsWithDigit (sign :: ds) = true := by simpa [startsWithDigit] using h
          exact .inr (mem_exponent.mpr
            ⟨m, [], _, hm, by decide, takeWhile_ne_nil hstarts, areDigits_takeWhile _, rfl⟩)
        · exact .inl rfl
    · exact .inl rfl
  · exact .inl rfl

/-- Every exponent that a text starts with is part of the one that is split off. -/
theorem splitExponent_front {v cs : List Char} (hv : v ∈ exponent.matches') (h : v <+: cs) :
    v <+: (splitExponent cs).1 := by
  obtain ⟨m, sign, ds, hm, hsign, hne, hds, rfl⟩ := mem_exponent.mp hv
  obtain ⟨rest, rfl⟩ := h
  have hfront : ds <+: ds ++ rest := List.prefix_append ..
  have hstarts := startsWithDigit_of_front hds hne hfront
  have hall := prefix_takeWhile hds hfront
  simp only [exponentSigns, List.mem_cons, List.not_mem_nil, or_false] at hsign
  obtain rfl | rfl | rfl := hsign
  · rw [List.nil_append, List.cons_append, splitExponent_plain hm hstarts]
    exact List.cons_prefix_cons.mpr ⟨rfl, hall⟩
  all_goals
    rw [List.singleton_append, List.cons_append, List.cons_append,
      splitExponent_signed hm (by decide) hstarts]
    exact List.cons_prefix_cons.mpr ⟨rfl, List.cons_prefix_cons.mpr ⟨rfl, hall⟩⟩

/-- The fraction and the exponent that are split off a text. -/
def fractionTail (cs : List Char) : List Char :=
  (splitFraction cs).1 ++ (splitExponent (splitFraction cs).2).1

private theorem fractionTail_append (cs : List Char) :
    fractionTail cs ++ (splitExponent (splitFraction cs).2).2 = cs := by
  rw [fractionTail, List.append_assoc, splitExponent_append, splitFraction_append]

private theorem digits_fractionTail_front (cs : List Char) :
    cs.takeWhile Char.isDigit ++ fractionTail (cs.dropWhile Char.isDigit) <+: cs := by
  refine ⟨(splitExponent (splitFraction (cs.dropWhile Char.isDigit)).2).2, ?_⟩
  rw [List.append_assoc, fractionTail_append, List.takeWhile_append_dropWhile]

/-- They have all the digits that a fraction and an exponent can have there. -/
theorem fractionTail_front {f e cs : List Char} (hf : f ∈ fraction.matches')
    (he : e = [] ∨ e ∈ exponent.matches') (h : f ++ e <+: cs) : f ++ e <+: fractionTail cs := by
  obtain ⟨ds, hne, hds, rfl⟩ := mem_fraction.mp hf
  obtain ⟨cs, rfl⟩ : ∃ ds, cs = '.' :: ds := by
    obtain ⟨rest, rfl⟩ := h
    exact ⟨_, rfl⟩
  have hbehind : ds ++ e <+: cs := (List.cons_prefix_cons.mp h).2
  have hfront := (List.prefix_append ds e).trans hbehind
  have hstarts := startsWithDigit_of_front hds hne hfront
  rw [fractionTail, splitFraction_point hstarts, List.cons_append, List.cons_append]
  refine List.cons_prefix_cons.mpr ⟨rfl, ?_⟩
  obtain rfl | he := he
  · rw [List.append_nil]
    exact List.prefix_append_of_prefix (prefix_takeWhile hds hfront)
  · have hne' : e ≠ [] := by
      obtain ⟨m, sign, es, -, -, -, -, rfl⟩ := mem_exponent.mp he
      simp
    obtain ⟨htake, hdrop⟩ := digits_front hds (ended_tail (.inr he)) hne' hbehind
    rw [htake]
    exact (List.prefix_append_right_inj ds).mpr (splitExponent_front he hdrop)

/-! ## The number at the front of a text -/

/-- A fraction of a front comes right behind the digits of the text. -/
theorem float_front {ds f e cs : List Char} (hds : AreDigits ds) (hf : f ∈ fraction.matches')
    (h : ds ++ (f ++ e) <+: cs) :
    cs.takeWhile Char.isDigit = ds ∧ f ++ e <+: cs.dropWhile Char.isDigit := by
  obtain ⟨es, -, -, rfl⟩ := mem_fraction.mp hf
  exact digits_front hds (by simp [Ended]) (by simp) h

/-- Where a fraction comes behind the digits of a text, the two and an exponent
are its float literal. -/
theorem isLongest_float {cs : List Char}
    (h : (splitFraction (cs.dropWhile Char.isDigit)).1 ∈ fraction.matches') :
    IsLongest float.matches'
      (cs.takeWhile Char.isDigit ++ fractionTail (cs.dropWhile Char.isDigit)) cs := by
  refine ⟨mem_float.mpr ⟨_, _, _, areDigits_takeWhile cs, h, splitExponent_mem _, rfl⟩, ?_, ?_⟩
  · exact digits_fractionTail_front cs
  · intro v hv hfront
    obtain ⟨whole, f, e, hwhole, hf, he, rfl⟩ := mem_float.mp hv
    obtain ⟨htake, hdrop⟩ := float_front hwhole hf hfront
    rw [htake]
    exact ((List.prefix_append_right_inj whole).mpr (fractionTail_front hf he hdrop)).length_le

/-- Where none comes behind them, there is no float literal. -/
theorem noFront_float {cs : List Char} (h : NoFront fraction.matches' (cs.dropWhile Char.isDigit)) :
    NoFront float.matches' cs := by
  intro v hv hfront
  obtain ⟨whole, f, e, hwhole, hf, he, rfl⟩ := mem_float.mp hv
  exact h f hf ((List.prefix_append f e).trans (float_front hwhole hf hfront).2)

private theorem isLongest_integer {cs : List Char} (h : startsWithDigit cs = true) :
    IsLongest integer.matches' (cs.takeWhile Char.isDigit) cs :=
  ⟨mem_integer.mpr ⟨takeWhile_ne_nil h, areDigits_takeWhile cs⟩, List.takeWhile_prefix _,
    fun _ hv hfront => (prefix_takeWhile (mem_integer.mp hv).2 hfront).length_le⟩

private theorem isLongest_twoPoints {cs : List Char} (h : startsWithDigit cs = true)
    (hfraction : (splitFraction (cs.dropWhile Char.isDigit)).1 ∈ fraction.matches') :
    IsLongest twoPoints.matches'
      ('.' :: cs.takeWhile Char.isDigit ++ fractionTail (cs.dropWhile Char.isDigit))
        ('.' :: cs) := by
  refine ⟨mem_twoPoints.mpr ⟨_, _, _, point_digits_mem h, hfraction, splitExponent_mem _, rfl⟩,
    ?_, ?_⟩
  · exact List.cons_prefix_cons.mpr ⟨rfl, digits_fractionTail_front cs⟩
  · intro v hv hfront
    obtain ⟨f, g, e, hf, hg, he, rfl⟩ := mem_twoPoints.mp hv
    obtain ⟨ds, -, hds, rfl⟩ := mem_fraction.mp hf
    obtain ⟨htake, hdrop⟩ := float_front hds hg (List.cons_prefix_cons.mp hfront).2
    rw [htake]
    exact ((List.prefix_append_right_inj ('.' :: ds)).mpr
      (fractionTail_front hg he hdrop)).length_le

private theorem noFront_twoPoints {cs : List Char}
    (h : NoFront fraction.matches' (cs.dropWhile Char.isDigit)) :
    NoFront twoPoints.matches' ('.' :: cs) := by
  intro v hv hfront
  obtain ⟨f, g, e, hf, hg, he, rfl⟩ := mem_twoPoints.mp hv
  obtain ⟨ds, -, hds, rfl⟩ := mem_fraction.mp hf
  have hbehind := (float_front hds hg (List.cons_prefix_cons.mp hfront).2).2
  exact h g hg ((List.prefix_append g e).trans hbehind)

theorem noFront_twoPoints_of_ne {c : Char} (h : c ≠ '.') (cs : List Char) :
    NoFront twoPoints.matches' (c :: cs) := by
  intro v hv hfront
  obtain ⟨f, g, e, hf, -, -, rfl⟩ := mem_twoPoints.mp hv
  obtain ⟨ds, -, -, rfl⟩ := mem_fraction.mp hf
  exact h (List.cons_prefix_cons.mp hfront).1.symm

/-- The kind of an integer literal. -/
theorem integerKind_eq {w : List Char} (h : w ∈ integer.matches') :
    integerKind w = if Decimal.valueOf w ≤ Text.Numeral.intLimit then
      .token (.integer (Int64.ofInt (Decimal.valueOf w))) else
        .fault (.invalidInteger (String.ofList w)) := by
  obtain ⟨hne, hdigits⟩ := mem_integer.mp h
  cases w with
  | nil => exact absurd rfl hne
  | cons c ds =>
    have hread : Text.Numeral.readInt (c :: ds) =
        (Text.Numeral.accumulate Text.Numeral.intLimit .tooLarge 0 (c :: ds)).map Int.ofNat := by
      rw [Text.Numeral.readInt_of_isDigit (hdigits c (List.mem_cons_self ..)), Text.Numeral.digits]
      simp
    rw [integerKind, hread]
    by_cases hle : Decimal.valueOf (c :: ds) ≤ Text.Numeral.intLimit
    · rw [if_pos hle, Text.Numeral.accumulate_digits hdigits hle]
      rfl
    · rw [if_neg hle, Text.Numeral.accumulate_past hdigits (Nat.zero_le _) (Nat.not_le.mp hle)]
      rfl

/-- A text starts with a number: with a digit, or with a point and a digit. -/
def StartsNumber (cs : List Char) : Prop :=
  startsWithDigit cs = true ∨ ∃ ds, cs = '.' :: ds ∧ startsWithDigit ds = true

theorem StartsNumber.ne_nil {cs : List Char} (h : StartsNumber cs) : cs ≠ [] := by
  rintro rfl
  simp [StartsNumber, startsWithDigit] at h

theorem startsNumber_iff {c : Char} {cs : List Char} :
    StartsNumber (c :: cs) ↔ (c.isDigit || (c == '.' && startsWithDigit cs)) = true := by
  rw [StartsNumber, Bool.or_eq_true, Bool.and_eq_true, beq_iff_eq]
  refine or_congr (by simp [startsWithDigit]) ?_
  constructor
  · rintro ⟨ds, heq, h⟩
    cases heq
    exact ⟨rfl, h⟩
  · rintro ⟨rfl, h⟩
    exact ⟨cs, rfl, h⟩

/-- What a text that starts with a number is cut into: two fractions in a row, which are no number,
or the longest float literal, or the longest integer literal where no float literal starts. -/
inductive NumberPiece (text : List Char) : Cut → Prop where
  | twoPoints {w rest : List Char} (longest : IsLongest twoPoints.matches' w text) :
    NumberPiece text ⟨.fault (.invalidFloat (String.ofList w)), w, rest⟩
  | float {w rest : List Char} {x : Float} (free : NoFront twoPoints.matches' text)
    (longest : IsLongest float.matches' w text) (value : readFloat w = some x) :
    NumberPiece text ⟨.token (.float x), w, rest⟩
  | integer {w rest : List Char} (free : NoFront twoPoints.matches' text)
    (whole : NoFront float.matches' text) (longest : IsLongest integer.matches' w text) :
    NumberPiece text ⟨integerKind w, w, rest⟩

private theorem floatKind_eq {w : List Char} {x : Float} (h : readFloat w = some x) :
    floatKind w = .token (.float x) := by
  rw [floatKind, h]

/-- The number of a text that starts with a digit. -/
theorem cutNumber_of_isDigit {c : Char} (h : c.isDigit = true) (cs : List Char) :
    let text := c :: cs
    cutNumber c cs =
      if (splitFraction (text.dropWhile Char.isDigit)).1 ≠ [] then
        let w := text.takeWhile Char.isDigit ++ fractionTail (text.dropWhile Char.isDigit)
        ⟨floatKind w, w, (splitExponent (splitFraction (text.dropWhile Char.isDigit)).2).2⟩
      else
        ⟨integerKind (text.takeWhile Char.isDigit), text.takeWhile Char.isDigit,
          (splitFraction (text.dropWhile Char.isDigit)).2⟩ := by
  have hpoint : c ≠ '.' := by
    rintro rfl
    exact absurd h (by decide)
  simp only [cutNumber, List.takeWhile_cons_of_pos h, List.dropWhile_cons_of_pos h,
    hpoint, false_or, fractionTail, List.append_assoc]

/-- A point in front of a digit starts a number. -/
theorem cut_point {cs : List Char} (h : startsWithDigit cs = true) :
    cut '.' cs =
      ⟨floatKind ('.' :: cs.takeWhile Char.isDigit ++ fractionTail (cs.dropWhile Char.isDigit)),
      '.' :: cs.takeWhile Char.isDigit ++ fractionTail (cs.dropWhile Char.isDigit),
      (splitExponent (splitFraction (cs.dropWhile Char.isDigit)).2).2⟩ := by
  rw [cut_plain (.inr rfl), if_pos (by simp [h])]
  simp only [cutNumber, true_or, if_true, fractionTail, List.append_assoc]

/-- A text that starts with a digit is cut behind its number. -/
theorem numberPiece_of_isDigit {c : Char} (h : c.isDigit = true) (cs : List Char) :
    NumberPiece (c :: cs) (cut c cs) := by
  have hdigit : startsWithDigit (c :: cs) = true := by simpa [startsWithDigit] using h
  have hpoint : c ≠ '.' := by
    rintro rfl
    exact absurd h (by decide)
  have hfree := noFront_twoPoints_of_ne hpoint cs
  rw [cut_of_isDigit h, cutNumber_of_isDigit h]
  obtain ⟨hsplit, hnone⟩ | hfraction := splitFraction_cases ((c :: cs).dropWhile Char.isDigit)
  · rw [if_neg (by simp [hsplit])]
    exact .integer hfree (noFront_float hnone) (isLongest_integer hdigit)
  · have hne : (splitFraction ((c :: cs).dropWhile Char.isDigit)).1 ≠ [] := by
      obtain ⟨ds, -, -, hds⟩ := mem_fraction.mp hfraction
      simp [hds]
    have hlongest := isLongest_float hfraction
    obtain ⟨x, hx⟩ := readFloat_of_mem_float hlongest.mem
    rw [if_pos hne]
    dsimp only
    rw [floatKind_eq hx]
    exact .float hfree hlongest hx

/-- A text that starts with a point and a digit is cut behind its number, or
behind two fractions. -/
theorem numberPiece_of_point {cs : List Char} (h : startsWithDigit cs = true) :
    NumberPiece ('.' :: cs) (cut '.' cs) := by
  rw [cut_point h]
  obtain ⟨hsplit, hnone⟩ | hfraction := splitFraction_cases (cs.dropWhile Char.isDigit)
  · have hlongest : IsLongest float.matches'
        ('.' :: cs.takeWhile Char.isDigit ++ fractionTail (cs.dropWhile Char.isDigit))
          ('.' :: cs) := by
      have hpoint : ('.' :: cs).takeWhile Char.isDigit = [] ∧
          ('.' :: cs).dropWhile Char.isDigit = '.' :: cs :=
        ⟨List.takeWhile_cons_of_neg (by decide), List.dropWhile_cons_of_neg (by decide)⟩
      have hfraction : (splitFraction (('.' :: cs).dropWhile Char.isDigit)).1 ∈
          fraction.matches' := by
        rw [hpoint.2, splitFraction_point h]
        exact point_digits_mem h
      have hlongest := isLongest_float hfraction
      rw [hpoint.1, hpoint.2, fractionTail, splitFraction_point h, List.nil_append] at hlongest
      rw [fractionTail, hsplit, List.nil_append]
      exact hlongest
    obtain ⟨x, hx⟩ := readFloat_of_mem_float hlongest.mem
    rw [floatKind_eq hx]
    exact .float (noFront_twoPoints hnone) hlongest hx
  · have hlongest := isLongest_twoPoints h hfraction
    rw [floatKind, readFloat_of_mem_twoPoints hlongest.mem]
    exact .twoPoints hlongest

theorem numberPiece_cut {c : Char} {cs : List Char} (h : StartsNumber (c :: cs)) :
    NumberPiece (c :: cs) (cut c cs) := by
  obtain h | ⟨ds, hcs, h⟩ := h
  · exact numberPiece_of_isDigit (by simpa [startsWithDigit] using h) cs
  · cases hcs
    exact numberPiece_of_point h

end Scanner

end Quadlet
