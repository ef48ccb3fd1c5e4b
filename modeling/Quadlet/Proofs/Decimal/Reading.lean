import Mathlib.Data.List.TakeWhile
import Quadlet.Decimal.Layout
import Quadlet.Decimal.Reader
import Quadlet.Proofs.Decimal.Rounding
import Quadlet.Proofs.Text.Blank

/-!
# Decimals are read back

Wherever the point stands and however an exponent is written, the text of a decimal is read as a
decimal of the same value; only zeros move between the digits and the exponent. So a finite
magnitude is read back from its text.
-/

namespace Quadlet.Decimal

open Text

/-- The number that digits write. -/
def valueOf (ds : List Char) : Nat := Nat.ofDigitChars 10 ds 0

private theorem appendDigits_eq (n : Nat) (ds : List Char) :
    appendDigits n ds = Nat.ofDigitChars 10 ds n := rfl

theorem valueOf_append (ds es : List Char) :
    appendDigits (appendDigits 0 ds) es = valueOf (ds ++ es) := by
  rw [appendDigits_eq, appendDigits_eq, valueOf, Nat.ofDigitChars_append]

private theorem valueOf_zeros (ds : List Char) (k : Nat) :
    valueOf (ds ++ List.replicate k '0') = valueOf ds * tenPow k := by
  rw [valueOf, Nat.ofDigitChars_append, Nat.ofDigitChars_replicate_zero, Nat.mul_comm]
  rfl

private theorem valueOf_toDigits (n : Nat) : valueOf (Nat.toDigits 10 n) = n :=
  Nat.ofDigitChars_ten_toDigits

/-- Digits. -/
def AreDigits (ds : List Char) : Prop := ∀ c ∈ ds, c.isDigit = true

private theorem areDigits_toDigits (n : Nat) : AreDigits (Nat.toDigits 10 n) := fun _ hc =>
  Nat.isDigit_of_mem_toDigits (by decide) (by decide) hc

private theorem areDigits_zeros (k : Nat) : AreDigits (List.replicate k '0') := by
  intro c hc
  rw [(List.mem_replicate.mp hc).2]
  decide

private theorem AreDigits.append {ds es : List Char} (hds : AreDigits ds) (hes : AreDigits es) :
    AreDigits (ds ++ es) := by
  intro c hc
  obtain hc | hc := List.mem_append.mp hc
  · exact hds c hc
  · exact hes c hc

private theorem AreDigits.take {ds : List Char} (hds : AreDigits ds) (n : Nat) :
    AreDigits (ds.take n) :=
  fun c hc => hds c (List.mem_of_mem_take hc)

private theorem AreDigits.drop {ds : List Char} (hds : AreDigits ds) (n : Nat) :
    AreDigits (ds.drop n) :=
  fun c hc => hds c (List.mem_of_mem_drop hc)

/-! ## Parts of a text -/

/-- A text that no digit goes on with. -/
def Ended (cs : List Char) : Prop := ∀ c, cs.head? = some c → c.isDigit = false

theorem ended_nil : Ended [] := by simp [Ended]

private theorem ended_exponent (cs : List Char) : Ended ('e' :: cs) := by simp [Ended]

theorem takeWhile_digits {ds cs : List Char} (hds : AreDigits ds) (hcs : Ended cs) :
    (ds ++ cs).takeWhile Char.isDigit = ds := by
  have hnil : cs.takeWhile Char.isDigit = [] := by
    cases cs with
    | nil => rfl
    | cons c cs => exact List.takeWhile_cons_of_neg (by simp [hcs c rfl])
  rw [List.takeWhile_append_of_pos hds, hnil, List.append_nil]

theorem dropWhile_digits {ds cs : List Char} (hds : AreDigits ds) (hcs : Ended cs) :
    (ds ++ cs).dropWhile Char.isDigit = cs := by
  rw [List.dropWhile_append_of_pos hds, dropWhile_of_head hcs]

/-- Digits before and behind a point are read as one number. -/
theorem readUnsigned_point {whole fraction : List Char} (cs : List Char) (hwhole : AreDigits whole)
    (hfraction : AreDigits fraction) (hne : ¬(whole = [] ∧ fraction = [])) (hcs : Ended cs) :
    readUnsigned (whole ++ '.' :: (fraction ++ cs)) =
      (readExponent cs).map fun e => ⟨valueOf (whole ++ fraction), e - fraction.length⟩ := by
  have hpoint : Ended ('.' :: (fraction ++ cs)) := by
    rintro c hc
    cases hc
    decide
  simp only [readUnsigned, takeWhile_digits hwhole hpoint, dropWhile_digits hwhole hpoint,
    List.head?_cons, if_true, List.drop_succ_cons, List.drop_zero, takeWhile_digits hfraction hcs,
    dropWhile_digits hfraction hcs, if_neg hne, valueOf_append]

/-- Digits without a point are read as their number. -/
theorem readUnsigned_whole {whole cs : List Char} (hwhole : AreDigits whole) (hne : whole ≠ [])
    (hcs : Ended cs) (hpoint : cs.head? ≠ some '.') :
    readUnsigned (whole ++ cs) = (readExponent cs).map fun e => ⟨valueOf whole, e⟩ := by
  simp only [readUnsigned, takeWhile_digits hwhole hcs, dropWhile_digits hwhole hcs,
    hpoint, if_false, List.takeWhile_nil, hne, false_and, valueOf_append, List.append_nil,
    List.length_nil, Nat.cast_zero, sub_zero]

section

variable {m : Char} (hm : m = 'e' ∨ m = 'E') {ds : List Char} (hds : AreDigits ds) (hne : ds ≠ [])

include hm hds hne

/-- The digits of an exponent may stand behind a minus. -/
theorem readExponent_minus : readExponent (m :: '-' :: ds) = some (-(valueOf ds : Int)) := by
  have hall : ds.all Char.isDigit = true := List.all_eq_true.mpr hds
  simp [readExponent, hm, hall, hne, appendDigits_eq, valueOf]

/-- They may stand behind a plus. -/
theorem readExponent_plus : readExponent (m :: '+' :: ds) = some (valueOf ds : Int) := by
  have hall : ds.all Char.isDigit = true := List.all_eq_true.mpr hds
  simp [readExponent, hm, hall, hne, appendDigits_eq, valueOf]

/-- They may stand alone. -/
theorem readExponent_plain : readExponent (m :: ds) = some (valueOf ds : Int) := by
  have hall : ds.all Char.isDigit = true := List.all_eq_true.mpr hds
  have hsign (c : Char) (hc : c.isDigit = false) : ds.head? ≠ some c := by
    intro hhead
    rw [hds c (List.mem_of_head? hhead)] at hc
    cases hc
  simp only [readExponent, hm, if_true, hsign '-' (by decide), hsign '+' (by decide),
    or_self, if_false, hne, hall, ne_eq, not_false_iff, and_self, appendDigits_eq, valueOf]

end

/-- An exponent is read back from any of its forms. -/
theorem readExponent_scientific (layout : Layout) (e : Int) :
    readExponent ('e' :: ((if e < 0 then ['-'] else if layout.plus then ['+'] else []) ++
      Nat.toDigits 10 e.natAbs)) = some e := by
  have hdigits := areDigits_toDigits e.natAbs
  have hne := Nat.toDigits_ne_nil (n := e.natAbs) (b := 10)
  split
  · next he =>
    have hread := readExponent_minus (.inl rfl) hdigits hne
    rw [valueOf_toDigits] at hread
    exact hread.trans (congrArg some (by omega))
  · next he =>
    have habs : (e.natAbs : Int) = e := by omega
    split
    · have hread := readExponent_plus (.inl rfl) hdigits hne
      rw [valueOf_toDigits, habs] at hread
      exact hread
    · have hread := readExponent_plain (.inl rfl) hdigits hne
      rw [valueOf_toDigits, habs] at hread
      exact hread

/-! ## Texts of decimals -/

/-- A text is read as a decimal, up to zeros that are counted as digits. -/
def ReadsAs (cs : List Char) (d : Decimal) : Prop :=
  ∃ k, readUnsigned cs = some ⟨d.digits * tenPow k, d.exponent - k⟩

private theorem ReadsAs.nearest {cs : List Char} {d : Decimal} (h : ReadsAs cs d) :
    (readUnsigned cs).map Decimal.nearest = some d.nearest := by
  obtain ⟨k, hk⟩ := h
  rw [hk, Option.map_some, nearest_shift, Int.sub_add_cancel]

private theorem readsAs_of_eq {cs : List Char} {d : Decimal} (h : readUnsigned cs = some d) :
    ReadsAs cs d := by
  refine ⟨0, ?_⟩
  rw [h]
  simp [tenPow]

section

variable {ds : List Char} (hds : AreDigits ds) (hne : ds ≠ [])

include hds

/-- A number below one. -/
theorem readsAs_small {point : Int} (hpoint : point ≤ 0) :
    ReadsAs ('0' :: '.' :: List.replicate (-point).toNat '0' ++ ds)
      ⟨valueOf ds, point - ds.length⟩ := by
  refine readsAs_of_eq ?_
  have hread :=
    readUnsigned_point [] (areDigits_zeros 1) ((areDigits_zeros (-point).toNat).append hds)
    (by simp) ended_nil
  have hvalue : valueOf ('0' :: (List.replicate (-point).toNat '0' ++ ds)) = valueOf ds := by
    rw [← List.cons_append, ← List.replicate_succ, valueOf, Nat.ofDigitChars_append,
      Nat.ofDigitChars_replicate_zero, Nat.mul_zero]
    rfl
  simp only [List.append_nil, List.replicate_one, List.singleton_append, hvalue, readExponent,
    Option.map_some] at hread
  rw [List.cons_append, List.cons_append, hread]
  simp only [List.length_append, List.length_replicate, Option.some.injEq, mk.injEq, true_and]
  omega

include hne

/-- A number whose digits all stand before the point. -/
theorem readsAs_large {point : Int} (hpoint : ds.length ≤ point.toNat) :
    ReadsAs (ds ++ List.replicate (point.toNat - ds.length) '0' ++ ['.', '0'])
      ⟨valueOf ds, point - ds.length⟩ := by
  have hlength := List.length_pos_iff.mpr hne
  have hread := readUnsigned_point [] (hds.append (areDigits_zeros (point.toNat - ds.length)))
    (areDigits_zeros 1) (by simp) ended_nil
  -- The zeros up to the point and the one behind it count as digits.
  refine ⟨point.toNat - ds.length + 1, ?_⟩
  rw [← valueOf_zeros, List.replicate_succ', ← List.append_assoc]
  simp only [List.append_nil, List.replicate_one, readExponent, Option.map_some,
    List.length_singleton] at hread
  rw [hread]
  simp only [Option.some.injEq, mk.injEq, true_and]
  omega

/-- A point among the digits, and an exponent behind them. -/
theorem readsAs_point {n : Nat} (hpos : 0 < n) (hn : n < ds.length) {cs : List Char} {e : Int}
    (hcs : Ended cs) (he : readExponent cs = some e) :
    ReadsAs (ds.take n ++ '.' :: (ds.drop n ++ cs)) ⟨valueOf ds, e + n - ds.length⟩ := by
  refine readsAs_of_eq ?_
  have hread := readUnsigned_point cs (hds.take n) (hds.drop n) (by simp [hne, hpos.ne']) hcs
  rw [hread, he, List.take_append_drop]
  simp only [Option.map_some, List.length_drop, Option.some.injEq, mk.injEq, true_and]
  omega

private theorem readsAs_positional (point : Int) :
    ReadsAs (Layout.positional ds point) ⟨valueOf ds, point - ds.length⟩ := by
  rw [Layout.positional]
  split
  · next hpoint => exact readsAs_small hds hpoint
  · split
    · next hlarge => exact readsAs_large hds hne hlarge
    · have hread :=
        readsAs_point (n := point.toNat) hds hne (by omega) (by omega) ended_nil (e := 0) rfl
      rw [List.append_nil] at hread
      have hpoint : (0 : Int) + point.toNat = point := by omega
      rw [hpoint] at hread
      exact hread

private theorem readsAs_scientific (layout : Layout) (point : Int) :
    ReadsAs (layout.scientific ds point) ⟨valueOf ds, point - ds.length⟩ := by
  have hlength := List.length_pos_iff.mpr hne
  have hexponent := readExponent_scientific layout (point - 1)
  rw [Layout.scientific]
  simp only [List.append_assoc, List.cons_append]
  split
  · next hone =>
    refine readsAs_of_eq ?_
    rw [readUnsigned_whole hds hne (ended_exponent _) (by simp), hexponent]
    simp only [Option.map_some, Option.some.injEq, mk.injEq, true_and]
    omega
  · next hone =>
    have hread := readsAs_point (n := 1) hds hne (by omega) (by omega) (ended_exponent _) hexponent
    have hpoint : point - 1 + (1 : Nat) = point := by omega
    rw [hpoint] at hread
    simpa using hread

end

/-- The digits that are written are those of the decimal up to zeros at the end. -/
theorem exists_toDigits_eq (d : Decimal) :
    ∃ t, Nat.toDigits 10 d.digits = Layout.digitsOf d ++ List.replicate t '0' := by
  obtain ⟨t, ht⟩ : ∃ t, (Nat.toDigits 10 d.digits).reverse.takeWhile (· == '0') =
      List.replicate t '0' :=
    ⟨_, List.eq_replicate_length.mpr fun c hc => by simpa using List.mem_takeWhile_imp hc⟩
  refine ⟨t, ?_⟩
  rw [Layout.digitsOf, ← List.reverse_replicate, ← ht, ← List.reverse_append,
    List.takeWhile_append_dropWhile, List.reverse_reverse]

private theorem areDigits_digitsOf (d : Decimal) : AreDigits (Layout.digitsOf d) := by
  obtain ⟨t, ht⟩ := exists_toDigits_eq d
  intro c hc
  refine areDigits_toDigits d.digits c ?_
  rw [ht]
  exact List.mem_append_left _ hc

/-- The text of a decimal other than zero is read as a decimal of the same value. -/
theorem nearest_decimal (layout : Layout) {d : Decimal} (hd : d.digits ≠ 0) :
    ∃ e, ReadsAs (layout.decimal d) e ∧ e.nearest = d.nearest := by
  obtain ⟨t, ht⟩ := exists_toDigits_eq d
  have hvalue : valueOf (Layout.digitsOf d) * tenPow t = d.digits := by
    rw [← valueOf_zeros, ← ht, valueOf_toDigits]
  have hne : Layout.digitsOf d ≠ [] := by
    intro hnil
    rw [hnil] at hvalue
    exact hd (by simpa [valueOf] using hvalue.symm)
  have hpoint : ((Nat.toDigits 10 d.digits).length + d.exponent) - (Layout.digitsOf d).length =
      d.exponent + t := by
    rw [ht, List.length_append, List.length_replicate]
    omega
  refine ⟨⟨valueOf (Layout.digitsOf d), d.exponent + t⟩, ?_, ?_⟩
  · rw [← hpoint, Layout.decimal]
    split
    · exact readsAs_positional (areDigits_digitsOf d) hne _
    · exact readsAs_scientific (areDigits_digitsOf d) hne layout _
  · rw [← nearest_shift, hvalue]

/-! ## Magnitudes -/

theorem exists_cons_of_readUnsigned {cs : List Char} {d : Decimal} (h : readUnsigned cs = some d) :
    ∃ c rest, cs = c :: rest ∧ (c.isDigit = true ∨ c = '.') := by
  cases cs with
  | nil => cases h
  | cons c rest =>
    refine ⟨c, rest, rfl, ?_⟩
    by_contra hc
    obtain ⟨hdigit, hpoint⟩ := not_or.mp hc
    simp [readUnsigned, hdigit, hpoint] at h

private theorem toLower_of_isDigit {c : Char} (h : c.isDigit = true ∨ c = '.') : c.toLower = c := by
  obtain h | rfl := h
  · refine dif_neg ?_
    simp only [Char.isDigit, Bool.and_eq_true, decide_eq_true_eq, ge_iff_le,
      UInt32.le_iff_toNat_le] at h
    have hhigh : c.val.toNat ≤ 57 := h.2
    rintro ⟨hlow, -⟩
    have hlow : 65 ≤ c.val.toNat := UInt32.le_iff_toNat_le.mp hlow
    omega
  · decide

/-- A text that starts with a digit or a point is no word. -/
theorem readMagnitude_plain {c : Char} (hc : c.isDigit = true ∨ c = '.') (rest : List Char) :
    readMagnitude (c :: rest) = (readUnsigned (c :: rest)).map Decimal.nearest := by
  have hword (w : List Char) (hw : ∃ a ∈ w.head?, ¬ (a.isDigit = true ∨ a = '.')) :
      String.ofList ((c :: rest).map Char.toLower) ≠ String.ofList w := by
    obtain ⟨a, ha, hdigit⟩ := hw
    intro heq
    have hlist := String.ofList_injective heq
    rw [← hlist, List.map_cons, toLower_of_isDigit hc] at ha
    cases ha
    exact hdigit hc
  rw [readMagnitude]
  rw [if_neg (not_or.mpr ⟨hword ['i', 'n', 'f'] ⟨'i', rfl, by decide⟩,
    hword ['i', 'n', 'f', 'i', 'n', 'i', 't', 'y'] ⟨'i', rfl, by decide⟩⟩),
    if_neg (hword ['n', 'a', 'n'] ⟨'n', rfl, by decide⟩)]

private theorem readMagnitude_of_readsAs {cs : List Char} {d : Decimal} (h : ReadsAs cs d) :
    readMagnitude cs = some d.nearest := by
  obtain ⟨k, hk⟩ := id h
  obtain ⟨c, rest, rfl, hc⟩ := exists_cons_of_readUnsigned hk
  rw [readMagnitude_plain hc, h.nearest]

/-- A finite magnitude is the nearest one to the decimal that its text is read as. -/
theorem readsAs_magnitude (layout : Layout) {bits : Nat} (h : bits < Binary64.infinity) :
    ∃ d, ReadsAs (layout.magnitude bits) d ∧ d.nearest = bits := by
  rw [Layout.magnitude]
  split
  · next hzero => exact ⟨⟨0, -1⟩, readsAs_of_eq (by decide), hzero.symm⟩
  · next hzero =>
    have hshortest := nearest_shortest layout.tie h
    have hdigits : (shortest layout.tie bits).digits ≠ 0 := by
      intro hd
      refine hzero (hshortest.symm.trans ?_)
      rw [Decimal.nearest, if_pos hd]
    obtain ⟨d, hd, heq⟩ := nearest_decimal layout hdigits
    exact ⟨d, hd, heq.trans hshortest⟩

/-- A finite magnitude is read back from its text. -/
theorem readMagnitude_magnitude (layout : Layout) {bits : Nat} (h : bits < Binary64.infinity) :
    readMagnitude (layout.magnitude bits) = some bits := by
  obtain ⟨d, hd, heq⟩ := readsAs_magnitude layout h
  rw [readMagnitude_of_readsAs hd, heq]

/-- No sign stands in front of a magnitude. -/
theorem exists_cons_magnitude (layout : Layout) {bits : Nat} (h : bits < Binary64.infinity) :
    ∃ c rest, layout.magnitude bits = c :: rest ∧ c ≠ '-' ∧ c ≠ '+' := by
  obtain ⟨d, ⟨k, hk⟩, -⟩ := readsAs_magnitude layout h
  obtain ⟨c, rest, hcs, hc⟩ := exists_cons_of_readUnsigned hk
  refine ⟨c, rest, hcs, ?_⟩
  constructor <;> rintro rfl <;> exact absurd hc (by decide)

/-! ## Characters -/

private theorem AreDigits.solid {ds : List Char} (hds : AreDigits ds) :
    ∀ c ∈ ds, isBlank c = false :=
  fun c hc => isBlank_of_isDigit (hds c hc)

private theorem solid_positional {ds : List Char} (hds : AreDigits ds) (point : Int) :
    ∀ c ∈ Layout.positional ds point, isBlank c = false := by
  have hzeros (k : Nat) := (areDigits_zeros k).solid
  rw [Layout.positional]
  split
  · simp only [List.cons_append, List.forall_mem_cons, List.forall_mem_append]
    exact ⟨by decide, by decide, hzeros _, hds.solid⟩
  · split
    · simp only [List.forall_mem_cons, List.forall_mem_append]
      exact ⟨⟨hds.solid, hzeros _⟩, by decide, by decide, by simp⟩
    · simp only [List.forall_mem_cons, List.forall_mem_append]
      exact ⟨(hds.take _).solid, by decide, (hds.drop _).solid⟩

private theorem solid_scientific (layout : Layout) {ds : List Char} (hds : AreDigits ds)
    (point : Int) : ∀ c ∈ layout.scientific ds point, isBlank c = false := by
  have hpoint : ∀ c ∈ if ds.length ≤ 1 then ds else ds.take 1 ++ '.' :: ds.drop 1,
      isBlank c = false := by
    split
    · exact hds.solid
    · simp only [List.forall_mem_cons, List.forall_mem_append]
      exact ⟨(hds.take _).solid, by decide, (hds.drop _).solid⟩
  have hsign : ∀ c ∈ if point - 1 < 0 then ['-'] else if layout.plus then ['+'] else [],
      isBlank c = false := by
    split
    · exact (isWord_of_all rfl).solid
    · split
      · exact (isWord_of_all rfl).solid
      · exact List.forall_mem_nil _
  simp only [Layout.scientific, List.forall_mem_cons, List.forall_mem_append]
  exact ⟨⟨hpoint, by decide, hsign⟩, (areDigits_toDigits _).solid⟩

/-- No character of a magnitude is blank. -/
theorem solid_magnitude (layout : Layout) (bits : Nat) :
    ∀ c ∈ layout.magnitude bits, isBlank c = false := by
  rw [Layout.magnitude]
  split
  · exact (isWord_of_all rfl).solid
  · rw [Layout.decimal]
    split
    · exact solid_positional (areDigits_digitsOf _) _
    · exact solid_scientific layout (areDigits_digitsOf _) _

end Quadlet.Decimal
