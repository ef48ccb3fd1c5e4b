import Quadlet.Proofs.Decimal.Reading

/-!
# Texts that spell doubles

A double is spelled by an optional sign and a word for infinity or for what is no number, or by
digits with at most one point and an optional exponent. Main statement: the reader takes exactly
these texts, and gives the double nearest to what they spell.
-/

namespace Quadlet.Decimal

open Text

/-- An exponent: nothing, or a mark, perhaps a sign, and digits. -/
inductive SpellsExponent : List Char → Int → Prop where
  | none : SpellsExponent [] 0
  | plain {m : Char} {ds : List Char} (hm : m = 'e' ∨ m = 'E') (hds : AreDigits ds)
    (hne : ds ≠ []) :
    SpellsExponent (m :: ds) (valueOf ds)
  | plus {m : Char} {ds : List Char} (hm : m = 'e' ∨ m = 'E') (hds : AreDigits ds) (hne : ds ≠ []) :
    SpellsExponent (m :: '+' :: ds) (valueOf ds)
  | minus {m : Char} {ds : List Char} (hm : m = 'e' ∨ m = 'E') (hds : AreDigits ds)
    (hne : ds ≠ []) :
    SpellsExponent (m :: '-' :: ds) (-(valueOf ds : Int))

/-- A decimal without its sign: digits with at most one point, and an exponent. -/
inductive SpellsUnsigned : List Char → Decimal → Prop where
  | whole {ds cs : List Char} {e : Int} (hds : AreDigits ds) (hne : ds ≠ [])
    (he : SpellsExponent cs e) :
    SpellsUnsigned (ds ++ cs) ⟨valueOf ds, e⟩
  | point {ds fs cs : List Char} {e : Int} (hds : AreDigits ds) (hfs : AreDigits fs)
    (hne : ¬(ds = [] ∧ fs = [])) (he : SpellsExponent cs e) :
    SpellsUnsigned (ds ++ '.' :: (fs ++ cs)) ⟨valueOf (ds ++ fs), e - fs.length⟩

/-- A magnitude: a word in any case, or a decimal, which is rounded to the nearest double. -/
inductive SpellsMagnitude : List Char → Nat → Prop where
  | infinity {cs : List Char}
    (h : String.ofList (cs.map Char.toLower) = "inf" ∨
      String.ofList (cs.map Char.toLower) = "infinity") :
    SpellsMagnitude cs Binary64.infinity
  | nan {cs : List Char} (h : String.ofList (cs.map Char.toLower) = "nan") :
    SpellsMagnitude cs (Binary64.infinity + Binary64.unit / 2)
  | decimal {cs : List Char} {d : Decimal} (h : SpellsUnsigned cs d) : SpellsMagnitude cs d.nearest

/-- A double: a magnitude, perhaps behind a sign. -/
inductive SpellsFloat : List Char → Float → Prop where
  | plain {cs : List Char} {bits : Nat} (h : SpellsMagnitude cs bits) :
    SpellsFloat cs (Binary64.ofMagnitude false bits)
  | plus {cs : List Char} {bits : Nat} (h : SpellsMagnitude cs bits) :
    SpellsFloat ('+' :: cs) (Binary64.ofMagnitude false bits)
  | minus {cs : List Char} {bits : Nat} (h : SpellsMagnitude cs bits) :
    SpellsFloat ('-' :: cs) (Binary64.ofMagnitude true bits)

/-! ## Decimals -/

private theorem readExponent_eq_some_iff {cs : List Char} {e : Int} :
    readExponent cs = some e ↔ SpellsExponent cs e := by
  constructor
  · intro h
    cases cs with
    | nil =>
      cases h
      exact .none
    | cons m cs =>
      have hread {ds : List Char} {v : Int}
          (h : (if ds ≠ [] ∧ ds.all Char.isDigit then some v else none) = some e) :
          AreDigits ds ∧ ds ≠ [] ∧ v = e := by
        split at h
        · next hds => exact ⟨List.all_eq_true.mp hds.2, hds.1, Option.some.inj h⟩
        · cases h
      by_cases hm : m = 'e' ∨ m = 'E'
      · rw [readExponent, if_pos hm] at h
        by_cases hminus : cs.head? = some '-'
        · obtain ⟨ds, rfl⟩ := List.head?_eq_some_iff.mp hminus
          obtain ⟨hds, hne, rfl⟩ := hread h
          exact .minus hm hds hne
        · by_cases hplus : cs.head? = some '+'
          · obtain ⟨ds, rfl⟩ := List.head?_eq_some_iff.mp hplus
            obtain ⟨hds, hne, rfl⟩ := hread h
            exact .plus hm hds hne
          · simp only [hminus, hplus, or_self, if_false] at h
            obtain ⟨hds, hne, rfl⟩ := hread h
            exact .plain hm hds hne
      · rw [readExponent, if_neg hm] at h
        cases h
  · intro h
    cases h with
    | none => rfl
    | plain hm hds hne => exact readExponent_plain hm hds hne
    | plus hm hds hne => exact readExponent_plus hm hds hne
    | minus hm hds hne => exact readExponent_minus hm hds hne

private theorem SpellsExponent.head {cs : List Char} {e : Int} (h : SpellsExponent cs e) {c : Char}
    (hc : cs.head? = some c) : c = 'e' ∨ c = 'E' := by
  cases h with
  | none => cases hc
  | plain hm _ _ => cases hc; exact hm
  | plus hm _ _ => cases hc; exact hm
  | minus hm _ _ => cases hc; exact hm

private theorem SpellsExponent.ended {cs : List Char} {e : Int} (h : SpellsExponent cs e) :
    Ended cs := by
  intro c hc
  obtain rfl | rfl := h.head hc <;> decide

private theorem readUnsigned_eq_some_iff {cs : List Char} {d : Decimal} :
    readUnsigned cs = some d ↔ SpellsUnsigned cs d := by
  constructor
  · intro h
    have hdigits (ds : List Char) : AreDigits (ds.takeWhile Char.isDigit) :=
      fun c hc => List.mem_takeWhile_imp hc
    have hsplit (ds : List Char) : ds.takeWhile Char.isDigit ++ ds.dropWhile Char.isDigit = ds :=
      List.takeWhile_append_dropWhile
    rw [readUnsigned] at h
    split at h
    · next hpoint =>
      obtain ⟨tail, htail⟩ := List.head?_eq_some_iff.mp hpoint
      rw [htail, List.drop_succ_cons, List.drop_zero] at h
      split at h
      · cases h
      · next hne =>
        obtain ⟨e, he, rfl⟩ := Option.map_eq_some_iff.mp h
        have hcs : cs.takeWhile Char.isDigit ++
            '.' :: (tail.takeWhile Char.isDigit ++ tail.dropWhile Char.isDigit) = cs := by
          rw [hsplit tail, ← htail, hsplit cs]
        have hspelled :=
          SpellsUnsigned.point (hdigits cs) (hdigits tail) hne (readExponent_eq_some_iff.mp he)
        rw [hcs, ← valueOf_append] at hspelled
        exact hspelled
    · split at h
      · cases h
      · next hne =>
        obtain ⟨e, he, rfl⟩ := Option.map_eq_some_iff.mp h
        have hwhole : cs.takeWhile Char.isDigit ≠ [] := fun hnil => hne ⟨hnil, rfl⟩
        have hspelled := SpellsUnsigned.whole (hdigits cs) hwhole (readExponent_eq_some_iff.mp he)
        rw [hsplit cs] at hspelled
        simpa [valueOf_append] using hspelled
  · intro h
    cases h with
    | whole hds hne he =>
      have hpoint : List.head? _ ≠ some '.' := fun hc => by obtain h | h := he.head hc <;> cases h
      rw [readUnsigned_whole hds hne he.ended hpoint, readExponent_eq_some_iff.mpr he]
      rfl
    | point hds hfs hne he =>
      rw [readUnsigned_point _ hds hfs hne he.ended, readExponent_eq_some_iff.mpr he]
      rfl

/-! ## Doubles -/

private theorem readMagnitude_eq_some_iff {cs : List Char} {bits : Nat} :
    readMagnitude cs = some bits ↔ SpellsMagnitude cs bits := by
  constructor
  · intro h
    rw [readMagnitude] at h
    split at h
    · next hword =>
      cases h
      exact .infinity hword
    · split at h
      · next hword =>
        cases h
        exact .nan hword
      · obtain ⟨d, hd, rfl⟩ := Option.map_eq_some_iff.mp h
        exact .decimal (readUnsigned_eq_some_iff.mp hd)
  · intro h
    cases h with
    | infinity hword => simp only [readMagnitude, if_pos hword]
    | nan hword => simp [readMagnitude, hword]
    | decimal hd =>
      have hread := readUnsigned_eq_some_iff.mpr hd
      obtain ⟨c, rest, rfl, hc⟩ := exists_cons_of_readUnsigned hread
      rw [readMagnitude_plain hc, hread]
      rfl

/-- No magnitude starts with a sign. -/
theorem readMagnitude_sign {c : Char} (hc : c = '+' ∨ c = '-') (cs : List Char) :
    readMagnitude (c :: cs) = none := by
  have hword (w : List Char) (hw : w.head? ≠ some c) :
      String.ofList ((c :: cs).map Char.toLower) ≠ String.ofList w := by
    intro heq
    rw [← String.ofList_injective heq, List.map_cons] at hw
    obtain rfl | rfl := hc <;> exact hw rfl
  have hunsigned : readUnsigned (c :: cs) = none := by
    cases h : readUnsigned (c :: cs) with
    | none => rfl
    | some d =>
      obtain ⟨c', rest, heq, hc'⟩ := exists_cons_of_readUnsigned h
      cases heq
      obtain rfl | rfl := hc <;> simp at hc'
  rw [readMagnitude]
  rw [if_neg (not_or.mpr ⟨hword ['i', 'n', 'f'] ?_,
      hword ['i', 'n', 'f', 'i', 'n', 'i', 't', 'y'] ?_⟩),
    if_neg (hword ['n', 'a', 'n'] ?_), hunsigned]
  · rfl
  all_goals obtain rfl | rfl := hc <;> simp

/-- A text is read as a double exactly if it spells the double. -/
theorem readFloat_eq_some_iff {cs : List Char} {x : Float} :
    readFloat cs = some x ↔ SpellsFloat cs x := by
  constructor
  · intro h
    unfold readFloat at h
    split at h
    · obtain ⟨bits, hbits, rfl⟩ := Option.map_eq_some_iff.mp h
      exact .minus (readMagnitude_eq_some_iff.mp hbits)
    · obtain ⟨bits, hbits, rfl⟩ := Option.map_eq_some_iff.mp h
      exact .plus (readMagnitude_eq_some_iff.mp hbits)
    · obtain ⟨bits, hbits, rfl⟩ := Option.map_eq_some_iff.mp h
      exact .plain (readMagnitude_eq_some_iff.mp hbits)
  · intro h
    cases h with
    | plus h =>
      rw [readFloat, readMagnitude_eq_some_iff.mpr h]
      rfl
    | minus h =>
      rw [readFloat, readMagnitude_eq_some_iff.mpr h]
      rfl
    | plain h =>
      have hread := readMagnitude_eq_some_iff.mpr h
      unfold readFloat
      split
      · rw [readMagnitude_sign (.inr rfl)] at hread
        cases hread
      · rw [readMagnitude_sign (.inl rfl)] at hread
        cases hread
      · rw [hread]
        rfl

end Quadlet.Decimal
