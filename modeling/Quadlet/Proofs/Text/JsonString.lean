import Mathlib.Data.List.TakeWhile
import Quadlet.Proofs.Text.Blank
import Quadlet.Text.JsonString

/-!
# JSON strings are read back

A JSON string spells a text character by character, each plainly or behind a backslash, and the
reader takes exactly these strings. Every character is written in one of these ways, and none as a
line feed or a carriage return. So a text is read back, and stands in one line.
-/

namespace Quadlet.Text.JsonString

/-! ## Spellings -/

/-- The ways to spell a character: plainly, behind a backslash, or by the number of
one unit or of a pair. -/
inductive SpellsChar : List Char → Char → Prop where
  | plain {c : Char} (hc : ¬c.toNat < 0x20) (hquote : c ≠ '"') (hslash : c ≠ '\\') :
    SpellsChar [c] c
  | simple {e c : Char} (h : simpleEscape e = some c) : SpellsChar ['\\', e] c
  | unit {x y u v : Char} {n : Nat} (h : hexFour x y u v = some n) (hleading : isLeading n = false)
    (htrailing : isTrailing n = false) : SpellsChar ['\\', 'u', x, y, u, v] (Char.ofNat n)
  | pair {x y u v x' y' u' v' : Char} {n m : Nat} (h : hexFour x y u v = some n)
    (hleading : isLeading n = true) (h' : hexFour x' y' u' v' = some m)
    (htrailing : isTrailing m = true) :
    SpellsChar ['\\', 'u', x, y, u, v, '\\', 'u', x', y', u', v']
      (Char.ofNat (0x10000 + 1024 * (n - 0xD800) + (m - 0xDC00)))

/-- Spellings of characters in a row. -/
inductive SpellsChars : List Char → List Char → Prop where
  | nil : SpellsChars [] []
  | cons {w cs s : List Char} {c : Char} (h : SpellsChar w c) (hrest : SpellsChars cs s) :
    SpellsChars (w ++ cs) (c :: s)

/-- Characters that may stand around a JSON value. -/
def IsPadding (cs : List Char) : Prop := ∀ c ∈ cs, isPadding c = true

/-- A JSON string: spelled characters between quotes, perhaps with padding around them. -/
def Spells (cs : List Char) (s : String) : Prop :=
  ∃ front ws back, cs = front ++ '"' :: ws ++ '"' :: back ∧ IsPadding front ∧ IsPadding back ∧
    SpellsChars ws s.toList

/-- A half of a pair is not both of its halves. -/
theorem isTrailing_of_isLeading {n : Nat} (h : isLeading n = true) : isTrailing n = false := by
  simp only [isLeading, isTrailing, Bool.and_eq_true, decide_eq_true_eq, Bool.and_eq_false_iff,
    decide_eq_false_iff_not] at h ⊢
  omega

/-- A spelled character is read as itself. -/
theorem SpellsChar.body {c : Char} {w : List Char} (h : SpellsChar w c) (column : Nat)
    (text cs : List Char) :
    ∃ column', body column text (w ++ cs) = body column' (c :: text) cs := by
  cases h with
  | plain hc hquote hslash => exact ⟨column + c.utf8Size, by simp [JsonString.body, hc, hslash]⟩
  | simple h =>
    refine ⟨column + 2, ?_⟩
    unfold simpleEscape at h
    split at h <;> cases h <;> rfl
  | unit h hleading htrailing =>
    exact ⟨column + 6, by simp [JsonString.body, h, hleading, htrailing]⟩
  | pair h hleading h' htrailing =>
    exact ⟨column + 12, by
      simp [JsonString.body, h, hleading, isTrailing_of_isLeading hleading, h', htrailing]⟩

/-- Spelled characters are read up to the closing quote. -/
theorem SpellsChars.body {ws s : List Char} (h : SpellsChars ws s) (column : Nat)
    (text cs : List Char) :
    ∃ column', body column text (ws ++ '"' :: cs) = .ok (s.reverse ++ text, column', cs) := by
  induction h generalizing column text with
  | nil => exact ⟨column + 1, rfl⟩
  | @cons w ws s c hc hs ih =>
    obtain ⟨column', hw⟩ := hc.body column text (ws ++ '"' :: cs)
    obtain ⟨column'', hrest⟩ := ih column' (c :: text)
    exact ⟨column'', by rw [List.append_assoc, hw, hrest]; simp⟩

/-- What is read up to the closing quote is spelled there. -/
theorem spells_of_body {column column' : Nat} {text cs text' rest : List Char}
    (h : body column text cs = .ok (text', column', rest)) :
    ∃ ws s, cs = ws ++ '"' :: rest ∧ SpellsChars ws s ∧ text' = s.reverse ++ text := by
  -- The reader goes on behind a character in four ways, which are the four ways to spell it.
  fun_induction JsonString.body column text cs with
  | case2 column text cs =>
    cases h
    exact ⟨[], [], rfl, .nil, rfl⟩
  | case9 column text x y u v n hn htrailing hleading x' y' u' v' cs m hm htrailing' ih =>
    obtain ⟨ws, s, rfl, hs, rfl⟩ := ih h
    exact ⟨_, _, rfl, .cons (.pair hn hleading hm htrailing') hs, by simp⟩
  | case14 column text x y u v cs n hn htrailing hleading ih =>
    obtain ⟨ws, s, rfl, hs, rfl⟩ := ih h
    exact ⟨_, _, rfl,
      .cons (.unit hn (Bool.eq_false_iff.mpr hleading) (Bool.eq_false_iff.mpr htrailing)) hs,
      by simp⟩
  | case16 column text e cs _ _ c hc ih =>
    obtain ⟨ws, s, rfl, hs, rfl⟩ := ih h
    exact ⟨_, _, rfl, .cons (.simple hc) hs, by simp⟩
  | case19 column text c cs hquote hlast _ _ hescape hc ih =>
    obtain ⟨ws, s, rfl, hs, rfl⟩ := ih h
    have hslash : c ≠ '\\' := by
      intro hslash
      cases ws with
      | nil => exact hescape _ _ hslash rfl
      | cons e ws => exact hescape _ _ hslash rfl
    exact ⟨_, _, rfl, .cons (.plain hc hquote hslash) hs, by simp⟩
  | _ => cases h

/-- A text is read as a JSON string exactly if it spells the string. -/
theorem decode_eq_ok_iff {cs : List Char} {s : String} : decode cs = .ok s ↔ Spells cs s := by
  constructor
  · intro h
    rw [decode] at h
    split at h
    · next inner hinner =>
      split at h
      · cases h
      · next text column rest hbody =>
        split at h
        · next hback =>
          cases h
          obtain ⟨ws, s, rfl, hs, rfl⟩ := spells_of_body hbody
          refine ⟨cs.takeWhile isPadding, ws, rest, ?_, ?_, ?_, ?_⟩
          · rw [List.append_assoc, List.cons_append, ← hinner, List.takeWhile_append_dropWhile]
          · exact List.all_eq_true.mp List.all_takeWhile
          · exact List.dropWhile_eq_nil_iff.mp (List.isEmpty_iff.mp hback)
          · simpa using hs
        · cases h
    · cases h
  · rintro ⟨front, ws, back, rfl, hfront, hback, hs⟩
    have hinner : (front ++ '"' :: ws ++ '"' :: back).dropWhile isPadding =
        '"' :: (ws ++ '"' :: back) := by
      rw [List.append_assoc, List.dropWhile_append_of_pos hfront]
      rfl
    obtain ⟨column, hbody⟩ :=
      hs.body ((front ++ '"' :: ws ++ '"' :: back).takeWhile isPadding).length.succ [] back
    have hrest : (back.dropWhile isPadding).isEmpty = true :=
      List.isEmpty_iff.mpr (List.dropWhile_eq_nil_iff.mpr hback)
    simp only [decode, hinner, hbody, hrest, if_true, List.append_nil, List.reverse_reverse,
      String.ofList_toList]

/-! ## Writing -/

/-- The ways to write a character. -/
inductive Writes (c : Char) : List Char → Prop where
  | simple {e : Char} (h : simpleEscape e = some c) : Writes c ['\\', e]
  | hex {x y u v : Char} (h : hexFour x y u v = some c.toNat) (hc : c.toNat < 0x20) :
    Writes c ['\\', 'u', x, y, u, v]
  | plain (hc : ¬c.toNat < 0x20) (hquote : c ≠ '"') (hslash : c ≠ '\\') : Writes c [c]

private theorem hexFour_digitChar {n : Nat} (h : n < 0x10) :
    hexFour '0' '0' '0' n.digitChar = some n := by
  revert n
  decide

private theorem hexDigits_of_lt {n : Nat} (h : n < 0x20) (hn : ¬n < 0x10) :
    ∃ d, hexDigits n = ['1', d] ∧ hexFour '0' '0' '1' d = some n := by
  have hall : ∀ n < 0x20, ¬n < 0x10 → hexDigits n = ['1', (n - 0x10).digitChar] ∧
      hexFour '0' '0' '1' (n - 0x10).digitChar = some n := by
    decide
  exact ⟨_, hall n h hn⟩

/-- Every character is written in one of the ways. -/
theorem writes_encodeChar (c : Char) : Writes c (encodeChar c) := by
  unfold encodeChar
  split
  any_goals exact .simple rfl
  next hquote hslash _ _ _ _ _ =>
  split
  · next hc =>
    rw [hexDigits, Nat.toDigits_of_lt_base hc]
    exact .hex (hexFour_digitChar hc) (by omega)
  · next hlow =>
    split
    · next hc =>
      obtain ⟨d, hd, hfour⟩ := hexDigits_of_lt hc hlow
      rw [hd]
      exact .hex hfour hc
    · next hc => exact .plain hc hquote hslash

/-- What writes a character spells it. -/
theorem Writes.spells {c : Char} {w : List Char} (h : Writes c w) : SpellsChar w c := by
  cases h with
  | simple h => exact .simple h
  | hex h hc =>
    have hleading : isLeading c.toNat = false := by simp [isLeading]; omega
    have htrailing : isTrailing c.toNat = false := by simp [isTrailing]; omega
    have hunit := SpellsChar.unit h hleading htrailing
    rwa [Char.ofNat_toNat] at hunit
  | plain hc hquote hslash => exact .plain hc hquote hslash

/-- Written characters spell a text. -/
theorem spells_encode (s : List Char) : SpellsChars (s.flatMap encodeChar) s := by
  induction s with
  | nil => exact .nil
  | cons c s ih => exact .cons (writes_encodeChar c).spells ih

/-- The characters of a written text stand between two quotes. -/
theorem toList_encode (s : String) :
    (encode s).toList = '"' :: s.toList.flatMap encodeChar ++ ['"'] := by
  rw [encode, String.toList_ofList]

/-- A written text is read as itself. -/
theorem decode_encode (s : String) : decode (encode s).toList = .ok s := by
  refine decode_eq_ok_iff.mpr ⟨[], s.toList.flatMap encodeChar, [], ?_, ?_, ?_,
    spells_encode s.toList⟩
  · rw [toList_encode]
    rfl
  · simp [IsPadding]
  · simp [IsPadding]

/-- No written character is a line feed or a carriage return. -/
theorem Writes.isLine {c : Char} {w : List Char} (h : Writes c w) : IsLine w := by
  have hhex {x : Char} {n : Nat} (hx : hexValue x = some n) : x ≠ '\n' ∧ x ≠ '\r' := by
    constructor <;> rintro rfl <;> cases hx
  cases h with
  | simple h =>
    unfold simpleEscape at h
    split at h <;> cases h <;> simp [IsLine]
  | hex h hc =>
    simp only [hexFour, Option.bind_eq_bind, Option.bind_eq_some_iff] at h
    obtain ⟨_, hx, _, hy, _, hu, _, hv, -⟩ := h
    simp [IsLine, hhex hx, hhex hy, hhex hu, hhex hv]
  | plain hc hquote hslash =>
    intro d hd
    rw [List.mem_singleton.mp hd]
    constructor <;> rintro rfl <;> exact hc (by decide)

/-- A written text stands in one line. -/
theorem isLine_encode (s : String) : IsLine (encode s).toList := by
  intro c hc
  rw [toList_encode] at hc
  simp only [List.cons_append, List.mem_cons, List.mem_append, List.mem_flatMap, List.not_mem_nil,
    or_false] at hc
  rcases hc with rfl | ⟨d, -, hd⟩ | rfl
  · decide
  · exact (writes_encodeChar d).isLine c hd
  · decide

/-- A written text starts and ends with a quote. -/
theorem isTrimmed_encode (s : String) : IsTrimmed (encode s).toList := by
  have hquote : isBlank '"' = false := by decide
  rw [toList_encode]
  constructor
  · rintro c hc
    cases hc
    exact hquote
  · rintro c hc
    rw [List.getLast?_concat] at hc
    cases hc
    exact hquote

end Quadlet.Text.JsonString
