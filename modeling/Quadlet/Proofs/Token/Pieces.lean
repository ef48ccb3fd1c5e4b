import Quadlet.Proofs.Token.Numbers

/-!
# The pieces of a text

What the first piece of a text is, said by the text alone: a blank, a comment, a token with a lexeme
that spells it, a fault, or a character that starts nothing. Main statements: the scanner cuts off
the first piece of every text, so a text has one first piece; and a token stays the first piece
whatever else comes behind it, if nothing comes there that a blank does not part from it.
-/

namespace Quadlet

open Decimal (AreDigits Ended readFloat)

/-- Names: a letter or an underscore, and then letters, digits and underscores. -/
def Pattern.names : Language Char :=
  {w | ∃ c cs, w = c :: cs ∧ Scanner.isNameStart c = true ∧ ∀ d ∈ cs, Scanner.isNamePart d = true}

namespace Scanner

open Pattern

/-! ## Lexemes -/

/-- The kind of token that a text spells. -/
inductive Spelled : List Char → Token.Kind → Prop where
  | sign (s : Sign) : Spelled s.text.toList (.sign s)
  | keyword (k : Keyword) : Spelled k.word.toList (.keyword k)
  /-- A name that is no reserved word. -/
  | identifier {w : List Char} (name : w ∈ names) (free : ∀ k : Keyword, k.word ≠ String.ofList w) :
    Spelled w (.identifier (String.ofList w))
  /-- A text between two quotes, without the quote inside. -/
  | string {quote : Char} {text : List Char} (isQuote : isQuote quote = true)
    (inside : quote ∉ text) :
    Spelled (quote :: text ++ [quote]) (.string (String.ofList text))
  | integer {w : List Char} (digits : w ∈ integer.matches')
    (limit : Decimal.valueOf w ≤ Text.Numeral.intLimit) :
    Spelled w (.integer (Int64.ofInt (Decimal.valueOf w)))
  | float {w : List Char} {x : Float} (literal : w ∈ float.matches')
    (value : readFloat w = some x) :
    Spelled w (.float x)

/-- The word that a name is. -/
def wordKind (w : List Char) : Token.Kind :=
  (Keyword.ofWord? (String.ofList w)).elim (.identifier (String.ofList w)) .keyword

private theorem spelled_wordKind {w : List Char} (h : w ∈ names) : Spelled w (wordKind w) := by
  rw [wordKind]
  cases hk : Keyword.ofWord? (String.ofList w) with
  | some k =>
    have hword : k.word = String.ofList w := by simpa using List.find?_some hk
    have hspelled := Spelled.keyword k
    rw [hword, String.toList_ofList] at hspelled
    exact hspelled
  | none =>
    refine .identifier h fun k hword => ?_
    rw [← hword, Keyword.ofWord?_word] at hk
    cases hk

theorem wordKind_of_free {w : List Char} (h : ∀ k : Keyword, k.word ≠ String.ofList w) :
    wordKind w = .identifier (String.ofList w) := by
  have hnone : Keyword.ofWord? (String.ofList w) = none := by simp [Keyword.ofWord?, h]
  rw [wordKind, hnone]
  rfl

/-- A reserved word is a name. -/
theorem word_mem_names (k : Keyword) : k.word.toList ∈ names := by
  have hname {c : Char} {cs : List Char} (h : (isNameStart c && cs.all isNamePart) = true) :
      c :: cs ∈ names := by
    rw [Bool.and_eq_true, List.all_eq_true] at h
    exact ⟨c, cs, rfl, h.1, h.2⟩
  cases k <;> exact hname (by decide)

theorem wordKind_word (k : Keyword) : wordKind k.word.toList = .keyword k := by
  rw [wordKind, String.ofList_toList, Keyword.ofWord?_word]
  rfl

theorem text_of_signOf? {c : Char} {s : Sign} (h : signOf? c = some s) : s.text.toList = [c] := by
  unfold signOf? at h
  split at h <;> cases h <;> rfl

theorem text_of_pairOf? {c : Char} {s : Sign} (h : pairOf? c = some s) :
    s.text.toList = [c, '='] := by
  unfold pairOf? at h
  split at h <;> cases h <;> rfl

/-- A sign is one character, or one and an equals sign. -/
theorem sign_cases (s : Sign) : (∃ c, signOf? c = some s) ∨ ∃ c, pairOf? c = some s := by
  cases s with
  | plus => exact .inl ⟨'+', rfl⟩
  | minus => exact .inl ⟨'-', rfl⟩
  | star => exact .inl ⟨'*', rfl⟩
  | slash => exact .inl ⟨'/', rfl⟩
  | eq => exact .inr ⟨'=', rfl⟩
  | ne => exact .inr ⟨'!', rfl⟩
  | lt => exact .inl ⟨'<', rfl⟩
  | gt => exact .inl ⟨'>', rfl⟩
  | le => exact .inr ⟨'<', rfl⟩
  | ge => exact .inr ⟨'>', rfl⟩
  | assign => exact .inl ⟨'=', rfl⟩
  | leftParen => exact .inl ⟨'(', rfl⟩
  | rightParen => exact .inl ⟨')', rfl⟩
  | leftBrace => exact .inl ⟨'\x7b', rfl⟩
  | rightBrace => exact .inl ⟨'\x7d', rfl⟩
  | leftBracket => exact .inl ⟨'[', rfl⟩
  | rightBracket => exact .inl ⟨']', rfl⟩
  | comma => exact .inl ⟨',', rfl⟩
  | colon => exact .inl ⟨':', rfl⟩
  | semicolon => exact .inl ⟨';', rfl⟩

/-- A character that is no blank and starts no comment, no string and no token. -/
structure IsIllegal (c : Char) (cs : List Char) : Prop where
  noBlank : isSpace c = false
  noComment : c ≠ '#'
  noQuote : isQuote c = false
  noToken : ∀ w k, Spelled w k → ¬ w <+: c :: cs

/-- What the first piece of a text is. -/
inductive FirstPiece : List Char → Cut → Prop where
  | blank {c : Char} {cs : List Char} (space : isSpace c = true) :
    FirstPiece (c :: cs) ⟨.gap, [c], cs⟩
  /-- A comment goes on to the end of its line or of the text. -/
  | comment {text rest : List Char} (line : '\n' ∉ text) (ends : ∀ c ∈ rest.head?, c = '\n') :
    FirstPiece ('#' :: (text ++ rest)) ⟨.gap, '#' :: text, rest⟩
  | pair {c : Char} {s : Sign} {rest : List Char} (pair : pairOf? c = some s) :
    FirstPiece (c :: '=' :: rest) ⟨.token (.sign s), [c, '='], rest⟩
  /-- A sign is alone if no equals sign makes another sign of it. -/
  | sign {c : Char} {s : Sign} {rest : List Char} (sign : signOf? c = some s)
    (alone : (pairOf? c).isSome = true → rest.head? ≠ some '=') :
    FirstPiece (c :: rest) ⟨.token (.sign s), [c], rest⟩
  | string {quote : Char} {text rest : List Char} (isQuote : isQuote quote = true)
    (inside : quote ∉ text) :
    FirstPiece (quote :: (text ++ quote :: rest))
      ⟨.token (.string (String.ofList text)), quote :: text ++ [quote], rest⟩
  | unclosed {quote : Char} {text : List Char} (isQuote : isQuote quote = true)
    (inside : quote ∉ text) :
    FirstPiece (quote :: text) ⟨.fault .unterminatedString, quote :: text, []⟩
  | number {k : Cut} (number : NumberPiece (k.lexeme ++ k.rest) k) :
    FirstPiece (k.lexeme ++ k.rest) k
  | name {w rest : List Char} (longest : IsLongest names w (w ++ rest)) :
    FirstPiece (w ++ rest) ⟨.token (wordKind w), w, rest⟩
  | illegal {c : Char} {cs : List Char} (illegal : IsIllegal c cs) :
    FirstPiece (c :: cs) ⟨.illegal c, [c], cs⟩

/-! ## The first piece is cut off -/

private theorem isLongest_name {c : Char} (h : isNameStart c = true) (cs : List Char) :
    IsLongest names (c :: cs.takeWhile isNamePart) (c :: cs) := by
  refine ⟨⟨c, _, rfl, h, fun d hd => List.mem_takeWhile_imp hd⟩,
    List.cons_prefix_cons.mpr ⟨rfl, List.takeWhile_prefix _⟩, ?_⟩
  rintro v ⟨d, ds, rfl, -, hds⟩ hfront
  obtain ⟨rfl, hbehind⟩ := List.cons_prefix_cons.mp hfront
  exact (List.cons_prefix_cons.mpr ⟨rfl, prefix_takeWhile hds hbehind⟩).length_le

private theorem isNamePart_of_isNameStart {c : Char} (h : isNameStart c = true) :
    isNamePart c = true := by
  simp only [isNameStart, isNamePart, Char.isAlphanum, Bool.or_eq_true] at h ⊢
  tauto

private theorem isDigit_of_isNameStart {c : Char} (h : isNameStart c = true) :
    c.isDigit = false := by
  by_contra hc
  have hdigits : ∀ d ∈ ['0', '1', '2', '3', '4', '5', '6', '7', '8', '9'],
      (!isNameStart d) = true :=
    List.all_eq_true.mp (by decide)
  simpa [h] using hdigits c (isDigit_iff.mp (by simpa using hc))

/-- A letter or an underscore starts a name. -/
theorem cut_of_isNameStart {c : Char} (h : isNameStart c = true) (cs : List Char) :
    cut c cs = ⟨.token (wordKind (c :: cs.takeWhile isNamePart)), c :: cs.takeWhile isNamePart,
      cs.dropWhile isNamePart⟩ := by
  have hdigit : c.isDigit = false := isDigit_of_isNameStart h
  have hpoint : c ≠ '.' := by
    rintro rfl
    exact absurd h (by decide)
  rw [cut_plain (.inl (isNamePart_of_isNameStart h)), if_neg (by simp [hdigit, hpoint]), if_pos h,
    cutName, wordKind]
  cases Keyword.ofWord? (String.ofList (c :: cs.takeWhile isNamePart)) <;> rfl

/-- A quote starts a string. -/
theorem cut_of_isQuote {c : Char} (h : isQuote c = true) (cs : List Char) :
    cut c cs = cutString c cs := by
  obtain rfl | rfl : c = '"' ∨ c = '\x27' := by simpa [isQuote] using h
  all_goals rfl

private theorem takeWhile_of_not_mem {c : Char} {text : List Char} (h : c ∉ text) (rest : List Char)
    (hrest : ∀ d ∈ rest.head?, d = c) :
    (text ++ rest).takeWhile (· != c) = text ∧ (text ++ rest).dropWhile (· != c) = rest := by
  have htext : ∀ d ∈ text, (d != c) = true := by
    intro d hd
    simp only [bne_iff_ne]
    rintro rfl
    exact h hd
  rw [List.takeWhile_append_of_pos htext, List.dropWhile_append_of_pos htext]
  cases rest with
  | nil => simp
  | cons d rest =>
    obtain rfl := hrest d rfl
    simp

private theorem firstPiece_of_isQuote {c : Char} (h : isQuote c = true) (cs : List Char) :
    FirstPiece (c :: cs) (cut c cs) := by
  have hinside : c ∉ cs.takeWhile (· != c) := by
    intro hc
    simpa using List.mem_takeWhile_imp hc
  have happend := List.takeWhile_append_dropWhile (p := (· != c)) (l := cs)
  rw [cut_of_isQuote h, cutString]
  cases hrest : cs.dropWhile (· != c) with
  | nil =>
    rw [hrest, List.append_nil] at happend
    have hpiece := FirstPiece.unclosed h hinside
    rw [happend] at hpiece
    simpa [happend] using hpiece
  | cons d rest =>
    obtain rfl : d = c := by
      have hhead := List.head?_dropWhile_not (· != c) cs
      simpa [hrest] using hhead
    rw [hrest] at happend
    have hpiece := @FirstPiece.string _ _ rest h hinside
    rw [happend] at hpiece
    exact hpiece

private theorem firstPiece_comment (cs : List Char) :
    FirstPiece ('#' :: cs) ⟨.gap, '#' :: cs.takeWhile (· != '\n'), cs.dropWhile (· != '\n')⟩ := by
  have hline : '\n' ∉ cs.takeWhile (· != '\n') := by
    intro hmem
    simpa using List.mem_takeWhile_imp hmem
  have hends : ∀ c ∈ (cs.dropWhile (· != '\n')).head?, c = '\n' := by
    intro c hc
    simpa [Option.mem_def.mp hc] using List.head?_dropWhile_not (· != '\n') cs
  have hpiece := FirstPiece.comment hline hends
  rw [List.takeWhile_append_dropWhile] at hpiece
  exact hpiece

/-- A text that a number literal stands in front of starts with a number. -/
theorem startsNumber_of_front {w cs : List Char} (h : w ∈ integer.matches' ∨ w ∈ float.matches')
    (hfront : w <+: cs) : StartsNumber cs := by
  obtain h | h := h
  · obtain ⟨hne, hdigits⟩ := mem_integer.mp h
    exact .inl (startsWithDigit_of_front hdigits hne hfront)
  · obtain ⟨whole, f, e, hwhole, hf, -, rfl⟩ := mem_float.mp h
    cases whole with
    | nil =>
      obtain ⟨ds, hne, hds, rfl⟩ := mem_fraction.mp hf
      obtain ⟨rest, rfl⟩ := hfront
      exact .inr ⟨_, rfl, startsWithDigit_of_front hds hne (by simp)⟩
    | cons d ds =>
      exact .inl (startsWithDigit_of_front hwhole (by simp) ((List.prefix_append ..).trans hfront))

/-- A character behind which nothing of the following starts is illegal. -/
theorem isIllegal_of_not {c : Char} {cs : List Char} (hblank : isSpace c = false)
    (hcomment : c ≠ '#') (hquote : isQuote c = false)
    (hpair : ∀ s rest, pairOf? c = some s → cs ≠ '=' :: rest) (hsign : signOf? c = none)
    (hnumber : ¬StartsNumber (c :: cs)) (hname : isNameStart c = false) : IsIllegal c cs := by
  have hnames {w : List Char} (hw : w ∈ names) : ¬ w <+: c :: cs := by
    obtain ⟨d, ds, rfl, hd, -⟩ := hw
    intro hfront
    obtain ⟨rfl, -⟩ := List.cons_prefix_cons.mp hfront
    rw [hname] at hd
    cases hd
  refine ⟨hblank, hcomment, hquote, fun w k hk hfront => ?_⟩
  cases hk with
  | sign s =>
    obtain ⟨d, hd⟩ | ⟨d, hd⟩ := sign_cases s
    · rw [text_of_signOf? hd] at hfront
      obtain ⟨rfl, -⟩ := List.cons_prefix_cons.mp hfront
      rw [hsign] at hd
      cases hd
    · rw [text_of_pairOf? hd] at hfront
      obtain ⟨rfl, rest, hrest⟩ := List.cons_prefix_cons.mp hfront
      exact hpair s rest hd hrest.symm
  | keyword k => exact hnames (word_mem_names k) hfront
  | identifier name free => exact hnames name hfront
  | string isQuote inside =>
    obtain ⟨rfl, -⟩ := List.cons_prefix_cons.mp hfront
    rw [hquote] at isQuote
    cases isQuote
  | integer digits limit => exact hnumber (startsNumber_of_front (.inl digits) hfront)
  | float literal value => exact hnumber (startsNumber_of_front (.inr literal) hfront)

/-- The first piece of every text is cut off. -/
theorem firstPiece_cut (c : Char) (cs : List Char) : FirstPiece (c :: cs) (cut c cs) := by
  -- Numbers, strings and names have their own lemmas; what is left follows the cases of `cut`.
  by_cases hnumber : StartsNumber (c :: cs)
  · have hpiece := numberPiece_cut hnumber
    rw [← cut_append c cs] at hpiece ⊢
    exact .number hpiece
  by_cases hquote : isQuote c = true
  · exact firstPiece_of_isQuote hquote cs
  by_cases hname : isNameStart c = true
  · have happend : (c :: cs.takeWhile isNamePart) ++ cs.dropWhile isNamePart = c :: cs := by
      rw [List.cons_append, List.takeWhile_append_dropWhile]
    have hlongest := isLongest_name hname cs
    rw [cut_of_isNameStart hname]
    rw [← happend] at hlongest ⊢
    exact .name hlongest
  rw [Bool.not_eq_true] at hquote hname
  unfold cut
  split
  · next hblank => exact .blank hblank
  · next hblank =>
    split
    · next hcomment =>
      subst hcomment
      exact firstPiece_comment cs
    · next hcomment =>
      split
      · next hpair => exact .pair hpair
      · next hpair =>
        cases hsign : signOf? c with
        | some s =>
          refine .sign hsign fun hsome hhead => ?_
          obtain ⟨s', hs'⟩ := Option.isSome_iff_exists.mp hsome
          obtain ⟨rest, rfl⟩ := List.head?_eq_some_iff.mp hhead
          exact hpair s' rest hs' rfl
        | none =>
          dsimp only
          rw [if_neg (by simp [hquote]), if_neg fun h => hnumber (startsNumber_iff.mpr h),
            if_neg (by simp [hname])]
          exact .illegal (isIllegal_of_not (by simpa using hblank) hcomment hquote hpair hsign
            hnumber hname)

/-! ## A text has one first piece -/

theorem FirstPiece.append {text : List Char} {k : Cut} (h : FirstPiece text k) :
    k.lexeme ++ k.rest = text := by
  cases h with
  | string isQuote inside => simp
  | unclosed isQuote inside => simp
  | _ => rfl

/-- Pieces of one text are the same if they are of one kind and length. -/
theorem eq_of_append {k l : Cut} (h : k.lexeme ++ k.rest = l.lexeme ++ l.rest)
    (hpiece : k.piece = l.piece) (hlexeme : k.lexeme = l.lexeme) : k = l := by
  obtain ⟨piece, lexeme, rest⟩ := k
  obtain ⟨piece', lexeme', rest'⟩ := l
  obtain rfl : piece = piece' := hpiece
  obtain rfl : lexeme = lexeme' := hlexeme
  obtain rfl : rest = rest' := List.append_cancel_left h
  rfl

private theorem NumberPiece.unique {text : List Char} {k l : Cut} (hk : NumberPiece text k)
    (hl : NumberPiece text l) : k.piece = l.piece ∧ k.lexeme = l.lexeme := by
  cases hk with
  | twoPoints longest =>
    cases hl with
    | twoPoints longest' => obtain rfl := longest.unique longest'; exact ⟨rfl, rfl⟩
    | float free => exact absurd longest.front (free _ longest.mem)
    | integer free => exact absurd longest.front (free _ longest.mem)
  | float free longest value =>
    cases hl with
    | twoPoints longest' => exact absurd longest'.front (free _ longest'.mem)
    | float free' longest' value' =>
      obtain rfl := longest.unique longest'
      rw [value] at value'
      cases value'
      exact ⟨rfl, rfl⟩
    | integer free' whole => exact absurd longest.front (whole _ longest.mem)
  | integer free whole longest =>
    cases hl with
    | twoPoints longest' => exact absurd longest'.front (free _ longest'.mem)
    | float free' longest' value => exact absurd longest'.front (whole _ longest'.mem)
    | integer free' whole' longest' => obtain rfl := longest.unique longest'; exact ⟨rfl, rfl⟩

private theorem NumberPiece.startsNumber {text : List Char} {k : Cut} (h : NumberPiece text k) :
    StartsNumber text := by
  cases h with
  | twoPoints longest =>
    obtain ⟨f, g, e, hf, -, -, rfl⟩ := mem_twoPoints.mp longest.mem
    have hfloat : f ∈ Pattern.float.matches' :=
      mem_float.mpr ⟨[], f, [], by simp [AreDigits], hf, .inl rfl, by simp⟩
    exact startsNumber_of_front (.inr hfloat) ((List.prefix_append ..).trans longest.front)
  | float free longest value => exact startsNumber_of_front (.inr longest.mem) longest.front
  | integer free whole longest => exact startsNumber_of_front (.inl longest.mem) longest.front

theorem FirstPiece.ne_nil {text : List Char} {k : Cut} (h : FirstPiece text k) : text ≠ [] := by
  cases h with
  | number number => exact number.startsNumber.ne_nil
  | name longest =>
    obtain ⟨c, cs, rfl, -⟩ := longest.mem
    simp
  | _ => simp

/-- A text that starts with a number has a token at its front. -/
theorem exists_spelled_of_startsNumber {cs : List Char} (h : StartsNumber cs) :
    ∃ w k, Spelled w k ∧ w <+: cs := by
  obtain h | ⟨ds, rfl, h⟩ := h
  · cases cs with
    | nil => cases h
    | cons c cs =>
      have hc : c.isDigit = true := by simpa [startsWithDigit] using h
      have hlimit : ∀ d ∈ ['0', '1', '2', '3', '4', '5', '6', '7', '8', '9'],
          decide (Decimal.valueOf [d] ≤ Text.Numeral.intLimit) = true :=
        List.all_eq_true.mp (by decide)
      exact ⟨[c], _, .integer (mem_integer.mpr ⟨by simp, by simpa [AreDigits] using hc⟩)
        (of_decide_eq_true (hlimit c (isDigit_iff.mp hc))), by simp⟩
  · have hfloat : '.' :: ds.takeWhile Char.isDigit ∈ float.matches' :=
      mem_float.mpr ⟨[], _, [], by simp [AreDigits], point_digits_mem h, .inl rfl, by simp⟩
    obtain ⟨x, hx⟩ := readFloat_of_mem_float hfloat
    exact ⟨_, _, .float hfloat hx, List.cons_prefix_cons.mpr ⟨rfl, List.takeWhile_prefix _⟩⟩

/-- An illegal character is cut off alone. -/
theorem cut_of_isIllegal {c : Char} {cs : List Char} (h : IsIllegal c cs) :
    cut c cs = ⟨.illegal c, [c], cs⟩ := by
  have hnumber : ¬StartsNumber (c :: cs) := by
    intro hstart
    obtain ⟨w, k, hk, hfront⟩ := exists_spelled_of_startsNumber hstart
    exact h.noToken w k hk hfront
  have hname : isNameStart c ≠ true := fun hc =>
    h.noToken [c] _ (spelled_wordKind ⟨c, [], rfl, hc, by simp⟩) (by simp)
  have hsign : signOf? c = none := by
    cases hs : signOf? c with
    | none => rfl
    | some s => exact absurd (by rw [text_of_signOf? hs]; simp) (h.noToken _ _ (.sign s))
  unfold cut
  rw [if_neg (by simp [h.noBlank]), if_neg h.noComment]
  split
  · next s rest hs => exact absurd (by rw [text_of_pairOf? hs]; simp) (h.noToken _ _ (.sign s))
  · rw [hsign]
    dsimp only
    rw [if_neg (by simp [h.noQuote]), if_neg fun hc => hnumber (startsNumber_iff.mpr hc),
      if_neg hname]

private theorem cut_sign {c : Char} {s : Sign} {rest : List Char} (h : signOf? c = some s)
    (halone : (pairOf? c).isSome = true → rest.head? ≠ some '=') :
    cut c rest = ⟨.token (.sign s), [c], rest⟩ := by
  have hplain : isSpace c = false ∧ c ≠ '#' := by
    unfold signOf? at h
    split at h <;> cases h <;> decide
  unfold cut
  rw [if_neg (by simp [hplain.1]), if_neg hplain.2]
  split
  · next hpair => exact absurd rfl (halone (by simp [hpair]))
  · rw [h]

private theorem cut_pair {c : Char} {s : Sign} (h : pairOf? c = some s) (rest : List Char) :
    cut c ('=' :: rest) = ⟨.token (.sign s), [c, '='], rest⟩ := by
  unfold pairOf? at h
  split at h <;> cases h <;> rfl

/-- What is the first piece of a text is cut off. -/
theorem cut_of_firstPiece {c : Char} {cs : List Char} {k : Cut} (h : FirstPiece (c :: cs) k) :
    cut c cs = k := by
  have happend := (cut_append c cs).trans h.append.symm
  generalize htext : c :: cs = text at h
  cases h with
  | blank space =>
    cases htext
    unfold cut
    rw [if_pos space]
  | comment line ends =>
    cases htext
    obtain ⟨htake, hdrop⟩ := takeWhile_of_not_mem line _ ends
    unfold cut
    rw [if_neg (by decide), if_pos rfl, htake, hdrop]
  | pair pair =>
    cases htext
    exact cut_pair pair _
  | sign sign alone =>
    cases htext
    exact cut_sign sign alone
  | @string _ text rest isQuote inside =>
    cases htext
    obtain ⟨htake, hdrop⟩ := takeWhile_of_not_mem inside (c :: rest) (by simp)
    rw [cut_of_isQuote isQuote, cutString, htake, hdrop]
  | unclosed isQuote inside =>
    cases htext
    obtain ⟨htake, hdrop⟩ := takeWhile_of_not_mem inside [] (by simp)
    rw [List.append_nil] at htake hdrop
    rw [cut_of_isQuote isQuote, cutString, htake, hdrop]
  -- In these two the scanner takes a longest front as well, and there is only one.
  | number number =>
    have hcut := numberPiece_cut (htext ▸ number.startsNumber)
    rw [htext] at hcut
    obtain ⟨hpiece, hlexeme⟩ := hcut.unique number
    exact eq_of_append happend hpiece hlexeme
  | @name w rest longest =>
    obtain ⟨d, ds, rfl, hd, -⟩ := longest.mem
    obtain ⟨rfl, -⟩ := List.cons.inj htext
    have hlexeme := (isLongest_name hd cs).unique (htext ▸ longest)
    refine eq_of_append happend ?_ ?_
    all_goals rw [cut_of_isNameStart hd, hlexeme]
  | illegal illegal =>
    cases htext
    exact cut_of_isIllegal illegal

/-- A sound first piece goes in front of a row of pieces. -/
theorem Passes.first {text rest : List Char} {k : Cut} {ks : List Cut} (h : FirstPiece text k)
    (sound : k.Sound) (more : Passes k.rest ks rest) : Passes text (k :: ks) rest := by
  obtain ⟨c, cs, rfl⟩ := List.exists_cons_of_ne_nil h.ne_nil
  exact .cons (cut_of_firstPiece h) sound more

/-! ## Tokens and what comes behind them -/

/-- The lexeme of a token spells its kind. -/
theorem FirstPiece.spelled {text w rest : List Char} {kind : Token.Kind}
    (h : FirstPiece text ⟨.token kind, w, rest⟩) : Spelled w kind := by
  generalize hk : (⟨.token kind, w, rest⟩ : Cut) = k at h
  cases h with
  | pair pair =>
    cases hk
    exact text_of_pairOf? pair ▸ .sign _
  | sign sign alone =>
    cases hk
    exact text_of_signOf? sign ▸ .sign _
  | string isQuote inside =>
    cases hk
    exact .string isQuote inside
  | number number =>
    subst hk
    generalize hl : (⟨.token kind, w, rest⟩ : Cut) = l at number
    cases number with
    | twoPoints longest => cases hl
    | float free longest value =>
      cases hl
      exact .float longest.mem value
    | integer free whole longest =>
      obtain ⟨hpiece, rfl, rfl⟩ := Cut.mk.inj hl
      rw [integerKind_eq longest.mem] at hpiece
      split at hpiece
      · next hlimit =>
        cases hpiece
        exact .integer longest.mem hlimit
      · cases hpiece
  | name longest =>
    cases hk
    exact spelled_wordKind longest.mem
  | _ => cases hk

/-- What stands at the front of a text without a blank in it stands at the front
of the other text too. -/
def Parted (rest rest' : List Char) : Prop := ∀ v, Solid v → v <+: rest' → v <+: rest

private theorem Parted.front {rest rest' : List Char} (h : Parted rest rest') {v w : List Char}
    (hv : Solid v) (hfront : v <+: w ++ rest') : v <+: w ++ rest := by
  obtain hle | ⟨u, rfl⟩ := List.prefix_or_prefix_of_prefix hfront (List.prefix_append w rest')
  · exact List.prefix_append_of_prefix hle
  · have hu : Solid u := fun c hc => hv c (List.mem_append_right w hc)
    exact (List.prefix_append_right_inj w).mpr (h u hu ((List.prefix_append_right_inj w).mp hfront))

section

variable {L : Language Char} (hL : ∀ v ∈ L, Solid v) {w rest rest' : List Char}
  (hparted : Parted rest rest')

include hL hparted

private theorem noFront_parted (h : NoFront L (w ++ rest)) : NoFront L (w ++ rest') :=
  fun v hv hfront => h v hv (hparted.front (hL v hv) hfront)

private theorem isLongest_parted (h : IsLongest L w (w ++ rest)) : IsLongest L w (w ++ rest') :=
  ⟨h.mem, List.prefix_append .., fun v hv hfront => h.longest v hv (hparted.front (hL v hv) hfront)⟩

end

theorem solid_names : ∀ w ∈ names, Solid w := by
  rintro w ⟨c, cs, rfl, hc, hcs⟩ d hd
  obtain rfl | hd := List.mem_cons.mp hd
  · exact isSpace_of_isNamePart (isNamePart_of_isNameStart hc)
  · exact isSpace_of_isNamePart (hcs d hd)

private theorem NumberPiece.parted {w rest rest' : List Char} {piece : Piece}
    (hparted : Parted rest rest') (h : NumberPiece (w ++ rest) ⟨piece, w, rest⟩) :
    NumberPiece (w ++ rest') ⟨piece, w, rest'⟩ := by
  generalize hk : (⟨piece, w, rest⟩ : Cut) = k at h
  cases h with
  | twoPoints longest =>
    cases hk
    exact .twoPoints (isLongest_parted (fun _ => solid_twoPoints) hparted longest)
  | float free longest value =>
    cases hk
    exact .float (noFront_parted (fun _ => solid_twoPoints) hparted free)
      (isLongest_parted (fun _ => solid_float) hparted longest) value
  | integer free whole longest =>
    cases hk
    exact .integer (noFront_parted (fun _ => solid_twoPoints) hparted free)
      (noFront_parted (fun _ => solid_float) hparted whole)
      (isLongest_parted (fun _ => solid_integer) hparted longest)

/-- A token stays the first piece if what comes behind it is parted from it as before. -/
theorem FirstPiece.parted {w rest rest' : List Char} {kind : Token.Kind}
    (hparted : Parted rest rest') (h : FirstPiece (w ++ rest) ⟨.token kind, w, rest⟩) :
    FirstPiece (w ++ rest') ⟨.token kind, w, rest'⟩ := by
  generalize hk : (⟨.token kind, w, rest⟩ : Cut) = k at h
  generalize htext : w ++ rest = text at h
  cases h with
  | pair pair =>
    cases hk
    exact .pair pair
  | sign sign alone =>
    cases hk
    refine .sign sign fun hpair hhead => alone hpair ?_
    obtain ⟨cs, rfl⟩ := List.head?_eq_some_iff.mp hhead
    obtain ⟨cs, rfl⟩ := hparted ['='] (by simp [Solid, isSpace]) (by simp)
    rfl
  | string isQuote inside =>
    cases hk
    have hpiece := @FirstPiece.string _ _ rest' isQuote inside
    simpa using hpiece
  | number number =>
    subst hk
    exact .number (k := ⟨.token kind, w, rest'⟩) (number.parted hparted)
  | name longest =>
    cases hk
    exact .name (isLongest_parted solid_names hparted longest)
  | _ => cases hk

end Scanner

end Quadlet
