import Quadlet.Proofs.Lowering.Source
import Quadlet.Proofs.Text.Numeral

/-!
# Reading of written tokens

A text can be written with any gaps around its tokens, and a number with any digits of its
value. Main statement: the scanner reads such a text as the tokens that were written,
whatever else comes behind it.
-/

namespace Quadlet

namespace Scanner

/-! ## Texts and their tokens -/

/-- A text is cut into gaps and tokens of these kinds, up to its end. -/
inductive Reads : List Char → List Token.Kind → Prop where
  | nil : Reads [] []
  | gap {c : Char} {cs lexeme rest : List Char} {ks : List Token.Kind}
    (first : cut c cs = ⟨.gap, lexeme, rest⟩) (more : Reads rest ks) : Reads (c :: cs) ks
  | token {c : Char} {cs lexeme rest : List Char} {k : Token.Kind} {ks : List Token.Kind}
    (first : cut c cs = ⟨.token k, lexeme, rest⟩) (more : Reads rest ks) : Reads (c :: cs) (k :: ks)

/-- A piece leaves a shorter text. -/
theorem length_rest_cut {c : Char} {cs lexeme rest : List Char} {piece : Piece}
    (h : cut c cs = ⟨piece, lexeme, rest⟩) : rest.length ≤ cs.length := by
  have happend := cut_append c cs
  have hne := cut_lexeme_ne_nil c cs
  rw [h] at happend hne
  dsimp only at happend hne
  have hlength := congrArg List.length happend
  have hpos := List.length_pos_iff.mpr hne
  rw [List.length_append, List.length_cons] at hlength
  omega

theorem passPieces_of_nil {s : Scanner} (hs : s.rest = []) (n : Nat) :
    passPieces n s = .ok () s := by
  cases n with
  | zero => rfl
  | succ n =>
    obtain ⟨rest, position, tokens, diagnostics, strict⟩ := s
    obtain rfl : rest = [] := hs
    rfl

theorem passPieces_of_note {s t : Scanner} {c : Char} {cs : List Char} (hs : s.rest = c :: cs)
    (hnote : note (cut c cs) s = .ok () t) (n : Nat) : passPieces (n + 1) s = passPieces n t := by
  obtain ⟨rest, position, tokens, diagnostics, strict⟩ := s
  obtain rfl : rest = c :: cs := hs
  exact EStateM.bind_of_ok hnote

/-- A scanner passes such a text, adds its tokens and notes nothing strange. -/
theorem Reads.passPieces {cs : List Char} {ks : List Token.Kind} (h : Reads cs ks) {n : Nat}
    (hn : cs.length ≤ n) {s : Scanner} (hs : s.rest = cs) :
    ∃ t, passPieces n s = .ok () t ∧ t.diagnostics = s.diagnostics ∧
      t.tokens.toList.map Token.kind = s.tokens.toList.map Token.kind ++ ks := by
  induction h generalizing n s with
  | nil => exact ⟨s, passPieces_of_nil hs n, rfl, (List.append_nil _).symm⟩
  | @gap c cs lexeme rest ks first more ih =>
    have hle := length_rest_cut first
    rw [List.length_cons] at hn
    obtain ⟨n, rfl⟩ : ∃ m, n = m + 1 := Nat.exists_eq_add_one.mpr (by omega)
    have hnote : note (cut c cs) s = .ok () (s.pass ⟨.gap, lexeme, rest⟩) := by
      rw [first]
      rfl
    obtain ⟨t, ht, hdiagnostics, htokens⟩ :=
      ih (n := n) (s := s.pass ⟨.gap, lexeme, rest⟩) (by omega) rfl
    exact ⟨t, (passPieces_of_note hs hnote n).trans ht, hdiagnostics, htokens⟩
  | @token c cs lexeme rest k ks first more ih =>
    have hle := length_rest_cut first
    rw [List.length_cons] at hn
    obtain ⟨n, rfl⟩ : ∃ m, n = m + 1 := Nat.exists_eq_add_one.mpr (by omega)
    obtain ⟨u, hnote, hrest, hdiagnostics', htokens'⟩ :
        ∃ u : Scanner, note (cut c cs) s = .ok () u ∧ u.rest = rest ∧
          u.diagnostics = s.diagnostics ∧
        u.tokens.toList.map Token.kind = s.tokens.toList.map Token.kind ++ [k] := by
      rw [first]
      exact ⟨_, rfl, rfl, rfl, by simp [pass]⟩
    obtain ⟨t, ht, hdiagnostics, htokens⟩ := ih (n := n) (s := u) (by omega) hrest
    refine ⟨t, (passPieces_of_note hs hnote n).trans ht, hdiagnostics.trans hdiagnostics', ?_⟩
    rw [htokens, htokens', List.append_assoc, List.singleton_append]

/-- A scan of such a text finds its tokens. -/
theorem Reads.scan {source : String} {ks : List Token.Kind} (h : Reads source.toList ks)
    (strict : Bool) :
    ∃ (ts : List Token) (eof : EndMarker) (s : Scanner),
      scan (.ofSource source strict) = .ok (ts ++ [eof.val]) s ∧ ts.map Token.kind = ks ∧
      s.diagnostics = #[] := by
  obtain ⟨t, ht, hdiagnostics, htokens⟩ :=
    h.passPieces (n := source.toList.length) (s := ofSource source strict) (Nat.le_refl _) rfl
  refine ⟨t.tokens.toList, ⟨⟨.endOfFile, "", t.position⟩, rfl⟩, { t with tokens := #[] }, ?_, ?_,
    hdiagnostics⟩
  · have hscan : Scanner.scan (ofSource source strict) =
        .ok (t.tokens.push ⟨.endOfFile, "", t.position⟩).toList { t with tokens := #[] } :=
      EStateM.bind_eq_ok.mpr ⟨_, _, rfl, EStateM.bind_eq_ok.mpr ⟨(), t, ht, rfl⟩⟩
    rw [hscan, Array.toList_push]
  · rw [htokens]
    rfl

/-! ## Gaps, signs and numbers -/

/-- A comment goes on to the end of its line. -/
theorem cut_comment {text : List Char} (h : '\n' ∉ text) (cs : List Char) :
    cut '#' (text ++ '\n' :: cs) = ⟨.gap, '#' :: text, '\n' :: cs⟩ := by
  have hpos : ∀ c ∈ text, (c != '\n') = true := by
    intro c hc
    simp only [bne_iff_ne]
    rintro rfl
    exact h hc
  have htake : (text ++ '\n' :: cs).takeWhile (· != '\n') = text := by
    rw [List.takeWhile_append_of_pos hpos, List.takeWhile_cons_of_neg (by decide), List.append_nil]
  have hdrop : (text ++ '\n' :: cs).dropWhile (· != '\n') = '\n' :: cs := by
    rw [List.dropWhile_append_of_pos hpos, List.dropWhile_cons_of_neg (by decide)]
  unfold cut
  rw [if_neg (by decide), if_pos rfl, htake, hdrop]

/-- Letters, digits, the underscore and the point start numbers and names only. -/
theorem cut_plain {c : Char} (h : isNamePart c = true ∨ c = '.') (cs : List Char) :
    cut c cs =
      if c.isDigit || (c == '.' && startsWithDigit cs) then cutNumber c cs
      else if isNameStart c then cutName c cs
      else ⟨.illegal c, [c], cs⟩ := by
  have hne (d : Char) (hd : (isNamePart d || d == '.') = false) : c ≠ d := by
    rintro rfl
    obtain h | h := h <;> simp [h] at hd
  have hspace : isSpace c = false := by
    simp [isSpace, hne ' ' (by decide), hne '\r' (by decide), hne '\t' (by decide),
      hne '\n' (by decide)]
  have hpair : pairOf? c = none := by
    unfold pairOf?
    split
    all_goals first | rfl | exact absurd h (by decide)
  have hsign : signOf? c = none := by
    unfold signOf?
    split
    all_goals first | rfl | exact absurd h (by decide)
  have hquote : isQuote c = false := by simp [isQuote, hne '"' (by decide), hne '\x27' (by decide)]
  simp [cut, hspace, hne '#' (by decide), hpair, hsign, hquote]

/-- A digit starts a number. -/
theorem cut_of_isDigit {c : Char} (h : c.isDigit = true) (cs : List Char) :
    cut c cs = cutNumber c cs := by
  rw [cut_plain (.inl (by simp [isNamePart, Char.isAlphanum, h])), if_pos (by simp [h])]

/-- A text behind which a number ends: no digit and no point comes next. -/
def EndsNumber (cs : List Char) : Prop := ∀ c ∈ cs.head?, c.isDigit = false ∧ c ≠ '.'

/-- Digits up to their end are read as the number that they write. -/
theorem cutNumber_digits {c : Char} {ds : List Char} (hdigits : ∀ d ∈ c :: ds, d.isDigit = true)
    (hlimit : Nat.ofDigitChars 10 (c :: ds) 0 ≤ Text.Numeral.intLimit) {cs : List Char}
    (hcs : EndsNumber cs) :
    cutNumber c (ds ++ cs) =
      ⟨.token (.integer (Int64.ofInt (Nat.ofDigitChars 10 (c :: ds) 0))), c :: ds, cs⟩ := by
  have hds : ∀ d ∈ ds, d.isDigit = true := fun d hd => hdigits d (List.mem_cons_of_mem c hd)
  have hstops : cs.takeWhile Char.isDigit = [] ∧ cs.dropWhile Char.isDigit = cs := by
    cases cs with
    | nil => exact ⟨rfl, rfl⟩
    | cons d cs =>
      have hd : d.isDigit = false := (hcs d rfl).1
      exact ⟨List.takeWhile_cons_of_neg (by simp [hd]), List.dropWhile_cons_of_neg (by simp [hd])⟩
  have htake : (ds ++ cs).takeWhile Char.isDigit = ds := by
    rw [List.takeWhile_append_of_pos hds, hstops.1, List.append_nil]
  have hdrop : (ds ++ cs).dropWhile Char.isDigit = cs := by
    rw [List.dropWhile_append_of_pos hds, hstops.2]
  have hfraction : splitFraction cs = ([], cs) := by
    unfold splitFraction
    split
    · exact absurd rfl (hcs '.' rfl).2
    · rfl
  have hc : c.isDigit = true := hdigits c (List.mem_cons_self ..)
  have hpoint : c ≠ '.' := by
    rintro rfl
    exact absurd hc (by decide)
  have hread : Text.Numeral.readInt (c :: ds) = .ok (Nat.ofDigitChars 10 (c :: ds) 0) := by
    rw [Text.Numeral.readInt_of_isDigit hc, Text.Numeral.digits,
      Text.Numeral.accumulate_digits hdigits hlimit]
    · rfl
    · simp
  rw [cutNumber]
  simp only [htake, hdrop, hfraction]
  rw [if_neg (by simp [hpoint]), integerKind, hread]

/-- The signs of arithmetic. -/
def arithmeticSigns : List (Char × Sign) :=
  [('+', .plus), ('-', .minus), ('*', .star), ('(', .leftParen), (')', .rightParen)]

/-- A text of numbers and signs of arithmetic, with any gaps and comments around them. A number is
written by any digits of its value, and no digit stands right behind it. -/
inductive Written : List Token.Kind → List Char → Prop where
  | nil : Written [] []
  | space {c : Char} {ks : List Token.Kind} {cs : List Char} (h : isSpace c = true)
    (more : Written ks cs) :
    Written ks (c :: cs)
  | comment {text : List Char} {ks : List Token.Kind} {cs : List Char} (h : '\n' ∉ text)
    (more : Written ks cs) : Written ks ('#' :: text ++ '\n' :: cs)
  | sign {c : Char} {s : Sign} {ks : List Token.Kind} {cs : List Char}
    (h : (c, s) ∈ arithmeticSigns) (more : Written ks cs) : Written (.sign s :: ks) (c :: cs)
  | number {c : Char} {ds : List Char} {ks : List Token.Kind} {cs : List Char}
    (digits : ∀ d ∈ c :: ds, d.isDigit = true)
    (limit : Nat.ofDigitChars 10 (c :: ds) 0 ≤ Text.Numeral.intLimit)
    (ends : ∀ d ∈ cs.head?, d.isDigit = false) (more : Written ks cs) :
    Written (.integer (Int64.ofInt (Nat.ofDigitChars 10 (c :: ds) 0)) :: ks) (c :: ds ++ cs)

/-- No number is followed by a point. -/
theorem Written.endsNumber {ks : List Token.Kind} {cs tail : List Char} (h : Written ks cs)
    (hcs : ∀ d ∈ cs.head?, d.isDigit = false) (htail : EndsNumber tail) :
    EndsNumber (cs ++ tail) := by
  have hpoint {c : Char} {cs : List Char} (hc : c ≠ '.')
      (hdigit : ∀ d ∈ (c :: cs).head?, d.isDigit = false) :
      EndsNumber (c :: cs ++ tail) := by
    rintro d ⟨⟩
    exact ⟨hdigit c rfl, hc⟩
  cases h with
  | nil => exact htail
  | @space c ks cs h more =>
    refine hpoint ?_ hcs
    rintro rfl
    exact absurd h (by decide)
  | comment h more =>
    exact hpoint (by decide) hcs
  | @sign c s ks cs h more =>
    refine hpoint ?_ hcs
    rintro rfl
    simp [arithmeticSigns] at h
  | @number c ds ks cs digits limit ends more =>
    have hc : c.isDigit = true := digits c (List.mem_cons_self ..)
    rw [hcs c rfl] at hc
    cases hc

/-- The tokens that were written are read, and then the tokens of what comes behind. -/
theorem Written.reads {ks ls : List Token.Kind} {cs tail : List Char} (h : Written ks cs)
    (htail : Reads tail ls) (hends : EndsNumber tail) : Reads (cs ++ tail) (ks ++ ls) := by
  induction h with
  | nil => exact htail
  | @space c ks cs h more ih =>
    have hcut : cut c (cs ++ tail) = ⟨.gap, [c], cs ++ tail⟩ := by
      unfold cut
      rw [if_pos h]
    exact .gap hcut ih
  | @comment text ks cs h more ih =>
    have hnewline : Reads ('\n' :: (cs ++ tail)) (ks ++ ls) := .gap rfl ih
    rw [List.cons_append, List.cons_append, List.append_assoc, List.cons_append]
    exact .gap (cut_comment h _) hnewline
  | @sign c s ks cs h more ih =>
    have hcut : cut c (cs ++ tail) = ⟨.token (.sign s), [c], cs ++ tail⟩ := by
      simp only [arithmeticSigns, List.mem_cons, List.not_mem_nil, or_false, Prod.mk.injEq] at h
      rcases h with ⟨rfl, rfl⟩ | ⟨rfl, rfl⟩ | ⟨rfl, rfl⟩ | ⟨rfl, rfl⟩ | ⟨rfl, rfl⟩ <;> rfl
    exact .token hcut ih
  | @number c ds ks cs digits limit ends more ih =>
    rw [List.cons_append, List.cons_append, List.append_assoc]
    have hcut := cutNumber_digits digits limit (more.endsNumber ends hends)
    rw [← cut_of_isDigit (digits c (List.mem_cons_self ..))] at hcut
    exact .token hcut ih

end Scanner

/-- A text with the tokens of a program that is lowered is compiled to the
object file of the program. -/
theorem compile_of_reads {source : String} {a : Syntax.Program} {o : ObjectFile}
    (h : Scanner.Reads source.toList a.tokens) (ho : a.lower = .ok o) (strict : Bool) :
    compile source strict = .ok ⟨o, []⟩ := by
  obtain ⟨ts, eof, s, hscan, hkinds, hdiagnostics⟩ := h.scan strict
  obtain ⟨ts', eof', hts', heq⟩ := Scanner.scan_eq_ok hscan
  obtain ⟨rfl, heof⟩ := List.append_inj' heq rfl
  have hevents : ObjectFile.ofEvents a.events = .ok o := (ofEvents_eq_lower a).trans ho
  rw [ObjectFile.ofEvents] at hevents
  cases hfeed : a.events.forM Drafting.handle Draft.empty with
  | error e t =>
    rw [hfeed] at hevents
    cases hevents
  | ok u t =>
    rw [hfeed] at hevents
    have hrun := (Parser.run_eq_ok_iff eof hts' Draft.empty (Parser.before eof [] t)).mpr
      ⟨a, hkinds.symm, t, hfeed, rfl⟩
    have htokens : ObjectFile.ofTokens (ts ++ [eof.val]) = .ok o := by
      rw [ObjectFile.ofTokens, hrun]
      exact hevents
    rw [compile, hscan]
    dsimp only
    rw [htokens, hdiagnostics]
    rfl

end Quadlet
