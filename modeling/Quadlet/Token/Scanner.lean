import Quadlet.Decimal.Reader
import Quadlet.Error

/-!
# Scanning

`cut` takes the first piece off a text and says what it is: a token, a gap, a character that no
token starts with, or a fault. The scanner walks a text piece by piece. A strange character is
passed over and noted, or stops the scan when the scanner is strict. What a stopped scan has found
is kept, and the next scan goes on behind the place where it stopped. A token stands at the column
where it starts and on the line where it ends.

Embeds duckling's `Scanner`; `SPEC_FULL.md` §E. Where it moves a position in its source, `cut`
splits the text that is left.
-/

namespace Quadlet

/-- What the first characters of a text are. -/
inductive Piece where
  | gap
  | token (kind : Token.Kind)
  | illegal (c : Char)
  | fault (f : GrammarFault)
  deriving DecidableEq

/-- A first piece, its characters and the characters behind it. -/
structure Cut where
  piece : Piece
  lexeme : List Char
  rest : List Char
  deriving DecidableEq

namespace Scanner

/-- The characters between tokens. -/
def isSpace (c : Char) : Bool := c == ' ' || c == '\r' || c == '\t' || c == '\n'

/-- The signs of one character. -/
def signOf? (c : Char) : Option Sign :=
  match c with
  | '(' => some .leftParen
  | ')' => some .rightParen
  | '\x7b' => some .leftBrace
  | '\x7d' => some .rightBrace
  | '[' => some .leftBracket
  | ']' => some .rightBracket
  | ',' => some .comma
  | ':' => some .colon
  | ';' => some .semicolon
  | '+' => some .plus
  | '-' => some .minus
  | '*' => some .star
  | '/' => some .slash
  | '=' => some .assign
  | '<' => some .lt
  | '>' => some .gt
  | _ => none

/-- The signs that a character makes with an equals sign behind it. -/
def pairOf? (c : Char) : Option Sign :=
  match c with
  | '=' => some .eq
  | '!' => some .ne
  | '<' => some .le
  | '>' => some .ge
  | _ => none

/-- The quotes; a string ends at the quote that it starts with. -/
def isQuote (c : Char) : Bool := c == '"' || c == '\x27'

/-- The characters that a name starts with. -/
def isNameStart (c : Char) : Bool := c.isAlpha || c == '_'

/-- The characters that a name goes on with. -/
def isNamePart (c : Char) : Bool := c.isAlphanum || c == '_'

/-- Whether a digit comes next. -/
def startsWithDigit (cs : List Char) : Bool := cs.head?.any Char.isDigit

/-- A string behind its opening quote. Duckling `Scanner.scan_string`. -/
def cutString (quote : Char) (cs : List Char) : Cut :=
  let text := cs.takeWhile (· != quote)
  match cs.dropWhile (· != quote) with
  | [] => ⟨.fault .unterminatedString, quote :: text, []⟩
  | _ :: rest => ⟨.token (.string (String.ofList text)), quote :: text ++ [quote], rest⟩

/-- The exponent that a text starts with, if any, and the characters behind it. Duckling
`Scanner.scan_exponent`. -/
def splitExponent (cs : List Char) : List Char × List Char :=
  match cs with
  | e :: s :: ds =>
    if e = 'e' ∨ e = 'E' then
      if s = '+' ∨ s = '-' then
        if startsWithDigit ds then (e :: s :: ds.takeWhile Char.isDigit, ds.dropWhile Char.isDigit)
        else ([], cs)
      else if s.isDigit then
        (e :: (s :: ds).takeWhile Char.isDigit, (s :: ds).dropWhile Char.isDigit)
      else ([], cs)
    else ([], cs)
  | _ => ([], cs)

/-- The point and the digits that a text starts with, if a digit follows the point, and the
characters behind them. -/
def splitFraction (cs : List Char) : List Char × List Char :=
  match cs with
  | '.' :: ds =>
    if startsWithDigit ds then ('.' :: ds.takeWhile Char.isDigit, ds.dropWhile Char.isDigit)
    else ([], cs)
  | _ => ([], cs)

/-- An integer of the source language. -/
def integerKind (text : List Char) : Piece :=
  match Text.Numeral.readInt text with
  | .ok n => .token (.integer (Int64.ofInt n))
  | .error _ => .fault (.invalidInteger (String.ofList text))

/-- A float of the source language. -/
def floatKind (text : List Char) : Piece :=
  match Decimal.readFloat text with
  | some x => .token (.float x)
  | none => .fault (.invalidFloat (String.ofList text))

/-- A number that starts with the digit or point `c`. Its digits may be followed by a fraction even
if the point came first, and an exponent follows only where there is a point. Duckling
`Scanner.scan_number`. -/
def cutNumber (c : Char) (cs : List Char) : Cut :=
  let digits := cs.takeWhile Char.isDigit
  let fraction := splitFraction (cs.dropWhile Char.isDigit)
  let exponent := splitExponent fraction.2
  let text := c :: digits ++ fraction.1 ++ exponent.1
  if c = '.' ∨ fraction.1 ≠ [] then ⟨floatKind text, text, exponent.2⟩
  else ⟨integerKind (c :: digits), c :: digits, fraction.2⟩

/-- A reserved word or a name that starts with `c`. Duckling
`Scanner.scan_identifier_or_keyword`. -/
def cutName (c : Char) (cs : List Char) : Cut :=
  let text := c :: cs.takeWhile isNamePart
  let word := String.ofList text
  let kind :=
    match Keyword.ofWord? word with
    | some k => .keyword k
    | none => .identifier word
  ⟨.token kind, text, cs.dropWhile isNamePart⟩

/-- The first piece of a text that starts with `c`. Duckling `Scanner.scan_token`. -/
def cut (c : Char) (cs : List Char) : Cut :=
  if isSpace c then ⟨.gap, [c], cs⟩
  else if c = '#' then ⟨.gap, c :: cs.takeWhile (· != '\n'), cs.dropWhile (· != '\n')⟩
  else
    match pairOf? c, cs with
    | some s, '=' :: rest => ⟨.token (.sign s), [c, '='], rest⟩
    | _, _ =>
      match signOf? c with
      | some s => ⟨.token (.sign s), [c], cs⟩
      | none =>
        if isQuote c then cutString c cs
        else if c.isDigit || (c == '.' && startsWithDigit cs) then cutNumber c cs
        else if isNameStart c then cutName c cs
        else ⟨.illegal c, [c], cs⟩

end Scanner

/-- A scan in progress. Duckling `Scanner`. -/
structure Scanner where
  /-- The text that is still to be scanned. -/
  rest : List Char
  /-- The place of its first character. -/
  position : Position
  /-- The tokens of the scan in progress. -/
  tokens : Array Token
  /-- The strange characters that were passed over so far. -/
  diagnostics : Array Error
  strict : Bool

namespace Scanner

/-- A scan of a source text from its start. -/
def ofSource (source : String) (strict : Bool) : Scanner :=
  ⟨source.toList, .start, #[], #[], strict⟩

/-- Moves behind a piece that has just been cut off. -/
def pass (s : Scanner) (k : Cut) : Scanner :=
  { s with rest := k.rest, position := s.position.after k.lexeme }

/-- Where a piece that is cut off next stands: in the column of its start,
on the line of its end. -/
def placeOf (s : Scanner) (k : Cut) : Position :=
  ⟨(s.position.after k.lexeme).line, s.position.column⟩

/-- Passes a piece and notes what it is. Duckling `Scanner.add_token` and `Scanner.illegal`. -/
def note (k : Cut) : EStateM Error Scanner Unit := fun s =>
  let t := s.pass k
  match k.piece with
  | .gap => .ok () t
  | .token kind =>
    .ok () { t with tokens := t.tokens.push ⟨kind, String.ofList k.lexeme, s.placeOf k⟩ }
  | .illegal c =>
    if s.strict then .error (.illegal (s.placeOf k) c) t
    else .ok () { t with diagnostics := t.diagnostics.push (.illegal (s.placeOf k) c) }
  | .fault f => .error (.grammar (s.placeOf k) f) t

/-- Passes at most the given number of pieces. -/
def passPieces : Nat → EStateM Error Scanner Unit
  | 0 => pure ()
  | n + 1 => do
    match (← get).rest with
    | [] => pure ()
    | c :: cs =>
      note (cut c cs)
      passPieces n

/-- Scans to the end of the text and gives all tokens since the last scan that succeeded, closed by
an end marker. Every piece has a character, so there are no more pieces than characters. Duckling
`Scanner.scan_tokens`. -/
def scan : EStateM Error Scanner (List Token) := do
  passPieces (← get).rest.length
  let s ← get
  set { s with tokens := #[] }
  return (s.tokens.push ⟨.endOfFile, "", s.position⟩).toList

/-- A fraction and what is behind it are the text. -/
theorem splitFraction_append (cs : List Char) :
    (splitFraction cs).1 ++ (splitFraction cs).2 = cs := by
  unfold splitFraction
  split
  · split <;> simp
  · rfl

/-- An exponent and what is behind it are the text. -/
theorem splitExponent_append (cs : List Char) :
    (splitExponent cs).1 ++ (splitExponent cs).2 = cs := by
  unfold splitExponent
  split
  · split
    · split
      · split <;> simp
      · split
        · rw [List.cons_append, List.takeWhile_append_dropWhile]
        · rfl
    · rfl
  · rfl

/-- A number and what is behind it are the text. -/
theorem cutNumber_append (c : Char) (cs : List Char) :
    (cutNumber c cs).lexeme ++ (cutNumber c cs).rest = c :: cs := by
  have hf := splitFraction_append (cs.dropWhile Char.isDigit)
  have he := splitExponent_append (splitFraction (cs.dropWhile Char.isDigit)).2
  simp only [cutNumber]
  split
  · simp [he, hf]
  · next h =>
    rw [not_or, Decidable.not_not] at h
    rw [h.2, List.nil_append] at hf
    simp [hf]

/-- A string and what is behind it are the text. -/
theorem cutString_append (quote : Char) (cs : List Char) :
    (cutString quote cs).lexeme ++ (cutString quote cs).rest = quote :: cs := by
  have h := List.takeWhile_append_dropWhile (p := (· != quote)) (l := cs)
  unfold cutString
  split
  · next hd => rw [hd, List.append_nil] at h; simp [h]
  · next d rest hd =>
    have hq : d = quote := by
      have := List.head?_dropWhile_not (· != quote) cs
      simpa [hd] using this
    rw [hd, hq] at h
    simp [h]

/-- Nothing is lost by a cut. -/
theorem cut_append (c : Char) (cs : List Char) :
    (cut c cs).lexeme ++ (cut c cs).rest = c :: cs := by
  unfold cut
  split
  · rfl
  · split
    · simp
    · split
      · rfl
      · split
        · rfl
        · split
          · exact cutString_append ..
          · split
            · exact cutNumber_append ..
            · split
              · simp [cutName]
              · rfl

/-- Every piece has a character. -/
theorem cut_lexeme_ne_nil (c : Char) (cs : List Char) : (cut c cs).lexeme ≠ [] := by
  unfold cut
  split
  · simp
  · split
    · simp
    · split
      · simp
      · split
        · simp
        · split
          · unfold cutString; split <;> simp
          · split
            · simp only [cutNumber]; split <;> simp
            · split <;> simp [cutName]

end Scanner

end Quadlet
