import Quadlet.Decimal.Layout
import Quadlet.Text.Numeral
import Quadlet.Text.Quoted

/-!
# JSON strings

`encode` writes a text as a JSON string and escapes no more than it has to. `decode` reads one JSON
string and nothing else; where it fails it tells why, and how many bytes it had taken when it knew.
Other JSON values are recognised only to be refused by name.

Duckling leaves the strings of persisted constants to the third-party package `serde_json`
(`SPEC_FULL.md` §I); this module implements again what that package does with one string, its
wordings and columns included. `Document` writes its strings with it too. `ObjectFile.text` and
`ObjectFile.ofText` need these facts of it:

- a text is read back from what is written for it (`decode_encode`);
- what is written is not empty (`toList_encode`) and fills one line with no blanks around it
  (`isLine_encode`, `isTrimmed_encode`);
- what is read is exactly what spells the text (`decode_eq_ok_iff`).
-/

namespace Quadlet.Text.JsonString

/-- One character as it stands in a JSON string. -/
def encodeChar (c : Char) : List Char :=
  match c with
  | '"' => ['\\', '"']
  | '\\' => ['\\', '\\']
  | '\x08' => ['\\', 'b']
  | '\x0c' => ['\\', 'f']
  | '\n' => ['\\', 'n']
  | '\r' => ['\\', 'r']
  | '\t' => ['\\', 't']
  | c =>
    if c.toNat < 0x10 then ['\\', 'u', '0', '0', '0'] ++ hexDigits c.toNat
    else if c.toNat < 0x20 then ['\\', 'u', '0', '0'] ++ hexDigits c.toNat
    else [c]

/-- A text as a JSON string. -/
def encode (s : String) : String :=
  String.ofList ('"' :: s.toList.flatMap encodeChar ++ ['"'])

/-- Why a text is no JSON string. -/
inductive Cause where
  | endOfValue
  | endOfString
  | expectedValue
  | expectedWord
  | controlCharacter
  | invalidEscape
  | loneSurrogate
  | endOfHexEscape
  | invalidNumber
  | numberOutOfRange
  | trailing
  | wrongType (found : String)
  deriving DecidableEq, Repr

/-- A cause and the number of bytes taken when it was found. -/
structure Fault where
  cause : Cause
  column : Nat
  deriving DecidableEq, Repr

/-- The wording of a cause. -/
def Cause.message : Cause → String
  | .endOfValue => "EOF while parsing a value"
  | .endOfString => "EOF while parsing a string"
  | .expectedValue => "expected value"
  | .expectedWord => "expected ident"
  | .controlCharacter => "control character (\\u0000-\\u001F) found while parsing a string"
  | .invalidEscape => "invalid escape"
  | .loneSurrogate => "lone leading surrogate in hex escape"
  | .endOfHexEscape => "unexpected end of hex escape"
  | .invalidNumber => "invalid number"
  | .numberOutOfRange => "number out of range"
  | .trailing => "trailing characters"
  | .wrongType found => s!"invalid type: {found}, expected a string"

/-- The wording of a fault. -/
def Fault.message (f : Fault) : String := s!"{f.cause.message} at line 1 column {f.column}"

/-- The number of bytes that characters take. -/
def byteLength (cs : List Char) : Nat := cs.foldr (fun c n => c.utf8Size + n) 0

/-- The value of a digit of base sixteen, in either case. -/
def hexValue (c : Char) : Option Nat :=
  if c.isDigit then some (c.toNat - 48)
  else if 'a' ≤ c ∧ c ≤ 'f' then some (c.toNat - 87)
  else if 'A' ≤ c ∧ c ≤ 'F' then some (c.toNat - 55)
  else none

/-- The value of four such digits. -/
def hexFour (a b c d : Char) : Option Nat := do
  return 4096 * (← hexValue a) + 256 * (← hexValue b) + 16 * (← hexValue c) + (← hexValue d)

/-- What a backslash and a letter stand for. -/
def simpleEscape (c : Char) : Option Char :=
  match c with
  | '"' => some '"'
  | '\\' => some '\\'
  | '/' => some '/'
  | 'b' => some '\x08'
  | 'f' => some '\x0c'
  | 'n' => some '\n'
  | 'r' => some '\r'
  | 't' => some '\t'
  | _ => none

/-- The first half of a pair that makes one character. -/
def isLeading (n : Nat) : Bool := 0xD800 ≤ n && n ≤ 0xDBFF

/-- The second half of such a pair. -/
def isTrailing (n : Nat) : Bool := 0xDC00 ≤ n && n ≤ 0xDFFF

/-- What is wrong with fewer than four characters where four digits have to stand. -/
def shortHex (column : Nat) (cs : List Char) : Fault :=
  if byteLength cs < 4 then ⟨.endOfString, column + byteLength cs⟩ else ⟨.invalidEscape, column + 4⟩

/-- Reads up to the closing quote; gives the text in reverse, the bytes taken and the rest. -/
def body (column : Nat) (text : List Char) :
    List Char → Except Fault (List Char × Nat × List Char)
  | [] => .error ⟨.endOfString, column⟩
  | '"' :: cs => .ok (text, column + 1, cs)
  | '\\' :: [] => .error ⟨.endOfString, column + 1⟩
  | '\\' :: 'u' :: a :: b :: c :: d :: cs =>
    match hexFour a b c d with
    | none => .error ⟨.invalidEscape, column + 6⟩
    | some n =>
      if isTrailing n then .error ⟨.loneSurrogate, column + 6⟩
      else if isLeading n then
        match cs with
        | [] => .error ⟨.endOfString, column + 6⟩
        | '\\' :: [] => .error ⟨.endOfString, column + 7⟩
        | '\\' :: 'u' :: a :: b :: c :: d :: cs =>
          match hexFour a b c d with
          | none => .error ⟨.invalidEscape, column + 12⟩
          | some m =>
            if isTrailing m then
              body (column + 12)
                (Char.ofNat (0x10000 + 1024 * (n - 0xD800) + (m - 0xDC00)) :: text) cs
            else .error ⟨.loneSurrogate, column + 12⟩
        | '\\' :: 'u' :: cs => .error (shortHex (column + 8) cs)
        | '\\' :: _ => .error ⟨.endOfHexEscape, column + 8⟩
        | _ => .error ⟨.endOfHexEscape, column + 7⟩
      else body (column + 6) (Char.ofNat n :: text) cs
  | '\\' :: 'u' :: cs => .error (shortHex (column + 2) cs)
  | '\\' :: e :: cs =>
    match simpleEscape e with
    | some c => body (column + 2) (c :: text) cs
    | none => .error ⟨.invalidEscape, column + 2⟩
  | c :: cs =>
    if c.toNat < 0x20 then .error ⟨.controlCharacter, column + 1⟩
    else body (column + c.utf8Size) (c :: text) cs

/-- The characters that may stand around a JSON value. -/
def isPadding (c : Char) : Bool := c == ' ' || c == '\n' || c == '\t' || c == '\r'

/-- Reads the letters of a word, and tells where they end. -/
def word (column : Nat) : (letters cs : List Char) → Except Fault Nat
  | [], _ => .ok column
  | _ :: _, [] => .error ⟨.endOfValue, column⟩
  | l :: ls, c :: cs =>
    if c = l then word (column + 1) ls cs else .error ⟨.expectedWord, column + 1⟩

/-- A JSON number. -/
inductive Number where
  | integer (n : Int)
  | real (x : Float)

/-- How a number is named when it is refused. -/
def Number.describe : Number → String
  | .integer n => s!"integer `{toString n}`"
  | .real x => s!"floating point `{Layout.data.finite x}`"

/-- Divides by `10 ^ 308` until the exponent is in the range of doubles; two
rounds leave nothing. -/
def descend : Nat → Float → Int → Float × Int
  | 0, x, e => (x, e)
  | n + 1, x, e =>
    if e < -308 ∧ x != 0.0 then
      descend n (x / Binary64.ofMagnitude false (Decimal.nearest ⟨1, 308⟩)) (e + 308)
    else (x, e)

/-- A number times a power of ten, rounded once for the number and once for the product. -/
def scaled (negative : Bool) (digits : Nat) (e : Int) : Option Float :=
  let x := Binary64.ofMagnitude false (Decimal.nearest ⟨digits, 0⟩)
  let (x, e) := descend 3 x e
  let power := Binary64.ofMagnitude false (Decimal.nearest ⟨1, min e.natAbs 308⟩)
  let y := if x == 0.0 then x else if e < 0 then x / power else x * power
  if Binary64.infinity ≤ Binary64.magnitude y ∨ (308 < e ∧ x != 0.0) then none
  else some (if negative then -y else y)

/-- Takes digits as long as the number fits 64 bits; gives number, digits taken and the rest. -/
def takeDigits : Nat → Nat → List Char → Nat × Nat × List Char
  | n, count, [] => (n, count, [])
  | n, count, c :: cs =>
    if c.isDigit ∧ 10 * n + Numeral.digit c ≤ Numeral.countLimit then
      takeDigits (10 * n + Numeral.digit c) (count + 1) cs
    else (n, count, c :: cs)

/-- Finishes a number with a fraction or an exponent, all of whose digits are known. -/
def finish (negative : Bool) (digits : Nat) (e : Int) (column : Nat) :
    Except Fault (Number × Nat) :=
  match scaled negative digits e with
  | some x => .ok (.real x, column)
  | none => .error ⟨.numberOutOfRange, column⟩

/-- The largest exponent that is written out. -/
def exponentLimit : Nat := 0x7FFFFFFF

/-- The digits of an exponent behind the first; `past` decides when they exceed the limit. -/
def exponentDigits (past : Nat → List Char → Except Fault (Number × Nat))
    (done : Nat → Nat → Except Fault (Number × Nat)) :
    Nat → Nat → List Char → Except Fault (Number × Nat)
  | column, e, [] => done column e
  | column, e, c :: cs =>
    if c.isDigit then
      if 10 * e + Numeral.digit c ≤ exponentLimit then
        exponentDigits past done (column + 1) (10 * e + Numeral.digit c) cs
      else past (column + 1) cs
    else done column e

/-- An exponent behind its mark. -/
def exponent (negative : Bool) (digits : Nat) (start : Int) (column : Nat) (cs : List Char) :
    Except Fault (Number × Nat) :=
  let signed := cs.head? = some '+' ∨ cs.head? = some '-'
  let down := cs.head? = some '-'
  let column := if signed then column + 1 else column
  match if signed then cs.drop 1 else cs with
  | [] => .error ⟨.endOfValue, column⟩
  | c :: cs =>
    if c.isDigit then
      exponentDigits
        (fun column cs =>
          if digits ≠ 0 ∧ ¬down then .error ⟨.numberOutOfRange, column⟩
          else
            .ok (.real (Binary64.ofMagnitude negative 0),
              column + (cs.takeWhile Char.isDigit).length))
        (fun column e => finish negative digits (if down then start - e else start + e) column)
        (column + 1) (Numeral.digit c) cs
    else .error ⟨.invalidNumber, column + 1⟩

/-- What may follow the digits of a number: an exponent or nothing of it. -/
def afterDigits (negative : Bool) (digits : Nat) (e : Int) (column : Nat) (cs : List Char) :
    Except Fault (Number × Nat) :=
  match cs with
  | 'e' :: cs => exponent negative digits e (column + 1) cs
  | 'E' :: cs => exponent negative digits e (column + 1) cs
  | _ => finish negative digits e column

/-- A fraction behind its point; digits that do not fit any more are passed over. -/
def fraction (negative : Bool) (digits : Nat) (e : Int) (column : Nat) (cs : List Char) :
    Except Fault (Number × Nat) :=
  let (digits, count, rest) := takeDigits digits 0 cs
  let more := (rest.takeWhile Char.isDigit).length
  if count = 0 ∧ more = 0 then
    match rest with
    | [] => .error ⟨.endOfValue, column⟩
    | _ => .error ⟨.invalidNumber, column + 1⟩
  else afterDigits negative digits (e - count) (column + count + more) (rest.drop more)

/-- What may follow the whole part of a number. -/
def afterWhole (negative : Bool) (digits : Nat) (column : Nat) (cs : List Char) :
    Except Fault (Number × Nat) :=
  let more := (cs.takeWhile Char.isDigit).length
  match cs.drop more with
  | '.' :: cs => fraction negative digits more (column + more + 1) cs
  | 'e' :: cs => exponent negative digits more (column + more + 1) cs
  | 'E' :: cs => exponent negative digits more (column + more + 1) cs
  | _ =>
    if more ≠ 0 then finish negative digits more (column + more)
    else if ¬negative then .ok (.integer digits, column)
    else if digits ≠ 0 ∧ digits ≤ Numeral.intLimit + 1 then .ok (.integer (-(digits : Int)), column)
    else finish true digits 0 column

/-- A number behind its sign. -/
def number (negative : Bool) (column : Nat) (cs : List Char) : Except Fault (Number × Nat) :=
  match cs with
  | [] => .error ⟨.endOfValue, column⟩
  | '0' :: cs =>
    if cs.head?.any Char.isDigit then .error ⟨.invalidNumber, column + 2⟩
    else afterWhole negative 0 (column + 1) cs
  | c :: cs =>
    if c.isDigit then
      let (digits, count, rest) := takeDigits (Numeral.digit c) 0 cs
      afterWhole negative digits (column + 1 + count) rest
    else .error ⟨.invalidNumber, column + 1⟩

/-- The fault of a value that is no string, given how it is named and where it ends. -/
def refuse (value : Except Fault (String × Nat)) : Fault :=
  match value with
  | .ok (found, column) => ⟨.wrongType found, column⟩
  | .error f => f

/-- Why a text that starts with no quote is no string. -/
def decodeOther (column : Nat) (cs : List Char) : Fault :=
  match cs with
  | [] => ⟨.endOfValue, column⟩
  | 'n' :: cs => refuse ((word (column + 1) ['u', 'l', 'l'] cs).map (("null", ·)))
  | 't' :: cs => refuse ((word (column + 1) ['r', 'u', 'e'] cs).map (("boolean `true`", ·)))
  | 'f' :: cs => refuse ((word (column + 1) ['a', 'l', 's', 'e'] cs).map (("boolean `false`", ·)))
  | '-' :: cs => refuse ((number true (column + 1) cs).map fun r => (r.1.describe, r.2))
  | '[' :: _ => ⟨.wrongType "sequence", column⟩
  | '\x7b' :: _ => ⟨.wrongType "map", column⟩
  | c :: cs =>
    if c.isDigit then refuse ((number false column (c :: cs)).map fun r => (r.1.describe, r.2))
    else ⟨.expectedValue, column + 1⟩

/-- The text that a JSON string stands for. -/
def decode (cs : List Char) : Except Fault String :=
  let column := (cs.takeWhile isPadding).length
  match cs.dropWhile isPadding with
  | '"' :: cs =>
    match body (column + 1) [] cs with
    | .error f => .error f
    | .ok (text, column, rest) =>
      if (rest.dropWhile isPadding).isEmpty then .ok (String.ofList text.reverse)
      else .error ⟨.trailing, column + (rest.takeWhile isPadding).length + 1⟩
  | cs => .error (decodeOther column cs)

end Quadlet.Text.JsonString
