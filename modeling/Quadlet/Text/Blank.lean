/-!
# Blanks, lines and words

The blank characters are those of the Unicode property White_Space. A line ends at a line feed,
which may have a carriage return before it; the end of the text opens no further line. Words are the
maximal runs of characters that are not blank.

Duckling's `ObjectFile.from_text` leaves the cutting of its text to `lines`, `trim` and
`split_whitespace` of its standard library; these are their rules.
-/

namespace Quadlet.Text

/-- The characters of the Unicode property White_Space. -/
def isBlank (c : Char) : Bool :=
  let n := c.toNat
  (9 ≤ n && n ≤ 13) || n == 0x20 || n == 0x85 || n == 0xA0 || n == 0x1680 ||
    (0x2000 ≤ n && n ≤ 0x200A) || n == 0x2028 || n == 0x2029 || n == 0x202F ||
    n == 0x205F || n == 0x3000

/-- Drops the blanks at both ends. -/
def trim (cs : List Char) : List Char :=
  ((cs.dropWhile isBlank).reverse.dropWhile isBlank).reverse

/-- The lines of a text, without their ends. -/
def lines : List Char → List (List Char)
  | [] => []
  | '\n' :: cs => [] :: lines cs
  | '\r' :: '\n' :: cs => [] :: lines cs
  | c :: cs =>
    match lines cs with
    | [] => [[c]]
    | l :: ls => (c :: l) :: ls

/-- The pieces between blanks, empty ones included. -/
def pieces : List Char → List (List Char)
  | [] => [[]]
  | c :: cs =>
    if isBlank c then [] :: pieces cs
    else
      match pieces cs with
      | [] => [[c]]
      | p :: ps => (c :: p) :: ps

/-- The maximal runs without a blank, in order. -/
def words (cs : List Char) : List (List Char) :=
  (pieces cs).filter fun p => !p.isEmpty

end Quadlet.Text
