import Quadlet.Object.Basic

/-!
# Listings

A program for people: the cells it needs and its quadruples, numbered from 0, with the operands by
name. A constant is shown by its literal.

Embeds duckling's `format_program` and `format_quadruple`; `SPEC_FULL.md` §I.
-/

namespace Quadlet

namespace Listing

/-- The number of characters of a full line. -/
def width : Nat := 59

/-- A text filled up with blanks on the right. -/
def padRight (n : Nat) (s : String) : String :=
  s ++ String.ofList (List.replicate (n - s.length) ' ')

/-- A text in the middle of a full line. -/
def centred (s : String) : String :=
  let space := width - s.length
  String.ofList (List.replicate (space / 2) ' ') ++ s ++
    String.ofList (List.replicate (space - space / 2) ' ')

/-- A number with zeros in front, up to four digits. -/
def index (n : Nat) : String :=
  let s := toString n
  String.ofList (List.replicate (4 - s.length) '0') ++ s

/-- A full line of one character. -/
def rule (c : Char) : String := String.ofList (List.replicate width c)

/-- An operand by its literal or its segment and place; of two literals at one
address the later one. -/
def operand (constants : List Constant) (a : Address) : String :=
  if a = unused then "_"
  else
    match constants.reverse.find? fun c => c.address == a with
    | some c => c.literal.shown
    | none =>
      match Segment.locate? a with
      | some (s, offset) => s!"{s.name}[{toString offset}]"
      | none => s!"?{toString a}"

/-- A quadruple with named operands. -/
def quadruple (constants : List Constant) (q : Quadruple) : String :=
  let named := operand constants
  let result := toString q.result
  match q.op with
  | .goto => s!"GOTO {result}"
  | .gotoFalse => s!"GOTOF {named q.left} -> {result}"
  | .gotoTrue => s!"GOTOT {named q.left} -> {result}"
  | .call => s!"GOSUB fn{toString q.left} -> {result}"
  | .allocate => s!"ERA fn{toString q.left}"
  | .leave => "ENDFUNC"
  | .param => s!"PARAM {named q.left} -> #{result}"
  | .print => s!"PRINT {named q.left}"
  | .assign => s!"{named q.result} = {named q.left}"
  | op => s!"{named q.result} = {named q.left} {op.mnemonic} {named q.right}"

/-- The line of a segment. -/
def segment (s : SegmentSize) : String :=
  s!"{padRight 14 s.segment.name} {toString s.cells} cells"

/-- The line of a function. -/
def frame (f : FrameSize) : String :=
  s!"function {padRight 5 (toString f.function)} {toString f.ints} int, " ++
    s!"{toString f.floats} float locals"

end Listing

/-- The listing of a program; segments without cells are left out. -/
def ObjectFile.listing (o : ObjectFile) : String :=
  let double := Listing.rule '═'
  "\n".intercalate <|
    [double, Listing.centred "QUADRUPLES", double] ++
    (o.memory.segments.filter fun s => 0 < s.cells).map Listing.segment ++
    o.memory.functions.map Listing.frame ++
    [Listing.rule '─'] ++
    o.quadruples.toList.mapIdx (fun i q =>
      s!"{Listing.index i}: {Listing.quadruple o.constants q}") ++
    [double]

end Quadlet
