import Quadlet.Decimal.Reader
import Quadlet.Error
import Quadlet.Object.Basic
import Quadlet.Text.Blank
import Quadlet.Text.Numeral

/-!
# Persisted programs

A program is kept as three sections of lines, each closed by a line `%%`: the memory map, the
constants and the quadruples. A reader takes the lines one by one; blank lines and blanks around a
line mean nothing, and closing more sections than there are is no fault.

Embeds duckling's `ObjectFile.to_text` and `from_text`; `SPEC_FULL.md` §6 and §I.
-/

namespace Quadlet

namespace ObjectFile

/-- The line that closes a section. -/
def sectionEnd : List Char := ['%', '%']

/-- The word that opens the line of a function. -/
def functionWord : List Char := ['f', 'u', 'n', 'c', 't', 'i', 'o', 'n']

/-- The persisted form of a literal: strings in the notation of JSON, numbers plain. -/
def literalText : Literal → String
  | .string s => Text.JsonString.encode s
  | l => l.key

/-- The line of a segment. -/
def segmentLine (s : SegmentSize) : String := s!"{s.segment.name} {toString s.cells}"

/-- The line of a function. -/
def frameLine (f : FrameSize) : String :=
  s!"function {toString f.function} {toString f.ints} {toString f.floats}"

/-- The line of a constant. -/
def constantLine (c : Constant) : String := s!"{toString c.address}, {literalText c.literal}"

/-- The lines of the persisted form. -/
def textLines (o : ObjectFile) : List String :=
  o.memory.segments.map segmentLine ++ o.memory.functions.map frameLine ++ ["%%"] ++
    o.constants.map constantLine ++ ["%%"] ++
    o.quadruples.toList.map Quadruple.text ++ ["%%"]

/-- The persisted form of a program; every line of it ends with a line feed. Duckling
`ObjectFile.to_text`. -/
def text (o : ObjectFile) : String := String.join (o.textLines.map fun l => l ++ "\n")

/-- What one line of a persisted program states. -/
inductive Entry where
  | segment (s : SegmentSize)
  | frame (f : FrameSize)
  | constant (c : Constant)
  | quadruple (q : Quadruple)
  deriving DecidableEq

namespace Entry

/-- The stated size of a segment. -/
def segment? : Entry → Option SegmentSize
  | .segment s => some s
  | _ => none

/-- The stated size of a function's frame. -/
def frame? : Entry → Option FrameSize
  | .frame f => some f
  | _ => none

/-- The stated constant. -/
def constant? : Entry → Option Constant
  | .constant c => some c
  | _ => none

/-- The stated quadruple. -/
def quadruple? : Entry → Option Quadruple
  | .quadruple q => some q
  | _ => none

end Entry

/-- The program that a row of entries makes up. -/
def ofEntries (es : List Entry) : ObjectFile :=
  ⟨⟨es.filterMap Entry.segment?, es.filterMap Entry.frame?⟩, es.filterMap Entry.constant?,
    (es.filterMap Entry.quadruple?).toArray⟩

/-- Reads a field. -/
def readField {α : Type} (kind : Field) (value : Option α) (cs : List Char) :
    Except FormatFault α :=
  match value with
  | some a => .ok a
  | none => .error (.field kind (String.ofList cs))

/-- Reads a field that holds an integer. -/
def readInt (kind : Field) (cs : List Char) : Except FormatFault Int :=
  readField kind (Text.Numeral.readInt cs).toOption cs

/-- Reads a number of cells. -/
def readCells (cs : List Char) : Except FormatFault Nat :=
  readField .cellCount (Text.Numeral.readCount cs).toOption cs

/-- Reads the line of a segment. -/
def readSegment (name cells : List Char) : Except FormatFault Entry :=
  match (Segment.ofName? (String.ofList name)).filter fun s => !s.isLocal with
  | some s => do return .segment ⟨s, ← readCells cells⟩
  | none => .error (.unknownSegment (String.ofList name))

/-- Reads the line of a function. -/
def readFrame (id ints floats : List Char) : Except FormatFault Entry := do
  return .frame ⟨← readInt .functionId id, ← readCells ints, ← readCells floats⟩

/-- Reads a line of the first section. Duckling `parse_memory_line`. -/
def readMemory (line : List Char) : Except FormatFault Entry :=
  match Text.words line with
  | [name, cells] => readSegment name cells
  | [head, id, ints, floats] =>
    if head = functionWord then readFrame id ints floats else .error .memoryLine
  | _ => .error .memoryLine

/-- Reads the literal of a constant of a type; there are no constants of other types. -/
def readLiteral (type : ValueType) (cs : List Char) : Except FormatFault Literal :=
  match type with
  | .int => do return .int (Int64.ofInt (← readInt .intLiteral cs))
  | .float => do return .float (← readField .floatLiteral (Decimal.readFloat cs) cs)
  | _ =>
    match Text.JsonString.decode cs with
    | .ok s => .ok (.string s)
    | .error fault => .error (.string fault)

/-- Reads a line of the second section. Duckling `parse_constant_line`. -/
def readConstant (line : List Char) : Except FormatFault Entry :=
  match line.dropWhile (· ≠ ',') with
  | [] => .error .constantLine
  | _ :: rest => do
    let address ← readInt .address (Text.trim (line.takeWhile (· ≠ ',')))
    match (Segment.ofAddress? address).filter fun s => s.lifetime = .constant with
    | some s => return .constant ⟨address, ← readLiteral s.type (Text.trim rest)⟩
    | none => throw (.notConstant address)

/-- Reads a line of the third section. Duckling `parse_quadruple_line`. -/
def readQuadruple (line : List Char) : Except FormatFault Entry :=
  match Text.words line with
  | [op, left, right, result] => do
    let code ← readInt .opcode op
    match Opcode.ofCode? code with
    | some op =>
      return .quadruple
        ⟨op, ← readInt .operand left, ← readInt .operand right, ← readInt .result result⟩
    | none => throw (.unknownOpcode code)
  | _ => .error .quadrupleLine

/-- Reads a line of a section; behind the last section there is none. -/
def readEntry : Nat → List Char → Except FormatFault Entry
  | 0 => readMemory
  | 1 => readConstant
  | 2 => readQuadruple
  | _ => fun _ => .error .trailing

/-- Reads lines, the first of them numbered `n`, from a section on: what they state, and the section
that is open at the end. -/
def readLines : (part n : Nat) → List (List Char) → Except Error (List Entry × Nat)
  | part, _, [] => .ok ([], part)
  | part, n, line :: lines =>
    if Text.trim line = [] then readLines part (n + 1) lines
    else if Text.trim line = sectionEnd then readLines (part + 1) (n + 1) lines
    else
      match readEntry part (Text.trim line) with
      | .error fault => .error (.malformed n fault)
      | .ok e => (readLines part (n + 1) lines).map fun r => (e :: r.1, r.2)

/-- Reads a persisted program. Duckling `ObjectFile.from_text`. -/
def ofText (text : String) : Except Error ObjectFile := do
  let lines := Text.lines text.toList
  let (es, part) ← readLines 0 1 lines
  if part < 3 then throw (.malformed lines.length (.sections part))
  return ofEntries es

end ObjectFile

end Quadlet
