import Quadlet.Object.Basic
import Quadlet.Text.Document

/-!
# Programs as data for other programs

The parts of a program as nested records, in the order in which the program holds them.

Embeds duckling's `ObjectFile.to_json`; `SPEC_FULL.md` §I.
-/

namespace Quadlet

open Text (Document)

/-- A segment as data. -/
def Segment.document (s : Segment) : Document :=
  .record [("scope", .string s.lifetime.title), ("ty", .string s.type.title)]

/-- The size of a segment as data. -/
def SegmentSize.document (s : SegmentSize) : Document :=
  .record [("segment", s.segment.document), ("cells", .integer s.cells)]

/-- The size of a frame as data. -/
def FrameSize.document (f : FrameSize) : Document :=
  .record [("function", .integer f.function), ("ints", .integer f.ints),
    ("floats", .integer f.floats)]

/-- A literal as data. -/
def Literal.document : Literal → Document
  | .int n => .record [("Int", .integer n.toInt)]
  | .float x => .record [("Float", .float x)]
  | .string s => .record [("Str", .string s)]

/-- A constant as data. -/
def Constant.document (c : Constant) : Document :=
  .record [("address", .integer c.address), ("literal", c.literal.document)]

/-- A quadruple as data. -/
def Quadruple.document (q : Quadruple) : Document :=
  .record [("op", .string q.op.name), ("left", .integer q.left), ("right", .integer q.right),
    ("result", .integer q.result)]

/-- A program as data. -/
def ObjectFile.document (o : ObjectFile) : Document :=
  .record [
    ("memory", .record [
      ("segments", .list (o.memory.segments.map SegmentSize.document)),
      ("functions", .list (o.memory.functions.map FrameSize.document))]),
    ("constants", .list (o.constants.map Constant.document)),
    ("quadruples", .list (o.quadruples.toList.map Quadruple.document))]

/-- A program as the text of a document. -/
def ObjectFile.data (o : ObjectFile) : String := o.document.render 0

end Quadlet
