import Quadlet.Compilation
import Quadlet.Decimal.Basic
import Quadlet.Decimal.Binary64
import Quadlet.Decimal.Layout
import Quadlet.Decimal.Reader
import Quadlet.Decimal.Shortest
import Quadlet.Draft.Actions
import Quadlet.Draft.Basic
import Quadlet.Error
import Quadlet.Event.Basic
import Quadlet.Event.Parser
import Quadlet.Literal
import Quadlet.Machine.Basic
import Quadlet.Machine.Cells
import Quadlet.Machine.Memory
import Quadlet.Main
import Quadlet.Object.Basic
import Quadlet.Object.Code
import Quadlet.Object.Data
import Quadlet.Object.Listing
import Quadlet.Object.Text
import Quadlet.Planner
import Quadlet.Proofs.Decimal.Floats
import Quadlet.Proofs.Decimal.Reading
import Quadlet.Proofs.Decimal.Rounding
import Quadlet.Proofs.Decimal.Spelling
import Quadlet.Proofs.Draft.Growth
import Quadlet.Proofs.Draft.Soundness
import Quadlet.Proofs.Effects
import Quadlet.Proofs.Lowering.Basic
import Quadlet.Proofs.Lowering.Derivation
import Quadlet.Proofs.Lowering.Draft
import Quadlet.Proofs.Lowering.Postorder
import Quadlet.Proofs.Lowering.Program
import Quadlet.Proofs.Lowering.Source
import Quadlet.Proofs.Machine.Failure
import Quadlet.Proofs.Machine.Integrity
import Quadlet.Proofs.Machine.Limit
import Quadlet.Proofs.Machine.Memory
import Quadlet.Proofs.Machine.Printing
import Quadlet.Proofs.Machine.Progress
import Quadlet.Proofs.Machine.Steps
import Quadlet.Proofs.Machine.Transitions
import Quadlet.Proofs.Object.Compiled
import Quadlet.Proofs.Object.Format
import Quadlet.Proofs.Object.Image
import Quadlet.Proofs.Object.Text
import Quadlet.Proofs.Parser.Actions
import Quadlet.Proofs.Parser.Completeness
import Quadlet.Proofs.Parser.Diagnosis
import Quadlet.Proofs.Parser.Ending
import Quadlet.Proofs.Parser.Grammar
import Quadlet.Proofs.Parser.Lookahead
import Quadlet.Proofs.Parser.Pace
import Quadlet.Proofs.Parser.Refusal
import Quadlet.Proofs.Parser.Script
import Quadlet.Proofs.Parser.Soundness
import Quadlet.Proofs.Parser.Streaming
import Quadlet.Proofs.Parser.Viability
import Quadlet.Proofs.Planner.Books
import Quadlet.Proofs.Semantics.Arithmetic
import Quadlet.Proofs.Semantics.CallByValue
import Quadlet.Proofs.Semantics.Calls
import Quadlet.Proofs.Semantics.Expressions
import Quadlet.Proofs.Semantics.Handover
import Quadlet.Proofs.Semantics.Interpreter
import Quadlet.Proofs.Semantics.Linking
import Quadlet.Proofs.Semantics.Loading
import Quadlet.Proofs.Semantics.Mirror
import Quadlet.Proofs.Semantics.Operators
import Quadlet.Proofs.Semantics.Program
import Quadlet.Proofs.Semantics.Safety
import Quadlet.Proofs.Semantics.Simulation
import Quadlet.Proofs.Semantics.Statements
import Quadlet.Proofs.Semantics.Termination
import Quadlet.Proofs.Semantics.Values
import Quadlet.Proofs.Semantics.View
import Quadlet.Proofs.Shape.Addresses
import Quadlet.Proofs.Shape.Course
import Quadlet.Proofs.Shape.Flow
import Quadlet.Proofs.Shape.Frames
import Quadlet.Proofs.Shape.Invocations
import Quadlet.Proofs.Shape.Program
import Quadlet.Proofs.Shape.Size
import Quadlet.Proofs.Static.Cells
import Quadlet.Proofs.Static.Declarations
import Quadlet.Proofs.Static.Errors
import Quadlet.Proofs.Static.Expressions
import Quadlet.Proofs.Static.Faults
import Quadlet.Proofs.Static.Formulas
import Quadlet.Proofs.Static.Program
import Quadlet.Proofs.Static.Scopes
import Quadlet.Proofs.Static.Statements
import Quadlet.Proofs.Static.WellFormed
import Quadlet.Proofs.Symbol.Dictionary
import Quadlet.Proofs.Symbol.Table
import Quadlet.Proofs.Syntax.Basic
import Quadlet.Proofs.Syntax.Formula
import Quadlet.Proofs.Syntax.Unambiguous
import Quadlet.Proofs.Text.Blank
import Quadlet.Proofs.Text.Fields
import Quadlet.Proofs.Text.JsonString
import Quadlet.Proofs.Text.Numeral
import Quadlet.Proofs.Token.Layout
import Quadlet.Proofs.Token.LongestMatch
import Quadlet.Proofs.Token.Numbers
import Quadlet.Proofs.Token.Passing
import Quadlet.Proofs.Token.Pieces
import Quadlet.Proofs.Token.Positions
import Quadlet.Proofs.Token.Reading
import Quadlet.Proofs.Token.Rescanning
import Quadlet.Proofs.Token.Strictness
import Quadlet.Quadruple
import Quadlet.Segment
import Quadlet.Symbol.Basic
import Quadlet.Symbol.Directory
import Quadlet.Symbol.Table
import Quadlet.Text.Blank
import Quadlet.Text.Document
import Quadlet.Text.JsonString
import Quadlet.Text.Numeral
import Quadlet.Text.Quoted
import Quadlet.Text.Unprintable
import Quadlet.Token.Basic
import Quadlet.Token.Scanner
import Quadlet.Toolchain.Basic
import Quadlet.Toolchain.Host
import Quadlet.Toolchain.Path
import Quadlet.Toolchain.Request
import Quadlet.Typing
import Quadlet.Value
import Quadlet.ValueType
