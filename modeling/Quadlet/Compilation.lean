import Quadlet.Draft.Actions
import Quadlet.Token.Scanner

/-!
# Compilation

From a source text to an object file: the text is cut into tokens, and a draft takes the events of
their grammar while they are found.

Embeds duckling's `Compiler.compile`; `SPEC_FULL.md` §2 and §D.
-/

namespace Quadlet

/-- A compiled program and the complaints that did not stop its compilation. -/
structure Compilation where
  object : ObjectFile
  warnings : List Error

/-- The program that tokens make up. -/
def ObjectFile.ofTokens (tokens : List Token) : Except Error ObjectFile :=
  match Parser.run (.ofTokens tokens) Draft.empty with
  | (.ok _, parser) => parser.sink.finish
  | (.error e, _) => .error e

/-- Compiles a source text; a strict compilation stops at the first illegal character.
Duckling `Compiler.compile`. -/
def compile (source : String) (strict : Bool) : Except Error Compilation :=
  match Scanner.scan (.ofSource source strict) with
  | .ok tokens scanner =>
    (ObjectFile.ofTokens tokens).map fun object => ⟨object, scanner.diagnostics.toList⟩
  | .error e _ => .error e

end Quadlet
