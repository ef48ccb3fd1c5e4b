import Quadlet.Text.Numeral

/-!
# Requests to the toolchain

The words of a command line, read from the left. The first word names what to do; among the others
are one path and the flags that are known there. Of a flag that is given twice the later one counts.

Embeds `parse_args` and `usage` of `duckc`; `SPEC_FULL.md` §L.
-/

namespace Quadlet.Toolchain

/-- What can be done with a file. -/
inductive Verb where
  | compile
  | run
  | exec
  | disasm
  deriving DecidableEq, Repr

namespace Verb

/-- Every verb. -/
def all : List Verb := [.compile, .run, .exec, .disasm]

/-- The word for a verb. -/
def word : Verb → String
  | .compile => "compile"
  | .run => "run"
  | .exec => "exec"
  | .disasm => "disasm"

/-- The verb with that word. -/
def ofWord? (s : String) : Option Verb := all.find? fun v => v.word = s

/-- How a verb is used. -/
def usage : Verb → String
  | .compile => "duckc compile <input.duck> [-o <out.dk>] [--strict]"
  | .run => "duckc run <program.dk> [--step-limit N]"
  | .exec => "duckc exec <input.duck> [--step-limit N] [--strict]"
  | .disasm => "duckc disasm <program.dk> [--json]"

/-- The flags that a verb knows. -/
def flags : Verb → List String
  | .compile => ["-o", "--out", "--strict"]
  | .run => ["--step-limit"]
  | .exec => ["--step-limit", "--strict"]
  | .disasm => ["--json"]

/-- A verb is found under its own word. -/
theorem ofWord?_word (v : Verb) : ofWord? v.word = some v := by
  cases v <;> decide

end Verb

/-- How the toolchain is used. -/
def usage : String :=
  "\n".intercalate ("Duckling toolchain" :: Verb.all.map fun v => "  " ++ v.usage)

/-- The name and version of the toolchain. -/
def version : String := "duckc 1.0.0"

/-- What is wrong with a command line. -/
inductive UsageFault where
  | noCommand
  | unknownCommand (word : String)
  | unknownFlag (verb : Verb) (flag : String)
  | noPath (flag : String)
  | noCount
  | badCount (text : String) (fault : Text.Numeral.Fault)
  | surplus (verb : Verb) (word : String)
  | noInput (verb : Verb)
  deriving DecidableEq, Repr

/-- The wording of a fault. -/
def UsageFault.message : UsageFault → String
  | .noCommand => usage
  | .unknownCommand word => s!"unknown command '{word}'\n\n{usage}"
  | .unknownFlag verb flag => s!"unknown flag '{flag}'\nusage: {verb.usage}"
  | .noPath flag => s!"missing path after {flag}"
  | .noCount => "missing count after --step-limit"
  | .badCount text fault => s!"invalid step limit '{text}': {fault.message}"
  | .surplus verb word => s!"unexpected argument '{word}'\nusage: {verb.usage}"
  | .noInput verb => s!"usage: {verb.usage}"

/-- What the words behind a verb may set. -/
structure Options where
  input : Option String
  output : Option String
  strict : Bool
  json : Bool
  limit : Option Nat
  deriving DecidableEq, Repr

/-- No words. -/
def Options.none : Options := ⟨.none, .none, false, false, .none⟩

/-- Takes the words behind a verb. -/
def Options.read (verb : Verb) (o : Options) : List String → Except UsageFault Options
  | [] => .ok o
  | word :: words =>
    if word.startsWith "-" && !verb.flags.contains word then .error (.unknownFlag verb word)
    else if word = "-o" ∨ word = "--out" then
      match words with
      | path :: words => Options.read verb { o with output := some path } words
      | [] => .error (.noPath word)
    else if word = "--step-limit" then
      match words with
      | count :: words =>
        match Text.Numeral.readCount count.toList with
        | .ok n => Options.read verb { o with limit := some n } words
        | .error fault => .error (.badCount count fault)
      | [] => .error .noCount
    else if word = "--strict" then Options.read verb { o with strict := true } words
    else if word = "--json" then Options.read verb { o with json := true } words
    else
      match o.input with
      | .none => Options.read verb { o with input := some word } words
      | some _ => .error (.surplus verb word)

/-- What a command line asks for. -/
inductive Request where
  | help
  | version
  | compile (input : String) (output : Option String) (strict : Bool)
  | run (input : String) (limit : Option Nat)
  | exec (input : String) (limit : Option Nat) (strict : Bool)
  | disasm (input : String) (json : Bool)
  deriving DecidableEq, Repr

namespace Request

/-- The request for a verb. -/
def ofOptions (verb : Verb) (o : Options) : Except UsageFault Request :=
  match o.input with
  | none => .error (.noInput verb)
  | some input =>
    match verb with
    | .compile => .ok (.compile input o.output o.strict)
    | .run => .ok (.run input o.limit)
    | .exec => .ok (.exec input o.limit o.strict)
    | .disasm => .ok (.disasm input o.json)

/-- Reads a command line. -/
def ofWords : List String → Except UsageFault Request
  | [] => .error .noCommand
  | word :: words =>
    match Verb.ofWord? word with
    | some verb => Options.read verb .none words >>= ofOptions verb
    | none =>
      if word = "help" ∨ word = "--help" ∨ word = "-h" then .ok .help
      else if word = "--version" ∨ word = "-V" then .ok .version
      else .error (.unknownCommand word)

end Request

end Quadlet.Toolchain
