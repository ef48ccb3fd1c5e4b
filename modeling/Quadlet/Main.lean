import Quadlet.Toolchain.Basic

/-!
# The command line

The toolchain on the files and streams of the system.

Embeds `main` of `duckc`; `SPEC_FULL.md` §L.
-/

namespace Quadlet.Toolchain

/-- The refusal with a code, which some calls of the system report as its negative. -/
def Refusal.ofCode (reason : String) (code : UInt32) : Refusal :=
  let n := min code.toNat (-code).toNat
  ([.missing, .notFolder, .isFolder, .tooLong].find? fun r : Refusal => r.code == n).getD
    ⟨reason, n⟩

/-- The refusal behind an error of the system. -/
def Refusal.ofError : IO.Error → Refusal
  | .noFileOrDirectory _ code reason => .ofCode reason code
  | .inappropriateType _ code reason => .ofCode reason code
  | .permissionDenied _ code reason => .ofCode reason code
  | .noSuchThing _ code reason => .ofCode reason code
  | .invalidArgument _ code reason => .ofCode reason code
  | .resourceExhausted _ code reason => .ofCode reason code
  | .otherError code reason => .ofCode reason code
  | e => ⟨e.toString, 5⟩

/-- The result of an action of the system, or its refusal. -/
def attempt {α : Type} (act : IO α) : IO (Except Refusal α) := do
  try return .ok (← act)
  catch e => return .error (.ofError e)

/-- The system that the program runs on. -/
def system : Host IO where
  read path := attempt (IO.FS.readFile path)
  write path text := attempt (IO.FS.writeFile path text)
  print text := do
    let out ← IO.getStdout
    out.putStr text
    out.flush
  complain text := do
    let err ← IO.getStderr
    err.putStr text

end Quadlet.Toolchain

/-- Carries out the command line of the process. -/
def main (args : List String) : IO UInt32 :=
  Quadlet.Toolchain.serve Quadlet.Toolchain.system args
