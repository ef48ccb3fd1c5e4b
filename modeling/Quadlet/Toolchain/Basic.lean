import Quadlet.Compilation
import Quadlet.Machine.Basic
import Quadlet.Object.Data
import Quadlet.Object.Listing
import Quadlet.Object.Text
import Quadlet.Toolchain.Host
import Quadlet.Toolchain.Request

/-!
# The toolchain

Carries out a request on a host. A program runs slice by slice, so that what it prints is seen while
it runs, and stays printed when it fails.

Embeds the commands of `duckc`; `SPEC_FULL.md` §L.
-/

namespace Quadlet.Toolchain

/-- Why a request cannot be carried out. -/
inductive Fault where
  | usage (fault : UsageFault)
  | read (path : String) (r : Refusal)
  | compile (path : String) (e : Error)
  | load (path : String) (e : Error)
  | write (path : String) (r : Refusal)
  | execute (e : Error)

/-- The wording of a fault. -/
def Fault.message : Fault → String
  | .usage fault => fault.message
  | .read path r => s!"failed to read '{path}': {r.message}"
  | .compile path e => s!"failed to compile '{path}': {e.message}"
  | .load path e => s!"failed to load '{path}': {e.message}"
  | .write path r => s!"failed to write '{path}': {r.message}"
  | .execute e => e.message

variable {m : Type → Type} [Monad m]

/-- A step of a request, which may fail. -/
abbrev Task (m : Type → Type) (α : Type) := ExceptT Fault m α

/-- Reads a file. -/
def readFile (host : Host m) (path : String) : Task m String := do
  match ← host.read path with
  | .ok text => return text
  | .error r => throw (.read path r)

/-- Compiles a file and hands on the warnings. -/
def compileFile (host : Host m) (path : String) (strict : Bool) : Task m ObjectFile := do
  match Quadlet.compile (← readFile host path) strict with
  | .error e => throw (.compile path e)
  | .ok c =>
    for w in c.warnings do
      host.complain s!"warning: {w.message}\n"
    return c.object

/-- Reads a persisted program. -/
def loadFile (host : Host m) (path : String) : Task m ObjectFile := do
  match ObjectFile.ofText (← readFile host path) with
  | .ok object => return object
  | .error e => throw (.load path e)

/-- The number of quadruples that are carried out between two times of printing. -/
def slice : Nat := 4096

/-- Runs a machine for a number of slices. -/
def executeSlices (host : Host m) : Nat → Machine → Task m Unit
  | 0, machine => throw (.execute (.limit machine.steps))
  | n + 1, machine => do
    let (outcome, machine, text) := Machine.run .endless slice machine ""
    host.print text
    match outcome with
    | .halted => return ()
    | .failed e => throw (.execute e)
    | .running => executeSlices host n machine

/-- The number of slices of a run without a limit, more than any machine will see. -/
def slices : Nat := 1 <<< 60

/-- Runs a program. -/
def execute (host : Host m) (object : ObjectFile) (limit : Option Nat) : Task m Unit := do
  match Machine.load object limit with
  | .ok machine => executeSlices host slices machine
  | .error e => throw (.execute e)

/-- Carries out a request. -/
def perform (host : Host m) : Request → Task m Unit
  | .help => host.print s!"{usage}\n"
  | .version => host.print s!"{version}\n"
  | .compile input output strict => do
    let object ← compileFile host input strict
    let out := output.getD (Path.withExtension input "dk")
    match ← host.write out object.text with
    | .error r => throw (.write out r)
    | .ok _ =>
      let size := toString object.quadruples.size
      host.print s!"compiled '{input}' -> '{out}' ({size} quadruples)\n"
  | .run input limit => do
    execute host (← loadFile host input) limit
  | .exec input limit strict => do
    execute host (← compileFile host input strict) limit
  | .disasm input json => do
    let object ← loadFile host input
    let text := if json then object.data else object.listing
    host.print s!"{text}\n"

/-- Carries out a command line and gives the exit code. -/
def serve (host : Host m) (words : List String) : m UInt32 := do
  let task : Task m Unit :=
    match Request.ofWords words with
    | .ok request => perform host request
    | .error fault => throw (.usage fault)
  match ← task.run with
  | .ok _ => return 0
  | .error fault =>
    host.complain s!"error: {fault.message}\n"
    return 1

end Quadlet.Toolchain
