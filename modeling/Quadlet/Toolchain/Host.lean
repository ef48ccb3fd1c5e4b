import Quadlet.Toolchain.Path

/-!
# Hosts

What the toolchain needs of the system it runs on: files and two streams of text. A folder of text
files held in memory is such a system, with the refusals of a file system. It lies below other
folders, of which no more is known than what every system has.

The refusals are those that duckling's standard library passes on from the system.
-/

namespace Quadlet.Toolchain

/-- Why a system refuses to read or write a file. -/
structure Refusal where
  reason : String
  code : Nat
  deriving DecidableEq, Repr

namespace Refusal

/-- The wording of a refusal. -/
def message (r : Refusal) : String := s!"{r.reason} (os error {toString r.code})"

/-- There is no such file, or no such folder on the way to it. -/
def missing : Refusal := ⟨"No such file or directory", 2⟩

/-- A file stands where a folder is needed. -/
def notFolder : Refusal := ⟨"Not a directory", 20⟩

/-- A folder stands where a file is needed. -/
def isFolder : Refusal := ⟨"Is a directory", 21⟩

/-- A name or a path has more bytes than the system takes. -/
def tooLong : Refusal := ⟨"File name too long", 36⟩

end Refusal

/-- The system that the toolchain runs on. -/
structure Host (m : Type → Type) where
  read : String → m (Except Refusal String)
  write : String → String → m (Except Refusal Unit)
  /-- Writes to the output stream. -/
  print : String → m Unit
  /-- Writes to the stream for warnings and errors. -/
  complain : String → m Unit

/-- A folder of text files and what was written to the two streams. -/
structure Desk where
  /-- The files by the names on the way to them. -/
  files : List (List (List Char) × String)
  output : String
  complaints : String

namespace Desk

/-- The name of the root. No slash stands in any other name. -/
def root : List Char := ['/']

/-- The folder where a path starts: the desk, which needs no names, or the root. -/
def start (path : List Char) : List (List Char) := if path.head? = some '/' then [root] else []

/-- The folder above a folder. What is above the desk is named by the number of steps, and the
root is above itself. -/
def outer (folder : List (List Char)) : List (List Char) :=
  if folder = [root] then folder
  else if folder.all (· = Path.above) then folder ++ [Path.above]
  else folder.dropLast

/-- The way that one part of a path adds to the way to a folder. -/
def step (folder : List (List Char)) (part : List Char) : List (List Char) :=
  if part = [] ∨ part = Path.here then folder
  else if part = Path.above then outer folder
  else folder ++ [part]

/-- The names on the way to a file, if every folder on the way is there. -/
def address (path : String) : List (List Char) :=
  (Path.parts path.toList).foldl step (start path.toList)

/-- A desk with files. -/
def ofFiles (files : List (String × String)) : Desk :=
  ⟨files.map fun f => (address f.1, f.2), "", ""⟩

/-- The folders that stand in the root of every system. -/
def systemFolders : List (List (List Char)) :=
  ["bin", "dev", "etc", "lib", "proc", "tmp", "usr", "var"].map fun name => [root, name.toList]

/-- The device that is empty and drops what is written to it. -/
def nullDevice : List (List Char) := [root, "dev".toList, "null".toList]

/-- The content of a file. -/
def content? (d : Desk) (names : List (List Char)) : Option String :=
  if names = nullDevice then some "" else d.files.lookup names

/-- Whether there is a folder: the desk, one above it, the root, one of the
system, or one with a file. -/
def isFolder (d : Desk) (names : List (List Char)) : Bool :=
  names.all (· = Path.above) || names = [root] || systemFolders.contains names ||
    d.files.any fun f => names.isPrefixOf f.1 && names != f.1

/-- The number of bytes that a name may have. -/
def longestName : Nat := 255

/-- The number of bytes that a path may have. -/
def longestPath : Nat := 4095

/-- The number of bytes of a text. -/
def bytes (cs : List Char) : Nat := (String.ofList cs).utf8ByteSize

/-- Whether a part of a path is the name of a file or folder. -/
def isName (part : List Char) : Bool := part ≠ [] && part ≠ Path.here && part ≠ Path.above

/-- Goes from a folder to the folder that a part of a path leads to. -/
def enter (d : Desk) (folder : List (List Char)) (part : List Char) :
    Except Refusal (List (List Char)) :=
  let next := step folder part
  if !isName part then .ok next
  else if longestName < bytes part then .error .tooLong
  else if d.isFolder next then .ok next
  else if (d.content? next).isSome then .error .notFolder
  else .error .missing

/-- What a path may lead to. -/
inductive Place where
  /-- A folder, which is certain. -/
  | folder
  /-- A name in a folder; behind it may stand a slash. -/
  | entry (folder : List (List Char)) (name : List Char) (slash : Bool)

/-- Goes along the parts of a path from a folder. -/
def follow (d : Desk) (folder : List (List Char)) : List (List Char) → Except Refusal Place
  | [] => .ok .folder
  | name :: rest =>
    if rest.all List.isEmpty && isName name then .ok (.entry folder name !rest.isEmpty)
    else
      match d.enter folder name with
      | .ok folder => d.follow folder rest
      | .error r => .error r

/-- Where a path leads to. -/
def locate (d : Desk) (path : String) : Except Refusal Place :=
  if path.isEmpty then .error .missing
  else if longestPath < path.utf8ByteSize then .error .tooLong
  else d.follow (start path.toList) (Path.parts path.toList)

/-- Reads a file. -/
def read (d : Desk) (path : String) : Except Refusal String :=
  match d.locate path with
  | .error r => .error r
  | .ok .folder => .error .isFolder
  | .ok (.entry folder name slash) =>
    if longestName < bytes name then .error .tooLong
    else if d.isFolder (folder ++ [name]) then .error .isFolder
    else
      match d.content? (folder ++ [name]) with
      | some text => if slash then .error .notFolder else .ok text
      | none => .error .missing

/-- Writes a file, in place of one that may be there. -/
def write (d : Desk) (path text : String) : Except Refusal Desk :=
  match d.locate path with
  | .error r => .error r
  | .ok .folder => .error .isFolder
  | .ok (.entry folder name slash) =>
    if slash then .error .isFolder
    else if longestName < bytes name then .error .tooLong
    else if d.isFolder (folder ++ [name]) then .error .isFolder
    else
      let rest := d.files.filter fun f => f.1 ≠ folder ++ [name]
      .ok { d with files := (folder ++ [name], text) :: rest }

/-- A desk as a system. -/
def host : Host (StateM Desk) where
  read path := return (← get).read path
  write path text := do
    match (← get).write path text with
    | .ok d => set d; return .ok ()
    | .error r => return .error r
  print text := modify fun d => { d with output := d.output ++ text }
  complain text := modify fun d => { d with complaints := d.complaints ++ text }

/-- What was written is found where the path leads to, unless that is where all is dropped. -/
theorem content?_write {d e : Desk} {path text : String} {folder : List (List Char)}
    {name : List Char} {slash : Bool} (hl : d.locate path = .ok (.entry folder name slash))
    (hn : folder ++ [name] ≠ nullDevice) (h : d.write path text = .ok e) :
    e.content? (folder ++ [name]) = some text := by
  simp only [write, hl] at h
  split at h
  · simp at h
  · split at h
    · simp at h
    · split at h
      · simp at h
      · rw [← Except.ok.inj h]
        simp [content?, hn]

end Desk

end Quadlet.Toolchain
