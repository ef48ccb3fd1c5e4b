/-!
# Paths

A path is a row of names with slashes between them. The extension of a file is what stands behind
the last dot of its name, unless that dot opens the name.

These are the rules of duckling's standard library for paths, as far as `duckc` uses them.
-/

namespace Quadlet.Toolchain.Path

/-- The parts of a path between slashes, empty ones included. -/
def parts : List Char → List (List Char)
  | [] => [[]]
  | c :: cs =>
    if c = '/' then [] :: parts cs
    else
      match parts cs with
      | [] => [[c]]
      | p :: ps => (c :: p) :: ps

/-- The part of a path that stands for the folder itself. -/
def here : List Char := ['.']

/-- The part of a path that stands for the folder above. -/
def above : List Char := ['.', '.']

/-- The length of a name without its extension, the dot included in the extension. -/
def stemLength (name : List Char) : Nat :=
  let back := name.reverse.dropWhile (· ≠ '.')
  if back.length ≤ 1 then name.length else back.length - 1

/-- The path of a file with another extension, which is given without its dot. The letters
of the old extension go first; where two dots are left, these stand for the folder above
and get no extension. -/
def withExtension (path extension : String) : String :=
  let cs := path.toList
  let name := (parts cs).getLastD []
  let folder := cs.take (cs.length - name.length)
  let stem := name.take (stemLength name)
  if stem = here then String.ofList (folder ++ above)
  else String.ofList (folder ++ stem) ++ "." ++ extension

end Quadlet.Toolchain.Path
