import CommaStyle.CommandLine.Run

/-!
# The program

Reads the files that the arguments name, does what the arguments ask for, and writes back what has
changed.
-/

namespace CommaStyle.Main

/-- The paths that the arguments name. -/
def namedPaths (arguments : List String) : List String :=
  match Command.ofArguments? arguments with
  | some (.check r) => r.settings.toList ++ r.paths
  | _ => []

/-- What stands at a path, with the folders on the way. -/
def load (disk : Disk) (path : String) : IO Disk := do
  let working ← IO.currentDir
  let start : Location := if path.startsWith "/" then [] else disk.here
  let mut disk := disk
  let mut location := start
  let mut spelled := if path.startsWith "/" then "/" else "."
  for part in pathParts path.toList do
    spelled := spelled ++ "/" ++ String.ofList part
    if part = ['.', '.'] then location := location.dropLast
    else if part ≠ [] ∧ part ≠ ['.'] then location := location ++ [part]
    let file := working / spelled
    if ← file.isDir then
      if location ≠ [] then disk := disk.put location .folder
    else if ← file.pathExists then
      disk := disk.put location (.ofBytes (← IO.FS.readBinFile file).toList)
  return disk

/-- The texts that differ between two disks. -/
def changes (before after : Disk) : List (Location × Text) :=
  after.entries.filterMap fun (location, content) =>
    match content with
    | .text t => if before.content? location == some content then none else some (location, t)
    | _ => none

end CommaStyle.Main

open CommaStyle CommaStyle.Main in
/-- Runs the program in the working folder. -/
def main (arguments : List String) : IO UInt32 := do
  let working ← IO.currentDir
  let here := (pathParts working.toString.toList).filter (· ≠ [])
  let disk ← (namedPaths arguments).foldlM load (Disk.empty here)
  let outcome := runArguments arguments disk
  for (location, t) in changes disk outcome.disk do
    IO.FS.writeFile ("/" ++ "/".intercalate (location.map String.ofList)) (String.ofList t)
  IO.print outcome.output
  IO.eprint (outcome.messages.getD "usage: check <paths>... [options]\n")
  return outcome.exit.toUInt32
