import CommaStyle.CommandLine.Disk
import CommaStyle.CommandLine.Request
import CommaStyle.Lint
import CommaStyle.Report.Excerpt
import CommaStyle.Settings.Written

namespace CommaStyle

/-!
# Runs

What a command does to a disk and what it prints. `Request.run` checks the files of a request in
order and stops at the first that cannot be read; `Command.run` turns a run into an outcome.
-/

/-- A cause for stopping a run. -/
inductive Failure where
  | unreadable (path : String) (fault : AccessFault)
  | badSettings (path : String) (error : SettingsError)
deriving DecidableEq, Repr

namespace Failure

/-- What was being done. -/
def context : Failure → String
  | unreadable path _ => "failed to read `" ++ path ++ "`"
  | badSettings path _ => "invalid configuration in `" ++ path ++ "`"

/-- Why it failed. -/
def cause : Failure → String
  | unreadable _ fault => fault.message
  | badSettings _ error => error.message

/-- Every line of a text moved to the right. -/
def indent (s : String) : String :=
  let margin := "    ".toList
  String.ofList (margin ++ s.toList.flatMap fun c => if c = '\n' then c :: margin else [c])

/-- A failure as text. -/
def report (f : Failure) : String :=
  "Error: " ++ f.context ++ "\n\nCaused by:\n" ++ indent f.cause ++ "\n"

end Failure

/-- The disk after a run, the texts that were written with the paths they were written to, what was
    printed, and the number of diagnostics that remain, unless the run was stopped. -/
structure Run where
  disk : Disk
  written : List (String × Text)
  printed : List String
  result : Except Failure Nat

namespace Request

/-- The settings of a request: those of the file that it names, changed by its switches. -/
def readSettings (r : Request) (disk : Disk) : Except Failure Settings := do
  let s ← match r.settings with
    | none => pure Settings.standard
    | some path =>
      match disk.read path with
      | .error fault => throw (.unreadable path fault)
      | .ok t =>
        match Settings.ofText t with
        | .error error => throw (.badSettings path error)
        | .ok s => pure s
  return { spaceBefore := s.spaceBefore || r.has .before
           spaceAfter := s.spaceAfter && !r.has .noAfter
           excuseLeading := s.excuseLeading || r.has .excuseLeading }

/-- The words for the number of edits made. -/
def mendedNote (path : String) (count : Nat) : String :=
  path ++ ": applied " ++ toString count ++ " fix" ++ (if count = 1 then "" else "es") ++ "\n"

/-- The diagnostics about a text as lines to print. -/
def report (s : Settings) (path : String) (t : Text) : List String :=
  (Lint.diagnostics s t).filterMap fun d => (d.render? path t).map (· ++ "\n")

/-- Checks a file, after mending it if that is asked for. -/
def checkFile (s : Settings) (mend : Bool) (disk : Disk) (path : String) : Run :=
  match disk.read path with
  | .error fault => ⟨disk, [], [], .error (.unreadable path fault)⟩
  | .ok t =>
    let (mended, count) := if mend then Lint.mend s t else (t, 0)
    if 0 < count then
      ⟨disk.write path mended, [(path, mended)], mendedNote path count :: report s path mended,
        .ok (Lint.diagnostics s mended).length⟩
    else ⟨disk, [], report s path t, .ok (Lint.diagnostics s t).length⟩

/-- Checks files in order, up to the first that cannot be read. -/
def checkFiles (s : Settings) (mend : Bool) (disk : Disk) : List String → Run
  | [] => ⟨disk, [], [], .ok 0⟩
  | path :: paths =>
    let one := checkFile s mend disk path
    match one.result with
    | .error _ => one
    | .ok count =>
      let others := checkFiles s mend one.disk paths
      ⟨others.disk, one.written ++ others.written, one.printed ++ others.printed,
        others.result.map (count + ·)⟩

/-- Does what a request asks for. The settings are read before any file. -/
def run (r : Request) (disk : Disk) : Run :=
  match r.readSettings disk with
  | .error failure => ⟨disk, [], [], .error failure⟩
  | .ok s => checkFiles s (r.has .mend) disk r.paths

end Request

/-- How a command ends: its exit code, what it prints to the two channels, and the disk. Nothing is
    said about the second channel where the arguments are refused. -/
structure Outcome where
  exit : Nat
  output : String
  messages : Option String
  disk : Disk
deriving DecidableEq, Repr

/-- The name and version of the program. -/
def versionLine : String := "commalint 0.1.0\n"

/-- Does what a command asks for. -/
def Command.run (disk : Disk) : Command → Outcome
  | version => ⟨0, versionLine, some "", disk⟩
  | check request =>
    let run := request.run disk
    let printed := String.join run.printed
    match run.result with
    | .error failure => ⟨1, "", some (printed ++ failure.report), run.disk⟩
    | .ok remaining => ⟨if remaining = 0 then 0 else 1, "", some printed, run.disk⟩

/-- Does what the arguments of a command line ask for. -/
def runArguments (arguments : List String) (disk : Disk) : Outcome :=
  match Command.ofArguments? arguments with
  | some command => command.run disk
  | none => ⟨2, "", none, disk⟩

end CommaStyle
