import CommaStyle.Spacing

namespace CommaStyle

/-!
# Checking and mending

`Lint` is about one text, and a `Workspace` keeps several of them in memory.
-/

/-!
## Checking and mending a text

* `Lint.diagnostics` is all that the checker has to say about a text;
* `Lint.mend` makes all the edits that the warnings propose.
-/

namespace Document

/-- The warnings about violations. -/
def warningsOf (d : Document) (s : Settings) (violations : List Violation) : List Diagnostic :=
  violations.filterMap (·.diagnostic? d s)

/-- The warnings about a document whose list literals are given. -/
def warnings (d : Document) (s : Settings) (lists : List ListNode) : List Diagnostic :=
  d.warningsOf s (d.violations s (d.exempt lists))

end Document

namespace Lint

/-- The syntax errors of a text and the warnings about it, in the order in which they are found. -/
def findings (s : Settings) (t : Text) : List Diagnostic :=
  let d := Document.ofText t
  let o := d.outline
  o.errors.map Diagnostic.ofError ++ d.warnings s o.lists

/-- All that there is to say about a text, by place. -/
def diagnostics (s : Settings) (t : Text) : List Diagnostic := Diagnostic.sort (findings s t)

/-- The text after the edits of some diagnostics, and the number of edits made. A text that the
    edits do not fit is left alone. -/
def mendBy (ds : List Diagnostic) (t : Text) : Text × Nat :=
  (Edit.applyAll? t (ds.filterMap (·.edit))).getD (t, 0)

/-- The text after the edits of all warnings about it, and the number of edits made. -/
def mend (s : Settings) (t : Text) : Text × Nat := mendBy (findings s t) t

end Lint

/-!
## Workspaces

Files that are kept in memory, each with its settings. A file is named by its number, in the order
in which the files were added.
-/

/-- A file: its path, its text, and the settings that apply to it. -/
structure SourceFile where
  path : String
  text : Text
  settings : Settings
deriving DecidableEq, Repr

namespace SourceFile

/-- All that there is to say about a file, by place. -/
def diagnostics (f : SourceFile) : List Diagnostic := Lint.diagnostics f.settings f.text

/-- The text of a file after all proposed edits, and the number of edits made. -/
def mended (f : SourceFile) : Text × Nat := Lint.mend f.settings f.text

/-- The place of an offset in a file. -/
def place? (f : SourceFile) (offset : Nat) : Option Place := Text.place? f.text offset

end SourceFile

/-- The files of a workspace. -/
structure Workspace where
  files : List SourceFile
deriving DecidableEq, Repr

namespace Workspace

/-- The workspace without files. -/
def empty : Workspace := ⟨[]⟩

/-- The file with a number. -/
def file? (w : Workspace) (i : Nat) : Option SourceFile := w.files[i]?

/-- Adds a file. -/
def add (w : Workspace) (f : SourceFile) : Workspace := ⟨w.files ++ [f]⟩

/-- Changes the file with a number. -/
def change (w : Workspace) (i : Nat) (f : SourceFile → SourceFile) : Workspace :=
  ⟨w.files.modify i f⟩

/-- Gives a file another text. -/
def setText (w : Workspace) (i : Nat) (text : Text) : Workspace :=
  w.change i fun f => { f with text := text }

/-- Gives a file other settings. -/
def setSettings (w : Workspace) (i : Nat) (settings : Settings) : Workspace :=
  w.change i fun f => { f with settings := settings }

/-- Gives a file another path. -/
def setPath (w : Workspace) (i : Nat) (path : String) : Workspace :=
  w.change i fun f => { f with path := path }

end Workspace

end CommaStyle
