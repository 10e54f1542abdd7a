import CommaStyle.Lint

namespace CommaStyle

/-!
# The log of a check

What the checker notes about its own work while it finds the diagnostics of a file and makes the
edits that they propose.
-/

/-- How much detail a log record is for. -/
inductive LogLevel where
  | debug
  | trace
deriving DecidableEq, Repr

/-- A log record: the name of the stretch of work that it opens, if it opens one, its level, the
    part of the checker that it comes from, and its fields. -/
structure LogRecord where
  opens : Option String
  level : LogLevel
  origin : String
  fields : List (String × String)
deriving DecidableEq, Repr

namespace LogRecord

/-- The part of the checker that looks at the spacing. -/
def spacing : String := "commalint_spacing"

/-- The part of the checker that keeps the files. -/
def storage : String := "commalint_db"

/-- The check of a document begins. -/
def checkBegins (d : Document) (lists : List ListNode) : LogRecord :=
  ⟨some "check", .debug, spacing,
    [("tokens", toString d.size), ("lists", toString lists.length)]⟩

/-- The check has found its violations. -/
def checkEnds (exempt : List Nat) (violations : List Violation) : LogRecord :=
  ⟨none, .debug, spacing,
    [("message", "checked comma spacing"), ("exempt", toString exempt.length),
     ("violations", toString violations.length)]⟩

/-- A violation. -/
def violation? (d : Document) (v : Violation) : Option LogRecord := do
  let comma ← d.token? v.comma
  return ⟨none, .trace, spacing,
    [("message", "comma spacing violation"), ("range", comma.span.toText), ("side", v.side.word)]⟩

/-- Edits were made. -/
def mended (path : String) (count : Nat) : LogRecord :=
  ⟨none, .debug, storage,
    [("message", "applied fixes"), ("path", path), ("applied", toString count)]⟩

end LogRecord

/-- The log of finding the diagnostics of a file and making their edits. The file is checked
    once. -/
def SourceFile.log (f : SourceFile) : List LogRecord :=
  let d := Document.ofText f.text
  let lists := d.outline.lists
  let exempt := d.exempt lists
  let violations := d.violations f.settings exempt
  [.checkBegins d lists, .checkEnds exempt violations]
    ++ violations.filterMap (LogRecord.violation? d) ++ [.mended f.path f.mended.2]

end CommaStyle
