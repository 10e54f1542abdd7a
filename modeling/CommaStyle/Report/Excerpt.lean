import CommaStyle.Diagnostic
import CommaStyle.Report.Window

namespace CommaStyle

/-!
# Excerpts

A diagnostic as text, with the lines that it is about and marks at its span:

    warning: There should be no space before ','.
     --> list.js:1:3
      |
    1 | a , b
      |   - here
      |
      = help: remove the whitespace before

A span over several lines is drawn as a bracket at the left; of the lines between its ends, only
the first and the last are shown if there are more than `Excerpt.shownBetween`. Columns are counted
in characters. Marks move to the left with the lines that they stand below, if need be over the bar.
-/

namespace Excerpt

/-- The greatest number of lines between the ends of a bracket that are all shown. -/
def shownBetween : Nat := 3

/-- A line of the source: its number in the whole text from one on, its first character's index in
    the source, and its characters. -/
structure Line where
  number : Nat
  start : Nat
  text : Text
deriving DecidableEq, Repr

/-- The index behind the last character of a line. -/
def Line.stop (l : Line) : Nat := l.start + l.text.length

/-! ### The source -/

/-- The lines of a text. A line feed at the end starts no further line. -/
def splitLines : Text → List Text
  | [] => []
  | c :: t =>
    if c = '\n' then [] :: splitLines t
    else
      match splitLines t with
      | [] => [[c]]
      | l :: lines => (c :: l) :: lines

/-- Numbers lines, where the first has a number and an index. -/
def placeLines (number start : Nat) : List Text → List Line
  | [] => []
  | l :: lines => ⟨number, start, l⟩ :: placeLines (number + 1) (start + l.length + 1) lines

/-- The lines that a diagnostic is about, and the indices in them where its span starts and ends. -/
structure Source where
  lines : List Line
  start : Nat
  stop : Nat
deriving DecidableEq, Repr

/-- The lines from the one in which a span starts to the one in which it ends. -/
def source? (t : Text) (span : Span) : Option Source := do
  let (before, rest) ← Text.cut? span.start t
  let (inside, after) ← Text.cut? span.length rest
  let front := (before.reverse.takeWhile (· != '\n')).reverse
  let text := front ++ inside ++ after.takeWhile (· != '\n')
  let number := before.count '\n' + 1
  return ⟨placeLines number 0 (splitLines text), front.length, front.length + inside.length⟩

/-- The line and the column where a source starts, both from one on. -/
def Source.place (s : Source) : Nat × Nat :=
  match s.lines with
  | [] => (1, 1)
  | l :: _ => (l.number, s.start + 1)

/-! ### Extents -/

/-- How a span lies in lines. -/
inductive Extent where
  /-- From a column up to another one of a line. -/
  | inLine (line : Line) (start stop : Nat)
  /-- From a column of a line, over lines between, to a column of a later line. -/
  | across (first : Line) (start : Nat) (between : List Line) (last : Line) (stop : Nat)
deriving DecidableEq, Repr

/-- Whether a span that ends at an index ends in a line or with its line feed. -/
def endsIn (stop : Nat) (l : Line) : Bool := stop ≤ l.stop + 1

/-- The column of a line where a bracket for a span that ends at an index ends: the last of the span
    in the line, or the one behind the line if the span takes in the line feed. -/
def lastColumn (stop : Nat) (l : Line) : Nat :=
  let column := min (stop - l.start) l.text.length - 1
  if l.stop < stop then column + 1 else column

/-- The extent of a source's span, if there are lines. In one line it has at least one column, and
    begins at most behind the line. -/
def Source.extent? (s : Source) : Option Extent :=
  match s.lines with
  | [] => none
  | first :: later =>
    if endsIn s.stop first then
      let start := min s.start first.text.length
      let stop := min s.stop first.text.length
      some (.inLine first start (max stop (start + 1)))
    else
      (later.find? (endsIn s.stop)).map fun last =>
        .across first s.start (later.takeWhile fun l => !endsIn s.stop l) last
          (lastColumn s.stop last)

/-- The note behind the marks at the end of a span. -/
def note : Text := "here".toList

/-- The columns of the marks for an extent. -/
def Extent.focus (e : Extent) : Focus :=
  let (start, stop) :=
    match e with
    | inLine _ start stop => (start, stop)
    | across _ start _ _ stop => (min start stop, max start stop + 1)
  ⟨start, stop, stop + 1 + note.length⟩

/-- Whether an extent is drawn as a bracket. -/
def Extent.bracketed : Extent → Bool
  | inLine .. => false
  | across .. => true

/-! ### Rows -/

/-- What marks stand for. -/
inductive Part where
  /-- The whole of a span. -/
  | whole
  /-- The upper end of a bracket. -/
  | upper
  /-- The lower end of a bracket. -/
  | lower
deriving DecidableEq, Repr

/-- A row of an excerpt. -/
inductive Row where
  /-- A line of the source, with what the bracket at the left shows beside it. -/
  | source (number : Nat) (bracket : Option Char) (text : Text)
  /-- Marks from a column up to another one below a line. -/
  | marks (part : Part) (above : Text) (start stop : Nat)
  /-- Lines that are not shown. -/
  | omitted
deriving DecidableEq, Repr

/-- The rows for the line where a bracket starts. No arm is needed if only blanks precede the
    span. -/
def upperRows (l : Line) (start : Nat) : List Row :=
  if (l.text.take start).all isBlank then [.source l.number (some '/') l.text]
  else [.source l.number none l.text, .marks .upper l.text start (start + 1)]

/-- The rows for the lines between the ends of a bracket. -/
def middleRows (lines : List Line) : List Row :=
  let rows := lines.map fun l => Row.source l.number (some '|') l.text
  if rows.length ≤ shownBetween then rows
  else rows.take 1 ++ [.omitted] ++ rows.drop (rows.length - 1)

/-- The rows for the line where a bracket ends. -/
def lowerRows (l : Line) (stop : Nat) : List Row :=
  [.source l.number (some '|') l.text, .marks .lower l.text stop (stop + 1)]

/-- The rows for an extent. -/
def Extent.rows : Extent → List Row
  | inLine l start stop => [.source l.number none l.text, .marks .whole l.text start stop]
  | across first start between last stop =>
    upperRows first start ++ middleRows between ++ lowerRows last stop

/-! ### Text -/

/-- The number of decimal digits of a number. -/
def digitCount (n : Nat) : Nat := (Nat.toDigits 10 n).length

/-- The number of digits of the greatest line number. -/
def numberWidth (rows : List Row) : Nat :=
  (rows.map fun row =>
    match row with
    | .source number _ _ => digitCount number
    | _ => 0).foldl max 0

/-- So many spaces. -/
def spaces (n : Nat) : Text := List.replicate n ' '

/-- Writes a text into a row from a column on, over what stands there. A gap before it is filled
    with spaces. -/
def overlay (column : Nat) (t row : Text) : Text :=
  if t.isEmpty then row
  else row.take column ++ spaces (column - row.length) ++ t ++ row.drop (column + t.length)

/-- The dots for what is not shown. -/
def dots : Text := ['.', '.', '.']

/-- The columns of an excerpt: the width of its line numbers, whether it has a bracket, and the
    window on its lines. -/
structure Page where
  width : Nat
  bracketed : Bool
  window : Window
deriving DecidableEq, Repr

namespace Page

/-- The column of a bracket. -/
def rail (p : Page) : Nat := p.width + 3

/-- The column where lines begin. -/
def body (p : Page) : Nat := if p.bracketed then p.rail + 2 else p.rail

/-- The bar below line numbers. -/
def bar (p : Page) : Text := spaces (p.width + 1) ++ ['|']

/-- The row of a line. -/
def sourceRow (p : Page) (number : Nat) (bracket : Option Char) (l : Text) : Text :=
  let digits := Nat.toDigits 10 number
  let shown := p.window.shown l
  let row := spaces (p.width - digits.length) ++ digits ++ [' ', '|']
  let row := overlay p.body shown (overlay p.rail bracket.toList row)
  let row := if p.window.dotsBefore then overlay p.body dots row else row
  if p.window.dotsBehind l then overlay (p.body + shown.length - dots.length) dots row else row

/-- The row of marks from a column up to another one below a line. -/
def marksRow (p : Page) (mark : Char) (part : Part) (above : Text) (start stop : Nat) : Text :=
  let cut := p.window.cut above
  let arm := List.replicate (p.body + start - cut - p.rail) '_'
  let row :=
    match part with
    | .whole => overlay (p.body + (stop + 1 - cut)) note p.bar
    | .upper => overlay (p.rail + 1) arm p.bar
    | .lower =>
      overlay (p.body + (stop + 1 - cut)) note
        (overlay p.rail ['|'] (overlay (p.rail + 1) arm p.bar))
  (List.range' start (stop - start)).foldl (fun row c => overlay (p.body + c - cut) [mark] row) row

/-- The text of a row. -/
def row (p : Page) (mark : Char) : Row → Text
  | .source number bracket l => p.sourceRow number bracket l
  | .marks part above start stop => p.marksRow mark part above start stop
  | .omitted => overlay p.rail ['|'] dots

/-- The row with the name of a text and a place in it. -/
def placeRow (p : Page) (name : Text) (line column : Nat) : Text :=
  overlay (p.width + 4) name (overlay p.width ['-', '-', '>'] [])
    ++ [':'] ++ Nat.toDigits 10 line ++ [':'] ++ Nat.toDigits 10 column

end Page

/-- A word, and what is said under it, if anything. -/
def headed (word t : Text) : Text := if t.isEmpty then word else word ++ [':', ' '] ++ t

/-- The rows of a help text. Its later lines stand below the first one. -/
def Page.helpRows (p : Page) (help : Text) : List Text :=
  match splitLines help with
  | [] => []
  | first :: later =>
    (spaces (p.width + 1) ++ ['=', ' '] ++ headed "help".toList first)
      :: later.map fun l => spaces (p.width + 9) ++ l

/-- The page for a source with an extent. -/
def Source.page (s : Source) (e : Extent) : Page :=
  let next := (s.lines.getLast?.map Line.number).getD 0 + 1
  { width := numberWidth e.rows
    bracketed := e.bracketed
    window := .around (rowWidth - (digitCount next + 3)) (s.lines.map Line.text) e.focus }

/-- The page for a source without lines. -/
def emptyPage : Page := ⟨0, false, ⟨rowWidth, 0, 0, 0⟩⟩

end Excerpt

/-- The word for a severity. -/
def Severity.word : Severity → String
  | error => "error"
  | warning => "warning"

/-- The character that marks a span in an excerpt. -/
def Severity.mark : Severity → Char
  | error => '^'
  | warning => '-'

namespace Diagnostic

open Excerpt

/-- The rows of a diagnostic about a text with a name, if its span falls into the text. -/
def excerpt? (d : Diagnostic) (name : String) (t : Text) : Option (List Text) := do
  let source ← source? t d.span
  let extent := source.extent?
  let page := (extent.map source.page).getD emptyPage
  let rows := (extent.map Extent.rows).getD []
  let (line, column) := source.place
  return [headed d.severity.word.toList d.message.toList, page.placeRow name.toList line column,
      page.bar]
    ++ rows.map (page.row d.severity.mark) ++ [page.bar]
    ++ (d.edit.map fun e => page.helpRows e.label.toList).getD []

/-- A diagnostic as text. -/
def render? (d : Diagnostic) (name : String) (t : Text) : Option String :=
  (d.excerpt? name t).map fun lines => "\n".intercalate (lines.map String.ofList)

end Diagnostic

end CommaStyle
