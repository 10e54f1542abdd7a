import CommaStyle.Text

namespace CommaStyle

/-!
# The columns that an excerpt shows

The lines of an excerpt are shown through one window of columns. An indentation that all lines with
text share is cut off if it is deep, and where lines are too wide for a row the window is laid
around the marks. A source without text is nothing but indentation, so that none of it is left.
Three dots stand for what is cut off.
-/

namespace Excerpt

/-- The greatest number of columns of a row. -/
def rowWidth : Nat := 140

/-- The room for dots at each side of what has to be seen. -/
def dotsRoom : Nat := 6

/-- An indentation with more columns than these, the room for dots apart, is cut off. -/
def deepIndent : Nat := 20

/-- The columns of a deep indentation that are left, the room for dots apart. -/
def keptIndent : Nat := 16

/-- The columns that have to be seen: from the first mark on to behind the last one, and to behind
    the note. -/
structure Focus where
  start : Nat
  stop : Nat
  noteStop : Nat
deriving DecidableEq, Repr

/-- The columns that are shown of lines. A line with more than `width` columns behind `left` is
    shown up to `right`, and has dots there if it has more than `full` columns. -/
structure Window where
  width : Nat
  left : Nat
  right : Nat
  full : Nat
deriving DecidableEq, Repr

/-- The indentation that all lines with text share, if a line has text. -/
def indent? (lines : List Text) : Option Nat :=
  ((lines.filter fun l => !l.all isBlank).map fun l => (l.takeWhile isBlank).length).min?

/-- The number of columns of the longest line. -/
def longest (lines : List Text) : Nat := (lines.map List.length).foldl max 0

namespace Window

/-- The window on lines with a focus, for rows with a number of columns for the lines. -/
def around (width : Nat) (lines : List Text) (focus : Focus) : Window :=
  match indent? lines with
  | none => ⟨width, longest lines + 1, longest lines + 1, longest lines + 1⟩
  | some indent =>
    let indent := indent - dotsRoom
    let start := focus.start - dotsRoom
    let stop := focus.stop + dotsRoom
    let noteStop := focus.noteStop + dotsRoom
    let left := if deepIndent < indent then indent - keptIndent else 0
    let right := max (longest lines) left
    let (left, right) :=
      if right - left ≤ width then (left, right)
      else if noteStop - indent ≤ width then (indent, indent + width)
      else if noteStop - start ≤ width then
        let left := start - (width - (noteStop - start)) / 2
        (left, left + width)
      else if stop - start ≤ width then
        let left := start - (width - (stop - start)) / 5 * 2
        (left, left + width)
      else (start, stop)
    let full := if right = stop ∨ right = noteStop then right - dotsRoom else right
    ⟨width, left, right, full⟩

/-- The number of columns that are cut off at the left of a line. -/
def cut (w : Window) (l : Text) : Nat := min w.left l.length

/-- The part of a line that is shown. -/
def shown (w : Window) (l : Text) : Text :=
  let stop := if l.length - w.left ≤ w.width then l.length else min l.length w.right
  (l.take stop).drop (w.cut l)

/-- Whether dots stand before each line. -/
def dotsBefore (w : Window) : Bool := 0 < w.left

/-- Whether dots stand behind a line. -/
def dotsBehind (w : Window) (l : Text) : Bool :=
  w.full < l.length && w.left + w.width < l.length

end Window

end Excerpt

end CommaStyle
