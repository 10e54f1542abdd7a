import CommaStyle.Outline

namespace CommaStyle

/-!
# The white space around commas

`Settings` say what white space a comma needs. Commas behind holes (`Document.exempt`) and those that
lead a line (`Document.leaders`) can be excused; a `Violation` is a comma that is not.
-/

/-!
## Settings

What the checker asks of the white space around a comma.
-/

/-- Whether a comma needs a space in front of it, whether it needs one behind it, and whether a
    comma that leads its line is excused from the latter. A space that is not needed is not
    allowed. -/
structure Settings where
  spaceBefore : Bool := false
  spaceAfter : Bool := true
  excuseLeading : Bool := false
deriving DecidableEq, Repr

/-- The usual settings: no space in front of a comma and a space behind it. -/
def Settings.standard : Settings := {}

/-!
## Line leaders

A token touches the line on which it starts and the line on which it ends. The first token to touch
a line leads it.
-/

/-- Lines with the tokens that lead them, in the order in which the lines were first touched. -/
abbrev Leaders := List (Nat × Nat)

namespace Leaders

/-- The token that leads a line. -/
def leader? (leaders : Leaders) (line : Nat) : Option Nat := leaders.lookup line

/-- Gives a line to a token unless the line has a leader. -/
def claim (leaders : Leaders) (line id : Nat) : Leaders :=
  if (leaders.leader? line).isSome then leaders else leaders ++ [(line, id)]

/-- Gives a token the lines that it touches. -/
def touch (leaders : Leaders) (id : Nat) (t : Token) : Leaders :=
  (leaders.claim t.first.line id).claim t.past.line id

end Leaders

namespace Document

/-- The line leaders of a document. -/
def leaders (d : Document) : Leaders :=
  d.ids.foldl (fun leaders i => ((d.token? i).map (leaders.touch i)).getD leaders) []

/-- Whether a token leads the line on which it starts. -/
def isLeading (d : Document) (leaders : Leaders) (i : Nat) : Bool :=
  (d.token? i).any fun t => leaders.leader? t.first.line == some i

end Document

/-!
## Commas behind holes

A hole in a list literal is marked by nothing but the comma behind it, so the white space in front
of that comma says nothing: the comma is exempt. `Document.holeCommas` walks along the entries of a
list literal and finds these commas; `Document.exempt` collects them over several literals, in the
order of the document and each once.

The walk takes the literal at its word. For entries that do not fit the document it ends where the
tokens do, and it never takes anything but a comma for the comma behind a hole.
-/

namespace Document

/-- The commas behind the holes among some entries of a list literal, where `before` is the token
    in front of them: its opening bracket, or the token behind the entry before. -/
def holeCommasFrom (d : Document) : (before : Nat) → List (Option Element) → List Nat
  | _, [] => []
  | _, some e :: entries =>
    match d.nextSignificant? e.last with
    | none => []
    | some next => d.holeCommasFrom next entries
  | before, none :: entries =>
    match d.nextSignificant? before with
    | none => []
    | some next =>
      if d.isComma next then next :: d.holeCommasFrom next entries
      else d.holeCommasFrom next entries

/-- The commas behind the holes of a list literal. -/
def holeCommas (d : Document) (l : ListNode) : List Nat := d.holeCommasFrom l.opening l.elements

/-- The commas behind the holes of some list literals. -/
def exempt (d : Document) (lists : List ListNode) : List Nat :=
  let commas := lists.flatMap d.holeCommas
  d.ids.filter commas.contains

end Document

/-!
## Violations

A `Violation` is a comma whose white space on one side is not what the settings ask for.

* `Document.violations` lists the violations in a document, comma by comma;
* `Violation.message?` and `Violation.edit?` say what is wrong and how to mend it. They take any
  violation, and fail for one whose tokens are not in the document, or stand in the wrong order
  around a gap that has to go.
-/

/-- A side of a comma. -/
inductive Side where
  | before
  | after
deriving DecidableEq, Repr

namespace Side

/-- The word for a side. -/
def word : Side → String
  | before => "before"
  | after => "after"

/-- Whether the settings ask for a space on a side. -/
def needsSpace (s : Settings) : Side → Bool
  | before => s.spaceBefore
  | after => s.spaceAfter

end Side

/-- A comma, the side on which its spacing is wrong, and the token next to it on that side. -/
structure Violation where
  comma : Nat
  side : Side
  neighbour : Nat
deriving DecidableEq, Repr

/-- Whether white space stands in front of a token. -/
def Token.isSpaced (t : Token) : Bool := !t.blanks.isEmpty

namespace Document

/-! ### Finding violations -/

/-- The violation in front of a comma. Nothing is asked in front of a comma that is exempt, follows
    another comma, or has nothing before it that starts on its line. -/
def violationBefore? (d : Document) (s : Settings) (exempt : List Nat) (i : Nat) :
    Option Violation := do
  let comma ← d.token? i
  let left ← d.prev? i
  let token ← d.token? left
  if token.kind != .comma && !exempt.contains i && token.onSameLine comma
      && comma.isSpaced != s.spaceBefore then
    some ⟨i, .before, left⟩
  else none

/-- The violation behind a comma. Nothing is asked behind a comma that has another comma, or nothing
    on its line, behind it; nor behind one that leads its line if that excuses it. White space in
    front of a line comment may always stay. -/
def violationAfter? (d : Document) (s : Settings) (leaders : Leaders) (i : Nat) :
    Option Violation := do
  let comma ← d.token? i
  let right ← d.next? i
  let token ← d.token? right
  if token.kind != .comma && !(token.kind == .lineComment && !s.spaceAfter)
      && comma.onSameLine token && !(s.excuseLeading && d.isLeading leaders i)
      && token.isSpaced != s.spaceAfter then
    some ⟨i, .after, right⟩
  else none

/-- The violations in a document, where the commas in `exempt` are exempt on their left side. -/
def violations (d : Document) (s : Settings) (exempt : List Nat) : List Violation :=
  let leaders := d.leaders
  (d.ids.filter d.isComma).flatMap fun i =>
    (d.violationBefore? s exempt i).toList ++ (d.violationAfter? s leaders i).toList

end Document

/-! ### Reporting violations -/

namespace Violation

/-- What is wrong. -/
def message? (v : Violation) (d : Document) (s : Settings) : Option String := do
  let comma ← d.text? v.comma
  let demand :=
    if v.side.needsSpace s then "A space is required " else "There should be no space "
  return demand ++ v.side.word ++ " '" ++ String.ofList comma ++ "'."

/-- The gap between the comma and its neighbour. -/
def gap? (v : Violation) (d : Document) : Option Span :=
  match v.side with
  | .before => d.gap? v.neighbour v.comma
  | .after => d.gap? v.comma v.neighbour

/-- The edit that mends it: a space next to the comma, or the end of the gap. -/
def edit? (v : Violation) (d : Document) (s : Settings) : Option Edit := do
  if v.side.needsSpace s then
    let comma ← d.token? v.comma
    let offset := match v.side with
      | .before => comma.span.start
      | .after => comma.span.stop
    return .insert ("insert a space " ++ v.side.word) offset [' ']
  else
    let gap ← v.gap? d
    return .delete ("remove the whitespace " ++ v.side.word) gap

/-- The warning about a violation. -/
def diagnostic? (v : Violation) (d : Document) (s : Settings) : Option Diagnostic := do
  let message ← v.message? d s
  let edit ← v.edit? d s
  let comma ← d.token? v.comma
  return ⟨.warning, message, comma.span, some edit⟩

end Violation

end CommaStyle
