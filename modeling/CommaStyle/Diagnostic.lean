import CommaStyle.Token

namespace CommaStyle

/-!
# Faults, edits and diagnostics

What can be said about a text. A `Fault` is a cause of a syntax error, an `Edit` changes the text, and a
`Diagnostic` is a message that may carry an edit.
-/

/-!
## Faults

What can be wrong with a program, apart from its spacing, and how it is said.
-/

/-- A cause of a syntax error. -/
inductive Fault where
  | unterminatedString
  | unterminatedComment
  | unterminatedMarkup
  | expectedExpression
  | expectedProperty
  | expectedPropertyName
  | expectedParen
  | expectedBracket
  | expectedBrace
  | unexpectedComma
  | nestingTooDeep
deriving DecidableEq, Repr

namespace Fault

/-- The wording of a fault. -/
def message : Fault → String
  | unterminatedString => "unterminated string literal"
  | unterminatedComment => "unterminated block comment"
  | unterminatedMarkup => "unterminated markup fragment"
  | expectedExpression => "expected expression"
  | expectedProperty => "expected property"
  | expectedPropertyName => "expected property name"
  | expectedParen => "expected ')'"
  | expectedBracket => "expected ']'"
  | expectedBrace => "expected '\x7d'"
  | unexpectedComma => "unexpected ','"
  | nestingTooDeep => "nesting too deep"

/-- What is wrong with a token of a kind whose terminator is missing. Only opaque tokens have a
    terminator. -/
def ofUnclosed? : Kind → Option Fault
  | .string => some unterminatedString
  | .blockComment => some unterminatedComment
  | .markup => some unterminatedMarkup
  | _ => none

end Fault

/-- A fault and the span that it is reported at. -/
structure SyntaxError where
  fault : Fault
  span : Span
deriving DecidableEq, Repr

/-!
## Stable order

Sorting by insertion. Members that the order does not tell apart keep their order.
-/

section

variable {α : Type}

/-- Inserts a member in front of the first one that may follow it. -/
def insertOrdered (le : α → α → Bool) (a : α) : List α → List α
  | [] => [a]
  | b :: l => if le a b then a :: b :: l else b :: insertOrdered le a l

/-- The members of a list in order. -/
def stableSort (le : α → α → Bool) (l : List α) : List α := l.foldr (insertOrdered le) []

end

/-!
## Edits

An `Edit` puts a text in the place of a span. `Edit.applyAll?` makes several edits of a text at
once:

* the edits are taken by the places where they start, then by those where they end;
* an edit that starts inside the span of one already taken is left out (`Edit.choose`);
* the text is then put together from its untouched stretches and the replacements (`Edit.splice?`),
  which fails where an edit starts or ends inside a character or past the end.
-/

/-- A replacement for a span of a text, with a few words on what it does. -/
structure Edit where
  label : String
  span : Span
  replacement : Text
deriving DecidableEq, Repr

namespace Edit

/-- The edit that inserts a text. -/
def insert (label : String) (offset : Nat) (replacement : Text) : Edit :=
  ⟨label, Span.empty offset, replacement⟩

/-- The edit that deletes a span. -/
def delete (label : String) (span : Span) : Edit := ⟨label, span, []⟩

/-- Whether an edit may be taken ahead of another. -/
def le (a b : Edit) : Bool :=
  a.span.start < b.span.start || (a.span.start == b.span.start && a.span.stop ≤ b.span.stop)

/-- The edits that are made, of those given in order: each that starts at or behind the end of the
    one made before it. -/
def choose : (reached : Nat) → List Edit → List Edit
  | _, [] => []
  | reached, e :: edits =>
    if e.span.start < reached then choose reached edits else e :: choose e.span.stop edits

/-- Makes edits, given in order and apart from each other, of the text from an offset on. -/
def splice? : (reached : Nat) → List Edit → Text → Option Text
  | _, [], rest => some rest
  | reached, e :: edits, rest => do
    let (kept, rest) ← Text.cut? (e.span.start - reached) rest
    let (_, rest) ← Text.cut? e.span.length rest
    let rest ← splice? e.span.stop edits rest
    return kept ++ e.replacement ++ rest

/-- The edits of a collection that are made. -/
def chosen (edits : List Edit) : List Edit := choose 0 (stableSort le edits)

/-- The text after the edits, and the number of edits made. -/
def applyAll? (t : Text) (edits : List Edit) : Option (Text × Nat) :=
  let made := chosen edits
  (splice? 0 made t).map fun edited => (edited, made.length)

end Edit

/-!
## Diagnostics

What the checker has to say about a text: a syntax error, or a warning with an edit that removes its
cause.
-/

/-- How much a diagnostic matters. -/
inductive Severity where
  | error
  | warning
deriving DecidableEq, Repr

/-- A message about a span of a text, with an edit that mends it if there is one. -/
structure Diagnostic where
  severity : Severity
  message : String
  span : Span
  edit : Option Edit
deriving DecidableEq, Repr

namespace Diagnostic

/-- A syntax error as a diagnostic. -/
def ofError (e : SyntaxError) : Diagnostic := ⟨.error, e.fault.message, e.span, none⟩

/-- The diagnostics by the places where they start. -/
def sort (ds : List Diagnostic) : List Diagnostic :=
  stableSort (fun a b => a.span.start ≤ b.span.start) ds

end Diagnostic

end CommaStyle
