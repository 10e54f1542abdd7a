import CommaStyle.Document
import CommaStyle.Grammar.Rules

namespace CommaStyle

/-!
# Outlines

The `Outline` of a document: its list literals and its syntax errors, in terms of the tokens of the
document. `Document.outline` reads the kinds of the significant tokens by the grammar and finds the
tokens at the positions that the grammar names.
-/

/-- A list literal: its use, the token that opens it, and its elements, with `none` for a hole. -/
structure ListNode where
  use : ListUse
  opening : Nat
  elements : List (Option Element)
deriving DecidableEq, Repr

/-- The list literals and the syntax errors of a document. -/
structure Outline where
  lists : List ListNode
  errors : List SyntaxError
deriving DecidableEq, Repr

/-- An entry of a list literal, where `tokenAt` finds the token at a position. -/
def Grammar.Entry.element? (tokenAt : Nat → Nat) : Grammar.Entry → Option Element
  | .element e => some ⟨tokenAt e.first, tokenAt e.last⟩
  | .hole _ => none

/-- A list literal, where `tokenAt` finds the token at a position. -/
def ListNode.ofNode (tokenAt : Nat → Nat) (n : Grammar.Node) : ListNode :=
  ⟨n.use, tokenAt n.opening, n.entries.map (·.element? tokenAt)⟩

namespace Document

/-- The kinds of the tokens that take part in the grammar. -/
def kinds (d : Document) : List Kind := d.significant.filterMap d.kind?

/-- The span of a token; for a number past the last one, the end of the text. -/
def spanOrEnd (d : Document) (i : Nat) : Span :=
  match d.token? i with
  | some t => t.span
  | none => Span.empty d.width

/-- The reading of a document by the grammar. -/
def reading (d : Document) : Grammar.Reading := Grammar.readModule d.kinds

/-- The outline of a document. The faults of tokens come before those of the grammar; a position
    behind the last significant token stands for the end of the text. -/
def outline (d : Document) : Outline :=
  let ids := d.significant.toArray
  let tokenAt := fun position => ids.getD position d.size
  let reading := d.reading
  { lists := reading.lists.map (ListNode.ofNode tokenAt)
    errors := d.unclosed ++ reading.marks.map fun m => ⟨m.fault, d.spanOrEnd (tokenAt m.position)⟩ }

end Document

/-! ### The printed outline -/

/-- The word for the use of a list. -/
def ListUse.word : ListUse → String
  | .array => "Array"
  | .pattern => "Pattern"

namespace Outline

/-- An element as the stretch of text that it fills, a hole as a word of its own. -/
def describeElement? (d : Document) : Option Element → Option String
  | none => some "<hole>"
  | some e => do
    let cover ← d.cover? e.first e.last
    let text ← Text.slice? d.text cover
    return String.ofList text

/-- A list literal on a line: use, place of the bracket, elements. -/
def describeList? (d : Document) (l : ListNode) : Option String := do
  let opening ← d.token? l.opening
  let elements ← l.elements.mapM (describeElement? d)
  return l.use.word ++ "@" ++ opening.span.toText ++ " [" ++ ", ".intercalate elements ++ "]\n"

/-- An error on a line: place and message. -/
def describeError (e : SyntaxError) : String :=
  "  " ++ e.span.toText ++ " " ++ e.fault.message ++ "\n"

/-- An outline of a document as text: the lists, and the errors below a heading. -/
def describe? (d : Document) (o : Outline) : Option String := do
  let lists ← o.lists.mapM (describeList? d)
  return String.join lists ++ "Errors:\n" ++ String.join (o.errors.map describeError)

end Outline

end CommaStyle
