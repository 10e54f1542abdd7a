import CommaStyle.Diagnostic
import CommaStyle.Text
import CommaStyle.Token

namespace CommaStyle

/-!
# Documents

A `Document` is a text with its tokens. A token is named by its number in the document, comments
included; the queries that take such a number answer `none` where no such token exists.

* `Document.ofText` places the lexemes of a layout;
* `Document.prev?`, `Document.next?` and `Document.nextSignificant?` walk from token to token;
* `Document.gap?` is the stretch between two tokens, and `Document.spaced?` tells whether it holds
  white space.
-/

/-- A lexeme in its place: the white space in front of it, its offset, the place where it starts
    and the place behind it. -/
structure Token extends Lexeme where
  blanks : Text
  offset : Nat
  first : Place
  past : Place
deriving DecidableEq, Repr

namespace Token

/-- The bytes that a token fills. -/
def span (t : Token) : Span := ⟨t.offset, Text.width t.text⟩

/-- Whether two tokens start on the same line. -/
def onSameLine (a b : Token) : Bool := a.first.line == b.first.line

/-- The fault of a token whose terminator is missing. -/
def fault? (t : Token) : Option Fault := if t.closed then none else Fault.ofUnclosed? t.kind

/-- Places pieces behind one another, from an offset and its place on. -/
def place (offset : Nat) (start : Place) : List Piece → List Token
  | [] => []
  | p :: pieces =>
    let offset := offset + Text.width p.blanks
    let first := start.after p.blanks
    let past := first.after p.lexeme.text
    let token : Token :=
      { toLexeme := p.lexeme, blanks := p.blanks, offset := offset, first := first, past := past }
    token :: place (offset + Text.width p.lexeme.text) past pieces

end Token

/-- A text with its tokens. -/
structure Document where
  text : Text
  tokens : Array Token
deriving DecidableEq, Repr

namespace Document

/-- The document of a text. -/
def ofText (t : Text) : Document :=
  ⟨t, (Token.place 0 Place.origin (Layout.ofText t).pieces).toArray⟩

/-- The number of tokens. -/
def size (d : Document) : Nat := d.tokens.size

/-- The number of bytes of the text. -/
def width (d : Document) : Nat := Text.width d.text

/-- The token with a number. -/
def token? (d : Document) (i : Nat) : Option Token := d.tokens[i]?

/-- The kind of the token with a number. -/
def kind? (d : Document) (i : Nat) : Option Kind := (d.token? i).map (·.kind)

/-- The characters of the token with a number. -/
def text? (d : Document) (i : Nat) : Option Text := (d.token? i).map (·.text)

/-- Whether a number names a comma. -/
def isComma (d : Document) (i : Nat) : Bool := d.kind? i == some .comma

/-- The numbers of the tokens. -/
def ids (d : Document) : List Nat := List.range d.size

/-- The numbers of the tokens that take part in the grammar. -/
def significant (d : Document) : List Nat :=
  d.ids.filter fun i => (d.kind? i).any Kind.isSignificant

/-! ### From token to token -/

/-- The number in front of a number; zero has none. -/
def prev? (_ : Document) : Nat → Option Nat
  | 0 => none
  | i + 1 => some i

/-- The number of the token behind a number. -/
def next? (d : Document) (i : Nat) : Option Nat := if i + 1 < d.size then some (i + 1) else none

/-- The first of the `count` tokens from a number on that is no comment. -/
def significantFrom? (d : Document) : (count : Nat) → Nat → Option Nat
  | 0, _ => none
  | count + 1, i =>
    if (d.kind? i).any Kind.isComment then d.significantFrom? count (i + 1) else some i

/-- The number of the next token behind a number that is no comment. -/
def nextSignificant? (d : Document) (i : Nat) : Option Nat :=
  d.significantFrom? (d.size - (i + 1)) (i + 1)

/-! ### Between two tokens -/

/-- The span between the end of one token and the start of another. -/
def gap? (d : Document) (left right : Nat) : Option Span := do
  let a ← d.token? left
  let b ← d.token? right
  Span.between? a.span.stop b.span.start

/-- Whether white space stands between two tokens. -/
def spaced? (d : Document) (left right : Nat) : Option Bool := do
  let gap ← d.gap? left right
  let between ← Text.slice? d.text gap
  return between.any isBlank

/-- Whether two tokens start on the same line. -/
def onSameLine? (d : Document) (left right : Nat) : Option Bool := do
  let a ← d.token? left
  let b ← d.token? right
  return a.onSameLine b

/-- The smallest span that holds two tokens. -/
def cover? (d : Document) (first last : Nat) : Option Span := do
  let a ← d.token? first
  let b ← d.token? last
  return a.span.cover b.span

/-- The faults of tokens whose terminator is missing. -/
def unclosed (d : Document) : List SyntaxError :=
  d.tokens.toList.filterMap fun t => t.fault?.map fun fault => ⟨fault, t.span⟩

end Document

end CommaStyle
