namespace CommaStyle

/-!
# Texts and places in them

Texts are counted in bytes and in lines. A `Span` is a stretch of bytes, a `Text` a list of characters, a
`Place` a line and a column; `isBlank` tells white space from the rest.
-/

/-!
## Spans

A `Span` is a stretch of a text, counted in bytes of its UTF-8 form. It is kept as a start and a
length, so a span never ends before it starts; `Span.between?` refuses bounds in the wrong order.
-/

/-- The `length` bytes of a text from the offset `start` on. -/
structure Span where
  start : Nat
  length : Nat
deriving DecidableEq, Repr

namespace Span

/-- The offset just past the last byte. -/
def stop (s : Span) : Nat := s.start + s.length

/-- The empty span at an offset. -/
def empty (offset : Nat) : Span := ⟨offset, 0⟩

/-- The span from one offset to another, if they come in this order. -/
def between? (start stop : Nat) : Option Span :=
  if start ≤ stop then some ⟨start, stop - start⟩ else none

/-- The smallest span that holds both spans. -/
def cover (a b : Span) : Span :=
  let start := min a.start b.start
  ⟨start, max a.stop b.stop - start⟩

/-- A span written as its two offsets with two dots between them. -/
def toText (s : Span) : String := toString s.start ++ ".." ++ toString s.stop

end Span

/-!
## Texts

A text is a list of characters. Offsets into it count bytes of its UTF-8 form, so not every offset
falls between two characters.

* `Text.width` is the number of bytes of a text;
* `Text.cut?` divides a text at an offset and fails where the offset splits a character or lies
  past the end;
* `Text.slice?` is the stretch that a span names, under the same condition on both of its ends.
-/

/-- A text as the list of its characters. -/
abbrev Text := List Char

namespace Text

/-- The number of bytes of a text. -/
def width : Text → Nat
  | [] => 0
  | c :: t => c.utf8Size + width t

/-- The text before an offset and the text from it on, if the offset falls between characters. -/
def cut? : Nat → Text → Option (Text × Text)
  | 0, t => some ([], t)
  | _ + 1, [] => none
  | n + 1, c :: t =>
    if c.utf8Size ≤ n + 1 then
      (cut? (n + 1 - c.utf8Size) t).map fun (before, after) => (c :: before, after)
    else none

/-- The stretch of a text that a span names. -/
def slice? (t : Text) (s : Span) : Option Text := do
  let (_, after) ← cut? s.start t
  let (inside, _) ← cut? s.length after
  return inside

end Text

/-!
## White space

The characters with the Unicode property `White_Space`. There are twenty-five of them, and the
zero-width characters are not among them.
-/

/-- The code points of the white space characters, as closed ranges. -/
def blankRanges : List (Nat × Nat) :=
  [(0x09, 0x0d), (0x20, 0x20), (0x85, 0x85), (0xa0, 0xa0), (0x1680, 0x1680), (0x2000, 0x200a),
   (0x2028, 0x2029), (0x202f, 0x202f), (0x205f, 0x205f), (0x3000, 0x3000)]

/-- Whether a character is white space. -/
def isBlank (c : Char) : Bool :=
  blankRanges.any fun (low, high) => low ≤ c.toNat && c.toNat ≤ high

/-!
## Places

A `Place` is a line and a column, both counted from zero. A column counts bytes of the line, and
only a line feed ends a line.
-/

/-- A line of a text and a byte column in it, both from zero. -/
structure Place where
  line : Nat
  column : Nat
deriving DecidableEq, Repr

namespace Place

/-- The start of a text. -/
def origin : Place := ⟨0, 0⟩

/-- The place behind a character. -/
def step (p : Place) (c : Char) : Place :=
  if c = '\n' then ⟨p.line + 1, 0⟩ else ⟨p.line, p.column + c.utf8Size⟩

/-- The place behind a text that starts at `p`. -/
def after (p : Place) (t : Text) : Place := t.foldl step p

/-- The place behind the first `count` bytes of a text that starts at `p`, or behind all of it if it
    has no more. The place may fall inside a character. -/
def afterBytes (p : Place) : (count : Nat) → Text → Place
  | 0, _ => p
  | _ + 1, [] => p
  | count + 1, c :: t =>
    if c.utf8Size ≤ count + 1 then (p.step c).afterBytes (count + 1 - c.utf8Size) t
    else ⟨p.line, p.column + (count + 1)⟩

end Place

/-- The place of an offset in a text, if the offset falls between characters. -/
def Text.place? (t : Text) (offset : Nat) : Option Place :=
  (Text.cut? offset t).map fun (before, _) => Place.origin.after before

end CommaStyle
