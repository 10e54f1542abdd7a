import CommaStyle.Text

namespace CommaStyle

/-!
# Tokens

Tokens have a `Kind`. A `Lexeme` is what `Lexeme.scan` cuts off the front of a text, and a `Layout` is a
whole text cut into lexemes and white space.
-/

/-!
## Kinds of tokens
-/

/-- What a token is. Comments are tokens too; the grammar passes over them. -/
inductive Kind where
  | leftParen
  | rightParen
  | leftBracket
  | rightBracket
  | leftBrace
  | rightBrace
  | comma
  | colon
  | semicolon
  /-- The operator that is a single `=`. -/
  | assign
  /-- The operator that is a single `.`. -/
  | dot
  | operator
  | name
  | number
  | string
  /-- A fragment from `<>` to `</>`. -/
  | markup
  | lineComment
  | blockComment
  /-- A character that starts no other token. -/
  | unknown
deriving DecidableEq, Repr

namespace Kind

/-- Whether a token of this kind is a comment. -/
def isComment : Kind → Bool
  | lineComment | blockComment => true
  | _ => false

/-- Whether a token of this kind takes part in the grammar. -/
def isSignificant (k : Kind) : Bool := !k.isComment

/-- The kind of a character that is a token by itself wherever a token starts. -/
def ofPunctuation? : Char → Option Kind
  | '(' => some leftParen
  | ')' => some rightParen
  | '[' => some leftBracket
  | ']' => some rightBracket
  | '{' => some leftBrace
  | '}' => some rightBrace
  | ',' => some comma
  | ':' => some colon
  | ';' => some semicolon
  | _ => none

end Kind

/-!
## Lexemes

How one token is cut off the front of a text. Every scanner here takes the characters behind the
ones it has seen and divides them into a part that belongs to the token and the rest
(`Division`); `Lexeme.scan` looks at the first characters and chooses the scanner.

* Strings, block comments and fragments are *opaque*: they run to their terminator, and a lexeme
  whose terminator is missing is not `closed`.
* Names, numbers and operators take as many characters as they can; an operator stops in front of
  a comment.
-/

/-- A text divided into the part that a scanner takes and the rest, and whether the part ends in
    the terminator that it needs. -/
structure Division where
  taken : Text
  rest : Text
  closed : Bool
deriving DecidableEq, Repr

namespace Division

/-- The division with more characters in front of the part taken. -/
def prepend (front : Text) (d : Division) : Division := { d with taken := front ++ d.taken }

/-- Takes the characters that satisfy `p` up to the first that does not. -/
def run (p : Char → Bool) (t : Text) : Division := ⟨t.takeWhile p, t.dropWhile p, true⟩

/-- Takes nothing. -/
def none (t : Text) : Division := ⟨[], t, true⟩

/-- One division and then another of what it leaves. -/
def thenTake (d : Division) (next : Text → Division) : Division := (next d.rest).prepend d.taken

end Division

/-- A token without its place: its kind, its characters, and whether it is complete. -/
structure Lexeme where
  kind : Kind
  text : Text
  closed : Bool
deriving DecidableEq, Repr

namespace Lexeme

/-! ### Opaque tokens -/

/-- The rest of a block comment behind its opening: up to the first `*/`. -/
def commentBody : Text → Division
  | [] => ⟨[], [], false⟩
  | '*' :: '/' :: t => ⟨['*', '/'], t, true⟩
  | c :: t => (commentBody t).prepend [c]

/-- The rest of a fragment behind its opening: up to the first `</>`. -/
def markupBody : Text → Division
  | [] => ⟨[], [], false⟩
  | '<' :: '/' :: '>' :: t => ⟨['<', '/', '>'], t, true⟩
  | c :: t => (markupBody t).prepend [c]

/-- Whether a string in these quotes may run over several lines. -/
def spansLines (quote : Char) : Bool := quote = '\x60'

/-- The rest of a string behind its opening quote: up to the same quote. A backslash takes the
    next character with it, whatever it is; a line feed that is not taken so ends a string that
    may not run over several lines. -/
def stringBody (quote : Char) : Text → Division
  | [] => ⟨[], [], false⟩
  | '\\' :: c :: t => (stringBody quote t).prepend ['\\', c]
  | c :: t =>
    if c = '\n' && !spansLines quote then ⟨[], c :: t, false⟩
    else if c = quote then ⟨[c], t, true⟩
    else (stringBody quote t).prepend [c]

/-! ### Names, numbers and operators -/

/-- Whether a character can start a name. -/
def startsName (c : Char) : Bool := c.isAlpha || c = '_' || c = '$'

/-- Whether a character can stand inside a name. -/
def continuesName (c : Char) : Bool := startsName c || c.isDigit

/-- Whether a character counts as a decimal digit of a number: an underscore does. -/
def isDecimal (c : Char) : Bool := c.isDigit || c = '_'

/-- Whether a character counts as a hexadecimal digit of a number: an underscore does. -/
def isHexadecimal (c : Char) : Bool :=
  isDecimal c || ('a' ≤ c && c ≤ 'f') || ('A' ≤ c && c ≤ 'F')

/-- The digits of a number behind its first digit. A leading zero can be followed by the letter
    of a base; only the letter of base sixteen brings in digits beyond the decimal ones. -/
def integerBody (first : Char) : Text → Division
  | [] => .none []
  | c :: t =>
    if first = '0' && (c = 'b' || c = 'o') then (Division.run isDecimal t).prepend [c]
    else if first = '0' && c = 'x' then (Division.run isHexadecimal t).prepend [c]
    else .run isDecimal (c :: t)

/-- The fraction of a number: a point, if a digit follows it, and the digits. -/
def fractionBody : Text → Division
  | '.' :: d :: t =>
    if d.isDigit then (Division.run isDecimal (d :: t)).prepend ['.'] else .none ('.' :: d :: t)
  | t => .none t

/-- The exponent of a number: its letter, a sign if there is one, and digits if there are any. -/
def exponentBody : Text → Division
  | [] => .none []
  | e :: t =>
    if e = 'e' || e = 'E' then
      match t with
      | '+' :: t => (Division.run isDecimal t).prepend [e, '+']
      | '-' :: t => (Division.run isDecimal t).prepend [e, '-']
      | t => (Division.run isDecimal t).prepend [e]
    else .none (e :: t)

/-- The rest of a number behind its first digit. -/
def numberBody (first : Char) (t : Text) : Division :=
  ((integerBody first t).thenTake fractionBody).thenTake exponentBody

/-- Whether a character can stand in an operator. -/
def isOperator (c : Char) : Bool :=
  ['/', '=', '-', '+', '*', '%', '<', '>', '!', '&', '|', '^', '~', '.', '?'].contains c

/-- Whether a comment starts here. -/
def startsComment : Text → Bool
  | '/' :: '/' :: _ => true
  | '/' :: '*' :: _ => true
  | _ => false

/-- The rest of an operator behind its first character. -/
def operatorBody : Text → Division
  | [] => .none []
  | c :: t =>
    if isOperator c && !startsComment (c :: t) then (operatorBody t).prepend [c]
    else .none (c :: t)

/-- The kind of an operator: assignment and member access have kinds of their own. -/
def operatorKind : Text → Kind
  | ['='] => .assign
  | ['.'] => .dot
  | _ => .operator

/-! ### The choice of the scanner -/

/-- Whether a character opens a string. -/
def isQuote (c : Char) : Bool := c = '"' || c = '\'' || c = '\x60'

/-- The lexeme that a division takes, and what follows it. -/
def ofDivision (kind : Kind) (d : Division) : Lexeme × Text := (⟨kind, d.taken, d.closed⟩, d.rest)

/-- Cuts one token off a text that starts with `c`, and gives what follows it. -/
def scan (c : Char) (t : Text) : Lexeme × Text :=
  match Kind.ofPunctuation? c, c, t with
  | some kind, _, _ => ofDivision kind ((Division.none t).prepend [c])
  | none, '/', '/' :: t =>
    ofDivision .lineComment ((Division.run (· != '\n') t).prepend ['/', '/'])
  | none, '/', '*' :: t => ofDivision .blockComment ((commentBody t).prepend ['/', '*'])
  | none, '<', '>' :: t => ofDivision .markup ((markupBody t).prepend ['<', '>'])
  | none, _, _ =>
    if isQuote c then ofDivision .string ((stringBody c t).prepend [c])
    else if c.isDigit then ofDivision .number ((numberBody c t).prepend [c])
    else if startsName c then ofDivision .name ((Division.run continuesName t).prepend [c])
    else if isOperator c then
      let d := (operatorBody t).prepend [c]
      ofDivision (operatorKind d.taken) d
    else ofDivision .unknown ((Division.none t).prepend [c])

end Lexeme

/-!
## Layouts

A `Layout` is a text cut into lexemes and the white space in front of each of them, with the white
space behind the last one. Nothing of the text is dropped: `Layout.toText` puts it together again.

A `Lexer` reads the same lexemes one at a time and knows the offset it has reached. At the end of
the text it gives no lexeme, however often it is asked.
-/

/-- A lexeme and the white space in front of it. -/
structure Piece where
  blanks : Text
  lexeme : Lexeme
deriving DecidableEq, Repr

/-- A text cut into pieces, and the white space behind the last of them. -/
structure Layout where
  pieces : List Piece
  trailing : Text
deriving DecidableEq, Repr

namespace Layout

/-- The layout with one more piece in front. -/
def cons (p : Piece) (l : Layout) : Layout := { l with pieces := p :: l.pieces }

/-- Cuts a text into at most as many pieces as `bound` has characters. -/
def ofTextWithin : (bound : Text) → Text → Layout
  | [], t => ⟨[], t⟩
  | _ :: bound, t =>
    match t.dropWhile isBlank with
    | [] => ⟨[], t⟩
    | c :: rest =>
      let (lexeme, rest) := Lexeme.scan c rest
      (ofTextWithin bound rest).cons ⟨t.takeWhile isBlank, lexeme⟩

/-- The layout of a text. A piece holds at least one character, so the text itself bounds the
    number of its pieces. -/
def ofText (t : Text) : Layout := ofTextWithin t t

/-- The text of a layout. -/
def toText (l : Layout) : Text :=
  l.pieces.flatMap (fun p => p.blanks ++ p.lexeme.text) ++ l.trailing

end Layout

/-- A reader of lexemes: the offset that it has reached and the text from there on. -/
structure Lexer where
  offset : Nat
  rest : Text
deriving DecidableEq, Repr

namespace Lexer

/-- A lexer at the start of a text. -/
def ofText (t : Text) : Lexer := ⟨0, t⟩

/-- The lexer behind a text that it passes over. -/
def pass (l : Lexer) (passed rest : Text) : Lexer := ⟨l.offset + Text.width passed, rest⟩

/-- The lexer behind the white space at which it stands. -/
def skipBlanks (l : Lexer) : Lexer := l.pass (l.rest.takeWhile isBlank) (l.rest.dropWhile isBlank)

/-- The next lexeme with the span that it fills, and the lexer behind it; at the end of the text
    no lexeme. -/
def next (l : Lexer) : Option (Lexeme × Span) × Lexer :=
  let start := l.skipBlanks
  match start.rest with
  | [] => (none, start)
  | c :: t =>
    let (lexeme, rest) := Lexeme.scan c t
    (some (lexeme, ⟨start.offset, Text.width lexeme.text⟩), start.pass lexeme.text rest)

/-- The lexemes up to the end of the text, at most as many as `bound` has characters, and the lexer
    behind them. -/
def readWithin : (bound : Text) → Lexer → List (Lexeme × Span) × Lexer
  | [], l => ([], l.skipBlanks)
  | _ :: bound, l =>
    match l.next with
    | (none, l) => ([], l)
    | (some found, l) =>
      let (more, l) := readWithin bound l
      (found :: more, l)

/-- The lexemes up to the end of the text, and the lexer there. -/
def readAll (l : Lexer) : List (Lexeme × Span) × Lexer := readWithin l.rest l

end Lexer

end CommaStyle
