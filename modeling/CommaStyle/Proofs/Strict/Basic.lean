import CommaStyle.Lint
import CommaStyle.Proofs.Grammar.Guarded

namespace CommaStyle.Strict

open Grammar

/-!
# Strict checking

Checking and mending once more, step by step and without defaults. A step fails

* if the number of a token, or a position among the significant ones, is out of range;
* if a span would end before it starts;
* if a text is cut past its end, or inside a character;
* if a difference would be negative;
* if a length or a number is above `maxOffset`;
* if a guard of the grammar fails.

`Strict.checkUp?` takes all the steps.
-/

/-! ### Numbers -/

/-- The largest number that an offset, or the number of a token, may be. -/
def maxOffset : Nat := 4294967295

/-- A number that must not be too large. -/
def fit? (n : Nat) : Option Nat := if n ≤ maxOffset then some n else none

/-- A difference that must not be negative. -/
def minus? (a b : Nat) : Option Nat := if b ≤ a then some (a - b) else none

/-- The number of bytes of a text, which must not be too large. -/
def width? (t : Text) : Option Nat := fit? (Text.width t)

/-! ### Tokens -/

/-- The span of what was taken off a text since `ahead` bytes were left of it, where `rest` is left
    now. -/
def span? (t : Text) (ahead : Nat) (rest : Text) : Option Span := do
  let width ← width? t
  let left ← width? rest
  let stop ← minus? width left
  let length ← minus? ahead left
  let start ← minus? stop length
  Span.between? start stop

/-- A lexeme in its place, where its characters are found in the text again. -/
def token? (t blanks : Text) (ahead : Nat) (x : Lexeme) (rest : Text) : Option Token := do
  let span ← span? t ahead rest
  let text ← Text.slice? t span
  let first ← Text.place? t span.start
  let past ← Text.place? t span.stop
  return { kind := x.kind, text := text, closed := x.closed, blanks := blanks, offset := span.start
           first := first, past := past }

/-- The tokens of what is left of a text, if there are fewer than `bound`. -/
def tokensWithin? (t : Text) : (bound : Nat) → (rest : Text) → Option (List Token)
  | 0, _ => none
  | bound + 1, rest => do
    let ahead ← width? (rest.dropWhile isBlank)
    match rest.dropWhile isBlank with
    | [] =>
      let _ ← span? t ahead []
      return []
    | c :: u =>
      let (x, behind) := Lexeme.scan c u
      let token ← token? t (rest.takeWhile isBlank) ahead x behind
      let more ← tokensWithin? t bound behind
      return token :: more

/-- The document of a text. -/
def document? (t : Text) : Option Document := do
  let tokens ← tokensWithin? t (t.length + 1) t
  let _ ← fit? tokens.length
  return ⟨t, tokens.toArray⟩

/-! ### Outlines -/

section

variable (d : Document)

/-- The token at a position among the significant ones. -/
def tokenAt? (position : Nat) : Option Nat := d.significant[position]?

/-- An entry of a list literal. -/
def element? : Entry → Option (Option Element)
  | .hole _ => some none
  | .element e => do
    let first ← tokenAt? d e.first
    let last ← tokenAt? d e.last
    return some ⟨first, last⟩

/-- A list literal. -/
def list? (n : Node) : Option ListNode := do
  let opening ← tokenAt? d n.opening
  let elements ← n.entries.mapM (element? d)
  return ⟨n.use, opening, elements⟩

/-- A fault with the span of the token ahead, or the end of the text. -/
def error? (m : Mark) : Option SyntaxError :=
  match tokenAt? d m.position with
  | some i => do
    let x ← d.token? i
    return ⟨m.fault, x.span⟩
  | none => do
    let stop ← width? d.text
    return ⟨m.fault, Span.empty stop⟩

/-- The outline of a document, by the guarded rules. -/
def outline? : Option Outline := do
  let kinds ← d.significant.mapM d.kind?
  let (_, s) ← Guarded.program.run ⟨Reading.ofKinds kinds, 0⟩
  let lists ← s.reading.lists.mapM (list? d)
  let errors ← s.reading.marks.mapM (error? d)
  return ⟨lists, d.unclosed ++ errors⟩

/-! ### Exempt commas and line leaders -/

/-- The first of the `count` tokens from a number on that is no comment, if there is one. -/
def significantFrom? : (count : Nat) → Nat → Option (Option Nat)
  | 0, _ => some none
  | count + 1, i => do
    let kind ← d.kind? i
    if kind.isComment then significantFrom? count (i + 1) else return some i

/-- The next token behind a number that is no comment, if there is one. -/
def nextSignificant? (i : Nat) : Option (Option Nat) :=
  significantFrom? d (d.size - (i + 1)) (i + 1)

/-- The commas behind the holes among some entries of a list literal. -/
def holeCommasFrom? : (before : Nat) → List (Option Element) → Option (List Nat)
  | _, [] => some []
  | _, some e :: entries => do
    match ← nextSignificant? d e.last with
    | none => return []
    | some next => holeCommasFrom? next entries
  | before, none :: entries => do
    match ← nextSignificant? d before with
    | none => return []
    | some next =>
      let kind ← d.kind? next
      let more ← holeCommasFrom? next entries
      return if kind == .comma then next :: more else more

/-- The commas behind the holes of some list literals. -/
def exempt? (lists : List ListNode) : Option (List Nat) := do
  let commas ← lists.mapM fun l => holeCommasFrom? d l.opening l.elements
  return d.ids.filter commas.flatten.contains

/-- The line leaders of a document. -/
def leaders? : Option Leaders :=
  d.ids.foldlM (fun leaders i => do return leaders.touch i (← d.token? i)) []

/-! ### Violations -/

/-- Whether a token leads the line on which it starts. -/
def isLeading? (leaders : Leaders) (i : Nat) : Option Bool := do
  let x ← d.token? i
  return leaders.leader? x.first.line == some i

variable (s : Settings)

/-- The violation in front of a comma, if there is one. -/
def violationBefore? (exempt : List Nat) (i : Nat) : Option (Option Violation) :=
  match d.prev? i with
  | none => some none
  | some left => do
    let kind ← d.kind? left
    if kind == .comma || exempt.contains i then return none
    else if ← d.onSameLine? left i then
      if (← d.spaced? left i) != s.spaceBefore then return some ⟨i, .before, left⟩
      else return none
    else return none

/-- The violation behind a comma, if there is one. -/
def violationAfter? (leaders : Leaders) (i : Nat) : Option (Option Violation) :=
  match d.next? i with
  | none => some none
  | some right => do
    let kind ← d.kind? right
    if kind == .comma || (kind == .lineComment && !s.spaceAfter) then return none
    else if ← d.onSameLine? i right then
      if s.excuseLeading && (← isLeading? d leaders i) then return none
      else if (← d.spaced? i right) != s.spaceAfter then return some ⟨i, .after, right⟩
      else return none
    else return none

/-- The violations in a document. -/
def violations? (exempt : List Nat) (leaders : Leaders) : Option (List Violation) := do
  let found ← (d.ids.filter d.isComma).mapM fun i => do
    let before ← violationBefore? d s exempt i
    let after ← violationAfter? d s leaders i
    return before.toList ++ after.toList
  return found.flatten

/-- The warning about a violation, where the comma is found in the text again. -/
def warning? (v : Violation) : Option Diagnostic := do
  let comma ← d.token? v.comma
  let _ ← Text.slice? d.text comma.span
  v.diagnostic? d s

end

/-! ### Edits -/

/-- Makes edits, given in order, of a text of which a part has been copied, and gives the rest of the
    new text and the number of edits made. -/
def editFrom? (t : Text) : (copied : Nat) → List Edit → Option (Text × Nat)
  | copied, [] => do
    let stop ← width? t
    let span ← Span.between? copied stop
    let kept ← Text.slice? t span
    return (kept, 0)
  | copied, e :: edits =>
    if e.span.start < copied then editFrom? t copied edits
    else do
      let span ← Span.between? copied e.span.start
      let kept ← Text.slice? t span
      let (more, made) ← editFrom? t e.span.stop edits
      return (kept ++ e.replacement ++ more, made + 1)

/-- The text after some edits, and the number of edits made. -/
def edit? (t : Text) (edits : List Edit) : Option (Text × Nat) :=
  editFrom? t 0 (stableSort Edit.le edits)

/-! ### All of it -/

/-- All that is found out about a text on the way to its diagnostics and the mended text. -/
structure CheckUp where
  document : Document
  outline : Outline
  description : String
  exempt : List Nat
  leaders : Leaders
  violations : List Violation
  diagnostics : List Diagnostic
  mended : Text × Nat

/-- Checks and mends a text. -/
def checkUp? (s : Settings) (t : Text) : Option CheckUp := do
  let d ← document? t
  let o ← outline? d
  let description ← o.describe? d
  let exempt ← exempt? d o.lists
  let leaders ← leaders? d
  let violations ← violations? d s exempt leaders
  let warnings ← violations.mapM (warning? d s)
  let findings := o.errors.map Diagnostic.ofError ++ warnings
  let mended ← edit? t (findings.filterMap (·.edit))
  return ⟨d, o, description, exempt, leaders, violations, Diagnostic.sort findings, mended⟩

end CommaStyle.Strict
