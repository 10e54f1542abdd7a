import CommaStyle.Grammar.Reading

namespace CommaStyle.Grammar

open Reading

/-!
# The rules of the grammar

Each rule reads one construct. All rules up to `assignment` take the rule for the expressions
nested in their construct as an argument; `expression` ties the knot, one level of nesting at a
time, and gives up below `maxDepth` levels. Rules never fail: what does not fit is reported and
passed over.

    module     = (";" | sequence ";"?)*
    sequence   = expression ("," expression)*
    expression = binary ("=" expression)?
    binary     = unary (OPERATOR unary?)*
    unary      = OPERATOR* postfix
    postfix    = primary ("(" arguments ")" | "[" sequence "]" | "." NAME)*
    primary    = NAME | NUMBER | STRING | MARKUP | "(" arguments ")" | list | object

A rule that reads no expression, because there is none, gives `none`.
-/

/-- The number of expressions that may be nested in one another. -/
def maxDepth : Nat := 256

/-- A rule for expressions: the tokens of the expression, and the reading behind it. -/
abbrev Rule := Reading → Option Element × Reading

/-- Whether an operand can start with a kind. -/
def startsOperand : Kind → Bool
  | .name | .number | .string | .markup | .operator | .leftParen | .leftBracket | .leftBrace => true
  | _ => false

/-- Whether a kind is left to the rules around an expression when it starts none. -/
def endsExpression : Kind → Bool
  | .rightParen | .rightBracket | .rightBrace | .comma | .semicolon => true
  | _ => false

/-! ### Items between commas -/

/-- One step through items between commas: an item, which may fail, and the comma behind it. -/
def itemStep (close : Kind) (item : Reading → Bool × Reading) (r : Reading) : Turn :=
  if r.at? close || r.rest.isEmpty then .stop r
  else if r.at? .comma then .again (r.report .unexpectedComma).advance
  else
    match item r with
    | (false, s) => .again (s.advanceIfStuck r)
    | (true, s) => if s.at? .comma then .again s.advance else .stop s

/-- Items between commas up to a closing bracket. -/
def items (close : Kind) (item : Reading → Bool × Reading) (r : Reading) : Reading :=
  r.turns (itemStep close item)

/-- A rule as the rule for an item. -/
def Rule.item (rule : Rule) (r : Reading) : Bool × Reading :=
  let (found, s) := rule r
  (found.isSome, s)

/-- The arguments of a call, or what stands in parentheses, behind the opening one. -/
def arguments (nested : Rule) (r : Reading) : Reading :=
  (items .rightParen nested.item r).expect .rightParen .expectedParen

/-- One step through the expressions of a sequence behind the first. -/
def sequenceStep (nested : Rule) (r : Reading) : Turn :=
  if r.at? .comma then .again (nested r.advance).2 else .stop r

/-- Expressions with commas between them. -/
def sequence (nested : Rule) : Rule := fun r =>
  match nested r with
  | (none, s) => (none, s)
  | (some e, s) =>
    let t := s.turns (sequenceStep nested)
    (some (t.extentFrom e.first), t)

/-! ### Literals -/

/-- One step through the entries of the list literal in a place. -/
def listStep (nested : Rule) (slot : Nat) (r : Reading) : Turn :=
  if r.at? .rightBracket || r.rest.isEmpty then .stop r
  else if r.at? .comma then .again (r.addEntry slot (.hole r.position)).advance
  else
    match nested r with
    | (none, s) => .again (s.advanceIfStuck r)
    | (some e, s) =>
      let t := s.addEntry slot (.element e)
      if t.at? .comma then .again t.advance else .stop t

/-- A list literal. -/
def listLiteral (nested : Rule) : Rule := fun r =>
  let s := r.openList.turns (listStep nested r.lists.length)
  let t := s.expect .rightBracket .expectedBracket
  (some (t.extentFrom r.position), t)

/-- A property of an object literal: a spread expression, or a key with or without a value. -/
def property (nested : Rule) (r : Reading) : Bool × Reading :=
  match r.peek? with
  | some .operator => nested.item r
  | some .name | some .string | some .number =>
    let s := r.advance
    (true, if s.at? .colon then (nested s.advance).2 else s)
  | _ => (false, r.report .expectedProperty)

/-- An object literal. -/
def objectLiteral (nested : Rule) : Rule := fun r =>
  let s := (items .rightBrace (property nested) r.advance).expect .rightBrace .expectedBrace
  (some (s.extentFrom r.position), s)

/-! ### Expressions from the inside out -/

/-- A name, a literal, or something in parentheses. -/
def primary (nested : Rule) : Rule := fun r =>
  match r.peek? with
  | some .name | some .number | some .string | some .markup =>
    (some (r.advance.extentFrom r.position), r.advance)
  | some .leftParen =>
    let s := arguments nested r.advance
    (some (s.extentFrom r.position), s)
  | some .leftBracket => listLiteral nested r
  | some .leftBrace => objectLiteral nested r
  | some k =>
    let s := r.report .expectedExpression
    (none, if endsExpression k then s else s.advance)
  | none => (none, r.report .expectedExpression)

/-- One step through calls, indices and member accesses. -/
def postfixStep (nested : Rule) (r : Reading) : Turn :=
  match r.peek? with
  | some .leftParen => .again (arguments nested r.advance)
  | some .leftBracket =>
    .again ((sequence nested r.advance).2.expect .rightBracket .expectedBracket)
  | some .dot => .again (r.advance.expect .name .expectedPropertyName)
  | _ => .stop r

/-- A primary expression with the calls, indices and member accesses behind it. -/
def postfixed (nested : Rule) : Rule := fun r =>
  match primary nested r with
  | (none, s) => (none, s)
  | (some e, s) =>
    let t := s.turns (postfixStep nested)
    (some (t.extentFrom e.first), t)

/-- An expression behind any number of operators. -/
def unary (nested : Rule) : Rule := fun r =>
  if r.at? .operator then
    let (_, s) := postfixed nested r.skipOperators
    (some (s.extentFrom r.position), s)
  else postfixed nested r

/-- One step through the operands of a chain of operators: an operator, and the operand behind it
    unless nothing there can start one. -/
def binaryStep (nested : Rule) (r : Reading) : Turn :=
  if r.at? .operator then
    let s := r.advance
    .again (if s.peek?.any startsOperand then (unary nested s).2 else s)
  else .stop r

/-- Operands with operators between them. -/
def binary (nested : Rule) : Rule := fun r =>
  match unary nested r with
  | (none, s) => (none, s)
  | (some e, s) =>
    let t := s.turns (binaryStep nested)
    (some (t.extentFrom e.first), t)

/-- An expression that may be assigned to. The list literals of an assignment's target are
    patterns. -/
def assignment (nested : Rule) : Rule := fun r =>
  match binary nested r with
  | (none, s) => (none, s)
  | (some target, s) =>
    let t := if s.at? .assign then (nested (s.retag target.first).advance).2 else s
    (some (t.extentFrom target.first), t)

/-! ### Nesting -/

/-- What stands in for an expression that is nested too deeply. -/
def tooDeep : Rule := fun r => (none, (r.report .nestingTooDeep).skipNested)

/-- An expression with at most so many expressions nested in one another, itself included. -/
def expression : (levels : Nat) → Rule
  | 0 => tooDeep
  | levels + 1 => assignment (expression levels)

/-- One step through the statements of a module. -/
def moduleStep (r : Reading) : Turn :=
  if r.rest.isEmpty then .stop r
  else if r.at? .semicolon then .again r.advance
  else
    let (_, s) := sequence (expression maxDepth) r
    .again ((s.accept .semicolon).advanceIfStuck r)

/-- Reads the kinds of a whole program. -/
def readModule (kinds : List Kind) : Reading := (ofKinds kinds).turns moduleStep

end CommaStyle.Grammar
