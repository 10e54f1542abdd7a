import CommaStyle.Diagnostic

namespace CommaStyle

/-!
# Readings

The grammar sees only the kinds of the tokens that take part in it, and names a token by its
position among those. A `Reading` is how far it has got in them and what it has found: the list
literals, in the order of their opening brackets, and the faults, in the order in which they were
met.

* `Reading.advance`, `Reading.accept`, `Reading.expect` and `Reading.skipNested` move forward;
* `Reading.openList`, `Reading.addEntry` and `Reading.retag` note what a list literal holds;
* `Reading.turns` repeats a step for as long as it asks for more.
-/

/-- The first and the last token of an expression. -/
structure Element where
  first : Nat
  last : Nat
deriving DecidableEq, Repr

/-- What a list literal is used for: its value, or as the target of an assignment. -/
inductive ListUse where
  | array
  | pattern
deriving DecidableEq, Repr

namespace Grammar

/-- An entry of a list literal: an expression, or a hole in front of a comma. -/
inductive Entry where
  | element (extent : Element)
  | hole (comma : Nat)
deriving DecidableEq, Repr

/-- A list literal: its use, its opening bracket and its entries. -/
structure Node where
  use : ListUse
  opening : Nat
  entries : List Entry
deriving DecidableEq, Repr

/-- A fault and the position of the token in front of which it was met. -/
structure Mark where
  fault : Fault
  position : Nat
deriving DecidableEq, Repr

/-- How far the grammar has got: the number of kinds behind it, those ahead of it, and the list
    literals and faults found so far. -/
structure Reading where
  position : Nat
  rest : List Kind
  lists : List Node
  marks : List Mark
deriving DecidableEq, Repr

/-- What a repeated step asks for. -/
inductive Turn where
  /-- Take the step again. -/
  | again (r : Reading)
  /-- Stop here. -/
  | stop (r : Reading)
deriving DecidableEq, Repr

namespace Reading

/-- The reading at the start of some kinds. -/
def ofKinds (kinds : List Kind) : Reading := ⟨0, kinds, [], []⟩

/-! ### Moving forward -/

/-- The kind ahead. -/
def peek? (r : Reading) : Option Kind := r.rest.head?

/-- Whether a kind is ahead. -/
def at? (r : Reading) (k : Kind) : Bool := r.peek? == some k

/-- Passes over the token ahead. -/
def advance (r : Reading) : Reading :=
  match r.rest with
  | [] => r
  | _ :: rest => { r with position := r.position + 1, rest := rest }

/-- Passes over the token ahead if it is of a kind, and does nothing otherwise. -/
def accept (r : Reading) (k : Kind) : Reading := if r.at? k then r.advance else r

/-- Notes a fault at the token ahead. -/
def report (r : Reading) (fault : Fault) : Reading :=
  { r with marks := r.marks ++ [⟨fault, r.position⟩] }

/-- Passes over the token ahead, which must be of a kind. -/
def expect (r : Reading) (k : Kind) (fault : Fault) : Reading :=
  if r.at? k then r.advance else r.report fault

/-- Passes over the token ahead unless something was read since an earlier reading. -/
def advanceIfStuck (r since : Reading) : Reading :=
  if r.position = since.position then r.advance else r

/-- Passes over all operators ahead. -/
def skipOperators (r : Reading) : Reading :=
  let operators := r.rest.takeWhile (· == .operator)
  { r with position := r.position + operators.length, rest := r.rest.dropWhile (· == .operator) }

/-- The tokens that belong to an expression that is not read: up to a bracket that closes none of
    those opened among them, or a comma or semicolon outside of these. -/
def nestedLength : (opened : Nat) → List Kind → Nat
  | _, [] => 0
  | opened, k :: rest =>
    match k with
    | .leftParen | .leftBracket | .leftBrace => nestedLength (opened + 1) rest + 1
    | .rightParen | .rightBracket | .rightBrace =>
      match opened with
      | 0 => 0
      | opened + 1 => nestedLength opened rest + 1
    | .comma | .semicolon =>
      match opened with
      | 0 => 0
      | opened + 1 => nestedLength (opened + 1) rest + 1
    | _ => nestedLength opened rest + 1

/-- Passes over an expression without reading it. -/
def skipNested (r : Reading) : Reading :=
  let length := nestedLength 0 r.rest
  { r with position := r.position + length, rest := r.rest.drop length }

/-- The tokens read since a position. -/
def extentFrom (r : Reading) (first : Nat) : Element := ⟨first, r.position - 1⟩

/-! ### List literals -/

/-- Passes over the opening bracket of a list literal and gives the literal its place among the
    others. -/
def openList (r : Reading) : Reading :=
  { r.advance with lists := r.lists ++ [⟨.array, r.position, []⟩] }

/-- Adds an entry to the list literal in a place. -/
def addEntry (r : Reading) (slot : Nat) (entry : Entry) : Reading :=
  { r with lists := r.lists.modify slot fun n => { n with entries := n.entries ++ [entry] } }

/-- Marks the nodes in front as patterns, up to the first that opens before a position. -/
def retagFront (first : Nat) : List Node → List Node
  | [] => []
  | n :: nodes =>
    if first ≤ n.opening then { n with use := .pattern } :: retagFront first nodes
    else n :: nodes

/-- Marks the list literals opened since a position as patterns. They are the latest ones, so the
    search runs backwards and ends at the first that is older. -/
def retag (r : Reading) (first : Nat) : Reading :=
  { r with lists := (retagFront first r.lists.reverse).reverse }

/-! ### Repeated steps -/

/-- Repeats a step until it stops, at most once more often than `bound` has members. -/
def turnsWithin (step : Reading → Turn) : (bound : List Kind) → Reading → Reading
  | [], r =>
    match step r with
    | .again r | .stop r => r
  | _ :: bound, r =>
    match step r with
    | .again r => turnsWithin step bound r
    | .stop r => r

/-- Repeats a step until it stops. A step that asks for another turn has read a token, so the
    tokens ahead bound the number of turns. -/
def turns (step : Reading → Turn) (r : Reading) : Reading := turnsWithin step r.rest r

end Reading

end Grammar

end CommaStyle
