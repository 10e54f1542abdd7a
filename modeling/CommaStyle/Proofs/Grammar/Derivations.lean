import CommaStyle.Grammar.Reading
import Mathlib.Data.List.Basic

namespace CommaStyle.Grammar

/-!
# Derivations

The grammar by itself, apart from the rules that read it: what its phrases are made of, and the
derivations of a program from them.

* `Production` lists what each phrase may be made of. Repetitions are phrases of their own, and a
  phrase that is an expression, or starts one, says whether it starts with an operator;
* `Derivation` is a derivation of some parts, one behind the other, and `Derivation.kinds` what it
  derives;
* `Derivation.depth` counts the expressions that are nested in one another;
* `Derivation.literals` finds the list literals with their entries, and `Derivation.targets` the
  targets of assignments.
-/

/-- The phrases of the grammar. -/
inductive Phrase where
  /-- Statements. If `separated`, semicolons stand between them. -/
  | program (separated : Bool)
  | sequence
  /-- What follows the first expression of a sequence. -/
  | more
  | expression (signed : Bool)
  /-- The left side of an assignment. -/
  | target (signed : Bool)
  | binary (signed : Bool)
  /-- What follows the first operand of a chain of operators. -/
  | operands
  | unary (signed : Bool)
  | postfixed
  /-- What follows the primary expression: calls, indices and member accesses. -/
  | suffixes
  | primary
  | arguments
  | list
  | entries
  | element
  | hole
  | properties
  | property
deriving DecidableEq, Repr

/-- A part of a phrase: a token of a kind, or another phrase. -/
inductive Part where
  | token (k : Kind)
  | phrase (p : Phrase)
deriving DecidableEq, Repr

instance : Coe Kind Part := ⟨.token⟩
instance : Coe Phrase Part := ⟨.phrase⟩

/-- Whether a token is a primary expression by itself. -/
def isAtom : Kind → Bool
  | .name | .number | .string | .markup => true
  | _ => false

/-- Whether a token can be the key of a property. -/
def isKey : Kind → Bool
  | .name | .number | .string => true
  | _ => false

/-- What a phrase may be made of. -/
inductive Production : Phrase → List Part → Prop where
  | programEnd (b : Bool) : Production (.program b) []
  | programEmpty (b : Bool) : Production (.program b) [Kind.semicolon, Phrase.program b]
  | programStatement (b : Bool) :
    Production (.program b) [Phrase.sequence, Kind.semicolon, Phrase.program b]
  | programLast (b : Bool) : Production (.program b) [Phrase.sequence]
  | programAdjacent : Production (.program false) [Phrase.sequence, Phrase.program false]
  | sequence (b : Bool) : Production .sequence [Phrase.expression b, Phrase.more]
  | moreEnd : Production .more []
  | moreNext (b : Bool) : Production .more [Kind.comma, Phrase.expression b, Phrase.more]
  | value (b : Bool) : Production (.expression b) [Phrase.binary b]
  | assignment (b c : Bool) :
    Production (.expression b) [Phrase.target b, Kind.assign, Phrase.expression c]
  | target (b : Bool) : Production (.target b) [Phrase.binary b]
  | binary (b : Bool) : Production (.binary b) [Phrase.unary b, Phrase.operands]
  | operandsEnd : Production .operands []
  | operandsTrailing : Production .operands [Kind.operator]
  | operandsNext (b : Bool) :
    Production .operands [Kind.operator, Phrase.unary b, Phrase.operands]
  | unsigned : Production (.unary false) [Phrase.postfixed]
  | signed (b : Bool) : Production (.unary true) [Kind.operator, Phrase.unary b]
  | postfixed : Production .postfixed [Phrase.primary, Phrase.suffixes]
  | suffixesEnd : Production .suffixes []
  | call : Production .suffixes
      [Kind.leftParen, Phrase.arguments, Kind.rightParen, Phrase.suffixes]
  | index : Production .suffixes
      [Kind.leftBracket, Phrase.sequence, Kind.rightBracket, Phrase.suffixes]
  | member : Production .suffixes [Kind.dot, Kind.name, Phrase.suffixes]
  | atom (k : Kind) (h : isAtom k = true) : Production .primary [k]
  | parens : Production .primary [Kind.leftParen, Phrase.arguments, Kind.rightParen]
  | literal : Production .primary [Phrase.list]
  | object : Production .primary [Kind.leftBrace, Phrase.properties, Kind.rightBrace]
  | argumentsEnd : Production .arguments []
  | argumentsLast (b : Bool) : Production .arguments [Phrase.expression b]
  | argumentsNext (b : Bool) :
    Production .arguments [Phrase.expression b, Kind.comma, Phrase.arguments]
  | list : Production .list [Kind.leftBracket, Phrase.entries, Kind.rightBracket]
  | entriesEnd : Production .entries []
  | entriesLast : Production .entries [Phrase.element]
  | entriesHole : Production .entries [Phrase.hole, Phrase.entries]
  | entriesNext : Production .entries [Phrase.element, Kind.comma, Phrase.entries]
  | element (b : Bool) : Production .element [Phrase.expression b]
  | hole : Production .hole [Kind.comma]
  | propertiesEnd : Production .properties []
  | propertiesLast : Production .properties [Phrase.property]
  | propertiesNext : Production .properties [Phrase.property, Kind.comma, Phrase.properties]
  | spread : Production .property [Phrase.expression true]
  | key (k : Kind) (h : isKey k = true) : Production .property [k]
  | pair (k : Kind) (h : isKey k = true) (b : Bool) :
    Production .property [k, Kind.colon, Phrase.expression b]

/-- A derivation of some parts, one behind the other. -/
inductive Derivation : List Part → Type where
  | nil : Derivation []
  | token (k : Kind) {parts : List Part} (rest : Derivation parts) : Derivation (k :: parts)
  | phrase {p : Phrase} {body parts : List Part} (h : Production p body) (inner : Derivation body)
    (rest : Derivation parts) : Derivation (p :: parts)

namespace Phrase

/-- The number of expressions that a phrase is by itself. -/
def nesting : Phrase → Nat
  | expression _ => 1
  | _ => 0

/-- What the list literals in a phrase are used for, where those around it are used as `use` says. -/
def useWithin : Phrase → (use : ListUse) → ListUse
  | target _, _ => .pattern
  | _, use => use

/-- The list literal that a phrase is by itself. -/
def literal (n : Node) : Phrase → List Node
  | list => [n]
  | _ => []

/-- The entry that a phrase from a position on is by itself. -/
def entry (start length : Nat) : Phrase → List Entry
  | element => [.element ⟨start, start + length - 1⟩]
  | hole => [.hole start]
  | _ => []

/-- The target that a phrase from a position on is by itself. -/
def targetFrom (start length : Nat) : Phrase → List Element
  | target _ => [⟨start, start + length - 1⟩]
  | _ => []

end Phrase

namespace Derivation

/-- The kinds of the tokens that are derived. -/
def kinds {parts : List Part} : Derivation parts → List Kind
  | nil => []
  | token k rest => k :: rest.kinds
  | phrase _ inner rest => inner.kinds ++ rest.kinds

/-- How many expressions are nested in one another. -/
def depth {parts : List Part} : Derivation parts → Nat
  | nil => 0
  | token _ rest => rest.depth
  | @phrase p _ _ _ inner rest => max (inner.depth + p.nesting) rest.depth

/-- The entries of a list literal among some parts that start at a position. -/
def entries {parts : List Part} (start : Nat) : Derivation parts → List Entry
  | nil => []
  | token _ rest => rest.entries (start + 1)
  | @phrase p _ _ _ inner rest =>
    p.entry start inner.kinds.length ++
      ((if p = .entries then inner.entries start else []) ++
        rest.entries (start + inner.kinds.length))

/-- The list literals in some parts that start at a position, in the order of their opening brackets.
    They are used as `use` says, but patterns in the target of an assignment. -/
def literals {parts : List Part} (use : ListUse) (start : Nat) : Derivation parts → List Node
  | nil => []
  | token _ rest => rest.literals use (start + 1)
  | @phrase p _ _ _ inner rest =>
    p.literal ⟨use, start, inner.entries start⟩ ++
      (inner.literals (p.useWithin use) start ++ rest.literals use (start + inner.kinds.length))

/-- The targets of assignments in some parts that start at a position, by their first and last
    tokens. -/
def targets {parts : List Part} (start : Nat) : Derivation parts → List Element
  | nil => []
  | token _ rest => rest.targets (start + 1)
  | @phrase p _ _ _ inner rest =>
    p.targetFrom start inner.kinds.length ++
      (inner.targets start ++ rest.targets (start + inner.kinds.length))

/-- A derivation of a single phrase. -/
abbrev single {p : Phrase} {body : List Part} (h : Production p body) (inner : Derivation body) :
    Derivation [p] := phrase h inner nil

attribute [simp] kinds depth entries literals targets

/-! ### Induction on phrases -/

/-- Whether something holds of every phrase among the parts. -/
def Each (motive : ∀ {p : Phrase} {body : List Part}, Production p body → Derivation body → Prop)
    {parts : List Part} : Derivation parts → Prop
  | nil => True
  | token _ rest => rest.Each motive
  | phrase h inner rest => motive h inner ∧ rest.Each motive

/-- What holds of a phrase whenever it holds of the phrases that it is made of holds of all
    phrases. -/
theorem induct {motive : ∀ {p : Phrase} {body : List Part}, Production p body → Derivation body → Prop}
    (step : ∀ {p : Phrase} {body : List Part} (h : Production p body) (d : Derivation body),
      d.Each motive → motive h d)
    {p : Phrase} {body : List Part} (h : Production p body) (d : Derivation body) : motive h d := by
  have heach : ∀ {parts : List Part} (d : Derivation parts), d.Each motive := by
    intro parts d
    induction d with
    | nil => trivial
    | token _ _ ih => exact ih
    | phrase h inner _ ihi ihr => exact ⟨step h inner ihi, ihr⟩
  exact step h d (heach d)

/-! ### First tokens -/

end Derivation

/-- Whether a primary expression can start with a token. -/
def startsPrimary : Kind → Bool
  | .name | .number | .string | .markup | .leftParen | .leftBracket | .leftBrace => true
  | _ => false

/-- The tokens that a phrase can start with, for phrases that are never empty. -/
def Phrase.first? : Phrase → Option (Kind → Bool)
  | expression b | target b | binary b | unary b =>
    some fun k => if b then k == .operator else startsPrimary k
  | sequence | element => some fun k => k == .operator || startsPrimary k
  | postfixed | primary => some startsPrimary
  | list => some (· == .leftBracket)
  | hole => some (· == .comma)
  | property => some fun k => k == .operator || isKey k
  | _ => none

/-- A production starts with a token that its phrase may start with, or with a phrase that starts
    so. -/
theorem Production.first {p : Phrase} {body : List Part} (h : Production p body)
    {first : Kind → Bool} (hp : p.first? = some first) :
    (∃ k parts, body = .token k :: parts ∧ first k = true) ∨
      ∃ q parts first', body = .phrase q :: parts ∧ q.first? = some first' ∧
        ∀ k, first' k = true → first k = true := by
  cases h <;> simp only [Phrase.first?, Option.some.injEq, reduceCtorEq] at hp <;> subst hp
  case atom k h => exact .inl ⟨k, [], rfl, by cases k <;> simp_all [isAtom, startsPrimary]⟩
  case key k h | pair k h b => exact .inl ⟨k, _, rfl, by simp [h]⟩
  case sequence b | element b => exact .inr ⟨_, _, _, rfl, rfl, by cases b <;> simp_all⟩
  all_goals first
    | exact .inl ⟨_, _, rfl, rfl⟩
    | exact .inr ⟨_, _, _, rfl, rfl, by simp_all [startsPrimary]⟩

namespace Derivation

/-- What is derived from a phrase that is never empty starts with one of its first tokens. -/
theorem exists_kinds_eq_cons {body : List Part} (d : Derivation body) {p : Phrase}
    (h : Production p body) {first : Kind → Bool} (hp : p.first? = some first) :
    ∃ k w, d.kinds = k :: w ∧ first k = true := by
  induction d generalizing p first with
  | nil => rcases h.first hp with ⟨_, _, hbody, _⟩ | ⟨_, _, _, hbody, _⟩ <;> simp at hbody
  | token k rest =>
    rcases h.first hp with ⟨k', parts, hbody, hk⟩ | ⟨_, _, _, hbody, _⟩
    · obtain ⟨rfl, rfl⟩ : k = k' ∧ _ = parts := by simpa using hbody
      exact ⟨k, rest.kinds, rfl, hk⟩
    · simp at hbody
  -- A first part that is a phrase is never empty either, and starts as the whole may start.
  | @phrase q _ _ hq inner rest ih =>
    rcases h.first hp with ⟨_, _, hbody, _⟩ | ⟨q', parts, first', hbody, hq', himp⟩
    · simp at hbody
    · obtain ⟨rfl, rfl⟩ : q = q' ∧ _ = parts := by simpa using hbody
      obtain ⟨k, w, hinner, hk⟩ := ih hq hq'
      exact ⟨k, w ++ rest.kinds, by simp [hinner], himp k hk⟩

end Derivation

end CommaStyle.Grammar
