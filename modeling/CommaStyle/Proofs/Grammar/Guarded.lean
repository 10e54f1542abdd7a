import CommaStyle.Proofs.Grammar.Progress
import CommaStyle.Proofs.Significance

namespace CommaStyle.Grammar

open Reading

/-!
# Guarded rules

The rules of the grammar once more, with a counter of the expressions that they are inside of in the
place of the levels that are left, and with a guard wherever something could go wrong. A guarded rule
fails

* if a turn of a repeated step has passed over no token, except for one that stops without having
  done anything (`Guarded.loop`);
* if more than `maxDepth` expressions are open (`Guarded.enter`), or one is closed that was not
  opened (`Guarded.leave`);
* if it ends inside of more or fewer expressions than it started (`Guarded.keepingDepth`);
* if an entry belongs to no list literal (`Guarded.addEntry`).

Calls of `Guarded.expression` are counted, too, so that it ends even if the counter should be wrong.
`Guarded.Guards` says that a guarded rule never fails and does what a rule does, and
`guards_expression` and `guards_program` say it of expressions and programs.
-/

/-- How far the guarded rules have got, and how many expressions they are inside of. -/
structure Guarded.State where
  reading : Reading
  depth : Nat

/-- A guarded rule. -/
abbrev Guarded := StateT Guarded.State Option

namespace Guarded

/-! ### Guards -/

/-- Looks at the reading. -/
def look {α : Type} (f : Reading → α) : Guarded α := do return f (← get).reading

/-- Changes the reading. -/
def move (f : Reading → Reading) : Guarded Unit := modify fun s => { s with reading := f s.reading }

/-- A difference that must not be negative. -/
def minus (a b : Nat) : Guarded Nat := if b ≤ a then return a - b else failure

/-- Opens an expression, of which there may be `maxDepth` at once. -/
def enter : Guarded Unit := do
  let s ← get
  if s.depth < maxDepth then set { s with depth := s.depth + 1 } else failure

/-- Closes an expression. -/
def leave : Guarded Unit := do
  let s ← get
  let depth ← minus s.depth 1
  set { s with depth := depth }

/-- A rule that must end inside of as many expressions as it started. -/
def keepingDepth {α : Type} (rule : Guarded α) : Guarded α := do
  let before ← get
  let a ← rule
  let after ← get
  if after.depth = before.depth then return a else failure

/-- Adds an entry to the list literal in a place, which must be there. -/
def addEntry (slot : Nat) (entry : Entry) : Guarded Unit := do
  if slot < (← get).reading.lists.length then move (·.addEntry slot entry) else failure

/-- Repeats a turn from a state on, with something that is handed from turn to turn. -/
def loopFrom {σ : Type} (turn : σ → Guarded (Option σ)) (a : σ) (s : State) :
    Option (Unit × State) :=
  match (turn a).run s with
  | none => none
  | some (some b, u) =>
    if u.reading.rest.length < s.reading.rest.length then loopFrom turn b u else none
  | some (none, u) =>
    if u.reading = s.reading ∨ u.reading.rest.length < s.reading.rest.length then some ((), u)
    else none
termination_by s.reading.rest.length

/-- Repeats a turn until it hands on nothing. Every turn must pass over a token, except for one that
    does nothing and hands on nothing. -/
def loop {σ : Type} (turn : σ → Guarded (Option σ)) (a : σ) : Guarded Unit := loopFrom turn a

/-! ### Rules -/

/-- One turn through tokens that are passed over, inside of some brackets opened among them. -/
def skipTurn (opened : Nat) : Guarded (Option Nat) := do
  match ← look (·.peek?) with
  | none => return none
  | some .leftParen | some .leftBracket | some .leftBrace =>
    move (·.advance)
    return some (opened + 1)
  | some .rightParen | some .rightBracket | some .rightBrace =>
    if opened = 0 then return none
    else
      move (·.advance)
      return some (← minus opened 1)
  | some .comma | some .semicolon =>
    if opened = 0 then return none
    else
      move (·.advance)
      return some opened
  | _ =>
    move (·.advance)
    return some opened

/-- Passes over an expression without reading it. -/
def skipNested : Guarded Unit := keepingDepth (loop skipTurn 0)

section

variable (expr : Guarded (Option Element))

/-- One turn through items between commas. -/
def itemTurn (close : Kind) (item : Guarded Bool) : Guarded (Option Unit) := do
  if ← look fun r => r.at? close || r.rest.isEmpty then return none
  else if ← look (·.at? .comma) then
    move (·.report .unexpectedComma)
    move (·.advance)
    return some ()
  else
    let before ← look id
    if ← item then
      if ← look (·.at? .comma) then
        move (·.advance)
        return some ()
      else return none
    else
      move (·.advanceIfStuck before)
      return some ()

/-- Items between commas up to a closing bracket. -/
def items (close : Kind) (item : Guarded Bool) : Guarded Unit :=
  keepingDepth (loop (fun _ => itemTurn close item) ())

/-- An expression as an item. -/
def item : Guarded Bool := do return (← expr).isSome

/-- What stands in parentheses, behind the opening one. -/
def arguments : Guarded Unit := do
  items .rightParen (item expr)
  move (·.expect .rightParen .expectedParen)

/-- One turn through the expressions of a sequence behind the first. -/
def sequenceTurn : Guarded (Option Unit) := do
  if ← look (·.at? .comma) then
    move (·.advance)
    let _ ← expr
    return some ()
  else return none

/-- Expressions with commas between them. -/
def sequence : Guarded (Option Element) := keepingDepth do
  match ← expr with
  | none => return none
  | some e =>
    loop (fun _ => sequenceTurn expr) ()
    return some (← look (·.extentFrom e.first))

/-- One turn through the entries of the list literal in a place. -/
def listTurn (slot : Nat) : Guarded (Option Unit) := do
  if ← look fun r => r.at? .rightBracket || r.rest.isEmpty then return none
  else if ← look (·.at? .comma) then
    addEntry slot (.hole (← look (·.position)))
    move (·.advance)
    return some ()
  else
    let before ← look id
    match ← expr with
    | none =>
      move (·.advanceIfStuck before)
      return some ()
    | some e =>
      addEntry slot (.element e)
      if ← look (·.at? .comma) then
        move (·.advance)
        return some ()
      else return none

/-- A list literal. -/
def listLiteral : Guarded (Option Element) := keepingDepth do
  let first ← look (·.position)
  let slot ← look (·.lists.length)
  move (·.openList)
  loop (fun _ => listTurn expr slot) ()
  move (·.expect .rightBracket .expectedBracket)
  return some (← look (·.extentFrom first))

/-- A property of an object literal. -/
def property : Guarded Bool := keepingDepth do
  match ← look (·.peek?) with
  | some .operator => item expr
  | some .name | some .string | some .number =>
    move (·.advance)
    if ← look (·.at? .colon) then
      move (·.advance)
      let _ ← expr
      return true
    else return true
  | _ =>
    move (·.report .expectedProperty)
    return false

/-- An object literal. -/
def objectLiteral : Guarded (Option Element) := keepingDepth do
  let first ← look (·.position)
  move (·.advance)
  items .rightBrace (property expr)
  move (·.expect .rightBrace .expectedBrace)
  return some (← look (·.extentFrom first))

/-- A name, a literal, or something in parentheses. -/
def primary : Guarded (Option Element) := keepingDepth do
  let first ← look (·.position)
  match ← look (·.peek?) with
  | some .name | some .number | some .string | some .markup =>
    move (·.advance)
    return some (← look (·.extentFrom first))
  | some .leftParen =>
    move (·.advance)
    arguments expr
    return some (← look (·.extentFrom first))
  | some .leftBracket => listLiteral expr
  | some .leftBrace => objectLiteral expr
  | some k =>
    move (·.report .expectedExpression)
    if endsExpression k then return none
    else
      move (·.advance)
      return none
  | none =>
    move (·.report .expectedExpression)
    return none

/-- One turn through calls, indices and member accesses. -/
def postfixTurn : Guarded (Option Unit) := do
  match ← look (·.peek?) with
  | some .leftParen =>
    move (·.advance)
    arguments expr
    return some ()
  | some .leftBracket =>
    move (·.advance)
    let _ ← sequence expr
    move (·.expect .rightBracket .expectedBracket)
    return some ()
  | some .dot =>
    move (·.advance)
    move (·.expect .name .expectedPropertyName)
    return some ()
  | _ => return none

/-- A primary expression with the calls, indices and member accesses behind it. -/
def postfixed : Guarded (Option Element) := keepingDepth do
  match ← primary expr with
  | none => return none
  | some e =>
    loop (fun _ => postfixTurn expr) ()
    return some (← look (·.extentFrom e.first))

/-- One turn through operators. -/
def operatorTurn : Guarded (Option Unit) := do
  if ← look (·.at? .operator) then
    move (·.advance)
    return some ()
  else return none

/-- An expression behind any number of operators. -/
def unary : Guarded (Option Element) := keepingDepth do
  let first ← look (·.position)
  if ← look (·.at? .operator) then
    loop (fun _ => operatorTurn) ()
    let _ ← postfixed expr
    return some (← look (·.extentFrom first))
  else postfixed expr

/-- One turn through the operands of a chain of operators. -/
def binaryTurn : Guarded (Option Unit) := do
  if ← look (·.at? .operator) then
    move (·.advance)
    if ← look (·.peek?.any startsOperand) then
      let _ ← unary expr
      return some ()
    else return some ()
  else return none

/-- Operands with operators between them. -/
def binary : Guarded (Option Element) := keepingDepth do
  match ← unary expr with
  | none => return none
  | some e =>
    loop (fun _ => binaryTurn expr) ()
    return some (← look (·.extentFrom e.first))

/-- An expression that may be assigned to. -/
def assignment : Guarded (Option Element) := keepingDepth do
  match ← binary expr with
  | none => return none
  | some target =>
    if ← look (·.at? .assign) then
      move (·.retag target.first)
      move (·.advance)
      let _ ← expr
      return some (← look (·.extentFrom target.first))
    else return some (← look (·.extentFrom target.first))

/-- Opens an expression, unless that would be one too many. -/
def nested (rule : Guarded (Option Element)) : Guarded (Option Element) := keepingDepth do
  if maxDepth ≤ (← get).depth then
    move (·.report .nestingTooDeep)
    skipNested
    return none
  else
    enter
    let found ← rule
    leave
    return found

end

/-- An expression, with a number of calls of it that must not be exceeded. -/
def expression : (calls : Nat) → Guarded (Option Element)
  | 0 => failure
  | calls + 1 => nested (assignment (expression calls))

/-- One turn through the statements of a program. -/
def statementTurn : Guarded (Option Unit) := do
  if ← look (·.rest.isEmpty) then return none
  else if ← look (·.at? .semicolon) then
    move (·.advance)
    return some ()
  else
    let before ← look id
    let _ ← sequence (expression (maxDepth + 1))
    move (·.accept .semicolon)
    move (·.advanceIfStuck before)
    return some ()

/-- A whole program. -/
def program : Guarded Unit := keepingDepth (loop (fun _ => statementTurn) ())

/-! ### Guarded rules do not fail -/

/-- Whether a guarded rule, inside of a number of expressions, does what a rule does. -/
def Guards {α : Type} (g : Guarded α) (depth : Nat) (rule : Reading → α × Reading) : Prop :=
  ∀ r, g.run ⟨r, depth⟩ = some ((rule r).1, ⟨(rule r).2, depth⟩)

@[simp] theorem run_look {α : Type} (f : Reading → α) (s : State) :
    (look f).run s = some (f s.reading, s) := rfl

@[simp] theorem run_move (f : Reading → Reading) (s : State) :
    (move f).run s = some ((), ⟨f s.reading, s.depth⟩) := rfl

/-- A guarded rule that does what a rule does ends inside of as many expressions as it started. -/
theorem Guards.keepingDepth {α : Type} {g : Guarded α} {depth : Nat} {rule : Reading → α × Reading}
    (h : Guards g depth rule) : Guards (keepingDepth g) depth rule := by
  intro r
  simp [Guarded.keepingDepth, h r]

/-! ### Repeated turns -/

section

variable {σ : Type} {turn : σ → Guarded (Option σ)} {a b : σ} {s u : State}

/-- A turn that hands on something and passes over a token is followed by the others. -/
theorem run_loop_again (h : (turn a).run s = some (some b, u))
    (hlt : u.reading.rest.length < s.reading.rest.length) :
    (loop turn a).run s = (loop turn b).run u := by
  show loopFrom turn a s = loopFrom turn b u
  rw [loopFrom, h]
  exact if_pos hlt

/-- A turn that hands on nothing is the last. -/
theorem run_loop_stop (h : (turn a).run s = some (none, u))
    (hle : u.reading = s.reading ∨ u.reading.rest.length < s.reading.rest.length) :
    (loop turn a).run s = some ((), u) := by
  show loopFrom turn a s = some ((), u)
  rw [loopFrom, h]
  exact if_pos hle

end

/-- What a guarded turn gives where a step gives a turn. -/
def outcome (depth : Nat) : Turn → Option Unit × State
  | .again s => (some (), ⟨s, depth⟩)
  | .stop s => (none, ⟨s, depth⟩)

/-- Guarded turns repeat what a step repeats, as long as something holds that the step keeps. -/
theorem run_loop {turn : Guarded (Option Unit)} {step : Reading → Turn} {depth : Nat}
    {P : Reading → Prop} (hstep : ∀ r, (step r).Shortens r)
    (hturn : ∀ r, P r → turn.run ⟨r, depth⟩ = some (outcome depth (step r)))
    (hkeep : ∀ r, P r → P (step r).reading) {r : Reading} (hr : P r) :
    (loop (fun _ => turn) ()).run ⟨r, depth⟩ = some ((), ⟨r.turns step, depth⟩) := by
  induction hn : r.rest.length using Nat.strongRecOn generalizing r with
  | _ n ih =>
    have hturn' := hturn r hr
    have hshort := hstep r
    have hkeep' := hkeep r hr
    cases hs : step r with
    | again s =>
      rw [hs] at hturn' hshort hkeep'
      have hlt : s.rest.length < r.rest.length := hshort
      rw [turns_of_again hstep hs, run_loop_again hturn' hlt]
      exact ih _ (hn ▸ hlt) hkeep' rfl
    | stop s =>
      rw [hs] at hturn' hshort
      rw [turns_of_stop hs]
      exact run_loop_stop hturn' hshort

/-- Guarded turns that need nothing to hold. -/
theorem guards_loop {turn : Guarded (Option Unit)} {step : Reading → Turn} {depth : Nat}
    (hstep : ∀ r, (step r).Shortens r)
    (hturn : ∀ r, turn.run ⟨r, depth⟩ = some (outcome depth (step r))) :
    Guards (loop (fun _ => turn) ()) depth fun r => ((), r.turns step) := fun _ =>
  run_loop (P := fun _ => True) hstep (fun r _ => hturn r) (fun _ _ => trivial) trivial

/-- A token is where an expression that is passed over ends, or it is passed over itself. -/
theorem run_skipTurn (opened : Nat) {r : Reading} {k : Kind} {w : List Kind} (hr : r.rest = k :: w)
    (depth : Nat) :
    ((skipTurn opened).run ⟨r, depth⟩ = some (none, ⟨r, depth⟩) ∧ nestedLength opened (k :: w) = 0) ∨
      ∃ opened', (skipTurn opened).run ⟨r, depth⟩ = some (some opened', ⟨r.advance, depth⟩) ∧
        nestedLength opened (k :: w) = nestedLength opened' w + 1 := by
  have hpeek := peek?_of_rest hr
  cases k <;> cases opened <;> simp [skipTurn, hpeek, nestedLength, minus]

/-- Passing over an expression ends, and closes no bracket that was not opened. -/
theorem run_loop_skipTurn (opened : Nat) (r : Reading) (depth : Nat) :
    (loop skipTurn opened).run ⟨r, depth⟩ =
      some ((), ⟨{ r with
        position := r.position + nestedLength opened r.rest
        rest := r.rest.drop (nestedLength opened r.rest) }, depth⟩) := by
  obtain ⟨position, rest, lists, marks⟩ := r
  induction rest generalizing opened position with
  | nil => exact run_loop_stop (by simp [skipTurn, peek?, nestedLength]) (.inl rfl)
  | cons k w ih =>
    rcases run_skipTurn opened (r := ⟨position, k :: w, lists, marks⟩) rfl depth with
      ⟨hrun, hlength⟩ | ⟨opened', hrun, hlength⟩
    · rw [run_loop_stop hrun (.inl rfl)]
      simp [hlength]
    · rw [run_loop_again hrun (Nat.lt_succ_self _)]
      have hadvance : Reading.advance ⟨position, k :: w, lists, marks⟩ =
          ⟨position + 1, w, lists, marks⟩ := rfl
      rw [hadvance, ih, hlength, Nat.add_assoc, Nat.add_comm 1]
      rfl

/-- The guarded rule passes over an expression as the rule does. -/
theorem guards_skipNested (depth : Nat) : Guards skipNested depth fun r => ((), r.skipNested) :=
  Guards.keepingDepth fun r => run_loop_skipTurn 0 r depth

/-- The guarded rule for items does what the rule does, if that for an item does. -/
theorem guards_items {close : Kind} {depth : Nat} {item : Guarded Bool}
    {item' : Reading → Bool × Reading} (hitem : Guards item depth item')
    (hmoves : ItemMovesOn item') :
    Guards (items close item) depth fun r => ((), Grammar.items close item' r) := by
  refine Guards.keepingDepth (guards_loop (itemStep_shortens hmoves) fun r => ?_)
  cases hend : (r.at? close || r.rest.isEmpty)
  · cases hcomma : r.at? .comma
    · rcases hr : item' r with ⟨_ | _, s⟩
      · simp [itemTurn, itemStep, hend, hcomma, hitem r, hr, outcome]
      · cases hnext : s.at? .comma <;>
          simp [itemTurn, itemStep, hend, hcomma, hitem r, hr, hnext, outcome]
    · simp [itemTurn, itemStep, hend, hcomma, outcome]
  · simp [itemTurn, itemStep, hend, outcome]

/-- Passing over operators is passing over them one by one. -/
theorem guards_operators (depth : Nat) :
    Guards (loop (fun _ => operatorTurn) ()) depth fun r => ((), r.skipOperators) := by
  intro r
  induction hn : r.rest.length using Nat.strongRecOn generalizing r with
  | _ n ih =>
    show (loop (fun _ => operatorTurn) ()).run ⟨r, depth⟩ = some ((), ⟨r.skipOperators, depth⟩)
    cases hat : r.at? .operator with
    | true =>
      have hlt := length_rest_advance hat
      have hturn : operatorTurn.run ⟨r, depth⟩ = some (some (), ⟨r.advance, depth⟩) := by
        simp [operatorTurn, hat]
      rw [run_loop_again hturn hlt, skipOperators_of_at? hat]
      exact ih _ (hn ▸ hlt) _ rfl
    | false =>
      have hturn : operatorTurn.run ⟨r, depth⟩ = some (none, ⟨r, depth⟩) := by
        simp [operatorTurn, hat]
      rw [run_loop_stop hturn (.inl rfl), skipOperators_of_not_at? hat]

section

variable {expr : Guarded (Option Element)} {depth : Nat} {nested : Rule}
  (hexpr : Guards expr depth nested)

include hexpr

/-- The guarded rule for an expression as an item does what the rule does. -/
theorem guards_item : Guards (item expr) depth nested.item := by
  intro r
  simp [item, Rule.item, hexpr r]

/-- The guarded rule for properties does what the rule does. -/
theorem guards_property : Guards (property expr) depth (Grammar.property nested) := by
  refine Guards.keepingDepth fun r => ?_
  cases hpeek : r.peek? with
  | none => simp [Grammar.property, hpeek]
  | some k =>
    cases k
    case operator => simp [Grammar.property, hpeek, guards_item hexpr r]
    case name | string | number =>
      cases hcolon : r.advance.at? .colon <;> simp [Grammar.property, hpeek, hcolon, hexpr _]
    all_goals simp [Grammar.property, hpeek]

variable (hnested : nested.MovesOn)

include hnested

/-- The guarded rule for arguments does what the rule does. -/
theorem guards_arguments :
    Guards (arguments expr) depth fun r => ((), Grammar.arguments nested r) := by
  intro r
  simp [arguments, Grammar.arguments, guards_items (guards_item hexpr) (itemMovesOn_item hnested) r]

/-- The guarded rule for sequences does what the rule does. -/
theorem guards_sequence : Guards (sequence expr) depth (Grammar.sequence nested) := by
  have hloop : Guards (loop (fun _ => sequenceTurn expr) ()) depth
      fun r => ((), r.turns (sequenceStep nested)) := by
    refine guards_loop (sequenceStep_shortens hnested) fun r => ?_
    cases hat : r.at? .comma <;> simp [sequenceTurn, sequenceStep, hat, hexpr _, outcome]
  refine Guards.keepingDepth fun r => ?_
  rcases hr : nested r with ⟨_ | e, s⟩ <;> simp [Grammar.sequence, hexpr r, hr, hloop s]

/-- Entries belong to the list literal that was opened for them. -/
theorem run_listTurn {slot : Nat} {r : Reading} (hslot : slot < r.lists.length) :
    (listTurn expr slot).run ⟨r, depth⟩ = some (outcome depth (listStep nested slot r)) := by
  cases hend : (r.at? .rightBracket || r.rest.isEmpty)
  · cases hcomma : r.at? .comma
    · have honward := (hnested r).related.lists
      rcases hr : nested r with ⟨_ | e, s⟩
      · simp [listTurn, listStep, hend, hcomma, hexpr r, hr, outcome]
      · rw [hr] at honward
        have hfound : slot < s.lists.length := Nat.lt_of_lt_of_le hslot honward
        cases hnext : (s.addEntry slot (.element e)).at? .comma <;>
          simp [listTurn, listStep, hend, hcomma, hexpr r, hr, addEntry, hfound, hnext, outcome]
    · simp [listTurn, listStep, hend, hcomma, addEntry, hslot, outcome]
  · simp [listTurn, listStep, hend, outcome]

/-- The guarded rule for list literals does what the rule does: the place is there when entries are
    added. -/
theorem guards_listLiteral : Guards (listLiteral expr) depth (Grammar.listLiteral nested) := by
  refine Guards.keepingDepth fun r => ?_
  have hloop : (loop (fun _ => listTurn expr r.lists.length) ()).run ⟨r.openList, depth⟩ =
      some ((), ⟨r.openList.turns (listStep nested r.lists.length), depth⟩) := by
    refine run_loop (P := fun u => r.lists.length < u.lists.length)
      (listStep_shortens hnested _) (fun u hu => run_listTurn hexpr hnested hu) ?_ ?_
    · exact fun u hu => Nat.lt_of_lt_of_le hu (tracksEntries_onward.listStep hnested hu).lists
    · simp [openList]
  simp [Grammar.listLiteral, hloop]

/-- The guarded rule for object literals does what the rule does. -/
theorem guards_objectLiteral : Guards (objectLiteral expr) depth (Grammar.objectLiteral nested) := by
  refine Guards.keepingDepth fun r => ?_
  simp [Grammar.objectLiteral,
    guards_items (guards_property hexpr) (itemMovesOn_property hnested) r.advance]

/-- The guarded rule for primary expressions does what the rule does. -/
theorem guards_primary : Guards (primary expr) depth (Grammar.primary nested) := by
  refine Guards.keepingDepth fun r => ?_
  cases hpeek : r.peek? with
  | none => simp [Grammar.primary, hpeek]
  | some k =>
    cases k
    case leftParen => simp [Grammar.primary, hpeek, guards_arguments hexpr hnested _]
    case leftBracket => simp [Grammar.primary, hpeek, guards_listLiteral hexpr hnested r]
    case leftBrace => simp [Grammar.primary, hpeek, guards_objectLiteral hexpr hnested r]
    all_goals simp [Grammar.primary, hpeek, endsExpression]

/-- The guarded rule for postfixed expressions does what the rule does. -/
theorem guards_postfixed : Guards (postfixed expr) depth (Grammar.postfixed nested) := by
  have hloop : Guards (loop (fun _ => postfixTurn expr) ()) depth
      fun r => ((), r.turns (postfixStep nested)) := by
    refine guards_loop (postfixStep_shortens hnested) fun r => ?_
    cases hpeek : r.peek? with
    | none => simp [postfixTurn, postfixStep, hpeek, outcome]
    | some k =>
      cases k
      case leftParen =>
        simp [postfixTurn, postfixStep, hpeek, guards_arguments hexpr hnested _, outcome]
      case leftBracket =>
        simp [postfixTurn, postfixStep, hpeek, guards_sequence hexpr hnested _, outcome]
      all_goals simp [postfixTurn, postfixStep, hpeek, outcome]
  refine Guards.keepingDepth fun r => ?_
  have hprimary := guards_primary hexpr hnested r
  rcases hr : Grammar.primary nested r with ⟨_ | e, s⟩ <;> rw [hr] at hprimary <;>
    simp [Grammar.postfixed, hprimary, hr, hloop s]

/-- The guarded rule for operators and the expression behind them does what the rule does. -/
theorem guards_unary : Guards (unary expr) depth (Grammar.unary nested) := by
  have hpostfixed := guards_postfixed hexpr hnested
  refine Guards.keepingDepth fun r => ?_
  cases hat : r.at? .operator
  · simp [Grammar.unary, hat, hpostfixed r]
  · simp [Grammar.unary, hat, guards_operators depth r, hpostfixed r.skipOperators]

/-- The guarded rule for chains of operators does what the rule does. -/
theorem guards_binary : Guards (binary expr) depth (Grammar.binary nested) := by
  have hunary := guards_unary hexpr hnested
  have hloop : Guards (loop (fun _ => binaryTurn expr) ()) depth
      fun r => ((), r.turns (binaryStep nested)) := by
    refine guards_loop (binaryStep_shortens hnested) fun r => ?_
    cases hat : r.at? .operator
    · simp [binaryTurn, binaryStep, hat, outcome]
    · cases hstarts : r.advance.peek?.any startsOperand <;>
        simp [binaryTurn, binaryStep, hat, hstarts, hunary r.advance, outcome]
  refine Guards.keepingDepth fun r => ?_
  have hfirst := hunary r
  rcases hr : Grammar.unary nested r with ⟨_ | e, s⟩ <;> rw [hr] at hfirst <;>
    simp [Grammar.binary, hfirst, hr, hloop s]

/-- The guarded rule for assignments does what the rule does. -/
theorem guards_assignment : Guards (assignment expr) depth (Grammar.assignment nested) := by
  refine Guards.keepingDepth fun r => ?_
  have hbinary := guards_binary hexpr hnested r
  rcases hr : Grammar.binary nested r with ⟨_ | target, s⟩ <;> rw [hr] at hbinary
  · simp [Grammar.assignment, hbinary, hr]
  · cases hassign : s.at? .assign <;>
      simp [Grammar.assignment, hbinary, hr, hassign, hexpr _]

end

/-! ### Expressions and programs -/

/-- **Guarded expressions.** The counter and the levels that are left make up `maxDepth`, so that both
    refuse the same expressions. No more calls than levels are open at once, and one that is
    refused. -/
theorem guards_expression {levels depth calls : Nat} (hdepth : depth + levels = maxDepth)
    (hcalls : levels < calls) : Guards (expression calls) depth (Grammar.expression levels) := by
  induction levels generalizing depth calls with
  | zero =>
    obtain ⟨calls, rfl⟩ := Nat.exists_eq_succ_of_ne_zero (Nat.ne_of_gt hcalls)
    refine Guards.keepingDepth fun r => ?_
    have hfull : maxDepth ≤ depth := by omega
    simp [hfull, Grammar.expression, tooDeep, guards_skipNested depth _]
  | succ levels ih =>
    obtain ⟨calls, rfl⟩ := Nat.exists_eq_succ_of_ne_zero (Nat.ne_of_gt (Nat.zero_lt_of_lt hcalls))
    have hnested : Guards (expression calls) (depth + 1) (Grammar.expression levels) :=
      ih (by omega) (by omega)
    have hinner := guards_assignment hnested (movesOn_expression levels)
    refine Guards.keepingDepth fun r => ?_
    have hroom : depth < maxDepth := by omega
    simp [Nat.not_le.mpr hroom, enter, hroom, hinner r, leave, minus, Grammar.expression]

/-- **Guarded programs.** Reading a program never fails. -/
theorem guards_program : Guards program 0 fun r => ((), r.turns moduleStep) := by
  refine Guards.keepingDepth (guards_loop moduleStep_shortens fun r => ?_)
  have hexpr : Guards (expression (maxDepth + 1)) 0 (Grammar.expression maxDepth) :=
    guards_expression (Nat.zero_add _) (Nat.lt_succ_self _)
  have hsequence := guards_sequence hexpr (movesOn_expression maxDepth) r
  cases hend : r.rest.isEmpty
  · cases hsemicolon : r.at? .semicolon <;>
      simp [statementTurn, moduleStep, hend, hsemicolon, hsequence, outcome]
  · simp [statementTurn, moduleStep, hend, outcome]

end Guarded

end CommaStyle.Grammar

namespace CommaStyle.Document

open Grammar Reading

/-- **Reading ends.** Guarded or not, the rules read the tokens of any document to the end, and are
    then inside of no expression. Wherever an expression is read, inside of no more than `maxDepth`
    others, reading it fails no guard and ends inside of as many as before. Every turn of a repeated
    step passes over a token. -/
theorem reading_guarded (d : Document) :
    Guarded.program.run ⟨ofKinds d.kinds, 0⟩ = some ((), ⟨d.reading, 0⟩) ∧
      d.reading.rest = [] ∧ d.reading.position = d.significant.length ∧
      (∀ r depth, depth ≤ maxDepth → (Guarded.expression (maxDepth + 1)).run ⟨r, depth⟩ =
        some ((expression (maxDepth - depth) r).1, ⟨(expression (maxDepth - depth) r).2, depth⟩)) ∧
      ∀ step, IsLoop step → ∀ r, (step r).Shortens r := by
  refine ⟨Guarded.guards_program _, rest_readModule _, ?_, ?_, fun step h => h.shortens⟩
  · rw [← length_kinds]
    exact position_readModule d.kinds
  · intro r depth hdepth
    exact Guarded.guards_expression (Nat.add_sub_cancel' hdepth)
      (Nat.lt_succ_of_le (Nat.sub_le _ _)) r

/-- A list literal that is not closed, with a hole in it and a comment behind it. -/
theorem reading_guarded_unclosed :
    let d := ofText ['[', 'a', ',', ',', '=', '/', '/']
    Guarded.program.run ⟨ofKinds d.kinds, 0⟩ = some ((), ⟨d.reading, 0⟩) ∧
      d.reading.position = 5 ∧ d.reading.marks.length = 2 ∧
      (Guarded.expression (maxDepth + 1)).run ⟨ofKinds d.kinds, maxDepth⟩ =
        some (none, ⟨(tooDeep (ofKinds d.kinds)).2, maxDepth⟩) ∧
      (moduleStep (ofKinds d.kinds)).Shortens (ofKinds d.kinds) := by
  intro d
  obtain ⟨hrun, -, hposition, hexpression, hloop⟩ := reading_guarded d
  have hsize : d.significant.length = 5 := by decide
  exact ⟨hrun, hposition.trans hsize, by decide, hexpression _ maxDepth (Nat.le_refl _),
    hloop _ .statements _⟩

end CommaStyle.Document
