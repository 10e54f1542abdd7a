import CommaStyle.Proofs.Grammar.Passing

namespace CommaStyle.Grammar

open Reading

/-!
# Following the rules on any input

The rules never fail, so there is something to say about every reading that they lead to, whether
they report faults on the way or not. One induction over the rules serves all such statements.

* `Tracks` — what a relation between readings must allow to be followed through the rules: the moves
  that they are made of, and a list literal as a whole. Another relation says what is known where a
  rule finds nothing;
* `Rule.Keeps` — a rule leads to a related reading, and what it finds starts where it started, ends
  where it ended, and is not empty;
* `TracksEntries` — what a relation must allow besides to be followed through a list literal entry by
  entry (`TracksEntries.list`);
* `Tracks.keeps_expression`, `Tracks.readModule` — all rules keep a relation that can be followed.
-/

/-- The reading of a turn. -/
def Turn.reading : Turn → Reading
  | again r | stop r => r

/-- Whether a turn asks for more with a reading of one sort, or stops with one of another. -/
def Turn.Holds (P Q : Reading → Prop) : Turn → Prop
  | again r => P r
  | stop r => Q r

theorem Turn.holds_same {P : Reading → Prop} {turn : Turn} : turn.Holds P P ↔ P turn.reading := by
  cases turn <;> exact Iff.rfl

/-- Whether a rule that led from one reading to another kept a relation. What it found must be what it
    has read; if it found nothing, another relation must hold too. -/
structure Outcome (R S : Reading → Reading → Prop) (r : Reading) (found : Option Element)
    (s : Reading) : Prop where
  related : R r s
  extent : ∀ e ∈ found, e = s.extentFrom r.position ∧ r.position < s.position
  missed : found = none → S r s

/-- Whether a rule always keeps a relation. -/
def Rule.Keeps (R S : Reading → Reading → Prop) (rule : Rule) : Prop :=
  ∀ r, Outcome R S r (rule r).1 (rule r).2

/-- Whether a relation between readings can be followed through the rules, and another one holds
    where a rule finds nothing. -/
structure Tracks (R S : Reading → Reading → Prop) : Prop where
  refl (r : Reading) : R r r
  trans {r s u : Reading} : R r s → R s u → R r u
  position_le {r s : Reading} : R r s → r.position ≤ s.position
  advance (r : Reading) : R r r.advance
  report (r : Reading) (fault : Fault) : R r (r.report fault)
  /-- The target of an assignment becomes a pattern once it has been read. -/
  retag {r s : Reading} : R r s → R r (s.retag r.position)
  list {nested : Rule} (hnested : nested.Keeps R S) {r : Reading}
    (hat : r.at? .leftBracket = true) : R r (listLiteral nested r).2
  /-- What starts no expression is left alone. -/
  leave (r : Reading) : S r (r.report .expectedExpression)
  /-- A token that does not end the expression around it either is passed over. -/
  drop {r : Reading} {k : Kind} (hat : r.at? k = true) (hk : endsExpression k = false) :
    S r (r.report .expectedExpression).advance
  tooDeep (r : Reading) : S r (tooDeep r).2

section

variable {R S : Reading → Reading → Prop} {r s : Reading}

/-- A rule that has moved on may find what it has read. -/
theorem Outcome.found (h : R r s) (hlt : r.position < s.position) :
    Outcome R S r (some (s.extentFrom r.position)) s := by
  refine ⟨h, ?_, by simp⟩
  intro e he
  exact ⟨(Option.mem_some_iff.mp he).symm, hlt⟩

theorem Outcome.nothing (h : R r s) (h' : S r s) : Outcome R S r none s :=
  ⟨h, by simp, fun _ => h'⟩

/-- What a rule does keeps what the rule keeps. -/
theorem Rule.Keeps.outcome {rule : Rule} (h : rule.Keeps R S) {found : Option Element}
    (hr : rule r = (found, s)) : Outcome R S r found s := by
  have hrule := h r
  rwa [hr] at hrule

end

/-! ### Repeated steps -/

/-- What holds in every turn, and lets something hold when the turns end, lets it hold behind
    them. -/
theorem turns_induct {step : Reading → Turn} {P Q : Reading → Prop} (hend : ∀ r, P r → Q r)
    (hstep : ∀ r, P r → (step r).Holds P Q) {r : Reading} (h : P r) : Q (r.turns step) := by
  have hwithin : ∀ (bound : List Kind) (r : Reading), P r → Q (turnsWithin step bound r) := by
    intro bound
    induction bound with
    | nil =>
      intro r h
      have hturn := hstep r h
      unfold turnsWithin
      cases hs : step r <;> rw [hs] at hturn
      · exact hend _ hturn
      · exact hturn
    | cons k bound ih =>
      intro r h
      have hturn := hstep r h
      unfold turnsWithin
      cases hs : step r <;> rw [hs] at hturn
      · exact ih _ hturn
      · exact hturn
  exact hwithin r.rest r h

/-! ### Positions -/

section

variable {nested : Rule} (hnested : ∀ r, r.position ≤ (nested r).2.position)

theorem position_le_advance (r : Reading) : r.position ≤ r.advance.position := by
  unfold Reading.advance
  split
  · exact Nat.le_refl _
  · exact Nat.le_succ _

theorem position_le_expect (r : Reading) (k : Kind) (fault : Fault) :
    r.position ≤ (r.expect k fault).position := by
  unfold Reading.expect
  split
  · exact position_le_advance r
  · exact Nat.le_refl _

include hnested

/-- Entries move a list literal on, whatever they do to it. -/
theorem position_le_listStep (slot : Nat) (r : Reading) :
    r.position ≤ (listStep nested slot r).reading.position := by
  unfold listStep
  split
  · exact Nat.le_refl _
  split
  · exact position_le_advance (r.addEntry slot (.hole r.position))
  have hle := hnested r
  rcases hr : nested r with ⟨_ | e, s⟩ <;> rw [hr] at hle
  · show r.position ≤ (s.advanceIfStuck r).position
    unfold Reading.advanceIfStuck
    split
    · exact Nat.le_trans hle (position_le_advance s)
    · exact hle
  · dsimp only
    split
    · exact Nat.le_trans hle (position_le_advance (s.addEntry slot (.element e)))
    · exact hle

/-- A list literal is at least its bracket. -/
theorem lt_position_listLiteral {r : Reading} (hat : r.at? .leftBracket = true) :
    r.position < (listLiteral nested r).2.position := by
  have hturns : r.position < (r.openList.turns (listStep nested r.lists.length)).position := by
    apply turns_induct (P := fun u => r.position < u.position)
      (Q := fun u => r.position < u.position)
    · exact fun _ hu => hu
    · intro u hu
      exact Turn.holds_same.mpr (Nat.lt_of_lt_of_le hu (position_le_listStep hnested _ u))
    · show r.position < r.advance.position
      rw [(moves_advance hat).position]
      exact Nat.lt_succ_self _
  exact Nat.lt_of_lt_of_le hturns (position_le_expect _ _ _)

end

/-! ### Entries of list literals -/

/-- Whether a relation between readings can be followed through the entries of a list literal. An entry
    that was read is added once it has ended. -/
structure TracksEntries (R : Reading → Reading → Prop) : Prop where
  refl (r : Reading) : R r r
  trans {r s u : Reading} : R r s → R s u → R r u
  lists_le {r s : Reading} : R r s → r.lists.length ≤ s.lists.length
  advance (r : Reading) : R r r.advance
  report (r : Reading) (fault : Fault) : R r (r.report fault)
  openList {r : Reading} (hat : r.at? .leftBracket = true) : R r r.openList
  hole {r : Reading} {slot : Nat} (hslot : slot < r.lists.length) :
    R r (r.addEntry slot (.hole r.position))
  element {r s : Reading} {slot : Nat} (hs : R r s) (hlt : r.position < s.position)
    (hslot : slot < s.lists.length) : R r (s.addEntry slot (.element (s.extentFrom r.position)))

namespace TracksEntries

variable {R S : Reading → Reading → Prop} (h : TracksEntries R) {nested : Rule}
  (hnested : nested.Keeps R S)

include h hnested

/-- An entry keeps the relation, if its list literal is there. -/
theorem listStep {slot : Nat} {r : Reading} (hslot : slot < r.lists.length) :
    R r (listStep nested slot r).reading := by
  unfold Grammar.listStep
  split
  · exact h.refl r
  split
  · exact h.trans (h.hole hslot) (h.advance _)
  rcases hr : nested r with ⟨_ | e, s⟩
  · have hs := (hnested.outcome hr).related
    show R r (s.advanceIfStuck r)
    unfold Reading.advanceIfStuck
    split
    · exact h.trans hs (h.advance s)
    · exact hs
  · have hs := hnested.outcome hr
    obtain ⟨rfl, hlt⟩ := hs.extent e rfl
    have hadd := h.element hs.related hlt (Nat.lt_of_lt_of_le hslot (h.lists_le hs.related))
    dsimp only
    split
    · exact h.trans hadd (h.advance _)
    · exact hadd

/-- A list literal keeps the relation if all that it is made of does. -/
theorem list {r : Reading} (hat : r.at? .leftBracket = true) : R r (listLiteral nested r).2 := by
  have hturns : R r (r.openList.turns (Grammar.listStep nested r.lists.length)) := by
    -- The literal keeps its place among the others while its entries are read.
    apply turns_induct (P := fun u => R r u ∧ r.lists.length < u.lists.length)
    · exact fun u hu => hu.1
    · intro u hu
      have hstep := h.listStep hnested hu.2
      cases hturn : Grammar.listStep nested r.lists.length u <;> rw [hturn] at hstep
      · exact ⟨h.trans hu.1 hstep, Nat.lt_of_lt_of_le hu.2 (h.lists_le hstep)⟩
      · exact h.trans hu.1 hstep
    · exact ⟨h.openList hat, by simp [Reading.openList]⟩
  show R r (Reading.expect _ _ _)
  unfold Reading.expect
  split
  · exact h.trans hturns (h.advance _)
  · exact h.trans hturns (h.report _ _)

end TracksEntries

namespace Tracks

variable {R S : Reading → Reading → Prop} (h : Tracks R S)

include h

/-- A relation that every step keeps is kept by all the turns. -/
theorem turns {step : Reading → Turn} (hstep : ∀ r, R r (step r).reading) (r : Reading) :
    R r (r.turns step) := by
  apply turns_induct (P := R r)
  · exact fun _ hs => hs
  · intro s hs
    exact Turn.holds_same.mpr (h.trans hs (hstep s))
  · exact h.refl r

/-! ### Moves -/

theorem expect (r : Reading) (k : Kind) (fault : Fault) : R r (r.expect k fault) := by
  unfold Reading.expect
  split
  · exact h.advance r
  · exact h.report r fault

theorem accept (r : Reading) (k : Kind) : R r (r.accept k) := by
  unfold Reading.accept
  split
  · exact h.advance r
  · exact h.refl r

theorem advanceIfStuck {r s : Reading} (hs : R r s) : R r (s.advanceIfStuck r) := by
  unfold Reading.advanceIfStuck
  split
  · exact h.trans hs (h.advance s)
  · exact hs

/-- Passing over some of the tokens ahead is passing over them one by one. -/
theorem skip (r : Reading) {count : Nat} (hcount : count ≤ r.rest.length) :
    R r { r with position := r.position + count, rest := r.rest.drop count } := by
  induction count with
  | zero => exact h.refl r
  | succ count ih =>
    have hstep := h.advance { r with position := r.position + count, rest := r.rest.drop count }
    rw [advance_of_rest (List.drop_eq_getElem_cons hcount)] at hstep
    exact h.trans (ih (Nat.le_of_succ_le hcount)) hstep

/-- Operators that are passed over keep the relation. -/
theorem skipOperators (r : Reading) : R r r.skipOperators := by
  have hskip := h.skip r (List.takeWhile_prefix (· == Kind.operator)).length_le
  have hdrop : r.rest.dropWhile (· == .operator) =
      r.rest.drop (r.rest.takeWhile (· == .operator)).length := by
    have hsplit := List.takeWhile_append_dropWhile (p := (· == Kind.operator)) (l := r.rest)
    calc r.rest.dropWhile (· == .operator)
        = (r.rest.takeWhile (· == .operator) ++ r.rest.dropWhile (· == .operator)).drop
            (r.rest.takeWhile (· == .operator)).length := List.drop_left.symm
      _ = r.rest.drop (r.rest.takeWhile (· == .operator)).length := by rw [hsplit]
  rw [Reading.skipOperators, hdrop]
  exact hskip

omit h in
/-- No more tokens are passed over than there are. -/
theorem nestedLength_le (opened : Nat) (w : List Kind) : nestedLength opened w ≤ w.length := by
  fun_induction nestedLength opened w <;> simp_all

theorem skipNested (r : Reading) : R r r.skipNested := h.skip r (nestedLength_le 0 r.rest)

/-! ### Rules for what is nested -/

/-- A step through items keeps the relation if an item does. -/
theorem itemStep {close : Kind} {item : Reading → Bool × Reading} (hitem : ∀ r, R r (item r).2)
    (r : Reading) : R r (Grammar.itemStep close item r).reading := by
  unfold Grammar.itemStep
  split
  · exact h.refl r
  split
  · exact h.trans (h.report r _) (h.advance _)
  have hfound := hitem r
  rcases hr : item r with ⟨_ | _, s⟩ <;> rw [hr] at hfound
  · exact h.advanceIfStuck hfound
  · dsimp only
    split
    · exact h.trans hfound (h.advance s)
    · exact hfound

theorem items {close : Kind} {item : Reading → Bool × Reading} (hitem : ∀ r, R r (item r).2)
    (r : Reading) : R r (items close item r) := h.turns (h.itemStep hitem) r

section

variable {nested : Rule} (hnested : nested.Keeps R S)

include hnested

theorem arguments (r : Reading) : R r (arguments nested r) := by
  have hitems : R r (Grammar.items .rightParen nested.item r) :=
    h.items (fun r => (hnested r).related) r
  exact h.trans hitems (h.expect _ _ _)

/-- A property keeps the relation. -/
theorem property (r : Reading) : R r (property nested r).2 := by
  cases hr : r.rest with
  | nil =>
    have hprop : Grammar.property nested r = (false, r.report .expectedProperty) := by
      simp [Grammar.property, peek?, hr]
    rw [hprop]
    exact h.report r _
  | cons k w =>
    by_cases hk : isKey k = true
    · rw [property_of_key hr hk]
      dsimp only
      split
      · exact h.trans (h.advance r) (h.trans (h.advance _) (hnested _).related)
      · exact h.advance r
    · unfold Grammar.property
      rw [peek?_of_rest hr]
      cases k <;> first | exact absurd rfl hk | exact (hnested r).related | exact h.report r _

end

/-- A rule that takes another rule and then repeats a step, if the other rule found something. -/
theorem keeps_chain {rule first : Rule} {step : Reading → Turn}
    (hnone : ∀ r s, first r = (none, s) → rule r = (none, s))
    (hsome : ∀ r e s, first r = (some e, s) →
      rule r = (some ((s.turns step).extentFrom e.first), s.turns step))
    (hfirst : first.Keeps R S) (hstep : ∀ r, R r (step r).reading) : rule.Keeps R S := by
  intro r
  rcases hr : first r with ⟨_ | e, s⟩
  · rw [hnone r s hr]
    exact hfirst.outcome hr
  · have hs := hfirst.outcome hr
    obtain ⟨rfl, hlt⟩ := hs.extent e rfl
    have hturns := h.turns hstep s
    rw [hsome r _ s hr]
    exact .found (h.trans hs.related hturns) (Nat.lt_of_lt_of_le hlt (h.position_le hturns))

/-- A rule that always finds what it has read, behind a token of a kind. -/
theorem found_behind {r s : Reading} {k : Kind} (hat : r.at? k = true) (hs : R r.advance s) :
    Outcome R S r (some (s.extentFrom r.position)) s := by
  refine .found (h.trans (h.advance r) hs) ?_
  have hle := h.position_le hs
  rw [(moves_advance hat).position, List.length_singleton] at hle
  omega

section

variable {nested : Rule} (hnested : nested.Keeps R S)

include hnested

/-- The rule for sequences keeps the relation. -/
theorem keeps_sequence : (sequence nested).Keeps R S := by
  refine h.keeps_chain (fun r s hr => by rw [sequence, hr]) (fun r e s hr => by rw [sequence, hr])
    hnested ?_
  intro r
  unfold sequenceStep
  split
  · exact h.trans (h.advance r) (hnested _).related
  · exact h.refl r

/-- The rule for primary expressions keeps the relation: each of its branches does. -/
theorem keeps_primary : (primary nested).Keeps R S := by
  intro r
  cases hr : r.rest with
  | nil =>
    have hprimary : primary nested r = (none, r.report .expectedExpression) := by
      simp [primary, peek?, hr]
    rw [hprimary]
    exact .nothing (h.report r _) (h.leave r)
  | cons k w =>
    have hat : r.at? k = true := at?_iff.mpr ⟨w, hr⟩
    have hpeek := peek?_of_rest hr
    by_cases hk : isAtom k = true
    · have hprimary : primary nested r = (some (r.advance.extentFrom r.position), r.advance) := by
        rw [primary, hpeek]
        cases k <;> first | rfl | exact absurd hk (by decide)
      rw [hprimary]
      exact h.found_behind hat (h.refl _)
    cases k
    case leftParen =>
      simp only [primary, hpeek]
      exact h.found_behind hat (h.arguments hnested _)
    case leftBracket =>
      have hprimary : primary nested r = listLiteral nested r := by rw [primary, hpeek]
      have hle := fun r => h.position_le (hnested r).related
      rw [hprimary]
      exact .found (h.list hnested hat) (lt_position_listLiteral hle hat)
    case leftBrace =>
      have hprimary : primary nested r = objectLiteral nested r := by rw [primary, hpeek]
      rw [hprimary]
      exact h.found_behind hat (h.trans (h.items (h.property hnested) _) (h.expect _ _ _))
    case name | number | string | markup => exact absurd rfl hk
    -- Every other token is reported, and passed over or left alone.
    all_goals
      simp only [primary, hpeek]
      split
      · exact .nothing (h.report r _) (h.leave r)
      · next hends =>
        exact .nothing (h.trans (h.report r _) (h.advance _)) (h.drop hat (Bool.eq_false_iff.mpr hends))

/-- A suffix keeps the relation. -/
theorem postfixStep (r : Reading) : R r (postfixStep nested r).reading := by
  unfold Grammar.postfixStep
  split
  · exact h.trans (h.advance r) (h.arguments hnested _)
  · exact h.trans (h.advance r) (h.trans (h.keeps_sequence hnested _).related (h.expect _ _ _))
  · exact h.trans (h.advance r) (h.expect _ _ _)
  · exact h.refl r

/-- The rule for postfixed expressions keeps the relation. -/
theorem keeps_postfixed : (postfixed nested).Keeps R S :=
  h.keeps_chain (fun r s hr => by rw [postfixed, hr]) (fun r e s hr => by rw [postfixed, hr])
    (h.keeps_primary hnested) (h.postfixStep hnested)

/-- The rule for operators and the expression behind them keeps the relation. -/
theorem keeps_unary : (unary nested).Keeps R S := by
  intro r
  unfold unary
  split
  · next hat =>
    -- Operators are there, so that something is read whether or not an operand follows.
    have hrest := (h.keeps_postfixed hnested r.advance.skipOperators).related
    rw [skipOperators_of_at? hat]
    exact h.found_behind hat (h.trans (h.skipOperators _) hrest)
  · exact h.keeps_postfixed hnested r

/-- An operand of a chain keeps the relation. -/
theorem binaryStep (r : Reading) : R r (binaryStep nested r).reading := by
  unfold Grammar.binaryStep
  split
  · dsimp only [Turn.reading]
    split
    · exact h.trans (h.advance r) (h.keeps_unary hnested _).related
    · exact h.advance r
  · exact h.refl r

/-- The rule for chains of operators keeps the relation. -/
theorem keeps_binary : (binary nested).Keeps R S :=
  h.keeps_chain (fun r s hr => by rw [binary, hr]) (fun r e s hr => by rw [binary, hr])
    (h.keeps_unary hnested) (h.binaryStep hnested)

/-- The rule for assignments keeps the relation, also where the target becomes a pattern. -/
theorem keeps_assignment : (assignment nested).Keeps R S := by
  intro r
  have hbinary := h.keeps_binary hnested
  rcases hr : binary nested r with ⟨_ | target, s⟩
  · rw [assignment, hr]
    exact hbinary.outcome hr
  have hs := hbinary.outcome hr
  obtain ⟨rfl, hlt⟩ := hs.extent target rfl
  rw [assignment, hr]
  dsimp only
  split
  · show Outcome R S r (some ((nested (s.retag r.position).advance).2.extentFrom r.position)) _
    have hvalue := h.trans (h.advance (s.retag r.position)) (hnested _).related
    -- Marking patterns reads nothing, so that the position is that of the target until then.
    have hle := h.position_le hvalue
    exact .found (h.trans (h.retag hs.related) hvalue) (Nat.lt_of_lt_of_le hlt hle)
  · exact .found hs.related hlt

end

/-! ### Expressions and statements -/

/-- **All rules can be followed.** An expression with any number of levels left keeps the relation. -/
theorem keeps_expression (levels : Nat) : (expression levels).Keeps R S := by
  induction levels with
  | zero => exact fun r => .nothing (h.trans (h.report r _) (h.skipNested _)) (h.tooDeep r)
  | succ levels ih => exact h.keeps_assignment ih

/-- A relation that the rules keep leads from the start of a program to its end. -/
theorem readModule (kinds : List Kind) : R (ofKinds kinds) (readModule kinds) := by
  apply h.turns
  intro r
  unfold moduleStep
  split
  · exact h.refl r
  split
  · exact h.advance r
  · have hstatement := (h.keeps_sequence (h.keeps_expression maxDepth) r).related
    exact h.advanceIfStuck (h.trans hstatement (h.accept _ _))

end Tracks

end CommaStyle.Grammar
