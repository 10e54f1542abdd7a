import CommaStyle.Proofs.Grammar.Arrangement

namespace CommaStyle

/-!
# The assignments of a program

Whenever an expression turns out to be the target of an assignment, the list literals in it are marked
as patterns. This module keeps a record of these moments and says what becomes of the list literals.

* `Assigned` — a target, and the reading in which its list literals are marked;
* `Assigned.inModule` — all of them in a program, in the order in which the rules meet them. There is
  one function for each rule, which asks the rule itself for the readings on the way;
* `Noted` — from one reading to another, the list literals were changed by just the assignments of a
  record. Every rule notes its own record (`noted_expression`, `noted_readModule`);
* `Assigned.Exact` — the search for the list literals of a target ends early, and still finds what a
  search through all of them would find.
-/

/-- Whether a token lies in an expression. -/
abbrev Element.Holds (e : Element) (position : Nat) : Prop :=
  e.first ≤ position ∧ position ≤ e.last

namespace Grammar

open Reading

/-- The target of an assignment, and the reading behind it in which its list literals are marked. -/
structure Assigned where
  reading : Reading
  target : Element
deriving DecidableEq, Repr

namespace Assigned

/-! ### Records -/

/-- The assignments in the turns of a repeated step, with the same bound as the turns. -/
def inTurnsWithin (step : Reading → Turn) (inStep : Reading → List Assigned) :
    (bound : List Kind) → Reading → List Assigned
  | [], r => inStep r
  | _ :: bound, r =>
    match step r with
    | .again s => inStep r ++ inTurnsWithin step inStep bound s
    | .stop _ => inStep r

/-- The assignments in the turns of a repeated step. -/
def inTurns (step : Reading → Turn) (inStep : Reading → List Assigned) (r : Reading) : List Assigned :=
  inTurnsWithin step inStep r.rest r

/-- The assignments in one step through items, or through the entries of a list literal. -/
def inItemStep (close : Kind) (inItem : Reading → List Assigned) (r : Reading) : List Assigned :=
  if r.at? close || r.rest.isEmpty || r.at? .comma then [] else inItem r

/-- The assignments in a rule that takes another rule, and then repeats a step if it found something. -/
def inChain (first : Rule) (inFirst : Reading → List Assigned) (step : Reading → Turn)
    (inStep : Reading → List Assigned) (r : Reading) : List Assigned :=
  match first r with
  | (none, _) => inFirst r
  | (some _, s) => inFirst r ++ inTurns step inStep s

section

variable (nested : Rule) (inNested : Reading → List Assigned)

/-- The assignments in arguments. -/
def inArguments (r : Reading) : List Assigned :=
  inTurns (itemStep .rightParen nested.item) (inItemStep .rightParen inNested) r

/-- The assignments in one step through a sequence. -/
def inSequenceStep (r : Reading) : List Assigned := if r.at? .comma then inNested r.advance else []

/-- The assignments in a sequence. -/
def inSequence : Reading → List Assigned :=
  inChain nested inNested (sequenceStep nested) (inSequenceStep inNested)

/-- The assignments in a list literal. -/
def inList (r : Reading) : List Assigned :=
  inTurns (listStep nested r.lists.length) (inItemStep .rightBracket inNested) r.openList

/-- The assignments in a property. -/
def inProperty (r : Reading) : List Assigned :=
  match r.peek? with
  | some .operator => inNested r
  | some .name | some .string | some .number =>
    if r.advance.at? .colon then inNested r.advance.advance else []
  | _ => []

/-- The assignments in an object literal. -/
def inObject (r : Reading) : List Assigned :=
  inTurns (itemStep .rightBrace (property nested)) (inItemStep .rightBrace (inProperty inNested))
    r.advance

/-- The assignments in a primary expression. -/
def inPrimary (r : Reading) : List Assigned :=
  match r.peek? with
  | some .leftParen => inArguments nested inNested r.advance
  | some .leftBracket => inList nested inNested r
  | some .leftBrace => inObject nested inNested r
  | _ => []

/-- The assignments in one step through calls, indices and member accesses. -/
def inPostfixStep (r : Reading) : List Assigned :=
  match r.peek? with
  | some .leftParen => inArguments nested inNested r.advance
  | some .leftBracket => inSequence nested inNested r.advance
  | _ => []

/-- The assignments in a primary expression and what is behind it. -/
def inPostfixed : Reading → List Assigned :=
  inChain (primary nested) (inPrimary nested inNested) (postfixStep nested)
    (inPostfixStep nested inNested)

/-- The assignments in an expression behind any number of operators. -/
def inUnary (r : Reading) : List Assigned := inPostfixed nested inNested r.skipOperators

/-- The assignments in one step through the operands of a chain. -/
def inBinaryStep (r : Reading) : List Assigned :=
  if r.at? .operator && r.advance.peek?.any startsOperand then inUnary nested inNested r.advance
  else []

/-- The assignments in operands with operators between them. -/
def inBinary : Reading → List Assigned :=
  inChain (unary nested) (inUnary nested inNested) (binaryStep nested) (inBinaryStep nested inNested)

/-- The assignments in an expression that may be assigned to: those in the target, the assignment
    itself, and those in the value. -/
def inAssignment (r : Reading) : List Assigned :=
  match binary nested r with
  | (none, _) => inBinary nested inNested r
  | (some target, s) =>
    if s.at? .assign then
      inBinary nested inNested r ++ ⟨s, target⟩ :: inNested (s.retag target.first).advance
    else inBinary nested inNested r

end

/-- The assignments in an expression. -/
def inExpression : (levels : Nat) → Reading → List Assigned
  | 0, _ => []
  | levels + 1, r => inAssignment (expression levels) (inExpression levels) r

/-- The assignments in one step through the statements of a module. -/
def inModuleStep (r : Reading) : List Assigned :=
  if r.rest.isEmpty || r.at? .semicolon then []
  else inSequence (expression maxDepth) (inExpression maxDepth) r

/-- The assignments in a whole program. -/
def inModule (kinds : List Kind) : List Assigned :=
  inTurns moduleStep inModuleStep (ofKinds kinds)

end Assigned

/-! ### Marking in order -/

namespace Reading

/-- Whether the list literals found so far come in order, all of them opened behind the token ahead. -/
structure InOrder (r : Reading) : Prop where
  increasing : r.openings.Pairwise (· < ·)
  behind : ∀ p ∈ r.openings, p < r.position

/-- In the beginning there are no list literals to be in order. -/
theorem inOrder_ofKinds (kinds : List Kind) : (ofKinds kinds).InOrder :=
  ⟨.nil, by simp [openings, ofKinds]⟩

/-- Literals that are found later are opened later. -/
theorem InOrder.added {r s : Reading} (h : r.InOrder) (hle : r.position ≤ s.position)
    (hadded : Added (· < ·) r.position s.position r.openings s.openings) : s.InOrder := by
  obtain ⟨new, hopenings, hnew, hbounds⟩ := hadded
  refine ⟨?_, ?_⟩
  · rw [hopenings]
    refine List.pairwise_append.mpr ⟨h.increasing, hnew, ?_⟩
    intro p hp q hq
    have hlt := h.behind p hp
    have hge := (hbounds q hq).1
    omega
  · intro p hp
    rw [hopenings] at hp
    rcases List.mem_append.mp hp with hp | hp
    · exact Nat.lt_of_lt_of_le (h.behind p hp) hle
    · exact (hbounds p hp).2

/-- Where the openings decrease, the first literal that is too old ends the search for good. -/
theorem retagFront_eq_map {first : Nat} {nodes : List Node}
    (h : nodes.Pairwise fun a b => b.opening < a.opening) :
    retagFront first nodes = nodes.map fun n => if first ≤ n.opening then n.asPattern else n := by
  induction nodes with
  | nil => rfl
  | cons n nodes ih =>
    obtain ⟨hn, hnodes⟩ := List.pairwise_cons.mp h
    rw [retagFront, List.map_cons]
    split
    · rw [ih hnodes]
      rfl
    · next hold =>
      have holder : ∀ m ∈ nodes, (if first ≤ m.opening then m.asPattern else m) = m := by
        intro m hm
        have hlt := hn m hm
        exact if_neg (by omega)
      rw [List.map_congr_left holder, List.map_id']

/-- **Marking a target is exact.** In order, the literals opened since the start of what has been read
    are those that are opened in it, and the search backwards finds all of them. -/
theorem InOrder.lists_retag {r : Reading} (h : r.InOrder) (first : Nat) :
    (r.retag first).lists =
      r.lists.map fun n => if (r.extentFrom first).Holds n.opening then n.asPattern else n := by
  have hdecreasing : r.lists.reverse.Pairwise fun a b => b.opening < a.opening :=
    List.pairwise_reverse.mpr (List.pairwise_map.mp h.increasing)
  rw [retag, retagFront_eq_map hdecreasing, List.map_reverse, List.reverse_reverse]
  refine List.map_congr_left ?_
  intro n hn
  have hlt := h.behind n.opening (List.mem_map_of_mem hn)
  have hiff : first ≤ n.opening ↔ (r.extentFrom first).Holds n.opening := by
    show first ≤ n.opening ↔ first ≤ n.opening ∧ n.opening ≤ r.position - 1
    omega
  simp only [hiff]

/-- The list literals found so far, each as its opening bracket and its use. -/
def uses (r : Reading) : List (Nat × ListUse) := r.lists.map fun n => (n.opening, n.use)

/-- The uses come with the opening brackets. -/
theorem map_fst_uses (r : Reading) : r.uses.map Prod.fst = r.openings := by
  rw [uses, openings, List.map_map]
  rfl

/-- List literals as they are found: arrays with some opening brackets. -/
def arrays (openings : List Nat) : List (Nat × ListUse) := openings.map fun p => (p, .array)

/-- A list literal is an array when it is opened. -/
theorem uses_openList (r : Reading) : r.openList.uses = r.uses ++ arrays [r.position] := by
  simp [uses, openList, arrays]

theorem uses_advance (r : Reading) : r.advance.uses = r.uses := by
  rw [uses, lists_advance, uses]

/-- An entry changes no use. -/
theorem uses_addEntry (r : Reading) (slot : Nat) (entry : Entry) :
    (r.addEntry slot entry).uses = r.uses := by
  simp only [uses, addEntry]
  apply List.ext_getElem?
  intro i
  rw [List.getElem?_map, List.getElem?_map, List.getElem?_modify]
  by_cases hi : slot = i <;> cases r.lists[i]? <;> simp [hi]

end Reading

/-! ### Records of assignments -/

namespace Assigned

/-- A list literal after some assignments: a pattern if it was opened in one of the targets. -/
def mark (record : List Assigned) (l : Nat × ListUse) : Nat × ListUse :=
  (l.1, if ∃ a ∈ record, a.target.Holds l.1 then .pattern else l.2)

/-- Without assignments nothing is marked. -/
theorem map_mark_nil (lists : List (Nat × ListUse)) : lists.map (mark []) = lists := by
  have hmark : ∀ l, mark [] l = l := by simp [mark]
  rw [List.map_congr_left fun l _ => hmark l, List.map_id']

theorem mark_singleton (a : Assigned) (l : Nat × ListUse) :
    mark [a] l = (l.1, if a.target.Holds l.1 then .pattern else l.2) := by simp [mark]

/-- Marking by a record is marking by its parts, one after the other. -/
theorem mark_append (record record' : List Assigned) (l : Nat × ListUse) :
    mark (record ++ record') l = mark record' (mark record l) := by
  by_cases h : ∃ a ∈ record, a.target.Holds l.1 <;>
    by_cases h' : ∃ a ∈ record', a.target.Holds l.1 <;>
    simp [mark, List.mem_append, or_and_right, exists_or, h, h']

/-- Targets that end before a list literal do not change it. -/
theorem mark_of_lt {record : List Assigned} {p : Nat} (h : ∀ a ∈ record, a.target.last < p)
    (use : ListUse) : mark record (p, use) = (p, use) := by
  have hnone : ¬∃ a ∈ record, a.target.Holds p := by
    rintro ⟨a, ha, -, hle⟩
    exact Nat.not_lt.mpr hle (h a ha)
  rw [mark, if_neg hnone]

/-- Whether an assignment is one that the rules read, with its sign behind the target, and marking the
    target changes just the list literals that are opened in it. -/
structure Exact (a : Assigned) : Prop where
  read : ∃ levels r, binary (expression levels) r = (some a.target, a.reading)
  sign : a.reading.at? .assign = true
  ends : a.target.last + 1 = a.reading.position
  lists : (a.reading.retag a.target.first).lists =
    a.reading.lists.map fun n => if a.target.Holds n.opening then n.asPattern else n

end Assigned

/-- Whether the list literals of `r` have become those of `s` by the assignments of a record and by no
    others, along with new list literals in between. -/
structure Noted (r : Reading) (record : List Assigned) (s : Reading) : Prop where
  onward : Onward r s
  openings : Added (· < ·) r.position s.position r.openings s.openings
  within : ∀ a ∈ record, r.position ≤ a.target.first ∧ a.target.first ≤ a.target.last ∧
    a.target.last < s.position
  readings : ∀ a ∈ record, Onward r a.reading
  targets : r.InOrder → ∀ a ∈ record, a.Exact
  uses : r.InOrder → ∃ new : List Nat, (∀ p ∈ new, r.position ≤ p) ∧
    s.uses = (r.uses ++ arrays new).map (Assigned.mark record)

namespace Noted

variable {r s u : Reading} {record record' : List Assigned}

/-- Literals stay in order along what is noted. -/
theorem inOrder (h : Noted r record s) (hr : r.InOrder) : s.InOrder :=
  hr.added h.onward.position_le h.openings

/-- A move that changes no list literal's bracket or use. -/
theorem ofUses (honward : Onward r s) (huses : s.uses = r.uses) : Noted r [] s where
  onward := honward
  openings := by
    have hopenings : s.openings = r.openings := by
      rw [← map_fst_uses, huses, map_fst_uses]
    rw [hopenings]
    exact .none _ _ _ _
  within := by simp
  readings := by simp
  targets := by simp
  uses := fun _ => ⟨[], by simp, by simp [huses, arrays, Assigned.map_mark_nil]⟩

theorem refl (r : Reading) : Noted r [] r := ofUses (.refl r) rfl

/-- Marks compose: what was found later lies behind all the earlier targets. -/
theorem trans (h : Noted r record s) (h' : Noted s record' u) : Noted r (record ++ record') u where
  onward := h.onward.trans h'.onward
  openings := h.openings.trans h'.openings h.onward.position_le h'.onward.position_le
    fun _ _ _ => Nat.lt_of_lt_of_le
  within := by
    intro a ha
    have hle := h.onward.position_le
    have hle' := h'.onward.position_le
    rcases List.mem_append.mp ha with ha | ha
    · have hbounds := h.within a ha
      omega
    · have hbounds := h'.within a ha
      omega
  readings := by
    intro a ha
    rcases List.mem_append.mp ha with ha | ha
    · exact h.readings a ha
    · exact h.onward.trans (h'.readings a ha)
  targets := by
    intro hr a ha
    rcases List.mem_append.mp ha with ha | ha
    · exact h.targets hr a ha
    · exact h'.targets (h.inOrder hr) a ha
  uses := by
    intro hr
    obtain ⟨new, hnew, huses⟩ := h.uses hr
    obtain ⟨new', hnew', huses'⟩ := h'.uses (h.inOrder hr)
    have hle := h.onward.position_le
    have hlater : (arrays new').map (Assigned.mark record) = arrays new' := by
      rw [arrays, List.map_map]
      refine List.map_congr_left ?_
      intro p hp
      refine Assigned.mark_of_lt ?_ _
      intro a ha
      have hlast := (h.within a ha).2.2
      have hge := hnew' p hp
      omega
    have hboth : (r.uses ++ (arrays new ++ arrays new')).map (Assigned.mark record) =
        s.uses ++ arrays new' := by
      rw [← List.append_assoc, List.map_append, hlater, huses]
    have hmark : ∀ l, Assigned.mark record' (Assigned.mark record l) =
        Assigned.mark (record ++ record') l := fun l => (Assigned.mark_append record record' l).symm
    refine ⟨new ++ new', ?_, ?_⟩
    · intro p hp
      rcases List.mem_append.mp hp with hp | hp
      · exact hnew p hp
      · exact Nat.le_trans hle (hnew' p hp)
    · calc u.uses
          = (s.uses ++ arrays new').map (Assigned.mark record') := huses'
        _ = ((r.uses ++ (arrays new ++ arrays new')).map (Assigned.mark record)).map
              (Assigned.mark record') := by
            rw [hboth]
        _ = (r.uses ++ arrays (new ++ new')).map (Assigned.mark (record ++ record')) := by
            rw [List.map_map, arrays, arrays, ← List.map_append, arrays]
            exact List.map_congr_left fun l _ => hmark l

/-- A move that changes no list literal, behind something that was noted. -/
theorem move (h : Noted r record s) (honward : Onward s u) (huses : u.uses = s.uses) :
    Noted r record u := by
  have hboth := h.trans (ofUses honward huses)
  rwa [List.append_nil] at hboth

theorem advance (h : Noted r record s) : Noted r record s.advance :=
  h.move (.advance s) (uses_advance s)

theorem report (h : Noted r record s) (fault : Fault) : Noted r record (s.report fault) :=
  h.move (.of_eq rfl rfl (Nat.le_refl _)) rfl

theorem expect (h : Noted r record s) (k : Kind) (fault : Fault) :
    Noted r record (s.expect k fault) := by
  unfold Reading.expect
  split
  · exact h.advance
  · exact h.report fault

theorem accept (h : Noted r record s) (k : Kind) : Noted r record (s.accept k) := by
  unfold Reading.accept
  split
  · exact h.advance
  · exact h

theorem advanceIfStuck (h : Noted r record s) (since : Reading) :
    Noted r record (s.advanceIfStuck since) := by
  unfold Reading.advanceIfStuck
  split
  · exact h.advance
  · exact h

theorem addEntry (h : Noted r record s) (slot : Nat) (entry : Entry) :
    Noted r record (s.addEntry slot entry) :=
  h.move (.addEntry s slot entry) (uses_addEntry s slot entry)

/-- What is noted from behind the token ahead. -/
theorem behind (h : Noted r.advance record s) : Noted r record s := (refl r).advance.trans h

/-- Opening a list literal is no assignment. -/
theorem openList (hat : r.at? .leftBracket = true) : Noted r [] r.openList := by
  have hadvance : r.openList.position = r.position + 1 := (moves_advance hat).position
  constructor
  case onward => exact onward_openList r
  case openings =>
    rw [openings_openList]
    exact .one (Nat.le_refl _) (by omega) _
  case within => simp
  case readings => simp
  case targets => simp
  case uses =>
    intro _
    refine ⟨[r.position], by simp, ?_⟩
    rw [uses_openList, Assigned.map_mark_nil]

/-- **Marking a target.** What has been read since `r` becomes the target of an assignment. -/
theorem retag (h : Noted r record s) (hlt : r.position < s.position) (hat : s.at? .assign = true)
    {levels : Nat} (hread : binary (expression levels) r = (some (s.extentFrom r.position), s)) :
    Noted r (record ++ [⟨s, s.extentFrom r.position⟩]) (s.retag r.position) where
  onward := h.onward.trans (.retag s r.position)
  openings := by
    rw [openings_retag]
    exact h.openings
  within := by
    intro a ha
    rcases List.mem_append.mp ha with ha | ha
    · exact h.within a ha
    · obtain rfl := List.mem_singleton.mp ha
      exact ⟨Nat.le_refl _, Nat.le_sub_one_of_lt hlt, Nat.sub_one_lt_of_lt hlt⟩
  readings := by
    intro a ha
    rcases List.mem_append.mp ha with ha | ha
    · exact h.readings a ha
    · obtain rfl := List.mem_singleton.mp ha
      exact h.onward
  targets := by
    intro hr a ha
    rcases List.mem_append.mp ha with ha | ha
    · exact h.targets hr a ha
    · obtain rfl := List.mem_singleton.mp ha
      exact ⟨⟨levels, r, hread⟩, hat, Nat.sub_add_cancel (Nat.zero_lt_of_lt hlt),
        (h.inOrder hr).lists_retag r.position⟩
  uses := by
    intro hr
    obtain ⟨new, hnew, huses⟩ := h.uses hr
    refine ⟨new, hnew, ?_⟩
    have hmark : ∀ n : Node, (fun n : Node => (n.opening, n.use))
        (if (s.extentFrom r.position).Holds n.opening then n.asPattern else n) =
          Assigned.mark [⟨s, s.extentFrom r.position⟩] (n.opening, n.use) := by
      intro n
      rw [Assigned.mark_singleton]
      split <;> rfl
    calc (s.retag r.position).uses
        = s.uses.map (Assigned.mark [⟨s, s.extentFrom r.position⟩]) := by
          rw [Reading.uses, (h.inOrder hr).lists_retag r.position, List.map_map, Reading.uses,
            List.map_map]
          exact List.map_congr_left fun n _ => hmark n
      _ = (r.uses ++ arrays new).map (Assigned.mark (record ++ [⟨s, s.extentFrom r.position⟩])) := by
          rw [huses, List.map_map]
          exact List.map_congr_left fun l _ => (Assigned.mark_append record _ l).symm

end Noted

/-! ### Every rule notes its record -/

open Assigned

/-- A record is noted turn by turn. -/
theorem noted_turns {step : Reading → Turn} {inStep : Reading → List Assigned}
    (hstep : ∀ r, Noted r (inStep r) (step r).reading) (r : Reading) :
    Noted r (inTurns step inStep r) (r.turns step) := by
  have hwithin : ∀ (bound : List Kind) (r : Reading),
      Noted r (inTurnsWithin step inStep bound r) (turnsWithin step bound r) := by
    intro bound
    induction bound with
    | nil =>
      intro r
      have hturn := hstep r
      rw [inTurnsWithin, turnsWithin]
      cases hs : step r <;> rw [hs] at hturn <;> exact hturn
    | cons k bound ih =>
      intro r
      have hturn := hstep r
      rw [inTurnsWithin, turnsWithin]
      cases hs : step r <;> rw [hs] at hturn
      · exact hturn.trans (ih _)
      · exact hturn
  exact hwithin r.rest r

/-- One step through items notes what the item does. -/
theorem noted_itemStep {close : Kind} {item : Reading → Bool × Reading}
    {inItem : Reading → List Assigned} (hitem : ∀ r, Noted r (inItem r) (item r).2) (r : Reading) :
    Noted r (inItemStep close inItem r) (itemStep close item r).reading := by
  unfold inItemStep itemStep
  cases hend : (r.at? close || r.rest.isEmpty)
  · cases hcomma : r.at? .comma
    · have hfound := hitem r
      simp only [Bool.or_self, Bool.false_eq_true, if_false]
      rcases hr : item r with ⟨_ | _, s⟩ <;> rw [hr] at hfound
      · exact hfound.advanceIfStuck r
      · dsimp only
        split
        · exact hfound.advance
        · exact hfound
    · exact ((Noted.refl r).report _).advance
  · exact .refl r

/-- A rule that takes another one and repeats a step notes what both of them do. -/
theorem noted_chain {rule first : Rule} {step : Reading → Turn}
    {inFirst inStep : Reading → List Assigned} (hnone : ∀ r s, first r = (none, s) → rule r = (none, s))
    (hsome : ∀ r e s, first r = (some e, s) →
      rule r = (some ((s.turns step).extentFrom e.first), s.turns step))
    (hfirst : ∀ r, Noted r (inFirst r) (first r).2)
    (hstep : ∀ r, Noted r (inStep r) (step r).reading) (r : Reading) :
    Noted r (inChain first inFirst step inStep r) (rule r).2 := by
  have hr := hfirst r
  unfold inChain
  rcases heq : first r with ⟨_ | e, s⟩ <;> rw [heq] at hr
  · rw [hnone r s heq]
    exact hr
  · rw [hsome r e s heq]
    exact hr.trans (noted_turns hstep s)

section

variable {nested : Rule} {inNested : Reading → List Assigned}
  (hnested : ∀ r, Noted r (inNested r) (nested r).2)

include hnested

/-- What is noted in arguments are their assignments. -/
theorem noted_arguments (r : Reading) :
    Noted r (inArguments nested inNested r) (arguments nested r) := by
  have hitem : ∀ r, Noted r (inNested r) (nested.item r).2 := hnested
  exact (noted_turns (noted_itemStep hitem) r).expect _ _

/-- What is noted in a sequence are its assignments. -/
theorem noted_sequence (r : Reading) :
    Noted r (inSequence nested inNested r) (sequence nested r).2 := by
  refine noted_chain (fun r s hr => by rw [sequence, hr]) (fun r e s hr => by rw [sequence, hr])
    hnested ?_ r
  intro r
  unfold inSequenceStep sequenceStep
  split
  · exact (hnested r.advance).behind
  · exact .refl r

/-- One step through the entries of a list literal notes what the entry does. -/
theorem noted_listStep (slot : Nat) (r : Reading) :
    Noted r (inItemStep .rightBracket inNested r) (listStep nested slot r).reading := by
  unfold inItemStep listStep
  cases hend : (r.at? .rightBracket || r.rest.isEmpty)
  · cases hcomma : r.at? .comma
    · have hfound := hnested r
      simp only [Bool.or_self, Bool.false_eq_true, if_false]
      rcases hr : nested r with ⟨_ | e, s⟩ <;> rw [hr] at hfound
      · exact hfound.advanceIfStuck r
      · have hadd := hfound.addEntry slot (.element e)
        dsimp only
        split
        · exact hadd.advance
        · exact hadd
    · exact ((Noted.refl r).addEntry slot (.hole r.position)).advance
  · exact .refl r

/-- What is noted in a list literal are the assignments in its entries. -/
theorem noted_listLiteral {r : Reading} (hat : r.at? .leftBracket = true) :
    Noted r (inList nested inNested r) (listLiteral nested r).2 := by
  have hentries := noted_turns (noted_listStep hnested r.lists.length) r.openList
  exact ((Noted.openList hat).trans hentries).expect _ _

/-- What is noted in a property are the assignments in its value. -/
theorem noted_property (r : Reading) : Noted r (inProperty inNested r) (property nested r).2 := by
  cases hpeek : r.peek? with
  | none =>
    simp only [inProperty, property, hpeek]
    exact (Noted.refl r).report _
  | some k =>
    simp only [inProperty, property, hpeek]
    cases k
    case operator => exact hnested r
    case name | string | number =>
      dsimp only
      split
      · exact (hnested r.advance.advance).behind.behind
      · exact (Noted.refl r).advance
    all_goals exact (Noted.refl r).report _

/-- What is noted in an object literal are the assignments in its properties. -/
theorem noted_objectLiteral (r : Reading) :
    Noted r (inObject nested inNested r) (objectLiteral nested r).2 :=
  ((noted_turns (noted_itemStep (noted_property hnested)) r.advance).expect _ _).behind

/-- What is noted in a primary expression are the assignments inside of its brackets. -/
theorem noted_primary (r : Reading) : Noted r (inPrimary nested inNested r) (primary nested r).2 := by
  cases hpeek : r.peek? with
  | none =>
    simp only [inPrimary, primary, hpeek]
    exact (Noted.refl r).report _
  | some k =>
    simp only [inPrimary, primary, hpeek]
    cases k
    case leftParen => exact (noted_arguments hnested r.advance).behind
    case leftBracket => exact noted_listLiteral hnested (beq_iff_eq.mpr hpeek)
    case leftBrace => exact noted_objectLiteral hnested r
    case name | number | string | markup => exact (Noted.refl r).advance
    -- Every other token is reported, and passed over or left alone.
    all_goals
      dsimp only
      split
      · exact (Noted.refl r).report _
      · exact ((Noted.refl r).report _).advance

/-- What is noted in a postfixed expression are its assignments, also those in calls and indices. -/
theorem noted_postfixed (r : Reading) :
    Noted r (inPostfixed nested inNested r) (postfixed nested r).2 := by
  refine noted_chain (fun r s hr => by rw [postfixed, hr]) (fun r e s hr => by rw [postfixed, hr])
    (noted_primary hnested) ?_ r
  intro r
  cases hpeek : r.peek? with
  | none =>
    simp only [inPostfixStep, postfixStep, hpeek]
    exact .refl r
  | some k =>
    simp only [inPostfixStep, postfixStep, hpeek]
    cases k
    case leftParen => exact (noted_arguments hnested r.advance).behind
    case leftBracket => exact ((noted_sequence hnested r.advance).expect _ _).behind
    case dot => exact (Noted.refl r).advance.expect _ _
    all_goals exact .refl r

/-- Operators in front of an expression add no assignments. -/
theorem noted_unary (r : Reading) : Noted r (inUnary nested inNested r) (unary nested r).2 := by
  have hskip : Noted r [] r.skipOperators := .ofUses (tracks_onward.skipOperators r) rfl
  rw [unary_snd]
  exact hskip.trans (noted_postfixed hnested r.skipOperators)

/-- What is noted in a chain of operators are the assignments in its operands. -/
theorem noted_binary (r : Reading) : Noted r (inBinary nested inNested r) (binary nested r).2 := by
  refine noted_chain (fun r s hr => by rw [binary, hr]) (fun r e s hr => by rw [binary, hr])
    (noted_unary hnested) ?_ r
  intro r
  unfold inBinaryStep binaryStep
  cases hat : r.at? .operator
  · exact .refl r
  · cases hstarts : r.advance.peek?.any startsOperand <;>
      simp only [Bool.and_true, Bool.and_false, Bool.false_eq_true, if_true, if_false, hstarts]
    · exact (Noted.refl r).advance
    · exact (noted_unary hnested r.advance).behind

end

/-- An assignment is noted behind those in its target, and in front of those in its value. -/
theorem noted_assignment {levels : Nat}
    (hnested : ∀ r, Noted r (inExpression levels r) (expression levels r).2) (r : Reading) :
    Noted r (inExpression (levels + 1) r) (expression (levels + 1) r).2 := by
  have htarget := noted_binary hnested r
  show Noted r (inAssignment (expression levels) (inExpression levels) r)
    (assignment (expression levels) r).2
  unfold inAssignment assignment
  rcases hr : binary (expression levels) r with ⟨_ | target, s⟩ <;> rw [hr] at htarget
  · exact htarget
  · obtain ⟨rfl, hlt⟩ :=
      ((tracks_onward.keeps_binary (movesOn_expression levels)).outcome hr).extent target rfl
    dsimp only
    split
    · next hat =>
      -- The value is read from where the target has been marked.
      have hvalue := (hnested (s.retag r.position).advance).behind
      have hassigned := (htarget.retag hlt hat hr).trans hvalue
      rwa [List.append_assoc] at hassigned
    · exact htarget

/-- **Expressions note their assignments.** -/
theorem noted_expression (levels : Nat) (r : Reading) :
    Noted r (inExpression levels r) (expression levels r).2 := by
  induction levels generalizing r with
  | zero => exact ((Noted.refl r).report _).move (tracks_onward.skipNested _) rfl
  | succ levels ih => exact noted_assignment ih r

/-- **Programs note their assignments.** -/
theorem noted_readModule (kinds : List Kind) :
    Noted (ofKinds kinds) (inModule kinds) (readModule kinds) := by
  refine noted_turns ?_ (ofKinds kinds)
  intro r
  unfold inModuleStep moduleStep
  cases hend : r.rest.isEmpty
  · cases hsemicolon : r.at? .semicolon
    · have hstatement := noted_sequence (noted_expression maxDepth) r
      exact (hstatement.accept .semicolon).advanceIfStuck r
    · exact (Noted.refl r).advance
  · exact .refl r

/-- The list literals of a program are those that were opened in a target, as patterns, and the others,
    as arrays. -/
theorem use_of_mem_lists {kinds : List Kind} {n : Node} (hn : n ∈ (readModule kinds).lists) :
    n.use = if ∃ a ∈ inModule kinds, a.target.Holds n.opening then .pattern else .array := by
  obtain ⟨new, -, huses⟩ := (noted_readModule kinds).uses (inOrder_ofKinds kinds)
  have hmem : (n.opening, n.use) ∈ (readModule kinds).uses := List.mem_map_of_mem hn
  rw [huses] at hmem
  obtain ⟨l, hl, hmark⟩ := List.mem_map.mp hmem
  obtain ⟨p, -, rfl⟩ : ∃ p ∈ new, (p, ListUse.array) = l := by
    simpa [Reading.uses, ofKinds, arrays] using hl
  obtain ⟨rfl, huse⟩ := Prod.mk.inj hmark
  exact huse.symm

end Grammar

end CommaStyle
