import CommaStyle.Proofs.Grammar.Tracking

namespace CommaStyle.Grammar

open Reading

/-!
# The rules move on

On any input, every turn of a repeated step passes over a token, so that the turns never run out and
a whole program is read to its end.

* `Onward` — some of the tokens ahead are now behind, and no list literal was lost. All rules keep it;
* `IsLoop` names the repeated steps of the grammar, and `IsLoop.passes` says that each of their turns
  passes over a token;
* `turns_of_again`, `turns_of_stop` — hence a repeated step can be unrolled without a bound;
* `rest_readModule` — nothing is left of a program.
-/

/-- Whether some of the tokens ahead of `r` are behind `s`, with all the list literals found so far. -/
structure Onward (r s : Reading) : Prop where
  passed : ∃ w, r.rest = w ++ s.rest ∧ s.position = r.position + w.length
  lists : r.lists.length ≤ s.lists.length

namespace Onward

variable {r s u : Reading}

theorem refl (r : Reading) : Onward r r := ⟨⟨[], rfl, rfl⟩, Nat.le_refl _⟩

/-- Moving on, and then moving on from there. -/
theorem trans (h : Onward r s) (h' : Onward s u) : Onward r u := by
  obtain ⟨⟨v, hv, hposition⟩, hlists⟩ := h
  obtain ⟨⟨w, hw, hposition'⟩, hlists'⟩ := h'
  refine ⟨⟨v ++ w, by rw [hv, hw, List.append_assoc], ?_⟩, Nat.le_trans hlists hlists'⟩
  rw [hposition', hposition, List.length_append, Nat.add_assoc]

theorem advance (r : Reading) : Onward r r.advance := by
  cases hr : r.rest with
  | nil =>
    have hsame : r.advance = r := by rw [Reading.advance, hr]
    rw [hsame]
    exact refl r
  | cons k w =>
    rw [advance_of_rest hr]
    exact ⟨⟨[k], hr, rfl⟩, Nat.le_refl _⟩

/-- Readings at the same token, the second with as many list literals or more. -/
theorem of_eq (hrest : s.rest = r.rest) (hposition : s.position = r.position)
    (hlists : r.lists.length ≤ s.lists.length) : Onward r s :=
  ⟨⟨[], hrest.symm, hposition⟩, hlists⟩

theorem addEntry (r : Reading) (slot : Nat) (entry : Entry) : Onward r (r.addEntry slot entry) :=
  of_eq rfl rfl (by simp [Reading.addEntry])

theorem retag (r : Reading) (first : Nat) : Onward r (r.retag first) := by
  have hlength := congrArg List.length (openings_retag r first)
  rw [openings, openings, List.length_map, List.length_map] at hlength
  exact of_eq rfl rfl (Nat.le_of_eq hlength.symm)

/-- Moving on never leads back. -/
theorem position_le (h : Onward r s) : r.position ≤ s.position := by
  obtain ⟨⟨w, -, hposition⟩, -⟩ := h
  omega

/-- Where the position has changed, fewer tokens are ahead. -/
theorem length_lt (h : Onward r s) (hlt : r.position < s.position) :
    s.rest.length < r.rest.length := by
  obtain ⟨⟨w, hw, hposition⟩, -⟩ := h
  rw [hw, List.length_append]
  omega

/-- Moving on leaves no more tokens ahead. -/
theorem length_le (h : Onward r s) : s.rest.length ≤ r.rest.length := by
  obtain ⟨⟨w, hw, -⟩, -⟩ := h
  rw [hw, List.length_append]
  omega

/-- What follows a token has fewer tokens ahead than there were with it. -/
theorem length_lt_of_at? {k : Kind} (hat : r.at? k = true) (h : Onward r.advance s) :
    s.rest.length < r.rest.length := by
  refine ((advance r).trans h).length_lt ?_
  have hle := h.position_le
  rw [(moves_advance hat).position, List.length_singleton] at hle
  omega

/-- Passing over a token where nothing was read leaves fewer tokens ahead. -/
theorem length_lt_advanceIfStuck (h : Onward r s) (hne : r.rest.isEmpty = false) :
    (s.advanceIfStuck r).rest.length < r.rest.length := by
  rw [advanceIfStuck]
  split
  · next hsame =>
    obtain ⟨⟨w, hw, hposition⟩, -⟩ := h
    obtain rfl : w = [] := List.length_eq_zero_iff.mp (by omega)
    obtain ⟨k, v, hv⟩ : ∃ k v, s.rest = k :: v := by
      rw [List.nil_append] at hw
      rw [← hw]
      exact List.exists_cons_of_ne_nil (by simpa using hne)
    rw [advance_of_rest hv, hw, hv]
    exact Nat.lt_succ_self _
  · next hne =>
    have hle := h.position_le
    exact h.length_lt (by omega)

end Onward

/-! ### All rules move on -/

/-- Whether a rule moves on, and over a token if it finds something. -/
abbrev Rule.MovesOn (rule : Rule) : Prop := rule.Keeps Onward fun _ _ => True

theorem onward_expect (r : Reading) (k : Kind) (fault : Fault) : Onward r (r.expect k fault) := by
  unfold expect
  split
  · exact .advance r
  · exact .of_eq rfl rfl (Nat.le_refl _)

theorem onward_openList (r : Reading) : Onward r r.openList := by
  obtain ⟨hpassed, -⟩ := Onward.advance r
  exact ⟨hpassed, by simp [openList]⟩

/-- The entries of a list literal move on. -/
theorem tracksEntries_onward : TracksEntries Onward where
  refl := .refl
  trans := .trans
  lists_le := Onward.lists
  advance := .advance
  report _ _ := .of_eq rfl rfl (Nat.le_refl _)
  openList _ := onward_openList _
  hole _ := .addEntry _ _ _
  element hs _ _ := hs.trans (.addEntry _ _ _)

/-- All rules move on. -/
theorem tracks_onward : Tracks Onward fun _ _ => True where
  refl := .refl
  trans := .trans
  position_le := Onward.position_le
  advance := .advance
  report _ _ := .of_eq rfl rfl (Nat.le_refl _)
  retag h := h.trans (.retag _ _)
  list := tracksEntries_onward.list
  leave _ := trivial
  drop _ _ := trivial
  tooDeep _ := trivial

/-- The rule for expressions moves on. -/
theorem movesOn_expression (levels : Nat) : (expression levels).MovesOn :=
  tracks_onward.keeps_expression levels

/-! ### Every turn passes over a token -/

/-- Whether a turn that asks for more has passed over a token, and one that stops has done so or has
    done nothing. -/
def Turn.Shortens (r : Reading) : Turn → Prop :=
  Turn.Holds (fun s => s.rest.length < r.rest.length)
    (fun s => s = r ∨ s.rest.length < r.rest.length)

/-- A rule for items that moves on, and over a token if it finds one. -/
structure ItemMovesOn (item : Reading → Bool × Reading) : Prop where
  onward (r : Reading) : Onward r (item r).2
  found (r : Reading) : (item r).1 = true → r.position < (item r).2.position

/-- A step through items passes over a token, or finds the end. -/
theorem itemStep_shortens {close : Kind} {item : Reading → Bool × Reading}
    (hitem : ItemMovesOn item) (r : Reading) : (itemStep close item r).Shortens r := by
  unfold itemStep
  split
  · exact .inl rfl
  next hend =>
  have hne : r.rest.isEmpty = false := by
    rw [Bool.or_eq_true, not_or, Bool.not_eq_true, Bool.not_eq_true] at hend
    exact hend.2
  split
  · next hcomma =>
    have hreport : (r.report .unexpectedComma).at? .comma = true := hcomma
    exact length_rest_advance hreport
  have honward := hitem.onward r
  have hfound := hitem.found r
  rcases hr : item r with ⟨_ | _, s⟩ <;> rw [hr] at honward hfound
  · exact honward.length_lt_advanceIfStuck hne
  · have hlt := honward.length_lt (hfound rfl)
    dsimp only
    split
    · exact Nat.lt_of_le_of_lt (Onward.advance s).length_le hlt
    · exact .inr hlt

section

variable {nested : Rule} (hnested : nested.MovesOn)

include hnested

/-- An expression moves on as an item. -/
theorem itemMovesOn_item : ItemMovesOn nested.item := by
  refine ⟨fun r => (hnested r).related, fun r hfound => ?_⟩
  obtain ⟨e, he⟩ := Option.isSome_iff_exists.mp hfound
  exact ((hnested r).extent e he).2

/-- A property moves on as an item. -/
theorem itemMovesOn_property : ItemMovesOn (property nested) := by
  refine ⟨tracks_onward.property hnested, fun r hfound => ?_⟩
  cases hr : r.rest with
  | nil => simp [property, peek?, hr] at hfound
  | cons k w =>
    have hat : r.at? k = true := at?_iff.mpr ⟨w, hr⟩
    by_cases hk : isKey k = true
    · -- Behind a key there may be a value, but the key has been passed over.
      have hadvance : r.position < r.advance.position := by
        rw [(moves_advance hat).position]
        exact Nat.lt_succ_self _
      rw [property_of_key hr hk]
      dsimp only
      split
      · exact Nat.lt_of_lt_of_le hadvance
          ((Onward.advance _).trans (hnested _).related).position_le
      · exact hadvance
    · unfold property at hfound ⊢
      rw [peek?_of_rest hr] at hfound ⊢
      cases k <;> first | exact absurd rfl hk | exact (itemMovesOn_item hnested).found r hfound |
        exact absurd hfound (by simp)

/-- A step through a sequence passes over a comma, or finds the end. -/
theorem sequenceStep_shortens (r : Reading) : (sequenceStep nested r).Shortens r := by
  unfold sequenceStep
  split
  · next hcomma => exact (hnested _).related.length_lt_of_at? hcomma
  · exact .inl rfl

/-- A step through the entries of a list literal passes over a token, or finds the end. -/
theorem listStep_shortens (slot : Nat) (r : Reading) : (listStep nested slot r).Shortens r := by
  unfold listStep
  split
  · exact .inl rfl
  next hend =>
  have hne : r.rest.isEmpty = false := by
    rw [Bool.or_eq_true, not_or, Bool.not_eq_true, Bool.not_eq_true] at hend
    exact hend.2
  split
  · next hcomma =>
    have hadd : (r.addEntry slot (.hole r.position)).at? .comma = true := hcomma
    exact length_rest_advance hadd
  rcases hr : nested r with ⟨_ | e, s⟩
  · exact (hnested.outcome hr).related.length_lt_advanceIfStuck hne
  · have houtcome := hnested.outcome hr
    have hlt : s.rest.length < r.rest.length :=
      houtcome.related.length_lt (houtcome.extent e rfl).2
    dsimp only
    split
    · exact Nat.lt_of_le_of_lt (Onward.advance (s.addEntry slot (.element e))).length_le hlt
    · exact .inr hlt

/-- A step through suffixes passes over a token, or finds the end. -/
theorem postfixStep_shortens (r : Reading) : (postfixStep nested r).Shortens r := by
  unfold postfixStep
  split
  · next hpeek =>
    exact (tracks_onward.arguments hnested _).length_lt_of_at? (beq_iff_eq.mpr hpeek)
  · next hpeek =>
    have hindex := (tracks_onward.keeps_sequence hnested r.advance).related
    exact (hindex.trans (onward_expect _ _ _)).length_lt_of_at? (beq_iff_eq.mpr hpeek)
  · next hpeek => exact (onward_expect _ _ _).length_lt_of_at? (beq_iff_eq.mpr hpeek)
  · exact .inl rfl

/-- A step through a chain passes over an operator, or finds the end. -/
theorem binaryStep_shortens (r : Reading) : (binaryStep nested r).Shortens r := by
  unfold binaryStep
  split
  · next hoperator =>
    show (if _ then _ else _ : Reading).rest.length < r.rest.length
    split
    · exact (tracks_onward.keeps_unary hnested _).related.length_lt_of_at? hoperator
    · exact length_rest_advance hoperator
  · exact .inl rfl

end

/-- A step through statements passes over a token, or finds the end of the text. -/
theorem moduleStep_shortens (r : Reading) : (moduleStep r).Shortens r := by
  unfold moduleStep
  split
  · exact .inl rfl
  next hne =>
  split
  · next hsemicolon => exact length_rest_advance hsemicolon
  · have hstatement := (tracks_onward.keeps_sequence (movesOn_expression maxDepth) r).related
    exact (hstatement.trans (tracks_onward.accept _ _)).length_lt_advanceIfStuck
      (Bool.eq_false_iff.mpr hne)

/-- The repeated steps of the grammar. -/
inductive IsLoop : (Reading → Turn) → Prop where
  | statements : IsLoop moduleStep
  | sequence (levels : Nat) : IsLoop (sequenceStep (expression levels))
  | arguments (levels : Nat) : IsLoop (itemStep .rightParen (expression levels).item)
  | properties (levels : Nat) : IsLoop (itemStep .rightBrace (property (expression levels)))
  | entries (levels slot : Nat) : IsLoop (listStep (expression levels) slot)
  | suffixes (levels : Nat) : IsLoop (postfixStep (expression levels))
  | operands (levels : Nat) : IsLoop (binaryStep (expression levels))

/-- **Every turn counts.** A turn of a repeated step passes over a token, except for one that finds
    nothing to do and stops. -/
theorem IsLoop.shortens {step : Reading → Turn} (h : IsLoop step) (r : Reading) :
    (step r).Shortens r := by
  cases h with
  | statements => exact moduleStep_shortens r
  | sequence levels => exact sequenceStep_shortens (movesOn_expression levels) r
  | arguments levels => exact itemStep_shortens (itemMovesOn_item (movesOn_expression levels)) r
  | properties levels => exact itemStep_shortens (itemMovesOn_property (movesOn_expression levels)) r
  | entries levels slot => exact listStep_shortens (movesOn_expression levels) slot r
  | suffixes levels => exact postfixStep_shortens (movesOn_expression levels) r
  | operands levels => exact binaryStep_shortens (movesOn_expression levels) r

/-! ### Repeated steps without a bound -/

section

variable {step : Reading → Turn} (hstep : ∀ r, (step r).Shortens r) {r s : Reading}

include hstep

/-- Any bound will do that is not below the number of tokens ahead. -/
theorem turnsWithin_eq_turns {bound : List Kind} (hbound : r.rest.length ≤ bound.length) :
    turnsWithin step bound r = r.turns step := by
  have heq : ∀ (bound bound' : List Kind) (r : Reading), r.rest.length ≤ bound.length →
      r.rest.length ≤ bound'.length → turnsWithin step bound r = turnsWithin step bound' r := by
    intro bound
    induction bound with
    | nil =>
      intro bound' r h _
      have hturn := hstep r
      rw [turnsWithin]
      -- No token is ahead, so that no turn can ask for more.
      cases hs : step r with
      | again s =>
        rw [hs] at hturn
        exact absurd (Nat.lt_of_lt_of_le hturn h) (Nat.not_lt_zero _)
      | stop s => cases bound' <;> simp [turnsWithin, hs]
    | cons k bound ih =>
      intro bound' r h h'
      have hturn := hstep r
      rw [turnsWithin]
      cases hs : step r with
      | again s =>
        rw [hs] at hturn
        have hlt : s.rest.length < r.rest.length := hturn
        cases bound' with
        | nil => exact absurd (Nat.lt_of_lt_of_le hlt h') (Nat.not_lt_zero _)
        | cons k' bound' =>
          simp only [turnsWithin, hs]
          rw [List.length_cons] at h h'
          exact ih bound' s (by omega) (by omega)
      | stop s => cases bound' <;> simp [turnsWithin, hs]
  exact heq bound r.rest r hbound (Nat.le_refl _)

/-- A turn that asks for more is followed by the others. -/
theorem turns_of_again (h : step r = .again s) : r.turns step = s.turns step := by
  have hlt : s.rest.length < r.rest.length := by
    have hturn := hstep r
    rwa [h] at hturn
  rw [turns]
  cases hr : r.rest with
  | nil => simp [hr] at hlt
  | cons k w =>
    rw [hr, List.length_cons] at hlt
    simp only [turnsWithin, h]
    exact turnsWithin_eq_turns hstep (Nat.lt_succ_iff.mp hlt)

omit hstep in
/-- A turn that stops is the last. -/
theorem turns_of_stop (h : step r = .stop s) : r.turns step = s := by
  rw [turns]
  cases r.rest <;> simp [turnsWithin, h]

/-- The turns end in one that stops. -/
theorem exists_stop_turns (r : Reading) : ∃ s, step s = .stop (r.turns step) := by
  induction hn : r.rest.length using Nat.strongRecOn generalizing r with
  | _ n ih =>
    cases hs : step r with
    | stop s => exact ⟨r, by rw [turns_of_stop hs, hs]⟩
    | again s =>
      have hlt : s.rest.length < r.rest.length := by
        have hturn := hstep r
        rwa [hs] at hturn
      rw [turns_of_again hstep hs]
      exact ih _ (hn ▸ hlt) s rfl

end

/-- **Nothing is left.** A program is read to its end. -/
theorem rest_readModule (kinds : List Kind) : (readModule kinds).rest = [] := by
  obtain ⟨s, hs⟩ := exists_stop_turns moduleStep_shortens (ofKinds kinds)
  unfold moduleStep at hs
  split at hs
  · next hempty =>
    have hsame : s = readModule kinds := Turn.stop.inj hs
    rw [← hsame]
    exact List.isEmpty_iff.mp hempty
  · split at hs <;> cases hs

/-- A program is read up to the position behind its last token. -/
theorem position_readModule (kinds : List Kind) : (readModule kinds).position = kinds.length := by
  obtain ⟨⟨w, hw, hposition⟩, -⟩ := tracks_onward.readModule kinds
  have hall : kinds = w := by
    rw [rest_readModule, List.append_nil] at hw
    exact hw
  rw [hposition, hall]
  exact Nat.zero_add _

end CommaStyle.Grammar
