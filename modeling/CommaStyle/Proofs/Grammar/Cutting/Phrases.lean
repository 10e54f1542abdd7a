import CommaStyle.Proofs.Grammar.Completeness
import CommaStyle.Proofs.Grammar.Cutting.Basic
import CommaStyle.Proofs.Grammar.Progress

namespace CommaStyle.Grammar

open Reading Grammar.Derivation

/-!
# Phrases with parts cut off

What the rules make of each phrase, if it may hold expressions that are cut off.

* `ItemSkims` — a rule passes over a phrase, and says whether it found something;
* `LoopSkims` — a repeated step passes over a phrase;
* `IsSkimmed` says for each phrase what the rules make of it. There is a lemma for each phrase, from
  what the rules make of its parts.

An expression that is cut off is not found. Only the rules for sequences, arguments, properties and
entries tell it from one that is.
-/

section

variable {p : Phrase} {body : List Part}

/-- Whether a rule for items passes over what is derived from a phrase, if what follows is as asked,
    and whether it finds something. -/
def ItemSkims (levels : Nat) (item : Reading → Bool × Reading) (found : Bool) (follow : Kind → Bool)
    (h : Production p body) (d : Derivation body) : Prop :=
  ∀ (r : Reading) (rest : List Kind), r.rest = d.kinds ++ rest → Ahead follow rest →
    ∃ s, item r = (found, s) ∧ r.Skims levels (single h d) s

/-- Whether a repeated step passes over what is derived from a phrase, if what follows is as asked. -/
def LoopSkims (levels : Nat) (step : Reading → Turn) (follow : Kind → Bool) (h : Production p body)
    (d : Derivation body) : Prop :=
  ∀ (r : Reading) (rest : List Kind), r.rest = d.kinds ++ rest → Ahead follow rest →
    r.Skims levels (single h d) (r.turns step)

/-- Whether the rules pass over what is derived from a phrase, with so many levels of nesting left. -/
def IsSkimmed (levels : Nat) :
    {p : Phrase} → {body : List Part} → Production p body → Derivation body → Prop
  | .program true, _, h, d => levels = maxDepth → LoopSkims levels moduleStep (fun _ => false) h d
  | .sequence, _, h, d =>
    ItemSkims levels (sequence (expression levels)).item (levels != 0) endsSequence h d
  | .more, _, h, d => LoopSkims levels (sequenceStep (expression levels)) endsSequence h d
  | .expression _, _, h, d =>
    ItemSkims levels (expression levels).item (levels != 0) endsExpression h d
  | .target _, _, h, d | .binary _, _, h, d =>
    ItemSkims levels (binary (expression levels)).item true endsOperands h d
  | .operands, _, h, d => LoopSkims levels (binaryStep (expression levels)) endsOperands h d
  | .unary _, _, h, d => ItemSkims levels (unary (expression levels)).item true endsOperand h d
  | .postfixed, _, h, d =>
    ItemSkims levels (postfixed (expression levels)).item true endsOperand h d
  | .suffixes, _, h, d => LoopSkims levels (postfixStep (expression levels)) endsOperand h d
  | .primary, _, h, d =>
    ItemSkims levels (primary (expression levels)).item true (fun _ => true) h d
  | .arguments, _, h, d =>
    LoopSkims levels (itemStep .rightParen (expression levels).item) (· == .rightParen) h d
  | .list, _, h, d =>
    ItemSkims levels (listLiteral (expression levels)).item true (fun _ => true) h d
  | .entries, _, h, d =>
    ∀ slot, LoopSkims levels (listStep (expression levels) slot) (· == .rightBracket) h d
  | .element, _, h, d =>
    ItemSkims levels (expression levels).item (levels != 0) endsExpression h d
  | .properties, _, h, d =>
    LoopSkims levels (itemStep .rightBrace (property (expression levels))) (· == .rightBrace) h d
  | .property, body, h, d =>
    ItemSkims levels (property (expression levels))
      (levels != 0 || !Phrase.property.isItem body) endsProperty h d
  | .hole, _, _, _ | .program false, _, _, _ => True

end

section

variable {r s : Reading} {rule : Rule}

/-- An item that is found is an expression that is found. -/
theorem Rule.exists_of_item (h : rule.item r = (true, s)) : ∃ e, rule r = (some e, s) := by
  rcases hr : rule r with ⟨_ | e, u⟩ <;> simp [Rule.item, hr] at h
  exact ⟨e, by rw [h]⟩

/-- An item that is not found is an expression that is not. -/
theorem Rule.eq_none_of_item (h : rule.item r = (false, s)) : rule r = (none, s) := by
  rcases hr : rule r with ⟨_ | e, u⟩ <;> simp [Rule.item, hr] at h
  rw [h]

/-- Reading an item leads where reading the expression does. -/
theorem Rule.snd_of_item {found : Bool} (h : rule.item r = (found, s)) : (rule r).2 = s :=
  congrArg Prod.snd h

end

section

variable {levels : Nat} {b : Bool} {body : List Part}

/-! ### Expressions -/

/-- An expression for which no level is left. -/
theorem skims_tooDeep (h : Production (.expression b) body) (d : Derivation body) :
    IsSkimmed 0 h d := by
  intro r rest hr hrest
  have hskip := skipNested_of_derivation h d (r := r.report .nestingTooDeep) hr hrest
  refine ⟨(r.report .nestingTooDeep).skipNested, rfl, ?_⟩
  rw [hskip]
  constructor
  · simpa using hr
  · simp [report]
  · simp [Reading.openings, Derivation.openings, report, Phrase.levelsWithin]
  · simp [faults, report, Phrase.levelsWithin]

/-- An expression takes a level, and its parts have one less. -/
theorem skims_expression (h : Production (.expression b) body) (d : Derivation body)
    (ih : d.Each fun h d => IsSkimmed levels h d) : IsSkimmed (levels + 1) h d := by
  intro r rest hr hrest
  match body, h, d, ih with
  | _, .value b, .phrase h₁ d₁ .nil, ih =>
    obtain ⟨ih₁, -⟩ := ih
    simp only [kinds, List.append_nil] at hr
    obtain ⟨s, hs, hskims⟩ := ih₁ r rest hr (hrest.mono fun k hk => by simp [endsOperands, hk])
    obtain ⟨e, hs⟩ := Rule.exists_of_item hs
    have hat : s.at? .assign = false :=
      Ahead.at?_eq_false (hskims.rest_of_single hr ▸ hrest) rfl
    refine ⟨s, ?_, hskims.single rfl (by simp)⟩
    simp [Rule.item, expression, assignment, hs, hat]
  | _, .assignment b c, .phrase h₁ d₁ (.token _ (.phrase h₂ d₂ .nil)), ih =>
    obtain ⟨ih₁, ih₂, -⟩ := ih
    simp only [kinds, List.append_nil, List.append_assoc, List.cons_append] at hr
    obtain ⟨s, hs, hskims⟩ := ih₁ r _ hr (ahead_cons.mpr rfl)
    obtain ⟨e, hs⟩ := Rule.exists_of_item hs
    have hrest' := hskims.rest_of_single hr
    have hat : s.at? .assign = true := at?_iff.mpr ⟨_, hrest'⟩
    have hretag : (s.retag e.first).at? .assign = true := hat
    obtain ⟨u, hu, hskims'⟩ := ih₂ _ rest ((moves_advance hretag).rest_eq hrest') hrest
    refine ⟨u, ?_, ?_⟩
    · simp [Rule.item, expression, assignment, hs, hat, Rule.snd_of_item hu]
    · have hall := (hskims.retag e.first).phrase (.token hretag hskims') (by simp)
      exact hall.single rfl (by simp)

/-- A target is passed over as the operands that it is. -/
theorem skims_target (h : Production (.target b) body) (d : Derivation body)
    (ih : d.Each fun h d => IsSkimmed levels h d) : IsSkimmed levels h d := by
  cases h
  match d, ih with
  | .phrase h₁ d₁ .nil, ih =>
    obtain ⟨ih₁, -⟩ := ih
    intro r rest hr hrest
    obtain ⟨s, hs, hskims⟩ := ih₁ r rest (by simpa using hr) hrest
    exact ⟨s, hs, hskims.single rfl (by simp)⟩

/-! ### A rule with a repeated step behind it -/

/-- A rule that takes another rule and then repeats a step, if the other rule found something. -/
theorem skims_chain {body₁ body₂ : List Part} {rule first : Rule} {step : Reading → Turn}
    {follow follow₁ : Kind → Bool} {p p₁ p₂ : Phrase} {h : Production p [p₁, p₂]}
    {h₁ : Production p₁ body₁} {d₁ : Derivation body₁} {h₂ : Production p₂ body₂}
    {d₂ : Derivation body₂} (hp : p.levelsWithin levels = some levels) (hlist : p ≠ .list)
    (hrule : ∀ r e s, first r = (some e, s) →
      rule r = (some ((s.turns step).extentFrom e.first), s.turns step))
    (ih₁ : ItemSkims levels first.item true follow₁ h₁ d₁) (ih₂ : LoopSkims levels step follow h₂ d₂)
    (hahead : ∀ rest, Ahead follow rest → Ahead follow₁ (d₂.kinds ++ rest)) :
    ItemSkims levels rule.item true follow h (.phrase h₁ d₁ (single h₂ d₂)) := by
  intro r rest hr hrest
  simp only [kinds, List.append_nil, List.append_assoc] at hr
  obtain ⟨s, hs, hskims⟩ := ih₁ r _ hr (hahead rest hrest)
  obtain ⟨e, hs⟩ := Rule.exists_of_item hs
  have hmore := ih₂ s rest (hskims.rest_of_single hr) hrest
  refine ⟨_, ?_, (hskims.phrase hmore (by simp)).single hp hlist⟩
  rw [Rule.item, hrule r e s hs]
  rfl

/-- A chain of operators is passed over as its first operand and the others. -/
theorem skims_binary (h : Production (.binary b) body) (d : Derivation body)
    (ih : d.Each fun h d => IsSkimmed levels h d) : IsSkimmed levels h d := by
  cases h
  match d, ih with
  | .phrase h₁ d₁ (.phrase h₂ d₂ .nil), ih =>
    obtain ⟨ih₁, ih₂, -⟩ := ih
    exact skims_chain rfl (by simp) (fun r e s h => by rw [binary, h]) ih₁ ih₂
      fun _ => ahead_operands h₂ d₂

/-- A postfixed expression is passed over as a primary one and its suffixes. -/
theorem skims_postfixed (h : Production .postfixed body) (d : Derivation body)
    (ih : d.Each fun h d => IsSkimmed levels h d) : IsSkimmed levels h d := by
  cases h
  match d, ih with
  | .phrase h₁ d₁ (.phrase h₂ d₂ .nil), ih =>
    obtain ⟨ih₁, ih₂, -⟩ := ih
    exact skims_chain rfl (by simp) (fun r e s h => by rw [postfixed, h]) ih₁ ih₂
      fun _ _ _ _ => rfl

/-! ### Sequences -/

/-- A sequence whose first expression is cut off ends there, so that it must not hold another. -/
theorem skims_sequence (h : Production .sequence body) (d : Derivation body)
    (hfits : d.IndicesFit levels) (ih : d.Each fun h d => IsSkimmed levels h d) :
    IsSkimmed levels h d := by
  cases h
  match d, ih, hfits with
  | .phrase h₁ d₁ (.phrase h₂ d₂ .nil), ih, hfits =>
    obtain ⟨ih₁, ih₂, -⟩ := ih
    obtain ⟨-, -, ⟨hfits₂, -⟩⟩ := hfits
    cases levels with
    | succ levels =>
      exact skims_chain rfl (by simp) (fun r e s h => by rw [sequence, h]) ih₁ ih₂
        fun _ => ahead_more h₂ d₂
    | zero =>
      intro r rest hr hrest
      have hempty : d₂.kinds = [] := hfits₂ rfl rfl
      simp only [kinds, hempty, List.append_nil] at hr
      obtain ⟨s, hs, hskims⟩ := ih₁ r rest hr (hrest.mono fun k => by cases k <;> decide)
      have hnone := Rule.eq_none_of_item hs
      have hmore := ih₂ s rest (by rw [hempty]; exact hskims.rest_of_single hr) hrest
      have hstop : s.turns (sequenceStep (expression 0)) = s := by
        refine turns_of_stop ?_
        rw [sequenceStep, Ahead.at?_eq_false (hskims.rest_of_single hr ▸ hrest) rfl]
        rfl
      rw [hstop] at hmore
      refine ⟨s, ?_, (hskims.phrase hmore (by simp)).single rfl (by simp)⟩
      simp [Rule.item, sequence, hnone]

/-- The expressions of a sequence behind the first are passed over, each behind its comma. -/
theorem skims_more (h : Production .more body) (d : Derivation body)
    (ih : d.Each fun h d => IsSkimmed levels h d) : IsSkimmed levels h d := by
  intro r rest hr hrest
  match body, h, d, ih with
  | _, .moreEnd, .nil, _ =>
    have hstep : sequenceStep (expression levels) r = .stop r := by
      rw [sequenceStep, Ahead.at?_eq_false (r := r) (by rw [hr]; exact hrest) rfl]
      rfl
    rw [turns_of_stop hstep]
    exact (Skims.nil levels r).single rfl (by simp)
  | _, .moreNext b, .token _ (.phrase h₁ d₁ (.phrase h₂ d₂ .nil)), ih =>
    obtain ⟨ih₁, ih₂, -⟩ := ih
    simp only [kinds, List.append_nil, List.cons_append, List.append_assoc] at hr
    have hat : r.at? .comma = true := at?_iff.mpr ⟨_, hr⟩
    have hadvance := (moves_advance hat).rest_eq hr
    obtain ⟨s, hs, hskims⟩ := ih₁ r.advance _ hadvance (ahead_more h₂ d₂ hrest)
    have hstep : sequenceStep (expression levels) r = .again s := by
      rw [sequenceStep, hat, Rule.snd_of_item hs]
      rfl
    have hmore := ih₂ s rest (hskims.rest_of_single hadvance) hrest
    rw [turns_of_again (IsLoop.sequence levels).shortens hstep]
    exact (Skims.token hat (hskims.phrase hmore (by simp))).single rfl (by simp)

/-! ### Operands -/

/-- The operands behind the first are passed over, each behind its operator. -/
theorem skims_operands (h : Production .operands body) (d : Derivation body)
    (ih : d.Each fun h d => IsSkimmed levels h d) : IsSkimmed levels h d := by
  intro r rest hr hrest
  have hloop := (IsLoop.operands levels).shortens
  match body, h, d, ih with
  | _, .operandsEnd, .nil, _ =>
    have hahead : Ahead endsOperands r.rest := by rw [hr]; exact hrest
    rw [turns_of_stop (binaryStep_of_ahead hahead)]
    exact (Skims.nil levels r).single rfl (by simp)
  | _, .operandsTrailing, .token _ .nil, _ =>
    have hat : r.at? .operator = true := at?_iff.mpr ⟨_, hr⟩
    have hadvance : Ahead endsOperands r.advance.rest := (moves_advance hat).rest_eq hr ▸ hrest
    -- What may follow starts no operand, so that the operator is taken by itself.
    have hstart := peek?_any_eq_false hadvance fun k => by cases k <;> decide
    have hstep : binaryStep (expression levels) r = .again r.advance := by
      simp [binaryStep, hat, hstart]
    rw [turns_of_again hloop hstep, turns_of_stop (binaryStep_of_ahead hadvance)]
    exact (Skims.token hat (Skims.nil levels _)).single rfl (by simp)
  | _, .operandsNext b, .token _ (.phrase h₁ d₁ (.phrase h₂ d₂ .nil)), ih =>
    obtain ⟨ih₁, ih₂, -⟩ := ih
    simp only [kinds, List.append_nil, List.cons_append, List.append_assoc] at hr
    have hat : r.at? .operator = true := at?_iff.mpr ⟨_, hr⟩
    have hadvance := (moves_advance hat).rest_eq hr
    obtain ⟨s, hs, hskims⟩ := ih₁ r.advance _ hadvance (ahead_operands h₂ d₂ hrest)
    have hstart : r.advance.peek?.any startsOperand = true := by
      obtain ⟨k, w, hk, hfirst⟩ := d₁.exists_kinds_eq_cons h₁ rfl
      rw [peek?, hadvance, hk]
      cases b <;> cases k <;> simp_all [startsPrimary, startsOperand]
    have hstep : binaryStep (expression levels) r = .again s := by
      simp [binaryStep, hat, hstart, Rule.snd_of_item hs]
    have hmore := ih₂ s rest (hskims.rest_of_single hadvance) hrest
    rw [turns_of_again hloop hstep]
    exact (Skims.token hat (hskims.phrase hmore (by simp))).single rfl (by simp)

/-- Operators in front of an operand are passed over with it. -/
theorem skims_unary (h : Production (.unary b) body) (d : Derivation body)
    (ih : d.Each fun h d => IsSkimmed levels h d) : IsSkimmed levels h d := by
  intro r rest hr hrest
  match body, h, d, ih with
  | _, .unsigned, .phrase h₁ d₁ .nil, ih =>
    obtain ⟨ih₁, -⟩ := ih
    simp only [kinds, List.append_nil] at hr
    obtain ⟨s, hs, hskims⟩ := ih₁ r rest hr hrest
    have hat : r.at? .operator = false := by
      obtain ⟨k, w, hk, hfirst⟩ := d₁.exists_kinds_eq_cons h₁ rfl
      rw [at?_of_rest (hr.trans (by rw [hk, List.cons_append]))]
      cases k <;> simp_all [startsPrimary]
    refine ⟨s, ?_, hskims.single rfl (by simp)⟩
    rw [← hs, Rule.item, Rule.item, unary, hat]
    rfl
  | _, .signed b, .token _ (.phrase h₁ d₁ .nil), ih =>
    obtain ⟨ih₁, -⟩ := ih
    simp only [kinds, List.append_nil, List.cons_append] at hr
    have hat : r.at? .operator = true := at?_iff.mpr ⟨_, hr⟩
    obtain ⟨s, hs, hskims⟩ := ih₁ r.advance rest ((moves_advance hat).rest_eq hr) hrest
    have hskip : (postfixed (expression levels) r.skipOperators).2 = s := by
      rw [skipOperators_of_at? hat, ← unary_snd, Rule.snd_of_item hs]
    refine ⟨s, ?_, (Skims.token hat hskims).single rfl (by simp)⟩
    simp [Rule.item, unary, hat, hskip]

/-! ### Items between commas -/

section

variable {body₁ body₂ : List Part} {close : Kind} {item : Reading → Bool × Reading} {p q : Phrase}
  {follow : Kind → Bool}

/-- Items end at their closing bracket, with nothing to pass over. -/
theorem skims_itemsEnd {h : Production p []} (hp : p.levelsWithin levels = some levels)
    (hlist : p ≠ .list) : LoopSkims levels (itemStep close item) (· == close) h .nil := by
  intro r rest hr hrest
  have hstep : itemStep close item r = .stop r := by
    rw [itemStep, ends_of_ahead (r := r) (by rw [hr]; exact hrest)]
    rfl
  rw [turns_of_stop hstep]
  exact (Skims.nil levels r).single hp hlist

/-- The last item. One that is cut off is passed over, and the next turn stops behind it. -/
theorem skims_itemsLast {h : Production p [q]} {h₁ : Production q body₁} {d₁ : Derivation body₁}
    {found : Bool} (hloop : ∀ r, (itemStep close item r).Shortens r)
    (hp : p.levelsWithin levels = some levels) (hlist : p ≠ .list) (hclose : close ≠ .comma)
    (hfollow : follow close = true) (hd : Begins close d₁)
    (ih : ItemSkims levels item found follow h₁ d₁) :
    LoopSkims levels (itemStep close item) (· == close) h (single h₁ d₁) := by
  intro r rest hr hrest
  simp only [kinds, List.append_nil] at hr
  obtain ⟨s, hs, hskims⟩ :=
    ih r rest hr (hrest.mono fun k hk => by rw [beq_iff_eq.mp hk]; exact hfollow)
  have hahead : Ahead (· == close) s.rest := hskims.rest_of_single hr ▸ hrest
  have hturns : r.turns (itemStep close item) = s := by
    have hstep : itemStep close item r = _ := itemStep_of_begins hd hr
    rw [hs] at hstep
    cases found with
    | true =>
      have hat : s.at? .comma = false := hahead.at?_eq_false (by simpa using hclose.symm)
      refine turns_of_stop ?_
      simpa [hat] using hstep
    | false =>
      obtain ⟨k, w, hk, -⟩ := hd
      have hstop : itemStep close item s = .stop s := by
        rw [itemStep, ends_of_ahead hahead]
        rfl
      dsimp only at hstep
      rw [hskims.advanceIfStuck_of_single (by simp [hk])] at hstep
      rw [turns_of_again hloop hstep, turns_of_stop hstop]
  rw [hturns]
  exact hskims.single hp hlist

/-- An item with a comma behind it. If the item is cut off, it is missing in front of the comma. -/
theorem skims_itemsNext {h : Production p [q, Kind.comma, p]} {h₁ : Production q body₁}
    {d₁ : Derivation body₁} {h₂ : Production p body₂} {d₂ : Derivation body₂} {found : Bool}
    (hloop : ∀ r, (itemStep close item r).Shortens r)
    (hp : p.levelsWithin levels = some levels) (hlist : p ≠ .list) (hclose : close ≠ .comma)
    (hfollow : follow .comma = true) (hd : Begins close d₁)
    (hfound : found = (levels != 0 || !q.isItem body₁))
    (ih₁ : ItemSkims levels item found follow h₁ d₁)
    (ih₂ : LoopSkims levels (itemStep close item) (· == close) h₂ d₂) :
    LoopSkims levels (itemStep close item) (· == close) h
      (.phrase h₁ d₁ (.token .comma (single h₂ d₂))) := by
  intro r rest hr hrest
  simp only [kinds, List.append_nil, List.cons_append, List.append_assoc] at hr
  obtain ⟨s, hs, hskims⟩ := ih₁ r _ hr (ahead_cons.mpr hfollow)
  have hrest' := hskims.rest_of_single hr
  have hat : s.at? .comma = true := at?_iff.mpr ⟨_, hrest'⟩
  have hstep : itemStep close item r = _ := itemStep_of_begins hd hr
  rw [hs] at hstep
  cases found with
  | true =>
    have hagain : itemStep close item r = .again s.advance := by simpa [hat] using hstep
    have hmore := ih₂ s.advance rest ((moves_advance hat).rest_eq hrest') hrest
    rw [turns_of_again hloop hagain]
    refine (hskims.phrase (.token hat hmore) fun hzero hitem => ?_).single hp hlist
    simp [hzero, hitem] at hfound
  | false =>
    obtain ⟨rfl, hitem⟩ : levels = 0 ∧ q.isItem body₁ = true := by simpa using hfound.symm
    obtain ⟨k, w, hk, -⟩ := hd
    have hagain : itemStep close item r = .again s := by
      dsimp only at hstep
      rwa [hskims.advanceIfStuck_of_single (by simp [hk])] at hstep
    have hcomma : itemStep close item s = .again (s.report .unexpectedComma).advance := by
      simp [itemStep, at?_of_rest hrest', hrest', hclose.symm]
    have hreported : (s.report .unexpectedComma).at? .comma = true := hat
    have hmore := ih₂ _ rest ((moves_advance hreported).rest_eq hrest') hrest
    rw [turns_of_again hloop hagain, turns_of_again hloop hcomma]
    exact (hskims.phraseCut hitem hat hmore).single hp hlist

/-- Items up to their closing bracket, and the bracket. -/
theorem exists_skims_expect {h₁ : Production p body₁} {d₁ : Derivation body₁}
    (ih : LoopSkims levels (itemStep close item) (· == close) h₁ d₁) {r : Reading} {rest : List Kind}
    (hr : r.rest = d₁.kinds ++ close :: rest) (fault : Fault) :
    ∃ s, r.Skims levels (single h₁ d₁) s ∧ s.at? close = true ∧ s.advance.rest = rest ∧
      (items close item r).expect close fault = s.advance := by
  have hskims := ih r _ hr (ahead_cons.mpr (by simp))
  have hrest := hskims.rest_of_single hr
  have hat : (items close item r).at? close = true := at?_iff.mpr ⟨rest, hrest⟩
  exact ⟨_, hskims, hat, (moves_advance hat).rest_eq hrest, by rw [expect, hat]; rfl⟩

end

/-- Arguments are passed over if each of them is. -/
theorem skims_arguments (h : Production .arguments body) (d : Derivation body)
    (ih : d.Each fun h d => IsSkimmed levels h d) : IsSkimmed levels h d := by
  have hloop := (IsLoop.arguments levels).shortens
  match body, h, d, ih with
  | _, .argumentsEnd, .nil, _ => exact skims_itemsEnd rfl (by simp)
  | _, .argumentsLast b, .phrase h₁ d₁ .nil, ih =>
    exact skims_itemsLast hloop rfl (by simp) (by decide) rfl (begins_expression h₁ d₁ rfl) ih.1
  | _, .argumentsNext b, .phrase h₁ d₁ (.token _ (.phrase h₂ d₂ .nil)), ih =>
    exact skims_itemsNext hloop rfl (by simp) (by decide) rfl (begins_expression h₁ d₁ rfl)
      (by simp [Phrase.isItem]) ih.1 ih.2.1

/-- Properties are passed over if each of them is. -/
theorem skims_properties (h : Production .properties body) (d : Derivation body)
    (ih : d.Each fun h d => IsSkimmed levels h d) : IsSkimmed levels h d := by
  have hloop := (IsLoop.properties levels).shortens
  match body, h, d, ih with
  | _, .propertiesEnd, .nil, _ => exact skims_itemsEnd rfl (by simp)
  | _, .propertiesLast, .phrase h₁ d₁ .nil, ih =>
    exact skims_itemsLast hloop rfl (by simp) (by decide) rfl (begins_property h₁ d₁) ih.1
  | _, .propertiesNext, .phrase h₁ d₁ (.token _ (.phrase h₂ d₂ .nil)), ih =>
    exact skims_itemsNext hloop rfl (by simp) (by decide) rfl (begins_property h₁ d₁) rfl ih.1
      ih.2.1

/-- A property is passed over as its key and its value, or as an expression that is spread. -/
theorem skims_property (h : Production .property body) (d : Derivation body)
    (ih : d.Each fun h d => IsSkimmed levels h d) : IsSkimmed levels h d := by
  intro r rest hr hrest
  match body, h, d, ih with
  | _, .spread, .phrase h₁ d₁ .nil, ih =>
    simp only [kinds, List.append_nil] at hr
    obtain ⟨s, hs, hskims⟩ := ih.1 r rest hr (hrest.mono fun k => by cases k <;> decide)
    obtain ⟨k, w, hk, hfirst⟩ := d₁.exists_kinds_eq_cons h₁ rfl
    obtain rfl : k = .operator := by simpa using hfirst
    refine ⟨s, ?_, hskims.single rfl (by simp)⟩
    rw [property, peek?_of_rest (hr.trans (by rw [hk, List.cons_append]))]
    simpa [Phrase.isItem] using hs
  | _, .key k hk, .token _ .nil, _ =>
    have hat : r.at? k = true := at?_iff.mpr ⟨_, hr⟩
    have hcolon : r.advance.at? .colon = false :=
      Ahead.at?_eq_false ((moves_advance hat).rest_eq hr ▸ hrest) rfl
    refine ⟨r.advance, ?_, (Skims.token hat (Skims.nil levels _)).single rfl (by simp)⟩
    rw [property_of_key hr hk, hcolon]
    simp [Phrase.isItem]
  | _, .pair k hk b, .token _ (.token _ (.phrase h₁ d₁ .nil)), ih =>
    simp only [kinds, List.append_nil, List.cons_append] at hr
    have hat : r.at? k = true := at?_iff.mpr ⟨_, hr⟩
    have hadvance := (moves_advance hat).rest_eq hr
    have hcolon : r.advance.at? .colon = true := at?_iff.mpr ⟨_, hadvance⟩
    -- A value that is cut off is not missed.
    obtain ⟨s, hs, hskims⟩ := ih.1 _ rest ((moves_advance hcolon).rest_eq hadvance)
      (hrest.mono fun k => by cases k <;> decide)
    refine ⟨s, ?_, (Skims.token hat (Skims.token hcolon hskims)).single rfl (by simp)⟩
    rw [property_of_key hr hk, hcolon]
    simp [Phrase.isItem, Rule.snd_of_item hs]

/-! ### Calls, indices and member accesses -/

/-- Calls, indices and member accesses are passed over, each with the suffixes behind it. -/
theorem skims_suffixes (h : Production .suffixes body) (d : Derivation body)
    (ih : d.Each fun h d => IsSkimmed levels h d) : IsSkimmed levels h d := by
  intro r rest hr hrest
  have hloop := (IsLoop.suffixes levels).shortens
  match body, h, d, ih with
  | _, .suffixesEnd, .nil, _ =>
    have hahead : Ahead endsOperand r.rest := by rw [hr]; exact hrest
    have hstep : postfixStep (expression levels) r = .stop r := by
      rw [postfixStep, peek?]
      cases hk : r.rest.head? with
      | none => rfl
      | some k =>
        have hends := hahead k hk
        cases k <;> first | rfl | exact absurd hends (by decide)
    rw [turns_of_stop hstep]
    exact (Skims.nil levels r).single rfl (by simp)
  | _, .call, .token _ (.phrase h₁ d₁ (.token _ (.phrase h₂ d₂ .nil))), ih =>
    obtain ⟨ih₁, ih₂, -⟩ := ih
    simp only [kinds, List.append_nil, List.cons_append, List.append_assoc] at hr
    have hat : r.at? .leftParen = true := at?_iff.mpr ⟨_, hr⟩
    obtain ⟨s, hskims, hclose, hrest', hs⟩ :=
      exists_skims_expect ih₁ ((moves_advance hat).rest_eq hr) .expectedParen
    have hstep : postfixStep (expression levels) r = .again s.advance := by
      rw [postfixStep, peek?_of_rest hr, ← hs]
      rfl
    have hmore := ih₂ s.advance rest hrest' hrest
    rw [turns_of_again hloop hstep]
    exact (Skims.token hat (hskims.phrase (.token hclose hmore) (by simp))).single rfl (by simp)
  | _, .index, .token _ (.phrase h₁ d₁ (.token _ (.phrase h₂ d₂ .nil))), ih =>
    obtain ⟨ih₁, ih₂, -⟩ := ih
    simp only [kinds, List.append_nil, List.cons_append, List.append_assoc] at hr
    have hat : r.at? .leftBracket = true := at?_iff.mpr ⟨_, hr⟩
    have hadvance := (moves_advance hat).rest_eq hr
    obtain ⟨s, hs, hskims⟩ := ih₁ r.advance _ hadvance (ahead_cons.mpr rfl)
    have hrest' := hskims.rest_of_single hadvance
    have hclose : s.at? .rightBracket = true := at?_iff.mpr ⟨_, hrest'⟩
    have hstep : postfixStep (expression levels) r = .again s.advance := by
      rw [postfixStep, peek?_of_rest hr]
      simp [Rule.snd_of_item hs, expect, hclose]
    have hmore := ih₂ s.advance rest ((moves_advance hclose).rest_eq hrest') hrest
    rw [turns_of_again hloop hstep]
    exact (Skims.token hat (hskims.phrase (.token hclose hmore) (by simp))).single rfl (by simp)
  | _, .member, .token _ (.token _ (.phrase h₁ d₁ .nil)), ih =>
    simp only [kinds, List.append_nil, List.cons_append] at hr
    have hat : r.at? .dot = true := at?_iff.mpr ⟨_, hr⟩
    have hadvance := (moves_advance hat).rest_eq hr
    have hname : r.advance.at? .name = true := at?_iff.mpr ⟨_, hadvance⟩
    have hstep : postfixStep (expression levels) r = .again r.advance.advance := by
      rw [postfixStep, peek?_of_rest hr]
      simp [expect, hname]
    have hmore := ih.1 _ rest ((moves_advance hname).rest_eq hadvance) hrest
    rw [turns_of_again hloop hstep]
    exact (Skims.token hat (Skims.token hname hmore)).single rfl (by simp)

/-! ### Primary expressions -/

/-- Atoms are passed over, and brackets with what they hold. -/
theorem skims_primary (h : Production .primary body) (d : Derivation body)
    (ih : d.Each fun h d => IsSkimmed levels h d) : IsSkimmed levels h d := by
  intro r rest hr hrest
  match body, h, d, ih with
  | _, .atom k hk, .token _ .nil, _ =>
    have hat : r.at? k = true := at?_iff.mpr ⟨_, hr⟩
    refine ⟨r.advance, ?_, (Skims.token hat (Skims.nil levels _)).single rfl (by simp)⟩
    rw [Rule.item, primary, peek?_of_rest hr]
    cases k <;> first | rfl | exact absurd hk (by decide)
  | _, .parens, .token _ (.phrase h₁ d₁ (.token _ .nil)), ih =>
    simp only [kinds, List.cons_append, List.append_assoc, List.nil_append] at hr
    have hat : r.at? .leftParen = true := at?_iff.mpr ⟨_, hr⟩
    obtain ⟨s, hskims, hclose, -, hs⟩ :=
      exists_skims_expect ih.1 ((moves_advance hat).rest_eq hr) .expectedParen
    have hs' : arguments (expression levels) r.advance = s.advance := hs
    refine ⟨s.advance, ?_, ?_⟩
    · rw [Rule.item, primary, peek?_of_rest hr, ← hs']
      rfl
    · have hinner := hskims.phrase (.token hclose (Skims.nil levels _)) (by simp)
      exact (Skims.token hat hinner).single rfl (by simp)
  | _, .literal, .phrase h₁ d₁ .nil, ih =>
    simp only [kinds, List.append_nil] at hr
    obtain ⟨s, hs, hskims⟩ := ih.1 r rest hr hrest
    obtain ⟨k, w, hk, hfirst⟩ := d₁.exists_kinds_eq_cons h₁ rfl
    obtain rfl : k = .leftBracket := by simpa using hfirst
    refine ⟨s, ?_, hskims.single rfl (by simp)⟩
    rw [← hs, Rule.item, Rule.item, primary,
      peek?_of_rest (hr.trans (by rw [hk, List.cons_append]))]
  | _, .object, .token _ (.phrase h₁ d₁ (.token _ .nil)), ih =>
    simp only [kinds, List.cons_append, List.append_assoc, List.nil_append] at hr
    have hat : r.at? .leftBrace = true := at?_iff.mpr ⟨_, hr⟩
    obtain ⟨s, hskims, hclose, -, hs⟩ :=
      exists_skims_expect ih.1 ((moves_advance hat).rest_eq hr) .expectedBrace
    refine ⟨s.advance, ?_, ?_⟩
    · rw [Rule.item, primary, peek?_of_rest hr, ← hs]
      rfl
    · have hinner := hskims.phrase (.token hclose (Skims.nil levels _)) (by simp)
      exact (Skims.token hat hinner).single rfl (by simp)

/-! ### List literals -/

/-- An element is passed over as the expression that it is. -/
theorem skims_element (h : Production .element body) (d : Derivation body)
    (ih : d.Each fun h d => IsSkimmed levels h d) : IsSkimmed levels h d := by
  cases h
  match d, ih with
  | .phrase h₁ d₁ .nil, ih =>
    intro r rest hr hrest
    obtain ⟨s, hs, hskims⟩ := ih.1 r rest (by simpa using hr) hrest
    exact ⟨s, hs, hskims.single rfl (by simp)⟩

/-- An element starts neither with a comma nor with a closing bracket. -/
theorem begins_element (h : Production .element body) (d : Derivation body) :
    Begins .rightBracket d := by
  obtain ⟨b, _, he, e, hkinds⟩ := exists_of_element h d
  obtain ⟨k, w, hk, hne⟩ :=
    begins_expression he e (show endsExpression .rightBracket = true from rfl)
  exact ⟨k, w, hkinds.trans hk, hne⟩

/-- What a step makes of an element: it is added as an entry, or the step goes on behind it if it is
    cut off. -/
theorem listStep_of_element {h : Production .element body} {d : Derivation body} {slot : Nat}
    (ih : IsSkimmed levels h d) {r : Reading} {rest : List Kind} (hr : r.rest = d.kinds ++ rest)
    (hrest : Ahead endsExpression rest) :
    ∃ s, r.Skims levels (single h d) s ∧ s.rest = rest ∧
      ((∃ e, listStep (expression levels) slot r =
          if s.at? .comma then .again (s.addEntry slot (.element e)).advance
          else .stop (s.addEntry slot (.element e))) ∨
        listStep (expression levels) slot r = .again s) := by
  obtain ⟨s, hs, hskims⟩ := ih r rest hr hrest
  have hbegins := begins_element h d
  have hstep : listStep (expression levels) slot r = _ := listStep_of_begins hbegins hr
  refine ⟨s, hskims, hskims.rest_of_single hr, ?_⟩
  cases hfound : levels != 0 <;> rw [hfound] at hs
  · obtain ⟨k, w, hk, -⟩ := hbegins
    right
    rw [hstep, Rule.eq_none_of_item hs]
    dsimp only
    rw [hskims.advanceIfStuck_of_single (by simp [hk])]
  · obtain ⟨e, hs⟩ := Rule.exists_of_item hs
    left
    refine ⟨e, ?_⟩
    rw [hstep, hs]
    rfl

/-- The comma behind an element that is cut off is taken for that of a hole. Without a comma, the next
    turn stops. -/
theorem skims_entries (h : Production .entries body) (d : Derivation body)
    (ih : d.Each fun h d => IsSkimmed levels h d) : IsSkimmed levels h d := by
  intro slot r rest hr hrest
  have hloop := (IsLoop.entries levels slot).shortens
  match body, h, d, ih with
  | _, .entriesEnd, .nil, _ =>
    have hahead : Ahead (· == .rightBracket) r.rest := by rw [hr]; exact hrest
    rw [turns_of_stop (listStep_of_ahead hahead)]
    exact (Skims.nil levels r).single rfl (by simp)
  | _, .entriesLast, .phrase h₁ d₁ .nil, ih =>
    simp only [kinds, List.append_nil] at hr
    have hahead : Ahead endsExpression rest :=
      hrest.mono fun k hk => by rw [beq_iff_eq.mp hk]; rfl
    obtain ⟨s, hskims, hrest', ⟨e, hstep⟩ | hstep⟩ := listStep_of_element ih.1 hr hahead
    · have hat : s.at? .comma = false := Ahead.at?_eq_false (hrest' ▸ hrest) rfl
      rw [hat] at hstep
      rw [turns_of_stop hstep]
      exact (hskims.addEntry slot (.element e)).single rfl (by simp)
    · rw [turns_of_again hloop hstep, turns_of_stop (listStep_of_ahead (hrest' ▸ hrest))]
      exact hskims.single rfl (by simp)
  | _, .entriesHole, .phrase .hole (.token _ .nil) (.phrase h₂ d₂ .nil), ih =>
    simp only [kinds, List.append_nil, List.cons_append, List.nil_append] at hr
    have hat : (r.addEntry slot (.hole r.position)).at? .comma = true := at?_iff.mpr ⟨_, hr⟩
    have hmore := ih.2.1 slot _ rest ((moves_advance hat).rest_eq hr) hrest
    have hskims := ((Skims.token hat (Skims.nil levels _)).ofAddEntry).single
      (h := Production.hole) rfl (by simp)
    rw [turns_of_again hloop (listStep_of_comma hr)]
    exact (hskims.phrase hmore (by simp)).single rfl (by simp)
  | _, .entriesNext, .phrase h₁ d₁ (.token _ (.phrase h₂ d₂ .nil)), ih =>
    simp only [kinds, List.append_nil, List.cons_append, List.append_assoc] at hr
    obtain ⟨s, hskims, hrest', hstep⟩ := listStep_of_element ih.1 hr (ahead_cons.mpr rfl)
    rcases hstep with ⟨e, hstep⟩ | hstep
    · have hat : s.at? .comma = true := at?_iff.mpr ⟨_, hrest'⟩
      rw [hat] at hstep
      have hat' : (s.addEntry slot (.element e)).at? .comma = true := at?_iff.mpr ⟨_, hrest'⟩
      have hmore := ih.2.1 slot _ rest ((moves_advance hat').rest_eq hrest') hrest
      rw [turns_of_again hloop hstep]
      exact ((hskims.addEntry slot (.element e)).phrase (.token hat' hmore)
        (by simp [Phrase.isItem])).single rfl (by simp)
    · have hat : (s.addEntry slot (.hole s.position)).at? .comma = true := at?_iff.mpr ⟨_, hrest'⟩
      have hmore := ih.2.1 slot _ rest ((moves_advance hat).rest_eq hrest') hrest
      rw [turns_of_again hloop hstep, turns_of_again hloop (listStep_of_comma hrest')]
      exact (hskims.phrase (Skims.token hat hmore).ofAddEntry
        (by simp [Phrase.isItem])).single rfl (by simp)

/-- A list literal is passed over as its brackets and entries, and is one of those found. -/
theorem skims_list (h : Production .list body) (d : Derivation body)
    (ih : d.Each fun h d => IsSkimmed levels h d) : IsSkimmed levels h d := by
  cases h
  match d, ih with
  | .token _ (.phrase h₁ d₁ (.token _ .nil)), ih =>
    intro r rest hr _
    simp only [kinds, List.cons_append, List.append_assoc, List.nil_append] at hr
    have hat : r.at? .leftBracket = true := at?_iff.mpr ⟨_, hr⟩
    have hopen : r.openList.rest = d₁.kinds ++ .rightBracket :: rest :=
      (moves_advance hat).rest_eq hr
    have hskims := ih.1 r.lists.length r.openList _ hopen (ahead_cons.mpr rfl)
    have hclose : (r.openList.turns (listStep (expression levels) r.lists.length)).at?
        .rightBracket = true := at?_iff.mpr ⟨rest, hskims.rest_of_single hopen⟩
    refine ⟨_, ?_, Skims.list hat hskims hclose⟩
    simp [Rule.item, listLiteral, expect, hclose]

/-! ### Statements -/

/-- A statement is read up to the semicolon behind it. -/
theorem moduleStep_of_skims {h : Production .sequence body} {d : Derivation body}
    (ih : IsSkimmed maxDepth h d) {r : Reading} {rest : List Kind} (hr : r.rest = d.kinds ++ rest)
    (hrest : Ahead endsSequence rest) :
    ∃ s, r.Skims maxDepth (single h d) s ∧ s.rest = rest ∧
      moduleStep r = .again (s.accept .semicolon) := by
  obtain ⟨s, hs, hskims⟩ := ih r rest hr hrest
  obtain ⟨e, hs⟩ := Rule.exists_of_item hs
  obtain ⟨k, w, hk, hfirst⟩ := d.exists_kinds_eq_cons h rfl
  refine ⟨s, hskims, hskims.rest_of_single hr, ?_⟩
  rw [hk, List.cons_append] at hr
  have hat : r.at? .semicolon = false := by
    rw [at?_of_rest hr]
    cases k <;> simp_all [startsPrimary]
  -- A sequence is never empty, so that the step is not stuck behind it.
  have hposition : s.position = r.position + (w.length + 1) := by simpa [hk] using hskims.position
  have hstuck := advanceIfStuck_accept (r := r) (s := s) (by omega) .semicolon
  simp [moduleStep, hat, hr, hs, hstuck]

/-- A program is passed over, statement by statement. -/
theorem skims_program (h : Production (.program true) body) (d : Derivation body)
    (ih : d.Each fun h d => IsSkimmed levels h d) : IsSkimmed levels h d := by
  rintro rfl r rest hr hrest
  have hloop := IsLoop.statements.shortens
  match body, h, d, ih with
  | _, .programEnd _, .nil, _ =>
    have hahead : Ahead (fun _ => false) r.rest := by rw [hr]; exact hrest
    rw [turns_of_stop (moduleStep_of_ahead hahead)]
    exact (Skims.nil maxDepth r).single rfl (by simp)
  | _, .programEmpty _, .token _ (.phrase h₁ d₁ .nil), ih =>
    simp only [kinds, List.append_nil, List.cons_append] at hr
    have hat : r.at? .semicolon = true := at?_iff.mpr ⟨_, hr⟩
    have hstep : moduleStep r = .again r.advance := by simp [moduleStep, hat, hr]
    have hmore := ih.1 rfl r.advance rest ((moves_advance hat).rest_eq hr) hrest
    rw [turns_of_again hloop hstep]
    exact (Skims.token hat hmore).single rfl (by simp)
  | _, .programStatement _, .phrase h₁ d₁ (.token _ (.phrase h₂ d₂ .nil)), ih =>
    simp only [kinds, List.append_nil, List.cons_append, List.append_assoc] at hr
    obtain ⟨s, hskims, hrest', hstep⟩ := moduleStep_of_skims ih.1 hr (ahead_cons.mpr rfl)
    have hat : s.at? .semicolon = true := at?_iff.mpr ⟨_, hrest'⟩
    have hagain : moduleStep r = .again s.advance := by rw [hstep, accept, if_pos hat]
    have hmore := ih.2.1 rfl s.advance rest ((moves_advance hat).rest_eq hrest') hrest
    rw [turns_of_again hloop hagain]
    exact (hskims.phrase (.token hat hmore) (by simp)).single rfl (by simp)
  | _, .programLast _, .phrase h₁ d₁ .nil, ih =>
    simp only [kinds, List.append_nil] at hr
    obtain ⟨s, hskims, hrest', hstep⟩ :=
      moduleStep_of_skims ih.1 hr (hrest.mono fun k hk => absurd hk (by simp))
    have hahead : Ahead (fun _ => false) s.rest := hrest' ▸ hrest
    have hagain : moduleStep r = .again s := by
      rw [hstep, accept, hahead.at?_eq_false rfl]
      rfl
    rw [turns_of_again hloop hagain, turns_of_stop (moduleStep_of_ahead hahead)]
    exact hskims.single rfl (by simp)

end

end CommaStyle.Grammar
