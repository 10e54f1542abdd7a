import CommaStyle.Proofs.Grammar.Passing

namespace CommaStyle.Grammar

open Reading Grammar.Derivation

/-!
# Reading what is derived

What it means that the rules read what is derived from a phrase, and that they do so for expressions
and what these are made of.

* `Ahead` says what may follow. A rule that repeats a step goes on for as long as it can, so it
  reads no more than a phrase only if what follows cannot be taken for more of it;
* `Rule.Reads` and `Repeats` — a rule, or a repeated step, passes over what is derived, and finds
  what it says;
* `reads_chain` serves all rules that take another rule and then repeat a step.
-/

/-! ### What may follow -/

/-- Whether the first of some tokens, if there is one, is as asked. -/
def Ahead (follow : Kind → Bool) (w : List Kind) : Prop := ∀ k ∈ w.head?, follow k = true

/-- Whether a token may follow the operands of an expression. -/
def endsOperands (k : Kind) : Bool := endsExpression k || k == .assign

/-- Whether a token may follow an operand. -/
def endsOperand (k : Kind) : Bool := endsOperands k || k == .operator

/-- Whether a token may follow a sequence. -/
def endsSequence (k : Kind) : Bool := k == .rightBracket || k == .semicolon

/-- Whether a token may follow a property. -/
def endsProperty (k : Kind) : Bool := k == .rightBrace || k == .comma

/-- What is as asked is so for whoever asks for less. -/
theorem Ahead.mono {follow follow' : Kind → Bool} {w : List Kind} (h : Ahead follow w)
    (himp : ∀ k, follow k = true → follow' k = true) : Ahead follow' w := fun k hk => himp k (h k hk)

@[simp] theorem ahead_cons {follow : Kind → Bool} {k : Kind} {w : List Kind} :
    Ahead follow (k :: w) ↔ follow k = true := by simp [Ahead]

/-- A token that may not follow is not ahead. -/
theorem Ahead.at?_eq_false {follow : Kind → Bool} {r : Reading} (h : Ahead follow r.rest) {k : Kind}
    (hk : follow k = false) : r.at? k = false := by
  rw [Bool.eq_false_iff, Ne, at?_iff]
  rintro ⟨w, hw⟩
  rw [hw, ahead_cons, hk] at h
  exact absurd h (by simp)

/-! ### Reading a derivation -/

section

variable {p : Phrase} {body : List Part}

/-- Whether a rule reads what is derived from a phrase, if what follows is as asked. -/
def Rule.Reads (rule : Rule) (follow : Kind → Bool) (h : Production p body) (d : Derivation body) :
    Prop :=
  ∀ (r : Reading) (rest : List Kind), r.rest = d.kinds ++ rest → Ahead follow rest →
    ∃ s, rule r = (some ⟨r.position, r.position + d.kinds.length - 1⟩, s) ∧
      r.Passes (single h d) s

/-- Whether a repeated step reads what is derived from a phrase, if what follows is as asked. -/
def Repeats (step : Reading → Turn) (follow : Kind → Bool) (h : Production p body)
    (d : Derivation body) : Prop :=
  ∀ (r : Reading) (rest bound : List Kind), r.rest = d.kinds ++ rest → Ahead follow rest →
    d.kinds.length ≤ bound.length → r.Passes (single h d) (turnsWithin step bound r)

variable {step : Reading → Turn} {follow : Kind → Bool} {h : Production p body}
  {d : Derivation body}

/-- The turns end with the one that stops. -/
theorem turnsWithin_of_stop {r s : Reading} (h : step r = .stop s) (bound : List Kind) :
    turnsWithin step bound r = s := by
  cases bound <;> simp [turnsWithin, h]

/-- A turn that asks for more is followed by the others, with a token less to bound them. -/
theorem turnsWithin_of_again {r s : Reading} (h : step r = .again s) (k : Kind)
    (bound : List Kind) : turnsWithin step (k :: bound) r = turnsWithin step bound s := by
  simp [turnsWithin, h]

/-- The turns of a step that reads a phrase pass over what is derived from it. -/
theorem Repeats.turns (hstep : Repeats step follow h d) {r : Reading} {rest : List Kind}
    (hr : r.rest = d.kinds ++ rest) (hrest : Ahead follow rest) :
    r.Passes (single h d) (r.turns step) := hstep r rest r.rest hr hrest (by simp [hr])

/-- A step that stops where the derivation is empty. -/
theorem Repeats.of_stop (hd : d.kinds = []) (hpass : ∀ r, Passes r (single h d) r)
    (hstep : ∀ r : Reading, Ahead follow r.rest → step r = .stop r) : Repeats step follow h d := by
  intro r rest bound hr hrest _
  rw [hd, List.nil_append] at hr
  rw [turnsWithin_of_stop (hstep r (hr ▸ hrest))]
  exact hpass r

/-- A step that passes over the first parts of a derivation and leaves `v` to the next. -/
theorem Repeats.of_again (hstep : ∀ (r : Reading) (rest : List Kind), r.rest = d.kinds ++ rest →
    Ahead follow rest → ∃ (s : Reading) (v : List Kind), step r = .again s ∧
      v.length < d.kinds.length ∧
      ∀ bound : List Kind, v.length ≤ bound.length →
        r.Passes (single h d) (turnsWithin step bound s)) :
    Repeats step follow h d := by
  intro r rest bound hr hrest hbound
  obtain ⟨s, v, hagain, hv, hpass⟩ := hstep r rest hr hrest
  cases bound with
  | nil => exact absurd hbound (Nat.not_le.mpr (Nat.zero_lt_of_lt hv))
  | cons k bound =>
    rw [turnsWithin_of_again hagain]
    exact hpass bound (by simp only [List.length_cons] at hbound; omega)

end

section

variable {nested : Rule} {b c : Bool} {body₁ body₂ body₃ : List Part}

/-! ### Sequences -/

/-- Behind the first expression of a sequence stands what may follow an expression. -/
theorem ahead_more (h : Production .more body₁) (d : Derivation body₁) {rest : List Kind}
    (hrest : Ahead endsSequence rest) : Ahead endsExpression (d.kinds ++ rest) := by
  cases h with
  | moreEnd =>
    match d with
    | .nil => exact hrest.mono fun k => by cases k <;> decide
  | moreNext b =>
    match d with
    | .token _ _ => exact ahead_cons.mpr rfl

/-- A sequence ends where no comma follows. -/
theorem repeats_moreEnd : Repeats (sequenceStep nested) endsSequence .moreEnd .nil := by
  refine .of_stop rfl (fun r => (Passes.nil r).single rfl) fun r hr => ?_
  rw [sequenceStep, hr.at?_eq_false rfl]
  rfl

/-- A comma in a sequence is read with the expression behind it. -/
theorem repeats_moreNext {h₁ : Production (.expression b) body₁} {d₁ : Derivation body₁}
    {h₂ : Production .more body₂} {d₂ : Derivation body₂} (ih₁ : nested.Reads endsExpression h₁ d₁)
    (ih₂ : Repeats (sequenceStep nested) endsSequence h₂ d₂) :
    Repeats (sequenceStep nested) endsSequence (.moreNext b)
      (.token .comma (.phrase h₁ d₁ (single h₂ d₂))) := by
  refine .of_again fun r rest hr hrest => ?_
  simp only [kinds, List.append_nil, List.cons_append, List.append_assoc] at hr
  have hat : r.at? .comma = true := at?_iff.mpr ⟨_, hr⟩
  have hadvance := (moves_advance hat).rest_eq hr
  obtain ⟨s, hs, hpass⟩ := ih₁ r.advance _ hadvance (ahead_more h₂ d₂ hrest)
  have hrest' := hpass.rest_eq (by simpa using hadvance)
  refine ⟨s, d₂.kinds, ?_, ?_, fun bound hbound => ?_⟩
  · rw [sequenceStep, hat, hs]
    rfl
  · simp only [kinds, List.length_cons, List.length_append]
    omega
  · have hmore := ih₂ s rest bound hrest' hrest hbound
    exact (Passes.token hat (hpass.phrase hmore)).single rfl

/-! ### Expressions -/

/-- Operands with no sign of assignment behind them are read as an expression. -/
theorem reads_value {h₁ : Production (.binary b) body₁} {d₁ : Derivation body₁}
    (ih : (binary nested).Reads endsOperands h₁ d₁) :
    (assignment nested).Reads endsExpression (.value b) (single h₁ d₁) := by
  intro r rest hr hrest
  simp only [kinds, List.append_nil] at hr
  obtain ⟨s, hs, hpass⟩ := ih r rest hr (hrest.mono fun k hk => by simp [endsOperands, hk])
  have hrest' := hpass.rest_eq (by simpa using hr)
  -- No assignment follows, or this would be a target.
  have hat : s.at? .assign = false := Ahead.at?_eq_false (hrest' ▸ hrest) rfl
  have hall : r.Passes (single (.value b) (single h₁ d₁)) s := hpass.single rfl
  refine ⟨s, ?_, hall⟩
  rw [assignment, hs, ← extentFrom_eq hall]
  simp [hat]

/-- Whether the rule for operands reads a target, which becomes one when its literals are marked. -/
def ReadsTarget (nested : Rule) {body : List Part} (h : Production (.target b) body)
    (d : Derivation body) : Prop :=
  ∀ (r : Reading) (rest : List Kind), r.rest = d.kinds ++ rest → Ahead endsOperands rest →
    ∃ s, binary nested r = (some ⟨r.position, r.position + d.kinds.length - 1⟩, s) ∧
      r.Passes (single h d) (s.retag r.position)

/-- A target is read as the operands that it is. -/
theorem readsTarget_target {h₁ : Production (.binary b) body₁} {d₁ : Derivation body₁}
    (ih : (binary nested).Reads endsOperands h₁ d₁) :
    ReadsTarget nested (.target b) (single h₁ d₁) := by
  intro r rest hr hrest
  obtain ⟨s, hs, hpass⟩ := ih r rest (by simpa using hr) hrest
  exact ⟨s, by simpa using hs, hpass.retag⟩

/-- An assignment is read as its target, the sign and its value. -/
theorem reads_assignment {h₁ : Production (.target b) body₁} {d₁ : Derivation body₁}
    {h₂ : Production (.expression c) body₂} {d₂ : Derivation body₂} (ih₁ : ReadsTarget nested h₁ d₁)
    (ih₂ : nested.Reads endsExpression h₂ d₂) :
    (assignment nested).Reads endsExpression (.assignment b c)
      (.phrase h₁ d₁ (.token .assign (single h₂ d₂))) := by
  intro r rest hr hrest
  simp only [kinds, List.append_nil, List.append_assoc, List.cons_append] at hr
  obtain ⟨s, hs, hpass⟩ := ih₁ r _ hr (ahead_cons.mpr rfl)
  have hrest' := hpass.rest_eq (by simpa using hr)
  have hat : (s.retag r.position).at? .assign = true := at?_iff.mpr ⟨_, hrest'⟩
  obtain ⟨u, hu, hpass'⟩ := ih₂ _ rest ((moves_advance hat).rest_eq hrest') hrest
  have hall : r.Passes (single (.assignment b c) (.phrase h₁ d₁ (.token .assign (single h₂ d₂)))) u :=
    (hpass.phrase (Passes.token hat hpass')).single rfl
  refine ⟨u, ?_, hall⟩
  have hat' : s.at? .assign = true := hat
  rw [assignment, hs, ← extentFrom_eq hall]
  simp [hat', hu]

/-! ### Operands -/

/-- Behind the first operand of a chain stands what may follow an operand. -/
theorem ahead_operands (h : Production .operands body₁) (d : Derivation body₁) {rest : List Kind}
    (hrest : Ahead endsOperands rest) : Ahead endsOperand (d.kinds ++ rest) := by
  cases h with
  | operandsEnd =>
    match d with
    | .nil => exact hrest.mono fun k hk => by simp [endsOperand, hk]
  | operandsTrailing =>
    match d with
    | .token _ _ => exact ahead_cons.mpr rfl
  | operandsNext b =>
    match d with
    | .token _ _ => exact ahead_cons.mpr rfl

/-- A chain of operators ends where something follows that may follow operands. -/
theorem binaryStep_of_ahead {r : Reading} (hr : Ahead endsOperands r.rest) :
    binaryStep nested r = .stop r := by
  rw [binaryStep, hr.at?_eq_false rfl]
  rfl

/-- A chain of operators ends where no operator follows. -/
theorem repeats_operandsEnd : Repeats (binaryStep nested) endsOperands .operandsEnd .nil :=
  .of_stop rfl (fun r => (Passes.nil r).single rfl) fun _ => binaryStep_of_ahead

/-- What may follow, but starts no operand, is not taken for an operand. -/
theorem peek?_any_eq_false {follow : Kind → Bool} {r : Reading} (hr : Ahead follow r.rest)
    (hstart : ∀ k, follow k = true → startsOperand k = false) :
    r.peek?.any startsOperand = false := by
  rw [peek?]
  cases hk : r.rest.head? with
  | none => rfl
  | some k => exact hstart k (hr k hk)

/-- An operator with no operand behind it ends a chain. -/
theorem repeats_operandsTrailing :
    Repeats (binaryStep nested) endsOperands .operandsTrailing (.token .operator .nil) := by
  refine .of_again fun r rest hr hrest => ?_
  have hat : r.at? .operator = true := at?_iff.mpr ⟨_, hr⟩
  have hadvance : Ahead endsOperands r.advance.rest := (moves_advance hat).rest_eq hr ▸ hrest
  -- What may follow starts no operand, so that the operator is taken by itself and the next turn
  -- stops.
  have hstart := peek?_any_eq_false hadvance fun k => by cases k <;> decide
  refine ⟨r.advance, [], ?_, by simp, fun bound _ => ?_⟩
  · simp [binaryStep, hat, hstart]
  · rw [turnsWithin_of_stop (binaryStep_of_ahead hadvance)]
    exact (Passes.token hat (Passes.nil _)).single rfl

/-- An operator in a chain is read with the operand behind it. -/
theorem repeats_operandsNext {h₁ : Production (.unary b) body₁} {d₁ : Derivation body₁}
    {h₂ : Production .operands body₂} {d₂ : Derivation body₂}
    (ih₁ : (unary nested).Reads endsOperand h₁ d₁)
    (ih₂ : Repeats (binaryStep nested) endsOperands h₂ d₂) :
    Repeats (binaryStep nested) endsOperands (.operandsNext b)
      (.token .operator (.phrase h₁ d₁ (single h₂ d₂))) := by
  refine .of_again fun r rest hr hrest => ?_
  simp only [kinds, List.append_nil, List.cons_append, List.append_assoc] at hr
  have hat : r.at? .operator = true := at?_iff.mpr ⟨_, hr⟩
  have hadvance := (moves_advance hat).rest_eq hr
  obtain ⟨s, hs, hpass⟩ := ih₁ r.advance _ hadvance (ahead_operands h₂ d₂ hrest)
  have hrest' := hpass.rest_eq (by simpa using hadvance)
  have hstart : r.advance.peek?.any startsOperand = true := by
    obtain ⟨k, w, hk, hfirst⟩ := d₁.exists_kinds_eq_cons h₁ rfl
    rw [peek?, hadvance, hk]
    cases b <;> cases k <;> simp_all [startsPrimary, startsOperand]
  refine ⟨s, d₂.kinds, ?_, ?_, fun bound hbound => ?_⟩
  · simp [binaryStep, hat, hstart, hs]
  · simp only [kinds, List.length_cons, List.length_append]
    omega
  · have hmore := ih₂ s rest bound hrest' hrest hbound
    exact (Passes.token hat (hpass.phrase hmore)).single rfl

/-! ### A rule with a repeated step behind it -/

/-- A rule that takes another rule and then repeats a step, if the other rule found something. -/
theorem reads_chain {rule first : Rule} {step : Reading → Turn} {follow follow₁ : Kind → Bool}
    {p p₁ p₂ : Phrase} {h : Production p [p₁, p₂]} {h₁ : Production p₁ body₁} {d₁ : Derivation body₁}
    {h₂ : Production p₂ body₂} {d₂ : Derivation body₂} (hp : p.isPlain = true)
    (hrule : ∀ r e s, first r = (some e, s) →
      rule r = (some ((s.turns step).extentFrom e.first), s.turns step))
    (ih₁ : first.Reads follow₁ h₁ d₁) (ih₂ : Repeats step follow h₂ d₂)
    (hahead : ∀ rest, Ahead follow rest → Ahead follow₁ (d₂.kinds ++ rest)) :
    rule.Reads follow h (.phrase h₁ d₁ (single h₂ d₂)) := by
  intro r rest hr hrest
  simp only [kinds, List.append_nil, List.append_assoc] at hr
  obtain ⟨s, hs, hpass⟩ := ih₁ r _ hr (hahead rest hrest)
  have hmore := ih₂.turns (hpass.rest_eq (by simpa using hr)) hrest
  have hall : r.Passes (single h (.phrase h₁ d₁ (single h₂ d₂))) _ := (hpass.phrase hmore).single hp
  exact ⟨_, by rw [hrule r _ s hs, ← extentFrom_eq hall], hall⟩

/-- A sequence is read as its first expression and the others. -/
theorem reads_sequence {h₁ : Production (.expression b) body₁} {d₁ : Derivation body₁}
    {h₂ : Production .more body₂} {d₂ : Derivation body₂} (ih₁ : nested.Reads endsExpression h₁ d₁)
    (ih₂ : Repeats (sequenceStep nested) endsSequence h₂ d₂) :
    (sequence nested).Reads endsSequence (.sequence b) (.phrase h₁ d₁ (single h₂ d₂)) :=
  reads_chain rfl (fun r e s h => by rw [sequence, h]) ih₁ ih₂ fun _ => ahead_more h₂ d₂

/-- A chain is read as its first operand and the others. -/
theorem reads_binary {h₁ : Production (.unary b) body₁} {d₁ : Derivation body₁}
    {h₂ : Production .operands body₂} {d₂ : Derivation body₂}
    (ih₁ : (unary nested).Reads endsOperand h₁ d₁)
    (ih₂ : Repeats (binaryStep nested) endsOperands h₂ d₂) :
    (binary nested).Reads endsOperands (.binary b) (.phrase h₁ d₁ (single h₂ d₂)) :=
  reads_chain rfl (fun r e s h => by rw [binary, h]) ih₁ ih₂ fun _ => ahead_operands h₂ d₂

/-- A postfixed expression is read as a primary one and what is behind it. -/
theorem reads_postfixed {h₁ : Production .primary body₁} {d₁ : Derivation body₁}
    {h₂ : Production .suffixes body₂} {d₂ : Derivation body₂}
    (ih₁ : (primary nested).Reads (fun _ => true) h₁ d₁)
    (ih₂ : Repeats (postfixStep nested) endsOperand h₂ d₂) :
    (postfixed nested).Reads endsOperand .postfixed (.phrase h₁ d₁ (single h₂ d₂)) :=
  reads_chain rfl (fun r e s h => by rw [postfixed, h]) ih₁ ih₂ fun _ _ _ _ => rfl

/-! ### Operators in front -/

/-- An operand with no operator in front is read as a postfixed expression. -/
theorem reads_unsigned {h₁ : Production .postfixed body₁} {d₁ : Derivation body₁}
    (ih : (postfixed nested).Reads endsOperand h₁ d₁) :
    (unary nested).Reads endsOperand .unsigned (single h₁ d₁) := by
  intro r rest hr hrest
  simp only [kinds, List.append_nil] at hr
  obtain ⟨s, hs, hpass⟩ := ih r rest hr hrest
  have hat : r.at? .operator = false := by
    obtain ⟨k, w, hk, hfirst⟩ := d₁.exists_kinds_eq_cons h₁ rfl
    rw [at?_of_rest (hr.trans (by rw [hk, List.cons_append]))]
    cases k <;> simp_all [startsPrimary]
  refine ⟨s, ?_, hpass.single rfl⟩
  rw [unary, hat, hs]
  simp

/-- An operator in front of an operand is passed over. -/
theorem reads_signed {h₁ : Production (.unary b) body₁} {d₁ : Derivation body₁}
    (ih : (unary nested).Reads endsOperand h₁ d₁) :
    (unary nested).Reads endsOperand (.signed b) (.token .operator (single h₁ d₁)) := by
  intro r rest hr hrest
  simp only [kinds, List.append_nil, List.cons_append] at hr
  have hat : r.at? .operator = true := at?_iff.mpr ⟨_, hr⟩
  obtain ⟨s, hs, hpass⟩ := ih r.advance rest ((moves_advance hat).rest_eq hr) hrest
  have hall : r.Passes (single (.signed b) (.token .operator (single h₁ d₁))) s :=
    (Passes.token hat hpass).single rfl
  have hskip : (postfixed nested r.skipOperators).2 = s := by
    rw [skipOperators_of_at? hat, ← unary_snd, hs]
  refine ⟨s, ?_, hall⟩
  rw [unary, hat, ← extentFrom_eq hall]
  simp [hskip]

end

end CommaStyle.Grammar
