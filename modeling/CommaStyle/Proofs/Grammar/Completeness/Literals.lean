import CommaStyle.Proofs.Grammar.Completeness.Expressions

namespace CommaStyle.Grammar

open Reading Grammar.Derivation

/-!
# Reading what stands between brackets

Items between commas, and what is made of them: arguments and parentheses, object literals, and list
literals with their holes.

* `ItemReads` — a rule for items passes over what is derived from one of them;
* `repeats_itemsEnd`, `repeats_itemsLast` and `repeats_itemsNext` serve arguments and properties
  alike;
* `FillsEntries` — the rule for list literals gives them the entries that are derived.
-/

section

variable {nested : Rule} {b : Bool} {body₁ body₂ : List Part}

/-! ### Items between commas -/

/-- Whether a rule for items reads what is derived from a phrase, if what follows is as asked. -/
def ItemReads (item : Reading → Bool × Reading) (follow : Kind → Bool) {p : Phrase}
    {body : List Part} (h : Production p body) (d : Derivation body) : Prop :=
  ∀ (r : Reading) (rest : List Kind), r.rest = d.kinds ++ rest → Ahead follow rest →
    ∃ s, item r = (true, s) ∧ r.Passes (single h d) s

/-- A rule that reads a phrase reads it as an item. -/
theorem Rule.Reads.item {rule : Rule} {follow : Kind → Bool} {p : Phrase} {h : Production p body₁}
    {d : Derivation body₁} (hrule : rule.Reads follow h d) : ItemReads rule.item follow h d := by
  intro r rest hr hrest
  obtain ⟨s, hs, hpass⟩ := hrule r rest hr hrest
  exact ⟨s, by rw [Rule.item, hs]; rfl, hpass⟩

section

variable {close : Kind} {item : Reading → Bool × Reading} {p q : Phrase}

/-- Whether a phrase starts neither with a comma nor with a closing bracket. -/
def Begins (close : Kind) (d : Derivation body₁) : Prop :=
  ∃ k w, d.kinds = k :: w ∧ k ≠ close ∧ k ≠ .comma

/-- What begins so is neither at its end nor at a comma. -/
theorem Begins.ahead {d : Derivation body₁} (hd : Begins close d) {r : Reading}
    {rest : List Kind} (hr : r.rest = d.kinds ++ rest) :
    (r.at? close || r.rest.isEmpty) = false ∧ r.at? .comma = false := by
  obtain ⟨k, w, hk, hclose, hcomma⟩ := hd
  rw [hk, List.cons_append] at hr
  have hat : r.at? close = false := by
    rw [at?_of_rest hr]
    simpa using hclose
  have hempty : r.rest.isEmpty = false := by
    rw [hr]
    rfl
  refine ⟨by rw [hat, hempty]; rfl, ?_⟩
  rw [at?_of_rest hr]
  simpa using hcomma

/-- In front of the closing bracket, and at the end of the text, items and entries end. -/
theorem ends_of_ahead {r : Reading} (hr : Ahead (· == close) r.rest) :
    (r.at? close || r.rest.isEmpty) = true := by
  cases hw : r.rest with
  | nil => simp
  | cons k w =>
    rw [hw, ahead_cons] at hr
    simp [at?_of_rest hw, hr]

/-- Where an item begins, one step reads it, and the comma behind it. -/
theorem itemStep_of_begins {d : Derivation body₁} (hd : Begins close d) {r : Reading}
    {rest : List Kind} (hr : r.rest = d.kinds ++ rest) :
    itemStep close item r = match item r with
      | (false, s) => .again (s.advanceIfStuck r)
      | (true, s) => if s.at? .comma then .again s.advance else .stop s := by
  obtain ⟨hend, hcomma⟩ := hd.ahead hr
  rw [itemStep, hend, hcomma]
  rfl

/-- Items end at their closing bracket. -/
theorem repeats_itemsEnd {h : Production p []} (hp : p.isPlain = true) :
    Repeats (itemStep close item) (· == close) h .nil := by
  refine .of_stop rfl (fun r => (Passes.nil r).single hp) fun r hr => ?_
  rw [itemStep, ends_of_ahead hr]
  rfl

/-- The last item is read with no comma behind it. -/
theorem repeats_itemsLast {h : Production p [q]} {h₁ : Production q body₁} {d₁ : Derivation body₁}
    {follow : Kind → Bool} (hclose : close ≠ .comma) (hfollow : follow close = true)
    (hd : Begins close d₁) (ih : ItemReads item follow h₁ d₁) (hp : p.isPlain = true) :
    Repeats (itemStep close item) (· == close) h (single h₁ d₁) := by
  intro r rest bound hr hrest _
  simp only [kinds, List.append_nil] at hr
  have hahead : Ahead follow rest := hrest.mono fun k hk => by rw [beq_iff_eq.mp hk]; exact hfollow
  obtain ⟨s, hs, hpass⟩ := ih r rest hr hahead
  have hrest' := hpass.rest_eq (by simpa using hr)
  have hat : s.at? .comma = false :=
    Ahead.at?_eq_false (hrest' ▸ hrest) (by simpa using hclose.symm)
  have hstep : itemStep close item r = .stop s := by
    rw [itemStep_of_begins hd hr, hs]
    simp [hat]
  rw [turnsWithin_of_stop hstep]
  exact hpass.single hp

/-- An item is read with the comma behind it. -/
theorem repeats_itemsNext {h : Production p [q, Kind.comma, p]} {h₁ : Production q body₁}
    {d₁ : Derivation body₁} {h₂ : Production p body₂} {d₂ : Derivation body₂} {follow : Kind → Bool}
    (hfollow : follow .comma = true) (hd : Begins close d₁) (ih₁ : ItemReads item follow h₁ d₁)
    (ih₂ : Repeats (itemStep close item) (· == close) h₂ d₂) (hp : p.isPlain = true) :
    Repeats (itemStep close item) (· == close) h (.phrase h₁ d₁ (.token .comma (single h₂ d₂))) := by
  refine .of_again fun r rest hr hrest => ?_
  simp only [kinds, List.append_nil, List.cons_append, List.append_assoc] at hr
  obtain ⟨s, hs, hpass⟩ := ih₁ r _ hr (ahead_cons.mpr hfollow)
  have hrest' := hpass.rest_eq (by simpa using hr)
  have hat : s.at? .comma = true := at?_iff.mpr ⟨_, hrest'⟩
  refine ⟨s.advance, d₂.kinds, ?_, ?_, fun bound hbound => ?_⟩
  · rw [itemStep_of_begins hd hr, hs]
    simp [hat]
  · simp only [kinds, List.length_cons, List.length_append]
    omega
  · have hmore := ih₂ s.advance rest bound ((moves_advance hat).rest_eq hrest') hrest hbound
    exact (hpass.phrase (Passes.token hat hmore)).single hp

/-- Items up to their closing bracket, and the bracket. -/
theorem exists_items_expect {h₁ : Production p body₁} {d₁ : Derivation body₁}
    (ih : Repeats (itemStep close item) (· == close) h₁ d₁) {r : Reading} {rest : List Kind}
    (hr : r.rest = d₁.kinds ++ close :: rest) (fault : Fault) :
    ∃ s, r.Passes (single h₁ d₁) s ∧ s.at? close = true ∧
      (items close item r).expect close fault = s.advance := by
  have hpass := ih.turns hr (ahead_cons.mpr (by simp))
  have hat : (items close item r).at? close = true :=
    at?_iff.mpr ⟨rest, hpass.rest_eq (by simpa using hr)⟩
  exact ⟨_, hpass, hat, by rw [expect, hat]; rfl⟩

end

/-! ### Calls, indices and member accesses -/

/-- Suffixes end where something follows that may follow an operand. -/
theorem repeats_suffixesEnd : Repeats (postfixStep nested) endsOperand .suffixesEnd .nil := by
  refine .of_stop rfl (fun r => (Passes.nil r).single rfl) fun r hr => ?_
  rw [postfixStep, peek?]
  cases hk : r.rest.head? with
  | none => rfl
  | some k =>
    -- None of the tokens that may follow an operand opens a suffix.
    have hends := hr k hk
    cases k <;> first | rfl | exact absurd hends (by decide)

/-- A call is read as a suffix, and other suffixes behind it. -/
theorem repeats_call {h₁ : Production .arguments body₁} {d₁ : Derivation body₁}
    {h₂ : Production .suffixes body₂} {d₂ : Derivation body₂}
    (ih₁ : Repeats (itemStep .rightParen nested.item) (· == .rightParen) h₁ d₁)
    (ih₂ : Repeats (postfixStep nested) endsOperand h₂ d₂) :
    Repeats (postfixStep nested) endsOperand .call
      (.token .leftParen (.phrase h₁ d₁ (.token .rightParen (single h₂ d₂)))) := by
  refine .of_again fun r rest hr hrest => ?_
  simp only [kinds, List.append_nil, List.cons_append, List.append_assoc] at hr
  have hat : r.at? .leftParen = true := at?_iff.mpr ⟨_, hr⟩
  have hadvance := (moves_advance hat).rest_eq hr
  obtain ⟨s, hpass, hclose, hs⟩ := exists_items_expect ih₁ hadvance .expectedParen
  have hrest' := (moves_advance hclose).rest_eq (hpass.rest_eq (by simpa using hadvance))
  refine ⟨s.advance, d₂.kinds, ?_, ?_, fun bound hbound => ?_⟩
  · rw [postfixStep, peek?_of_rest hr, ← hs]
    rfl
  · simp only [kinds, List.length_cons, List.length_append]
    omega
  · have hmore := ih₂ s.advance rest bound hrest' hrest hbound
    exact (Passes.token hat (hpass.phrase (Passes.token hclose hmore))).single rfl

/-- An index is read as a suffix, and other suffixes behind it. -/
theorem repeats_index {h₁ : Production .sequence body₁} {d₁ : Derivation body₁}
    {h₂ : Production .suffixes body₂} {d₂ : Derivation body₂}
    (ih₁ : (sequence nested).Reads endsSequence h₁ d₁)
    (ih₂ : Repeats (postfixStep nested) endsOperand h₂ d₂) :
    Repeats (postfixStep nested) endsOperand .index
      (.token .leftBracket (.phrase h₁ d₁ (.token .rightBracket (single h₂ d₂)))) := by
  refine .of_again fun r rest hr hrest => ?_
  simp only [kinds, List.append_nil, List.cons_append, List.append_assoc] at hr
  have hat : r.at? .leftBracket = true := at?_iff.mpr ⟨_, hr⟩
  have hadvance := (moves_advance hat).rest_eq hr
  obtain ⟨s, hs, hpass⟩ := ih₁ r.advance _ hadvance (ahead_cons.mpr rfl)
  have hrest' := hpass.rest_eq (by simpa using hadvance)
  have hclose : s.at? .rightBracket = true := at?_iff.mpr ⟨_, hrest'⟩
  refine ⟨s.advance, d₂.kinds, ?_, ?_, fun bound hbound => ?_⟩
  · rw [postfixStep, peek?_of_rest hr]
    simp [hs, expect, hclose]
  · simp only [kinds, List.length_cons, List.length_append]
    omega
  · have hmore := ih₂ s.advance rest bound ((moves_advance hclose).rest_eq hrest') hrest hbound
    exact (Passes.token hat (hpass.phrase (Passes.token hclose hmore))).single rfl

/-- A member access is read as a suffix, and other suffixes behind it. -/
theorem repeats_member {h₁ : Production .suffixes body₁} {d₁ : Derivation body₁}
    (ih : Repeats (postfixStep nested) endsOperand h₁ d₁) :
    Repeats (postfixStep nested) endsOperand .member
      (.token .dot (.token .name (single h₁ d₁))) := by
  refine .of_again fun r rest hr hrest => ?_
  simp only [kinds, List.append_nil, List.cons_append] at hr
  have hat : r.at? .dot = true := at?_iff.mpr ⟨_, hr⟩
  have hadvance := (moves_advance hat).rest_eq hr
  have hname : r.advance.at? .name = true := at?_iff.mpr ⟨_, hadvance⟩
  refine ⟨r.advance.advance, d₁.kinds, ?_, ?_, fun bound hbound => ?_⟩
  · rw [postfixStep, peek?_of_rest hr]
    simp [expect, hname]
  · simp only [kinds, List.length_cons, List.append_nil]
    omega
  · have hmore := ih _ rest bound ((moves_advance hname).rest_eq hadvance) hrest hbound
    exact (Passes.token hat (Passes.token hname hmore)).single rfl

/-! ### Primary expressions -/

/-- An atom is read as a primary expression. -/
theorem reads_atom {k : Kind} (hk : isAtom k = true) :
    (primary nested).Reads (fun _ => true) (.atom k hk) (.token k .nil) := by
  intro r rest hr _
  simp only [kinds, List.cons_append, List.nil_append] at hr
  have hat : r.at? k = true := at?_iff.mpr ⟨_, hr⟩
  have hall : r.Passes (single (.atom k hk) (.token k .nil)) r.advance :=
    (Passes.token hat (Passes.nil _)).single rfl
  refine ⟨r.advance, ?_, hall⟩
  rw [primary, peek?_of_rest hr, ← extentFrom_eq hall]
  cases k <;> first | rfl | exact absurd hk (by decide)

/-- Arguments in parentheses are read as a primary expression. -/
theorem reads_parens {h₁ : Production .arguments body₁} {d₁ : Derivation body₁}
    (ih : Repeats (itemStep .rightParen nested.item) (· == .rightParen) h₁ d₁) :
    (primary nested).Reads (fun _ => true) .parens
      (.token .leftParen (.phrase h₁ d₁ (.token .rightParen .nil))) := by
  intro r rest hr _
  simp only [kinds, List.cons_append, List.append_assoc, List.nil_append] at hr
  have hat : r.at? .leftParen = true := at?_iff.mpr ⟨_, hr⟩
  obtain ⟨s, hpass, hclose, hs⟩ :=
    exists_items_expect ih ((moves_advance hat).rest_eq hr) .expectedParen
  have hall : r.Passes (single .parens (.token .leftParen
      (.phrase h₁ d₁ (.token .rightParen .nil)))) s.advance :=
    (Passes.token hat (hpass.phrase (Passes.token hclose (Passes.nil _)))).single rfl
  refine ⟨s.advance, ?_, hall⟩
  have hs' : arguments nested r.advance = s.advance := hs
  rw [primary, peek?_of_rest hr, ← extentFrom_eq hall, ← hs']

/-- An object literal is read as a primary expression. -/
theorem reads_object {h₁ : Production .properties body₁} {d₁ : Derivation body₁}
    (ih : Repeats (itemStep .rightBrace (property nested)) (· == .rightBrace) h₁ d₁) :
    (primary nested).Reads (fun _ => true) .object
      (.token .leftBrace (.phrase h₁ d₁ (.token .rightBrace .nil))) := by
  intro r rest hr _
  simp only [kinds, List.cons_append, List.append_assoc, List.nil_append] at hr
  have hat : r.at? .leftBrace = true := at?_iff.mpr ⟨_, hr⟩
  obtain ⟨s, hpass, hclose, hs⟩ :=
    exists_items_expect ih ((moves_advance hat).rest_eq hr) .expectedBrace
  have hall : r.Passes (single .object (.token .leftBrace
      (.phrase h₁ d₁ (.token .rightBrace .nil)))) s.advance :=
    (Passes.token hat (hpass.phrase (Passes.token hclose (Passes.nil _)))).single rfl
  refine ⟨s.advance, ?_, hall⟩
  rw [primary, peek?_of_rest hr, ← extentFrom_eq hall, ← hs]
  rfl

/-- A list literal is read as a primary expression. -/
theorem reads_literal {h₁ : Production .list body₁} {d₁ : Derivation body₁}
    (ih : (listLiteral nested).Reads (fun _ => true) h₁ d₁) :
    (primary nested).Reads (fun _ => true) .literal (single h₁ d₁) := by
  intro r rest hr hrest
  simp only [kinds, List.append_nil] at hr
  obtain ⟨s, hs, hpass⟩ := ih r rest hr hrest
  obtain ⟨k, w, hk, hfirst⟩ := d₁.exists_kinds_eq_cons h₁ rfl
  obtain rfl : k = .leftBracket := by simpa using hfirst
  refine ⟨s, ?_, hpass.single rfl⟩
  rw [primary, peek?_of_rest (hr.trans (by rw [hk, List.cons_append])), hs]
  simp

/-! ### List literals -/

/-- Whether the repeated step for list literals reads what is derived from some entries. -/
def FillsEntries (nested : Rule) {body : List Part} (h : Production .entries body)
    (d : Derivation body) : Prop :=
  ∀ (slot : Nat) (r : Reading) (rest bound : List Kind), r.rest = d.kinds ++ rest →
    Ahead (· == .rightBracket) rest → d.kinds.length ≤ bound.length →
    r.Fills slot (single h d) (turnsWithin (listStep nested slot) bound r)

/-- Whether the rule for expressions reads what is derived from an element. -/
def FillsElement (nested : Rule) {body : List Part} (h : Production .element body)
    (d : Derivation body) : Prop :=
  Begins .rightBracket d ∧ ∀ (slot : Nat) (r : Reading) (rest : List Kind),
    r.rest = d.kinds ++ rest → Ahead endsExpression rest →
    ∃ e s, nested r = (some e, s) ∧ r.Fills slot (single h d) (s.addEntry slot (.element e))

/-- An expression starts neither with a comma nor with what may follow one. -/
theorem begins_expression (h : Production (.expression b) body₁) (d : Derivation body₁)
    {close : Kind} (hclose : endsExpression close = true) : Begins close d := by
  obtain ⟨k, w, hk, hfirst⟩ := d.exists_kinds_eq_cons h rfl
  refine ⟨k, w, hk, ?_, ?_⟩
  · rintro rfl
    cases b <;> cases k <;> simp_all [startsPrimary, endsExpression]
  · rintro rfl
    cases b <;> simp [startsPrimary] at hfirst

/-- An element is read as the expression that it is. -/
theorem fillsElement_element {h₁ : Production (.expression b) body₁} {d₁ : Derivation body₁}
    (ih : nested.Reads endsExpression h₁ d₁) :
    FillsElement nested (.element b) (single h₁ d₁) := by
  obtain ⟨k, w, hk, hne⟩ := begins_expression h₁ d₁ (show endsExpression .rightBracket = true from rfl)
  refine ⟨⟨k, w, by simpa using hk, hne⟩, fun slot r rest hr hrest => ?_⟩
  obtain ⟨s, hs, hpass⟩ := ih r rest (by simpa using hr) hrest
  exact ⟨_, s, hs, Fills.element hpass⟩

/-- Where an element begins, one step reads it, and the comma behind it. -/
theorem listStep_of_begins {slot : Nat} {d : Derivation body₁} (hd : Begins .rightBracket d)
    {r : Reading} {rest : List Kind} (hr : r.rest = d.kinds ++ rest) :
    listStep nested slot r = match nested r with
      | (none, s) => .again (s.advanceIfStuck r)
      | (some e, s) =>
        let t := s.addEntry slot (.element e)
        if t.at? .comma then .again t.advance else .stop t := by
  obtain ⟨hend, hcomma⟩ := hd.ahead hr
  rw [listStep, hend, hcomma]
  rfl

/-- The entries end at the closing bracket. -/
theorem listStep_of_ahead {slot : Nat} {r : Reading} (hr : Ahead (· == .rightBracket) r.rest) :
    listStep nested slot r = .stop r := by
  rw [listStep, ends_of_ahead hr]
  rfl

/-- A comma where an entry might begin is a hole. -/
theorem listStep_of_comma {slot : Nat} {r : Reading} {w : List Kind} (hr : r.rest = .comma :: w) :
    listStep nested slot r = .again (r.addEntry slot (.hole r.position)).advance := by
  simp [listStep, at?_of_rest hr, hr]

/-- A step that passes over the first entry of a derivation and leaves `v` to the next. -/
theorem FillsEntries.of_again {body : List Part} {h : Production .entries body}
    {d : Derivation body}
    (hstep : ∀ (slot : Nat) (r : Reading) (rest : List Kind), r.rest = d.kinds ++ rest →
      Ahead (· == .rightBracket) rest → ∃ (s : Reading) (v : List Kind),
        listStep nested slot r = .again s ∧ v.length < d.kinds.length ∧
        ∀ bound : List Kind, v.length ≤ bound.length →
          r.Fills slot (single h d) (turnsWithin (listStep nested slot) bound s)) :
    FillsEntries nested h d := by
  intro slot r rest bound hr hrest hbound
  obtain ⟨s, v, hagain, hv, hfill⟩ := hstep slot r rest hr hrest
  cases bound with
  | nil => exact absurd hbound (Nat.not_le.mpr (Nat.zero_lt_of_lt hv))
  | cons k bound =>
    rw [turnsWithin_of_again hagain]
    refine hfill bound ?_
    simp only [List.length_cons] at hbound
    omega

/-- A list literal may have no entries. -/
theorem fillsEntries_end : FillsEntries nested .entriesEnd .nil := by
  intro slot r rest bound hr hrest _
  simp only [kinds, List.nil_append] at hr
  rw [turnsWithin_of_stop (listStep_of_ahead (hr ▸ hrest))]
  exact (Fills.nil slot r).single

/-- The last element is read with no comma behind it. -/
theorem fillsEntries_last {h₁ : Production .element body₁} {d₁ : Derivation body₁}
    (ih : FillsElement nested h₁ d₁) : FillsEntries nested .entriesLast (single h₁ d₁) := by
  intro slot r rest bound hr hrest _
  simp only [kinds, List.append_nil] at hr
  obtain ⟨e, s, hs, hfill⟩ := ih.2 slot r rest hr (hrest.mono fun k hk => by
    rw [beq_iff_eq.mp hk]; rfl)
  have hrest' := hfill.rest_eq (by simpa using hr)
  have hat : (s.addEntry slot (.element e)).at? .comma = false :=
    Ahead.at?_eq_false (hrest' ▸ hrest) rfl
  have hstep : listStep nested slot r = .stop (s.addEntry slot (.element e)) := by
    rw [listStep_of_begins ih.1 hr, hs]
    simp [hat]
  rw [turnsWithin_of_stop hstep]
  exact hfill.single

/-- A hole is read as an entry, and others behind it. -/
theorem fillsEntries_hole {h₁ : Production .hole body₁} {d₁ : Derivation body₁}
    {h₂ : Production .entries body₂} {d₂ : Derivation body₂} (ih : FillsEntries nested h₂ d₂) :
    FillsEntries nested .entriesHole (.phrase h₁ d₁ (single h₂ d₂)) := by
  cases h₁
  match d₁ with
  | .token _ .nil =>
    refine .of_again fun slot r rest hr hrest => ?_
    simp only [kinds, List.append_nil, List.cons_append, List.nil_append] at hr
    have hat : r.at? .comma = true := at?_iff.mpr ⟨_, hr⟩
    have hfill := Fills.hole slot hat
    have hrest' := hfill.rest_eq (by simpa using hr)
    refine ⟨(r.addEntry slot (.hole r.position)).advance, d₂.kinds, listStep_of_comma hr, by simp, ?_⟩
    exact fun bound hbound => (hfill.phrase (ih slot _ rest bound hrest' hrest hbound)).single

/-- An element is read with the comma behind it, and other entries behind that. -/
theorem fillsEntries_next {h₁ : Production .element body₁} {d₁ : Derivation body₁}
    {h₂ : Production .entries body₂} {d₂ : Derivation body₂} (ih₁ : FillsElement nested h₁ d₁)
    (ih₂ : FillsEntries nested h₂ d₂) :
    FillsEntries nested .entriesNext (.phrase h₁ d₁ (.token .comma (single h₂ d₂))) := by
  refine .of_again fun slot r rest hr hrest => ?_
  simp only [kinds, List.append_nil, List.cons_append, List.append_assoc] at hr
  obtain ⟨e, s, hs, hfill⟩ := ih₁.2 slot r _ hr (ahead_cons.mpr rfl)
  have hrest' := hfill.rest_eq (by simpa using hr)
  have hat : (s.addEntry slot (.element e)).at? .comma = true := at?_iff.mpr ⟨_, hrest'⟩
  refine ⟨(s.addEntry slot (.element e)).advance, d₂.kinds, ?_, ?_, fun bound hbound => ?_⟩
  · rw [listStep_of_begins ih₁.1 hr, hs]
    simp [hat]
  · simp only [kinds, List.length_cons, List.length_append]
    omega
  · have hmore := ih₂ slot _ rest bound ((moves_advance hat).rest_eq hrest') hrest hbound
    exact (hfill.phrase (Fills.token hat hmore)).single

/-- A list literal is read as its brackets and the entries in between. -/
theorem reads_list {h₁ : Production .entries body₁} {d₁ : Derivation body₁}
    (ih : FillsEntries nested h₁ d₁) :
    (listLiteral nested).Reads (fun _ => true) .list
      (.token .leftBracket (.phrase h₁ d₁ (.token .rightBracket .nil))) := by
  intro r rest hr _
  simp only [kinds, List.cons_append, List.append_assoc, List.nil_append] at hr
  have hat : r.at? .leftBracket = true := at?_iff.mpr ⟨_, hr⟩
  have hopen : r.openList.rest = d₁.kinds ++ .rightBracket :: rest := (moves_advance hat).rest_eq hr
  have hfill := ih r.lists.length r.openList _ r.openList.rest hopen (ahead_cons.mpr rfl)
    (by simp [hopen])
  have hclose : (turnsWithin (listStep nested r.lists.length) r.openList.rest r.openList).at?
      .rightBracket = true := at?_iff.mpr ⟨rest, hfill.rest_eq (by simpa using hopen)⟩
  have hall := Passes.ofFills hat hfill hclose
  refine ⟨_, ?_, hall⟩
  rw [listLiteral, ← extentFrom_eq hall]
  simp [turns, expect, hclose]

/-! ### Properties -/

/-- An expression that is spread is read as a property. -/
theorem itemReads_spread {h₁ : Production (.expression true) body₁} {d₁ : Derivation body₁}
    (ih : nested.Reads endsExpression h₁ d₁) :
    ItemReads (property nested) endsProperty .spread (single h₁ d₁) := by
  intro r rest hr hrest
  simp only [kinds, List.append_nil] at hr
  obtain ⟨s, hs, hpass⟩ := ih.item r rest hr (hrest.mono fun k => by cases k <;> decide)
  obtain ⟨k, w, hk, hfirst⟩ := d₁.exists_kinds_eq_cons h₁ rfl
  obtain rfl : k = .operator := by simpa using hfirst
  refine ⟨s, ?_, hpass.single rfl⟩
  rw [property, peek?_of_rest (hr.trans (by rw [hk, List.cons_append])), hs]

/-- A key by itself is read as a property. -/
theorem itemReads_key {k : Kind} (hk : isKey k = true) :
    ItemReads (property nested) endsProperty (.key k hk) (.token k .nil) := by
  intro r rest hr hrest
  have hat : r.at? k = true := at?_iff.mpr ⟨_, hr⟩
  have hcolon : r.advance.at? .colon = false :=
    Ahead.at?_eq_false ((moves_advance hat).rest_eq hr ▸ hrest) rfl
  refine ⟨r.advance, ?_, (Passes.token hat (Passes.nil _)).single rfl⟩
  rw [property_of_key hr hk, hcolon]
  rfl

/-- A key with a value is read as a property. -/
theorem itemReads_pair {k : Kind} (hk : isKey k = true) {h₁ : Production (.expression b) body₁}
    {d₁ : Derivation body₁} (ih : nested.Reads endsExpression h₁ d₁) :
    ItemReads (property nested) endsProperty (.pair k hk b)
      (.token k (.token .colon (single h₁ d₁))) := by
  intro r rest hr hrest
  simp only [kinds, List.append_nil, List.cons_append] at hr
  have hat : r.at? k = true := at?_iff.mpr ⟨_, hr⟩
  have hadvance := (moves_advance hat).rest_eq hr
  have hcolon : r.advance.at? .colon = true := at?_iff.mpr ⟨_, hadvance⟩
  obtain ⟨s, hs, hpass⟩ := ih _ rest ((moves_advance hcolon).rest_eq hadvance)
    (hrest.mono fun k => by cases k <;> decide)
  refine ⟨s, ?_, (Passes.token hat (Passes.token hcolon hpass)).single rfl⟩
  rw [property_of_key hr hk, hcolon, hs]
  rfl

/-- A property starts neither with a comma nor with a closing brace. -/
theorem begins_property (h : Production .property body₁) (d : Derivation body₁) :
    Begins .rightBrace d := by
  obtain ⟨k, w, hk, hfirst⟩ := d.exists_kinds_eq_cons h rfl
  refine ⟨k, w, hk, ?_, ?_⟩ <;> rintro rfl <;> simp [isKey] at hfirst

end

end CommaStyle.Grammar
