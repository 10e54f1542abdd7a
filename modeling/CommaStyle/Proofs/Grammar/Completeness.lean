import CommaStyle.Proofs.Documents
import CommaStyle.Proofs.Grammar.Completeness.Literals

namespace CommaStyle.Grammar

open Reading Grammar.Derivation

/-!
# Completeness of the rules

The rules read every program that can be derived, as long as no expression is nested too deeply.

* `IsRead` says for each phrase what the rules make of it;
* `isRead` — they do so for every derivation;
* `Document.outline_of_derivation` — the outline of a document whose tokens are derived has the list
  literals of the derivation and no errors.
-/

/-! ### Statements -/

section

variable {b : Bool} {body₁ body₂ : List Part}

/-- The statements end where no token is ahead. -/
theorem moduleStep_of_ahead {r : Reading} (hr : Ahead (fun _ => false) r.rest) :
    moduleStep r = .stop r := by
  have hempty : r.rest.isEmpty = true := by
    cases hw : r.rest with
    | nil => rfl
    | cons k w =>
      rw [hw, ahead_cons] at hr
      exact absurd hr (by simp)
  rw [moduleStep, hempty]
  rfl

/-- The end of a program is read where no token is ahead. -/
theorem repeats_programEnd : Repeats moduleStep (fun _ => false) (.programEnd b) .nil :=
  .of_stop rfl (fun r => (Passes.nil r).single rfl) fun _ => moduleStep_of_ahead

/-- An empty statement is read as its semicolon. -/
theorem repeats_programEmpty {h₁ : Production (.program b) body₁} {d₁ : Derivation body₁}
    (ih : Repeats moduleStep (fun _ => false) h₁ d₁) :
    Repeats moduleStep (fun _ => false) (.programEmpty b) (.token .semicolon (single h₁ d₁)) := by
  refine .of_again fun r rest hr hrest => ?_
  simp only [kinds, List.append_nil, List.cons_append] at hr
  have hat : r.at? .semicolon = true := at?_iff.mpr ⟨_, hr⟩
  refine ⟨r.advance, d₁.kinds, ?_, by simp, fun bound hbound => ?_⟩
  · simp [moduleStep, hat, hr]
  · have hmore := ih r.advance rest bound ((moves_advance hat).rest_eq hr) hrest hbound
    exact (Passes.token hat hmore).single rfl

/-- A statement is read up to the semicolon behind it. -/
theorem moduleStep_of_sequence {h₁ : Production .sequence body₁} {d₁ : Derivation body₁}
    (ih : (sequence (expression maxDepth)).Reads endsSequence h₁ d₁) {r : Reading} {rest : List Kind}
    (hr : r.rest = d₁.kinds ++ rest) (hrest : Ahead endsSequence rest) :
    ∃ s, r.Passes (single h₁ d₁) s ∧ moduleStep r = .again (s.accept .semicolon) := by
  obtain ⟨s, hs, hpass⟩ := ih r rest hr hrest
  obtain ⟨k, w, hk, hfirst⟩ := d₁.exists_kinds_eq_cons h₁ rfl
  rw [hk, List.cons_append] at hr
  have hat : r.at? .semicolon = false := by
    rw [at?_of_rest hr]
    cases k <;> simp_all [startsPrimary]
  refine ⟨s, hpass, ?_⟩
  -- A sequence is never empty, so that the step is not stuck behind it.
  have hposition : s.position = r.position + (w.length + 1) := by simpa [hk] using hpass.position
  have hstuck := advanceIfStuck_accept (r := r) (s := s) (by omega) .semicolon
  simp [moduleStep, hat, hr, hs, hstuck]

/-- A statement with a semicolon behind it is read, if its sequence is. -/
theorem repeats_programStatement {h₁ : Production .sequence body₁} {d₁ : Derivation body₁}
    {h₂ : Production (.program b) body₂} {d₂ : Derivation body₂}
    (ih₁ : (sequence (expression maxDepth)).Reads endsSequence h₁ d₁)
    (ih₂ : Repeats moduleStep (fun _ => false) h₂ d₂) :
    Repeats moduleStep (fun _ => false) (.programStatement b)
      (.phrase h₁ d₁ (.token .semicolon (single h₂ d₂))) := by
  refine .of_again fun r rest hr hrest => ?_
  simp only [kinds, List.append_nil, List.cons_append, List.append_assoc] at hr
  obtain ⟨s, hpass, hstep⟩ := moduleStep_of_sequence ih₁ hr (ahead_cons.mpr rfl)
  have hrest' := hpass.rest_eq (by simpa using hr)
  have hat : s.at? .semicolon = true := at?_iff.mpr ⟨_, hrest'⟩
  refine ⟨s.advance, d₂.kinds, ?_, ?_, fun bound hbound => ?_⟩
  · rw [hstep, accept, hat]
    rfl
  · simp only [kinds, List.length_cons, List.length_append]
    omega
  · have hmore := ih₂ s.advance rest bound ((moves_advance hat).rest_eq hrest') hrest hbound
    exact (hpass.phrase (Passes.token hat hmore)).single rfl

/-- The last statement of a program needs no semicolon. -/
theorem repeats_programLast {h₁ : Production .sequence body₁} {d₁ : Derivation body₁}
    (ih : (sequence (expression maxDepth)).Reads endsSequence h₁ d₁) :
    Repeats moduleStep (fun _ => false) (.programLast b) (single h₁ d₁) := by
  refine .of_again fun r rest hr hrest => ?_
  simp only [kinds, List.append_nil] at hr
  obtain ⟨s, hpass, hstep⟩ :=
    moduleStep_of_sequence ih hr (hrest.mono fun k hk => absurd hk (by simp))
  have hrest' : Ahead (fun _ => false) s.rest := hpass.rest_eq (by simpa using hr) ▸ hrest
  obtain ⟨k, w, hk, -⟩ := d₁.exists_kinds_eq_cons h₁ rfl
  refine ⟨s, [], ?_, by simp [hk], fun bound _ => ?_⟩
  · rw [hstep, accept, hrest'.at?_eq_false rfl]
    rfl
  · rw [turnsWithin_of_stop (moduleStep_of_ahead hrest')]
    exact hpass.single rfl

end

/-! ### All phrases -/

/-- Whether the rules read what is derived from a phrase, with so many levels of nesting left. -/
def IsRead (levels : Nat) :
    {p : Phrase} → {body : List Part} → Production p body → Derivation body → Prop
  | .program true, _, h, d => levels = maxDepth → Repeats moduleStep (fun _ => false) h d
  | .sequence, _, h, d => (sequence (expression levels)).Reads endsSequence h d
  | .more, _, h, d => Repeats (sequenceStep (expression levels)) endsSequence h d
  | .expression _, _, h, d => (expression levels).Reads endsExpression h d
  | .target _, _, h, d => ReadsTarget (expression levels) h d
  | .binary _, _, h, d => (binary (expression levels)).Reads endsOperands h d
  | .operands, _, h, d => Repeats (binaryStep (expression levels)) endsOperands h d
  | .unary _, _, h, d => (unary (expression levels)).Reads endsOperand h d
  | .postfixed, _, h, d => (postfixed (expression levels)).Reads endsOperand h d
  | .suffixes, _, h, d => Repeats (postfixStep (expression levels)) endsOperand h d
  | .primary, _, h, d => (primary (expression levels)).Reads (fun _ => true) h d
  | .arguments, _, h, d =>
    Repeats (itemStep .rightParen (Rule.item (expression levels))) (· == .rightParen) h d
  | .list, _, h, d => (listLiteral (expression levels)).Reads (fun _ => true) h d
  | .entries, _, h, d => FillsEntries (expression levels) h d
  | .element, _, h, d => FillsElement (expression levels) h d
  | .properties, _, h, d =>
    Repeats (itemStep .rightBrace (property (expression levels))) (· == .rightBrace) h d
  | .property, _, h, d => ItemReads (property (expression levels)) endsProperty h d
  | .hole, _, _, _ | .program false, _, _, _ => True

/-- An expression is read, with one level more than its parts need. -/
theorem isRead_expression {levels : Nat} {b : Bool} {body : List Part}
    (h : Production (.expression b) body) (d : Derivation body)
    (ih : d.Each fun h d => IsRead levels h d) : IsRead (levels + 1) h d := by
  cases h with
  | value b =>
    match d, ih with
    | .phrase h₁ d₁ .nil, ih => exact reads_value ih.1
  | assignment b c =>
    match d, ih with
    | .phrase h₁ d₁ (.token _ (.phrase h₂ d₂ .nil)), ih => exact reads_assignment ih.1 ih.2.1

/-- A phrase other than an expression is read if its parts are. -/
theorem isRead_of_each {levels : Nat} {p : Phrase} {body : List Part} (h : Production p body)
    (d : Derivation body) (hp : p.nesting = 0) (ih : d.Each fun h d => IsRead levels h d) :
    IsRead levels h d := by
  -- There is one lemma for each production, about what the rules make of its parts.
  cases h with
  | programEnd b =>
    match b, d with
    | true, .nil => exact fun _ => repeats_programEnd
    | false, _ => trivial
  | programEmpty b =>
    match b, d, ih with
    | true, .token _ (.phrase h₁ d₁ .nil), ih => exact fun hl => repeats_programEmpty (ih.1 hl)
    | false, _, _ => trivial
  | programStatement b =>
    match b, d, ih with
    | true, .phrase h₁ d₁ (.token _ (.phrase h₂ d₂ .nil)), ih =>
      exact fun hl => repeats_programStatement (hl ▸ ih.1) (ih.2.1 hl)
    | false, _, _ => trivial
  | programLast b =>
    match b, d, ih with
    | true, .phrase h₁ d₁ .nil, ih => exact fun hl => repeats_programLast (hl ▸ ih.1)
    | false, _, _ => trivial
  | programAdjacent => trivial
  | sequence b =>
    match d, ih with
    | .phrase h₁ d₁ (.phrase h₂ d₂ .nil), ih => exact reads_sequence ih.1 ih.2.1
  | moreEnd =>
    match d with
    | .nil => exact repeats_moreEnd
  | moreNext b =>
    match d, ih with
    | .token _ (.phrase h₁ d₁ (.phrase h₂ d₂ .nil)), ih => exact repeats_moreNext ih.1 ih.2.1
  | value b | assignment b c => simp [Phrase.nesting] at hp
  | target b =>
    match d, ih with
    | .phrase h₁ d₁ .nil, ih => exact readsTarget_target ih.1
  | binary b =>
    match d, ih with
    | .phrase h₁ d₁ (.phrase h₂ d₂ .nil), ih => exact reads_binary ih.1 ih.2.1
  | operandsEnd =>
    match d with
    | .nil => exact repeats_operandsEnd
  | operandsTrailing =>
    match d with
    | .token _ .nil => exact repeats_operandsTrailing
  | operandsNext b =>
    match d, ih with
    | .token _ (.phrase h₁ d₁ (.phrase h₂ d₂ .nil)), ih => exact repeats_operandsNext ih.1 ih.2.1
  | unsigned =>
    match d, ih with
    | .phrase h₁ d₁ .nil, ih => exact reads_unsigned ih.1
  | signed b =>
    match d, ih with
    | .token _ (.phrase h₁ d₁ .nil), ih => exact reads_signed ih.1
  | postfixed =>
    match d, ih with
    | .phrase h₁ d₁ (.phrase h₂ d₂ .nil), ih => exact reads_postfixed ih.1 ih.2.1
  | suffixesEnd =>
    match d with
    | .nil => exact repeats_suffixesEnd
  | call =>
    match d, ih with
    | .token _ (.phrase h₁ d₁ (.token _ (.phrase h₂ d₂ .nil))), ih =>
      exact repeats_call ih.1 ih.2.1
  | index =>
    match d, ih with
    | .token _ (.phrase h₁ d₁ (.token _ (.phrase h₂ d₂ .nil))), ih =>
      exact repeats_index ih.1 ih.2.1
  | member =>
    match d, ih with
    | .token _ (.token _ (.phrase h₁ d₁ .nil)), ih => exact repeats_member ih.1
  | atom k hk =>
    match d with
    | .token _ .nil => exact reads_atom hk
  | parens =>
    match d, ih with
    | .token _ (.phrase h₁ d₁ (.token _ .nil)), ih => exact reads_parens ih.1
  | literal =>
    match d, ih with
    | .phrase h₁ d₁ .nil, ih => exact reads_literal ih.1
  | object =>
    match d, ih with
    | .token _ (.phrase h₁ d₁ (.token _ .nil)), ih => exact reads_object ih.1
  | argumentsEnd =>
    match d with
    | .nil => exact repeats_itemsEnd rfl
  | argumentsLast b =>
    match d, ih with
    | .phrase h₁ d₁ .nil, ih =>
      exact repeats_itemsLast (by decide) rfl (begins_expression h₁ d₁ rfl) (Rule.Reads.item ih.1) rfl
  | argumentsNext b =>
    match d, ih with
    | .phrase h₁ d₁ (.token _ (.phrase h₂ d₂ .nil)), ih =>
      exact repeats_itemsNext rfl (begins_expression h₁ d₁ rfl) (Rule.Reads.item ih.1) ih.2.1 rfl
  | list =>
    match d, ih with
    | .token _ (.phrase h₁ d₁ (.token _ .nil)), ih => exact reads_list ih.1
  | entriesEnd =>
    match d with
    | .nil => exact fillsEntries_end
  | entriesLast =>
    match d, ih with
    | .phrase h₁ d₁ .nil, ih => exact fillsEntries_last ih.1
  | entriesHole =>
    match d, ih with
    | .phrase h₁ d₁ (.phrase h₂ d₂ .nil), ih => exact fillsEntries_hole ih.2.1
  | entriesNext =>
    match d, ih with
    | .phrase h₁ d₁ (.token _ (.phrase h₂ d₂ .nil)), ih => exact fillsEntries_next ih.1 ih.2.1
  | element b =>
    match d, ih with
    | .phrase h₁ d₁ .nil, ih => exact fillsElement_element ih.1
  | hole => trivial
  | propertiesEnd =>
    match d with
    | .nil => exact repeats_itemsEnd rfl
  | propertiesLast =>
    match d, ih with
    | .phrase h₁ d₁ .nil, ih =>
      exact repeats_itemsLast (by decide) rfl (begins_property h₁ d₁) ih.1 rfl
  | propertiesNext =>
    match d, ih with
    | .phrase h₁ d₁ (.token _ (.phrase h₂ d₂ .nil)), ih =>
      exact repeats_itemsNext rfl (begins_property h₁ d₁) ih.1 ih.2.1 rfl
  | spread =>
    match d, ih with
    | .phrase h₁ d₁ .nil, ih => exact itemReads_spread ih.1
  | key k hk =>
    match d with
    | .token _ .nil => exact itemReads_key hk
  | pair k hk b =>
    match d, ih with
    | .token _ (.token _ (.phrase h₁ d₁ .nil)), ih => exact itemReads_pair hk ih.1

/-- Enough levels for some parts are enough for each of the phrases among them. -/
theorem each_isRead {parts : List Part} (d : Derivation parts) {levels : Nat}
    (h : d.Each fun {p _} h d => ∀ {levels}, d.depth + p.nesting ≤ levels → IsRead levels h d)
    (hlevels : d.depth ≤ levels) : d.Each fun h d => IsRead levels h d := by
  induction d with
  | nil => trivial
  | token k rest ih => exact ih h hlevels
  | phrase hprod inner rest _ ih =>
    rw [depth] at hlevels
    exact ⟨h.1 (by omega), ih h.2 (by omega)⟩

/-- **The rules read every derivation** that is not nested too deeply. -/
theorem isRead {p : Phrase} {body : List Part} (h : Production p body) (d : Derivation body)
    {levels : Nat} (hlevels : d.depth + p.nesting ≤ levels) : IsRead levels h d := by
  revert levels
  refine induct (motive := fun {p _} h d =>
    ∀ {levels}, d.depth + p.nesting ≤ levels → IsRead levels h d) ?_ h d
  intro p body h d ih levels hlevels
  by_cases hp : p.nesting = 0
  · exact isRead_of_each h d hp (each_isRead d ih (by omega))
  · cases p <;> simp only [Phrase.nesting, not_true_eq_false] at hp
    -- Only an expression takes a level, and its parts are read with one level less.
    case expression b =>
      cases levels with
      | zero => simp [Phrase.nesting] at hlevels
      | succ levels =>
        exact isRead_expression h d (each_isRead d ih (Nat.le_of_succ_le_succ hlevels))

/-- **Modules are read.** A program that is not nested too deeply is read as it is derived. -/
theorem passes_readModule {body : List Part} (h : Production (.program true) body)
    (d : Derivation body) (hdepth : d.depth ≤ maxDepth) :
    (ofKinds d.kinds).Passes (single h d) (readModule d.kinds) := by
  have hread : IsRead maxDepth h d := isRead h d hdepth
  exact Repeats.turns (hread rfl) (List.append_nil _).symm (by simp [Ahead])

end CommaStyle.Grammar

namespace CommaStyle.Document

open Grammar

/-- **Completeness.** A document whose tokens are all closed and can be derived, with no expression
    nested in more than 255 others, has no errors. Its list literals are those of the derivation, in
    the order of their opening brackets, with the same holes and elements, and those are patterns
    that lie in the target of an assignment. -/
theorem outline_of_derivation (d : Document) (hclosed : d.unclosed = [])
    (tree : Derivation [Phrase.program true]) (hkinds : d.kinds = tree.kinds)
    (hdepth : tree.depth ≤ 256) :
    d.outline.errors = [] ∧
      d.outline.lists = (tree.literals .array 0).map (ListNode.ofNode d.significantAt) ∧
      (tree.literals .array 0).Pairwise (fun m n => m.opening < n.opening) ∧
      ∀ n ∈ tree.literals .array 0,
        n.use = .pattern ↔ ∃ t ∈ tree.targets 0, t.first ≤ n.opening ∧ n.opening ≤ t.last := by
  have hread : (Reading.ofKinds d.kinds).Passes tree d.reading := by
    match tree with
    | .phrase h inner .nil =>
      simp only [Derivation.kinds, List.append_nil] at hkinds
      rw [reading, hkinds]
      exact passes_readModule h inner (by simpa [Phrase.nesting, maxDepth] using hdepth)
  refine ⟨?_, ?_, tree.pairwise_opening .array 0, fun n hn => ?_⟩
  · have hmarks : d.reading.marks = [] := hread.marks
    simp [outline, hclosed, hmarks]
  · have hlists : d.reading.lists = tree.literals .array 0 :=
      hread.lists fun n hn => absurd hn List.not_mem_nil
    rw [outline_lists, hlists]
  · simpa using tree.use_eq_pattern_iff hn

/-- A primary expression as the operands of an expression. -/
def operand {body : List Part} (h : Production .primary body) (d : Derivation body) :
    Derivation [Phrase.binary false] :=
  .single (.binary false)
    (.phrase .unsigned (.single .postfixed (.phrase h d (.single .suffixesEnd .nil)))
      (.single .operandsEnd .nil))

/-- The derivation of a program `[,a]=b`. -/
def holeInTarget : Derivation [Phrase.program true] :=
  let name := operand (.atom .name rfl) (.token .name .nil)
  let entries := .phrase .hole (.token .comma .nil)
    (.single .entriesLast (.single (.element false) (.single (.value false) name)))
  let list := .token .leftBracket (.phrase .entriesHole entries (.token .rightBracket .nil))
  let assignment := .phrase (.target false) (operand .literal (.single .list list))
    (.token .assign (.single (.value false) name))
  .single (.programLast true) (.single (.sequence false)
    (.phrase (.assignment false false) assignment (.single .moreEnd .nil)))

/-- The hole in `[,a]=b` is found in a pattern. -/
theorem outline_of_derivation_hole :
    let d := ofText ['[', ',', 'a', ']', '=', 'b']
    d.unclosed = [] ∧ d.kinds = holeInTarget.kinds ∧ holeInTarget.depth ≤ 256 ∧
      d.outline.errors = [] ∧ d.outline.lists = [⟨.pattern, 0, [none, some ⟨2, 2⟩]⟩] := by
  intro d
  have hclosed : d.unclosed = [] := by decide
  have hkinds : d.kinds = holeInTarget.kinds := by decide
  have hdepth : holeInTarget.depth ≤ 256 := by decide
  obtain ⟨herrors, hlists, -⟩ := outline_of_derivation d hclosed holeInTarget hkinds hdepth
  exact ⟨hclosed, hkinds, hdepth, herrors, hlists.trans (by decide)⟩

end CommaStyle.Document
