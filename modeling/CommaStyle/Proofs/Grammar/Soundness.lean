import CommaStyle.Proofs.Documents
import CommaStyle.Proofs.Grammar.Soundness.Loops

namespace CommaStyle.Grammar

open Reading Grammar.Derivation

/-!
# Soundness of the rules

What the rules pass over without a report can be derived.

* `sound_expression` — this holds of expressions with any number of levels left, since an expression
  that is nested too deeply is reported;
* `sound_readModule` — it holds of a whole program;
* `Document.exists_derivation_of_outline` — the tokens of a document without errors can be derived,
  and its list literals are those of the derivation.
-/

section

variable {nested : Rule} (hnested : nested.Sound Phrase.expression)

include hnested

/-- A nested expression behind a token. -/
theorem sound_nested_advance (r : Reading) :
    Faults r (nested r.advance).2 ∨
      ∃ b, Leads Passes [Phrase.expression b] r.advance (nested r.advance).2 :=
  (hnested r.advance).imp (fun h => h.congr (marks_advance r).symm rfl) And.right

/-! ### Sequences -/

/-- A sequence goes on as derived, or something is reported. -/
theorem sound_more (r : Reading) :
    Faults r (r.turns (sequenceStep nested)) ∨
      Leads Passes [Phrase.more] r (r.turns (sequenceStep nested)) := by
  refine sound_turns (fun _ _ h => h.marks) (fun r => ?_) r
  rw [sequenceStep]
  split
  · next hat =>
    rcases sound_nested_advance hnested r with h | ⟨b, h⟩
    · exact .inl h
    · refine .inr ⟨h.marks.trans (marks_advance r), ?_, fun u hu => ?_⟩
      · exact Nat.lt_of_le_of_lt h.length_rest_le (length_rest_advance hat)
      · exact (Leads.token hat (h.phrase hu)).single (.moreNext b) rfl
  · exact .inr ((Leads.nil Passes r).single .moreEnd rfl)

end

/-- A rule that takes another rule and then repeats a step, if the other rule found something. -/
theorem sound_chain {rule first : Rule} {step : Reading → Turn} {p p₁ : Bool → Phrase} {p₂ : Phrase}
    (hnone : ∀ r s, first r = (none, s) → rule r = (none, s))
    (hsome : ∀ r e s, first r = (some e, s) →
      rule r = (some ((s.turns step).extentFrom e.first), s.turns step))
    (hfirst : first.Sound p₁) (hstep : ∀ r, Faults r (r.turns step) ∨ Leads Passes [p₂] r (r.turns step))
    (hp : ∀ b, ∃ b', Production (p b') [p₁ b, p₂]) (hplain : ∀ b, (p b).isPlain = true) :
    rule.Sound p := by
  intro r
  rcases hr : first r with ⟨_ | e, s⟩
  · rw [hnone r s hr]
    -- A first rule that finds nothing has reported why.
    rcases hfirst r with h | ⟨h, -⟩
    · rw [hr] at h
      exact .inl h
    · rw [hr] at h
      exact absurd h (by simp)
  · rw [hsome r e s hr]
    have hfound := hfirst r
    simp only [hr] at hfound
    rcases hfound with h | ⟨he, b, h⟩
    · exact .inl (h.trans ((hstep s).imp_right Leads.marks))
    · obtain rfl := Option.some.inj he
      rcases hstep s with h' | h'
      · exact .inl (h'.congr h.marks.symm rfl)
      · obtain ⟨b', hb'⟩ := hp b
        exact .inr ⟨rfl, b', (h.phrase h').single hb' (hplain b')⟩

section

variable {nested : Rule} (hnested : nested.Sound Phrase.expression)

include hnested

/-- The rule for sequences is sound. -/
theorem sound_sequence : (sequence nested).Sound fun _ => .sequence :=
  sound_chain (fun r s h => by rw [sequence, h]) (fun r e s h => by rw [sequence, h]) hnested
    (sound_more hnested) (fun b => ⟨b, .sequence b⟩) fun _ => rfl

/-! ### Items between commas -/

omit hnested in
/-- Items are read as derived, or something is reported, for any phrase that is made of them. -/
theorem sound_items {close : Kind} {item : Reading → Bool × Reading} {p : Phrase}
    {q : Bool → Phrase} (hitem : ItemSound item q) (hend : Production p [])
    (hlast : ∀ b, Production p [q b]) (hnext : ∀ b, Production p [q b, Kind.comma, p])
    (hplain : p.isPlain = true) (r : Reading) :
    Faults r (items close item r) ∨ Leads Passes [p] r (items close item r) := by
  refine sound_turns (fun _ _ h => h.marks) (fun r => ?_) r
  rw [itemStep]
  split
  · exact .inr ((Leads.nil Passes r).single hend hplain)
  split
  -- A comma where an item should be is reported.
  · refine .inl ((faults_report r .unexpectedComma).congr rfl (marks_advance _))
  have hfound := hitem r
  rcases hr : item r with ⟨_ | _, s⟩ <;> simp only [hr, Bool.false_eq_true, false_and, or_false,
    true_and] at hfound
  -- Without an item the step may be stuck and skip a token, but then it has reported a fault.
  · exact .inl (hfound.congr rfl (marks_advanceIfStuck s r))
  · dsimp only
    rcases hfound with h | ⟨b, h⟩
    · split
      · exact .inl (h.congr rfl (marks_advance s))
      · exact .inl h
    · split
      · next hat =>
        refine .inr ⟨(marks_advance s).trans h.marks, ?_, fun u hu => ?_⟩
        · exact Nat.lt_of_lt_of_le (length_rest_advance hat) h.length_rest_le
        · exact (h.phrase (Leads.token hat hu)).single (hnext b) hplain
      · exact .inr (h.single (hlast b) hplain)

/-- Arguments are read as derived, or something is reported. -/
theorem sound_arguments (r : Reading) :
    Faults r (items .rightParen nested.item r) ∨
      Leads Passes [Phrase.arguments] r (items .rightParen nested.item r) := by
  refine sound_items (q := Phrase.expression) (fun r => ?_) .argumentsEnd .argumentsLast
    .argumentsNext rfl r
  refine (hnested r).imp_right fun ⟨h, hlead⟩ => ⟨?_, hlead⟩
  simp [Rule.item, h]

/-- A key, and the value behind it if there is one. -/
theorem sound_key {r : Reading} {k : Kind} {w : List Kind} (hr : r.rest = k :: w)
    (hk : isKey k = true) :
    Faults r (property nested r).2 ∨ Leads Passes [Phrase.property] r (property nested r).2 := by
  have hat : r.at? k = true := at?_iff.mpr ⟨w, hr⟩
  rw [property_of_key hr hk]
  dsimp only
  split
  · next hcolon =>
    rcases sound_nested_advance hnested r.advance with h | ⟨b, h⟩
    · exact .inl (h.congr (marks_advance r).symm rfl)
    · exact .inr ((Leads.token hat (Leads.token hcolon h)).single (.pair k hk b) rfl)
  · exact .inr ((Leads.token hat (Leads.nil Passes _)).single (.key k hk) rfl)

/-- The rule for properties is sound. -/
theorem sound_property : ItemSound (property nested) fun _ => .property := by
  intro r
  cases hr : r.rest with
  | nil => exact .inl (by simpa [property, peek?, hr] using faults_report r .expectedProperty)
  | cons k w =>
    by_cases hk : isKey k = true
    · exact (sound_key hnested hr hk).imp_right fun h => ⟨by rw [property_of_key hr hk], false, h⟩
    by_cases hop : k = .operator
    · subst hop
      have hprop : property nested r = nested.item r := by rw [property, peek?_of_rest hr]
      rw [hprop]
      refine (hnested r).imp_right ?_
      rintro ⟨h, b, hlead⟩
      refine ⟨by simp [Rule.item, h], false, ?_⟩
      -- An expression that starts with an operator is one that says so.
      obtain ⟨k, w', hk', hfirst⟩ := hlead.exists_rest_eq_cons rfl
      obtain ⟨rfl, -⟩ : k = .operator ∧ w = w' := by simpa [hr, eq_comm] using hk'
      cases b with
      | true => exact hlead.single .spread rfl
      | false => exact absurd hfirst (by decide)
    · have hprop : property nested r = (false, r.report .expectedProperty) := by
        rw [property, peek?_of_rest hr]
        cases k <;> first | rfl | exact absurd rfl hk | exact absurd rfl hop
      rw [hprop]
      exact .inl (faults_report r _)

/-- Properties are read as derived, or something is reported. -/
theorem sound_properties (r : Reading) :
    Faults r (items .rightBrace (property nested) r) ∨
      Leads Passes [Phrase.properties] r (items .rightBrace (property nested) r) :=
  sound_items (sound_property hnested) .propertiesEnd (fun _ => .propertiesLast)
    (fun _ => .propertiesNext) rfl r

/-! ### List literals -/

/-- Entries fill their list literal as derived, or something is reported. -/
theorem sound_entries (slot : Nat) (r : Reading) :
    Faults r (r.turns (listStep nested slot)) ∨
      Leads (Fills slot) [Phrase.entries] r (r.turns (listStep nested slot)) := by
  refine sound_turns (fun _ _ h => h.marks) (fun r => ?_) r
  rw [listStep]
  split
  · exact .inr ((Leads.nil (Fills slot) r).entries .entriesEnd)
  split
  · next hat =>
    have hhole := Leads.hole slot hat
    refine .inr ⟨hhole.marks, ?_, fun u hu => (hhole.phrase hu).entries .entriesHole⟩
    exact length_rest_advance (r := r.addEntry slot (.hole r.position)) hat
  have hfound := hnested r
  rcases hr : nested r with ⟨_ | e, s⟩ <;> simp only [hr, reduceCtorEq, false_and, or_false,
    Option.some.injEq] at hfound
  -- An element that is not found is reported, whatever is skipped then.
  · exact .inl (hfound.congr rfl (marks_advanceIfStuck s r))
  dsimp only
  rcases hfound with h | ⟨rfl, b, h⟩
  · split
    · exact .inl (h.congr rfl (marks_advance _))
    · exact .inl h
  · have helement := Leads.element slot h
    split
    · next hat =>
      refine .inr ⟨(marks_advance _).trans helement.marks, ?_, fun u hu => ?_⟩
      · exact Nat.lt_of_lt_of_le (length_rest_advance hat) helement.length_rest_le
      · exact (helement.phrase (Leads.token hat hu)).entries .entriesNext
    · exact .inr (helement.entries .entriesLast)

/-- A list literal is read as derived, or something is reported. -/
theorem sound_listLiteral {r : Reading} (hat : r.at? .leftBracket = true) :
    Faults r (listLiteral nested r).2 ∨ Leads Passes [Phrase.list] r (listLiteral nested r).2 := by
  have hopen : r.openList.marks = r.marks := marks_advance r
  have hentries := (sound_entries hnested r.lists.length r.openList).imp_left
    fun h => h.congr hopen.symm rfl
  rcases sound_expect hentries (fun h => h.marks.trans hopen) .rightBracket .expectedBracket
    with h | ⟨h, hclose, hadvance⟩
  · exact .inl h
  · rw [listLiteral, hadvance]
    exact .inr (Leads.list hat h hclose)

/-! ### Primary expressions -/

omit hnested in
/-- What stands between brackets, and the brackets. -/
theorem sound_bracketed {left right : Kind} {fault : Fault} {p q : Phrase}
    {inside : Reading → Reading} (hinside : ∀ r, Faults r (inside r) ∨ Leads Passes [q] r (inside r))
    {parts : List Part} (hp : Production p (left :: q :: right :: parts)) (hplain : p.isPlain = true)
    {r : Reading} (hat : r.at? left = true) :
    Faults r ((inside r.advance).expect right fault) ∨
      (((inside r.advance).expect right fault).marks = r.marks ∧
        ((inside r.advance).expect right fault).rest.length < r.rest.length ∧
        ∀ u, Leads Passes parts ((inside r.advance).expect right fault) u → Leads Passes [p] r u) := by
  have h := (hinside r.advance).imp_left fun h => h.congr (marks_advance r).symm rfl
  rcases sound_expect h (fun h => h.marks.trans (marks_advance r)) right fault
    with h | ⟨h, hclose, hadvance⟩
  · exact .inl h
  · rw [hadvance]
    refine .inr ⟨(marks_advance _).trans (h.marks.trans (marks_advance r)), ?_, fun u hu => ?_⟩
    · have := h.length_rest_le
      have := length_rest_advance hat
      have := length_rest_advance hclose
      omega
    · exact (Leads.token hat (h.phrase (Leads.token hclose hu))).single hp hplain

/-- The rule for primary expressions is sound. -/
theorem sound_primary : (primary nested).Sound fun _ => .primary := by
  intro r
  cases hr : r.rest with
  | nil =>
    have hprimary : primary nested r = (none, r.report .expectedExpression) := by
      simp [primary, peek?, hr]
    rw [hprimary]
    exact .inl (faults_report r _)
  | cons k w =>
    have hat : r.at? k = true := at?_iff.mpr ⟨w, hr⟩
    have hpeek := peek?_of_rest hr
    by_cases hk : isAtom k = true
    · have hprimary : primary nested r = (some (r.advance.extentFrom r.position), r.advance) := by
        rw [primary, hpeek]
        cases k <;> first | rfl | exact absurd hk (by decide)
      rw [hprimary]
      exact .inr ⟨rfl, false, (Leads.token hat (Leads.nil Passes _)).single (.atom k hk) rfl⟩
    cases k
    case leftParen =>
      have hprimary : primary nested r =
          (some ((arguments nested r.advance).extentFrom r.position), arguments nested r.advance) := by
        rw [primary, hpeek]
      rw [hprimary]
      rcases sound_bracketed (sound_arguments hnested) .parens rfl hat with h | ⟨-, -, h⟩
      · exact .inl h
      · exact .inr ⟨rfl, false, h _ (Leads.nil Passes _)⟩
    case leftBracket =>
      have hprimary : primary nested r = listLiteral nested r := by rw [primary, hpeek]
      rw [hprimary]
      exact (sound_listLiteral hnested hat).imp_right fun h => ⟨rfl, false, h.single .literal rfl⟩
    case leftBrace =>
      have hprimary : primary nested r = objectLiteral nested r := by rw [primary, hpeek]
      rw [hprimary]
      rcases sound_bracketed (sound_properties hnested) .object rfl hat with h | ⟨-, -, h⟩
      · exact .inl h
      · exact .inr ⟨rfl, false, h _ (Leads.nil Passes _)⟩
    case name | number | string | markup => exact absurd rfl hk
    -- Every other token is reported, and passed over unless something around may need it.
    all_goals
      left
      simp only [primary, hpeek]
      split
      · exact faults_report r _
      · exact (faults_report r _).congr rfl (marks_advance _)

/-! ### Calls, indices and member accesses -/

/-- Suffixes are read as derived, or something is reported. -/
theorem sound_suffixes (r : Reading) :
    Faults r (r.turns (postfixStep nested)) ∨
      Leads Passes [Phrase.suffixes] r (r.turns (postfixStep nested)) := by
  refine sound_turns (fun _ _ h => h.marks) (fun r => ?_) r
  rw [postfixStep]
  split
  · next hpeek =>
    have hat : r.at? .leftParen = true := by rw [at?, hpeek]; rfl
    exact sound_bracketed (sound_arguments hnested) .call rfl hat
  · next hpeek =>
    have hat : r.at? .leftBracket = true := by rw [at?, hpeek]; rfl
    have hindex : ∀ r, Faults r (sequence nested r).2 ∨
        Leads Passes [Phrase.sequence] r (sequence nested r).2 :=
      fun r => (sound_sequence hnested r).imp_right fun h => h.2.elim fun _ h => h
    exact sound_bracketed hindex .index rfl hat
  · next hpeek =>
    have hat : r.at? .dot = true := by rw [at?, hpeek]; rfl
    rcases sound_expect (r := r) (.inr trivial) (fun _ => marks_advance r) .name
      .expectedPropertyName with h | ⟨-, hname, hadvance⟩
    · exact .inl h
    · rw [hadvance]
      refine .inr ⟨(marks_advance _).trans (marks_advance r), ?_, fun u hu => ?_⟩
      · exact Nat.lt_trans (length_rest_advance hname) (length_rest_advance hat)
      · exact (Leads.token hat (Leads.token hname hu)).single .member rfl
  · exact .inr ((Leads.nil Passes r).single .suffixesEnd rfl)

/-- The rule for postfixed expressions is sound. -/
theorem sound_postfixed : (postfixed nested).Sound fun _ => .postfixed :=
  sound_chain (fun r s h => by rw [postfixed, h]) (fun r e s h => by rw [postfixed, h])
    (sound_primary hnested) (sound_suffixes hnested) (fun b => ⟨b, .postfixed⟩) fun _ => rfl

/-! ### Operators -/

/-- Without an operator in front, what is read is an operand. -/
theorem sound_unsigned (r : Reading) :
    Faults r (postfixed nested r).2 ∨
      ((postfixed nested r).1 = some ((postfixed nested r).2.extentFrom r.position) ∧
        Leads Passes [Phrase.unary false] r (postfixed nested r).2) := by
  refine (sound_postfixed hnested r).imp_right ?_
  rintro ⟨hfound, b, h⟩
  exact ⟨hfound, h.single .unsigned rfl⟩

/-- An operand behind all the operators in front of it, one of them after the other. -/
theorem sound_skipOperators (r : Reading) :
    Faults r (postfixed nested r.skipOperators).2 ∨
      ∃ b, Leads Passes [Phrase.unary b] r (postfixed nested r.skipOperators).2 := by
  induction hn : r.rest.length generalizing r with
  | zero =>
    have hat : r.at? .operator = false := by
      rw [at?, peek?, List.length_eq_zero_iff.mp hn]
      rfl
    rw [skipOperators_of_not_at? hat]
    exact (sound_unsigned hnested r).imp_right fun h => ⟨false, h.2⟩
  | succ n ih =>
    cases hat : r.at? .operator with
    | false =>
      rw [skipOperators_of_not_at? hat]
      exact (sound_unsigned hnested r).imp_right fun h => ⟨false, h.2⟩
    | true =>
      have hlength : r.advance.rest.length = n := by
        have := congrArg List.length (moves_advance hat).rest
        simp only [List.length_append, List.length_singleton] at this
        omega
      rw [skipOperators_of_at? hat]
      refine (ih r.advance hlength).imp (fun h => h.congr (marks_advance r).symm rfl) ?_
      rintro ⟨b, h⟩
      exact ⟨true, (Leads.token hat h).single (.signed b) rfl⟩

/-- The rule for operators and the expression behind them is sound. -/
theorem sound_unary : (unary nested).Sound Phrase.unary := by
  intro r
  have h := sound_skipOperators hnested r
  rw [← unary_snd] at h
  cases hat : r.at? .operator with
  | true =>
    refine h.imp_right fun h => ⟨?_, h⟩
    simp [unary, hat]
  | false =>
    have hunary : unary nested r = postfixed nested r := by rw [unary, hat]; rfl
    rw [hunary]
    exact (sound_unsigned hnested r).imp_right fun h => ⟨h.1, false, h.2⟩

omit hnested in
/-- Without an operator ahead there are no operands. -/
theorem leads_of_operands {r s : Reading} (hat : r.at? .operator = false)
    (h : Leads Passes [Phrase.operands] r s) : Leads Passes [] r s := by
  obtain ⟨d, h⟩ := h
  cases d with
  | phrase hp inner rest =>
    cases rest
    cases hp with
    | operandsEnd =>
      cases inner
      exact ⟨.nil, h.toMoves, by simpa [Phrase.literal] using h.lists⟩
    | operandsTrailing =>
      cases inner
      simp [at?_of_rest h.rest] at hat
    | operandsNext b =>
      cases inner
      simp [at?_of_rest h.rest] at hat

/-- A chain of operators goes on as derived, or something is reported. -/
theorem sound_operands (r : Reading) :
    Faults r (r.turns (binaryStep nested)) ∨
      Leads Passes [Phrase.operands] r (r.turns (binaryStep nested)) := by
  refine sound_turns (fun _ _ h => h.marks) (fun r => ?_) r
  rw [binaryStep]
  split
  · next hat =>
    dsimp only
    split
    · next hstart =>
      rcases sound_unary hnested r.advance with h | ⟨-, b, h⟩
      · exact .inl (h.congr (marks_advance r).symm rfl)
      · refine .inr ⟨h.marks.trans (marks_advance r), ?_, fun u hu => ?_⟩
        · exact Nat.lt_of_le_of_lt h.length_rest_le (length_rest_advance hat)
        · exact (Leads.token hat (h.phrase hu)).single (.operandsNext b) rfl
    · next hstart =>
      refine .inr ⟨marks_advance r, length_rest_advance hat, fun u hu => ?_⟩
      -- The next token starts no operand, so it is no operator either.
      have hat' : r.advance.at? .operator = false := by
        rw [Bool.eq_false_iff]
        intro h
        obtain ⟨w, hw⟩ := at?_iff.mp h
        exact hstart (by rw [peek?_of_rest hw]; rfl)
      exact (Leads.token hat (leads_of_operands hat' hu)).single .operandsTrailing rfl
  · exact .inr ((Leads.nil Passes r).single .operandsEnd rfl)

/-- The rule for chains of operators is sound. -/
theorem sound_binary : (binary nested).Sound Phrase.binary :=
  sound_chain (fun r s h => by rw [binary, h]) (fun r e s h => by rw [binary, h])
    (sound_unary hnested) (sound_operands hnested) (fun b => ⟨b, .binary b⟩) fun _ => rfl

/-- The rule for assignments is sound: what has no sign of assignment behind it is a value. -/
theorem sound_assignment : (assignment nested).Sound Phrase.expression := by
  intro r
  have hfound := sound_binary hnested r
  rcases hr : binary nested r with ⟨_ | target, s⟩ <;> simp only [hr, reduceCtorEq, false_and,
    or_false, Option.some.injEq] at hfound
  · rw [assignment, hr]
    exact .inl hfound
  rw [assignment, hr]
  dsimp only
  -- Marking patterns reports nothing, so that the value decides.
  have hvalue : ∀ first, Faults s (nested (s.retag first).advance).2 ∨
      ∃ c, Leads Passes [Phrase.expression c] (s.retag first).advance (nested (s.retag first).advance).2 :=
    fun first => (sound_nested_advance hnested (s.retag first)).imp_left fun h => h.congr rfl rfl
  rcases hfound with h | ⟨rfl, b, h⟩
  · split
    · refine .inl (h.trans ((hvalue target.first).imp_right fun ⟨_, hc⟩ => ?_))
      exact hc.marks.trans (marks_advance _)
    · exact .inl h
  · split
    · next hat =>
      rcases hvalue r.position with hfault | ⟨c, hc⟩
      · exact .inl (hfault.congr h.marks.symm rfl)
      · exact .inr ⟨rfl, b, (h.retag.phrase (Leads.token hat hc)).single (.assignment b c) rfl⟩
    · exact .inr ⟨rfl, b, h.single (.value b) rfl⟩

end

/-! ### Expressions and statements -/

/-- **The rules for expressions are sound.** -/
theorem sound_expression (levels : Nat) : (expression levels).Sound Phrase.expression := by
  induction levels with
  | zero => exact fun r => .inl (faults_report r .nestingTooDeep)
  | succ levels ih => exact sound_assignment ih

/-- Statements up to the end of the text. -/
theorem sound_readModule (kinds : List Kind) :
    Faults (ofKinds kinds) (readModule kinds) ∨ ((readModule kinds).rest = [] ∧
      Leads Passes [Phrase.program false] (ofKinds kinds) (readModule kinds)) := by
  refine sound_turns (fun r s (h : s.rest = [] ∧ Leads Passes [Phrase.program false] r s) => h.2.marks)
    (fun r => ?_) _
  rw [moduleStep]
  split
  · next hempty =>
    exact .inr ⟨List.isEmpty_iff.mp hempty, (Leads.nil Passes r).single (.programEnd false) rfl⟩
  split
  · next hat =>
    refine .inr ⟨marks_advance r, length_rest_advance hat, fun u hu => ⟨hu.1, ?_⟩⟩
    exact (Leads.token hat hu.2).single (.programEmpty false) rfl
  rcases hr : sequence (expression maxDepth) r with ⟨e, s⟩
  have hfound := sound_sequence (sound_expression maxDepth) r
  simp only [hr] at hfound
  rcases hfound with h | ⟨-, _, h⟩
  · exact .inl (h.congr rfl ((marks_advanceIfStuck _ r).trans (marks_accept s _)))
  -- A statement takes a token, so that the step never has to get unstuck behind one.
  · have hmoves := h.moves rfl
    dsimp only
    rw [advanceIfStuck_accept hmoves.2]
    refine .inr ⟨(marks_accept s _).trans h.marks, ?_, ?_⟩
    all_goals
      rw [accept]
      split
    · next hat => exact Nat.lt_trans (length_rest_advance hat) hmoves.1
    · exact hmoves.1
    · next hat =>
      exact fun u hu =>
        ⟨hu.1, (h.phrase (Leads.token hat hu.2)).single (.programStatement false) rfl⟩
    · exact fun u hu => ⟨hu.1, (h.phrase hu.2).single .programAdjacent rfl⟩

/-- Tokens without faults have a derivation, whose list literals are those that are found. -/
theorem exists_derivation_readModule {kinds : List Kind} (h : (readModule kinds).marks = []) :
    ∃ tree : Derivation [Phrase.program false], tree.kinds = kinds ∧
      (readModule kinds).lists = tree.literals .array 0 := by
  rcases sound_readModule kinds with hfault | ⟨hrest, tree, hpass⟩
  · unfold Faults at hfault
    rw [h] at hfault
    exact absurd hfault (Nat.not_lt_zero _)
  · have hall := hpass.rest
    rw [hrest, List.append_nil] at hall
    exact ⟨tree, hall.symm, hpass.lists fun n hn => absurd hn List.not_mem_nil⟩

end CommaStyle.Grammar

namespace CommaStyle.Document

open Grammar

/-- **Soundness.** The tokens of a document without errors can be derived from statements with or
    without semicolons between them. The list literals of the document are those of the derivation,
    and between the brackets of each stand its entries, in order. -/
theorem exists_derivation_of_outline (d : Document) (h : d.outline.errors = []) :
    ∃ tree : Derivation [Phrase.program false], tree.kinds = d.kinds ∧
      d.outline.lists = (tree.literals .array 0).map (ListNode.ofNode d.significantAt) ∧
      ∀ n ∈ tree.literals .array 0, Listed 0 d.kinds n := by
  have hmarks : d.reading.marks = [] := by
    simp only [outline, List.append_eq_nil_iff, List.map_eq_nil_iff] at h
    exact h.2
  rcases sound_readModule d.kinds with hfault | ⟨hrest, tree, hpass⟩
  · have hfaults : 0 < d.reading.marks.length := hfault
    simp [hmarks] at hfaults
  · have hkinds : tree.kinds = d.kinds := by
      have hall := hpass.rest
      rw [hrest, List.append_nil] at hall
      exact hall.symm
    refine ⟨tree, hkinds, ?_, fun n hn => hkinds ▸ tree.listed hn⟩
    have hlists : d.reading.lists = tree.literals .array 0 :=
      hpass.lists fun n hn => absurd hn List.not_mem_nil
    rw [outline_lists, hlists]

/-- A document without errors, with a list literal in a target and no semicolons. -/
theorem exists_derivation_of_outline_target :
    let d := ofText ['[', ',', 'a', ']', '=', 'b', '\n', 'c']
    d.outline.errors = [] ∧ ∃ tree : Derivation [Phrase.program false], tree.kinds = d.kinds ∧
      d.outline.lists = (tree.literals .array 0).map (ListNode.ofNode d.significantAt) ∧
      ∀ n ∈ tree.literals .array 0, Listed 0 d.kinds n := by
  intro d
  have h : d.outline.errors = [] := by decide
  exact ⟨h, exists_derivation_of_outline d h⟩

end CommaStyle.Document
