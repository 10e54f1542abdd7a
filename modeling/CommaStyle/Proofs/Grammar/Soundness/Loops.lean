import CommaStyle.Proofs.Grammar.Passing

namespace CommaStyle.Grammar

open Reading Grammar.Derivation

/-!
# Readings without faults

What the rules did if they reported nothing.

* `Reading.Faults` — there are new faults. They are never taken back;
* `Leads` — something that is derived from some parts leads from one reading to another. It is passed
  over (`Passes`), or fills a list literal (`Fills`), and `IsPassing` is what both have in common;
* `Rule.Sound`, `ItemSound` — a rule reports a fault, or passes over something that is derived;
* `sound_turnsWithin` — a repeated step that reports a fault, or passes over the first part of
  something, does so as a whole.
-/

namespace Reading

/-- Whether `s` has more faults than `r`. -/
def Faults (r s : Reading) : Prop := r.marks.length < s.marks.length

variable {r s u : Reading}

/-- What is reported is a new fault. -/
theorem faults_report (r : Reading) (fault : Fault) : Faults r (r.report fault) := by
  simp [Faults, report]

theorem marks_advanceIfStuck (r since : Reading) : (r.advanceIfStuck since).marks = r.marks := by
  rw [advanceIfStuck]
  split
  · exact marks_advance r
  · rfl

theorem marks_accept (r : Reading) (k : Kind) : (r.accept k).marks = r.marks := by
  rw [accept]
  split
  · exact marks_advance r
  · rfl

/-- Readings with the same faults. -/
theorem Faults.congr (h : Faults r s) {r' s' : Reading} (hr : r'.marks = r.marks)
    (hs : s'.marks = s.marks) : Faults r' s' := by rwa [Faults, hr, hs]

/-- Faults are not taken back where there are more of them, or as many. -/
theorem Faults.trans (h : Faults r s) (h' : Faults s u ∨ u.marks = s.marks) : Faults r u := by
  rcases h' with h' | h'
  · exact Nat.lt_trans h h'
  · exact h.congr rfl h'

/-- A token that must follow is there, or reported missing. -/
theorem sound_expect {P : Prop} (h : Faults r s ∨ P) (hmarks : P → s.marks = r.marks) (k : Kind)
    (fault : Fault) :
    Faults r (s.expect k fault) ∨ (P ∧ s.at? k = true ∧ s.expect k fault = s.advance) := by
  cases hat : s.at? k with
  | true =>
    have hexpect : s.expect k fault = s.advance := by rw [expect, hat]; rfl
    rw [hexpect]
    exact h.imp (fun h => h.congr rfl (marks_advance s)) fun h => ⟨h, rfl, rfl⟩
  | false =>
    have hexpect : s.expect k fault = s.report fault := by rw [expect, hat]; rfl
    rw [hexpect]
    rcases h with h | h
    · exact .inl (h.trans (.inl (faults_report s fault)))
    · exact .inl ((faults_report s fault).congr (hmarks h).symm rfl)

/-- Moving over tokens leaves no more of them. -/
theorem length_rest_le {w : List Kind} (h : Moves r w s) : s.rest.length ≤ r.rest.length := by
  rw [h.rest, List.length_append]
  omega

end Reading

/-! ### What leads from one reading to another -/

/-- A way to pass over what is derived: over nothing, over a token and more, or over a phrase and more.
    The tokens are then behind, and there is no new fault. -/
class IsPassing (way : ∀ {parts : List Part}, Reading → Derivation parts → Reading → Prop) : Prop where
  moves {parts : List Part} {r s : Reading} {d : Derivation parts} :
    way r d s → Moves r d.kinds s
  nil (r : Reading) : way r .nil r
  token {parts : List Part} {r s : Reading} {k : Kind} {d : Derivation parts} :
    r.at? k = true → way r.advance d s → way r (.token k d) s
  phrase {p : Phrase} {body parts : List Part} {r s u : Reading} {h : Production p body}
    {inner : Derivation body} {d : Derivation parts} :
    way r (.single h inner) s → way s d u → way r (.phrase h inner d) u

instance : IsPassing Passes where
  moves := Passes.toMoves
  nil := Passes.nil
  token := Passes.token
  phrase := Passes.phrase

instance (slot : Nat) : IsPassing (Fills slot) where
  moves := Fills.toMoves
  nil := Fills.nil slot
  token := Fills.token
  phrase := Fills.phrase

/-- Whether something that is derived from some parts leads from one reading to another, in a way to pass
    over it. -/
def Leads (way : ∀ {parts : List Part}, Reading → Derivation parts → Reading → Prop)
    (parts : List Part) (r s : Reading) : Prop := ∃ d : Derivation parts, way r d s

namespace Leads

variable {r s u : Reading} {p : Phrase} {parts body : List Part} {slot : Nat}

section

variable {way : ∀ {parts : List Part}, Reading → Derivation parts → Reading → Prop} [IsPassing way]

/-- There is no new fault on the way. -/
theorem marks (h : Leads way parts r s) : s.marks = r.marks :=
  h.elim fun _ h => (IsPassing.moves h).marks

/-- What leads on leaves no more tokens. -/
theorem length_rest_le (h : Leads way parts r s) : s.rest.length ≤ r.rest.length :=
  h.elim fun _ h => Reading.length_rest_le (IsPassing.moves h)

variable (way) in
theorem nil (r : Reading) : Leads way [] r r := ⟨.nil, IsPassing.nil r⟩

theorem token {k : Kind} (hk : r.at? k = true) (h : Leads way parts r.advance s) :
    Leads way (k :: parts) r s := h.elim fun d h => ⟨.token k d, IsPassing.token hk h⟩

/-- A phrase leads on, and then what is behind it. -/
theorem phrase (h₁ : Leads way [p] r s) (h₂ : Leads way parts s u) : Leads way (p :: parts) r u := by
  obtain ⟨d₁, h₁⟩ := h₁
  obtain ⟨d₂, h₂⟩ := h₂
  match d₁ with
  | .phrase h inner .nil => exact ⟨.phrase h inner d₂, IsPassing.phrase h₁ h₂⟩

end

/-- What a plain phrase is made of leads as far as the phrase. -/
theorem single (hp : Production p body) (h : Leads Passes body r s)
    (hplain : p.isPlain = true) : Leads Passes [p] r s :=
  h.elim fun d h => ⟨.single hp d, h.single hplain⟩

/-- Operands that are assigned to lead as far as a target, with their list literals as patterns. -/
theorem retag {b : Bool} (h : Leads Passes [Phrase.binary b] r s) :
    Leads Passes [Phrase.target b] r (s.retag r.position) := by
  obtain ⟨d, h⟩ := h
  match d with
  | .phrase hp inner .nil => exact ⟨_, h.retag⟩

/-- A phrase that is never empty leads over one of its first tokens. -/
theorem exists_rest_eq_cons {first : Kind → Bool} (h : Leads Passes [p] r s)
    (hp : p.first? = some first) : ∃ k w, r.rest = k :: w ∧ first k = true := by
  obtain ⟨d, h⟩ := h
  match d with
  | .phrase hprod inner .nil =>
    obtain ⟨k, w, hk, hfirst⟩ := inner.exists_kinds_eq_cons hprod hp
    exact ⟨k, w ++ s.rest, by rw [h.rest]; simp [hk], hfirst⟩

/-- What is derived from a phrase that is never empty takes a token. -/
theorem moves {first : Kind → Bool} (h : Leads Passes [p] r s) (hp : p.first? = some first) :
    s.rest.length < r.rest.length ∧ r.position < s.position := by
  obtain ⟨d, h⟩ := h
  match d with
  | .phrase hprod inner .nil =>
    obtain ⟨k, w, hk, -⟩ := inner.exists_kinds_eq_cons hprod hp
    have htaken : 0 < (Derivation.phrase hprod inner .nil).kinds.length := by simp [hk]
    rw [h.rest, h.position, List.length_append]
    omega

/-! Within the list literal in a place, what leads on also fills the literal. -/

/-- What the parts of entries fill, the entries do. -/
theorem entries (hp : Production .entries body) (h : Leads (Fills slot) body r s) :
    Leads (Fills slot) [Phrase.entries] r s := h.elim fun d h => ⟨.single hp d, h.single⟩

/-- A comma fills a list literal with a hole. -/
theorem hole (slot : Nat) (hk : r.at? .comma = true) :
    Leads (Fills slot) [Phrase.hole] r (r.addEntry slot (.hole r.position)).advance :=
  ⟨_, Fills.hole slot hk⟩

/-- An expression leads as far as the element that it is. -/
theorem element {b : Bool} (slot : Nat) (h : Leads Passes [Phrase.expression b] r s) :
    Leads (Fills slot) [Phrase.element] r
      (s.addEntry slot (.element (s.extentFrom r.position))) := by
  obtain ⟨d, h⟩ := h
  match d with
  | .phrase hp inner .nil =>
    rw [extentFrom_eq h]
    exact ⟨_, Fills.element h⟩

/-- Entries between brackets are a list literal. -/
theorem list (hopen : r.at? .leftBracket = true)
    (h : Leads (Fills r.lists.length) [Phrase.entries] r.openList s)
    (hclose : s.at? .rightBracket = true) : Leads Passes [Phrase.list] r s.advance := by
  obtain ⟨d, h⟩ := h
  match d with
  | .phrase hp inner .nil => exact ⟨_, Passes.ofFills hopen h hclose⟩

end Leads

/-! ### Rules -/

/-- Whether a rule reports a fault, or passes over something that is derived from one of two phrases
    and finds it. -/
def Rule.Sound (rule : Rule) (phrase : Bool → Phrase) : Prop :=
  ∀ r : Reading, Faults r (rule r).2 ∨
    ((rule r).1 = some ((rule r).2.extentFrom r.position) ∧ ∃ b, Leads Passes [phrase b] r (rule r).2)

/-- The same for a rule for items. -/
def ItemSound (item : Reading → Bool × Reading) (phrase : Bool → Phrase) : Prop :=
  ∀ r : Reading, Faults r (item r).2 ∨
    ((item r).1 = true ∧ ∃ b, Leads Passes [phrase b] r (item r).2)

/-! ### Repeated steps -/

/-- What a step must do: if it reports nothing it ends something good, or it reads a token and leaves
    something good to the next turn. -/
def StepSound (good : Reading → Reading → Prop) (r : Reading) : Turn → Prop
  | .stop s => Faults r s ∨ good r s
  | .again s => Faults r s ∨ (s.marks = r.marks ∧ s.rest.length < r.rest.length ∧
      ∀ u, good s u → good r u)

section

variable {step : Reading → Turn} {good : Reading → Reading → Prop}
  (hgood : ∀ r s, good r s → s.marks = r.marks) (hstep : ∀ r, StepSound good r (step r))

include hgood hstep

/-- Faults are never taken back. -/
theorem le_marks_turnsWithin (bound : List Kind) (r : Reading) :
    r.marks.length ≤ (turnsWithin step bound r).marks.length := by
  have hle : ∀ {r s : Reading}, Faults r s ∨ s.marks = r.marks →
      r.marks.length ≤ s.marks.length := by
    rintro r s (h | h)
    · exact Nat.le_of_lt h
    · exact Nat.le_of_eq (congrArg List.length h.symm)
  induction bound generalizing r with
  | nil =>
    have hr := hstep r
    cases hs : step r <;> simp only [hs, turnsWithin] at hr ⊢
    · exact hle (hr.imp_right And.left)
    · exact hle (hr.imp_right (hgood r _))
  | cons k bound ih =>
    have hr := hstep r
    cases hs : step r <;> simp only [hs, turnsWithin] at hr ⊢
    · exact Nat.le_trans (hle (hr.imp_right And.left)) (ih _)
    · exact hle (hr.imp_right (hgood r _))

/-- The same with any bound on the turns that is large enough. -/
theorem sound_turnsWithin (bound : List Kind) (r : Reading)
    (hbound : r.rest.length ≤ bound.length) :
    Faults r (turnsWithin step bound r) ∨ good r (turnsWithin step bound r) := by
  induction bound generalizing r with
  | nil =>
    have hr := hstep r
    cases hs : step r <;> simp only [hs, turnsWithin] at hr ⊢
    · rcases hr with h | ⟨-, hlt, -⟩
      · exact .inl h
      -- A turn that goes on takes a token, and none are left.
      · exact absurd (Nat.lt_of_lt_of_le hlt hbound) (Nat.not_lt_zero _)
    · exact hr
  | cons k bound ih =>
    have hr := hstep r
    cases hs : step r with
    | stop s =>
      simp only [hs, turnsWithin] at hr ⊢
      exact hr
    | again s =>
      simp only [hs, turnsWithin] at hr ⊢
      rcases hr with h | ⟨hmarks, hlt, hlift⟩
      -- What is reported in this turn stays reported in the next.
      · exact .inl (Nat.lt_of_lt_of_le h (le_marks_turnsWithin hgood hstep bound s))
      · have hshort : s.rest.length ≤ bound.length := by
          simp only [List.length_cons] at hbound
          omega
        exact (ih s hshort).imp (fun h => h.congr hmarks.symm rfl) (hlift _)

/-- **Repeated steps.** If nothing is reported in all the turns, what they do together is good. -/
theorem sound_turns (r : Reading) : Faults r (r.turns step) ∨ good r (r.turns step) :=
  sound_turnsWithin hgood hstep r.rest r (Nat.le_refl _)

end

end CommaStyle.Grammar
