import CommaStyle.Proofs.Grammar.Derivations

namespace CommaStyle.Grammar

/-!
# The list literals of a derivation

* `Derivation.opening_bounds` and `Derivation.pairwise_opening` — list literals lie in what is
  derived, in the order of their opening brackets;
* `Derivation.balanced` — what is derived from a phrase opens and closes its brackets in pairs;
* `Derivation.listed` — between the brackets of a list literal stand its entries, in order: an
  expression with a comma behind it, which may be missing behind the last, or just a comma.
-/

/-- A list literal in the target of an assignment. -/
def Node.asPattern (n : Node) : Node := { n with use := .pattern }

namespace Derivation

variable {parts : List Part}

/-- The literals of a derivation, taken for patterns. -/
theorem map_asPattern_literals (d : Derivation parts) (use : ListUse) (start : Nat) :
    (d.literals use start).map Node.asPattern = d.literals .pattern start := by
  induction d generalizing use start with
  | nil => rfl
  | token k rest ih => exact ih use (start + 1)
  | @phrase p _ _ h inner rest ihi ihr =>
    simp only [literals, List.map_append, ihi, ihr]
    cases p <;> rfl

/-- The derivation of a list literal: entries between brackets. -/
theorem literals_of_list {body : List Part} (h : Production .list body) (d : Derivation body) :
    ∃ (inner : List Part) (_ : Production .entries inner) (e : Derivation inner),
      d.kinds = .leftBracket :: (e.kinds ++ [.rightBracket]) ∧
      (∀ start, d.entries start = e.entries (start + 1)) ∧
      (∀ use start, d.literals use start = e.literals use (start + 1)) ∧
      ∀ start, d.targets start = e.targets (start + 1) := by
  cases h
  match d with
  | .token _ (.phrase he e (.token _ .nil)) =>
    refine ⟨_, he, e, rfl, ?_, ?_, ?_⟩ <;> intros <;>
      simp [Phrase.entry, Phrase.literal, Phrase.useWithin, Phrase.targetFrom]

/-- List literals lie in what is derived. -/
theorem opening_bounds (d : Derivation parts) {use : ListUse} {start : Nat} {n : Node}
    (hn : n ∈ d.literals use start) : start ≤ n.opening ∧ n.opening < start + d.kinds.length := by
  induction d generalizing use start with
  | nil => simp at hn
  | token k rest ih =>
    have := ih hn
    simp only [kinds, List.length_cons]
    omega
  | @phrase p _ _ h inner rest ihi ihr =>
    simp only [literals, List.mem_append] at hn
    simp only [kinds, List.length_append]
    rcases hn with hn | hn | hn
    · cases p <;> simp only [Phrase.literal, List.mem_singleton, List.not_mem_nil] at hn
      case list =>
        obtain ⟨_, _, e, hkinds, -⟩ := literals_of_list h inner
        subst hn
        simp only [hkinds, List.length_cons]
        omega
    · have := ihi hn
      omega
    · have := ihr hn
      omega

/-- List literals come in the order of their opening brackets. -/
theorem pairwise_opening (d : Derivation parts) (use : ListUse) (start : Nat) :
    (d.literals use start).Pairwise fun m n => m.opening < n.opening := by
  induction d generalizing use start with
  | nil => exact .nil
  | token k rest ih => exact ih use (start + 1)
  | @phrase p _ _ h inner rest ihi ihr =>
    -- Literals inside the phrase are opened in front of those behind it.
    have hpair : (inner.literals (p.useWithin use) start ++
        rest.literals use (start + inner.kinds.length)).Pairwise
          fun m n => m.opening < n.opening := by
      refine List.pairwise_append.mpr ⟨ihi _ _, ihr _ _, ?_⟩
      intro m hm n hn
      have := inner.opening_bounds hm
      have := rest.opening_bounds hn
      omega
    rw [literals]
    refine List.pairwise_append.mpr ⟨?_, hpair, ?_⟩
    · cases p <;> simp [Phrase.literal]
    -- The bracket of a literal stands in front of everything else in it.
    · intro m hm n hn
      cases p <;> simp only [Phrase.literal, List.mem_singleton, List.not_mem_nil] at hm
      case list =>
        obtain ⟨_, _, e, hkinds, -, hliterals, -⟩ := literals_of_list h inner
        subst hm
        rw [hliterals] at hn
        rcases List.mem_append.mp hn with hn | hn
        · exact (e.opening_bounds hn).1
        · have := rest.opening_bounds hn
          simp only [hkinds, List.length_cons] at this
          change start < n.opening
          omega

/-! ### Patterns -/

/-- Targets of assignments lie in the tokens of the derivation. -/
theorem target_bounds (d : Derivation parts) {start : Nat} {t : Element} (ht : t ∈ d.targets start) :
    start ≤ t.first ∧ t.last < start + d.kinds.length := by
  induction d generalizing start with
  | nil => simp at ht
  | token k rest ih =>
    have := ih ht
    simp only [kinds, List.length_cons]
    omega
  | @phrase p _ _ h inner rest ihi ihr =>
    simp only [targets, List.mem_append] at ht
    simp only [kinds, List.length_append]
    rcases ht with ht | ht | ht
    · cases p <;> simp only [Phrase.targetFrom, List.mem_singleton, List.not_mem_nil] at ht
      case target b =>
        obtain ⟨k, w, hk, -⟩ := inner.exists_kinds_eq_cons h rfl
        subst ht
        simp only [hk, List.length_cons]
        omega
    · have := ihi ht
      omega
    · have := ihr ht
      omega

/-- The targets in a list literal, and those behind it, start behind its bracket. -/
theorem lt_first_of_list {body : List Part} (h : Production .list body) (inner : Derivation body)
    (rest : Derivation parts) {start : Nat} {t : Element}
    (ht : t ∈ (phrase h inner rest).targets start) : start < t.first := by
  obtain ⟨_, _, e, hkinds, -, -, htargets⟩ := literals_of_list h inner
  simp only [targets, Phrase.targetFrom, htargets, hkinds, List.nil_append, List.mem_append,
    List.length_cons] at ht
  rcases ht with ht | ht
  · exact (e.target_bounds ht).1
  · have := (rest.target_bounds ht).1
    omega

/-- A position in a phrase lies in a target just if the phrase is one or has one around it. -/
theorem in_target_inner_iff {p : Phrase} {body : List Part} (h : Production p body)
    (inner : Derivation body) (rest : Derivation parts) {start i : Nat} (hfirst : start ≤ i)
    (hlast : i < start + inner.kinds.length) :
    (∃ t ∈ (phrase h inner rest).targets start, t.first ≤ i ∧ i ≤ t.last) ↔
      p.useWithin .array = .pattern ∨ ∃ t ∈ inner.targets start, t.first ≤ i ∧ i ≤ t.last := by
  constructor
  · rintro ⟨t, ht, hle⟩
    simp only [targets, List.mem_append] at ht
    rcases ht with ht | ht | ht
    · cases p <;> simp only [Phrase.targetFrom, List.not_mem_nil] at ht
      exact .inl rfl
    · exact .inr ⟨t, ht, hle⟩
    -- A target behind the phrase starts too late.
    · have := (rest.target_bounds ht).1
      omega
  · rintro (huse | ⟨t, ht, hle⟩)
    · cases p <;> simp only [Phrase.useWithin, reduceCtorEq] at huse
      refine ⟨⟨start, start + inner.kinds.length - 1⟩, by simp [Phrase.targetFrom], hfirst, ?_⟩
      show i ≤ start + inner.kinds.length - 1
      omega
    · exact ⟨t, by simp [ht], hle⟩

/-- A position behind a phrase lies in a target just if it does so behind the phrase. -/
theorem in_target_rest_iff {p : Phrase} {body : List Part} (h : Production p body)
    (inner : Derivation body) (rest : Derivation parts) {start i : Nat}
    (hi : start + inner.kinds.length ≤ i) :
    (∃ t ∈ (phrase h inner rest).targets start, t.first ≤ i ∧ i ≤ t.last) ↔
      ∃ t ∈ rest.targets (start + inner.kinds.length), t.first ≤ i ∧ i ≤ t.last := by
  constructor
  · rintro ⟨t, ht, hle⟩
    simp only [targets, List.mem_append] at ht
    rcases ht with ht | ht | ht
    · cases p <;> simp only [Phrase.targetFrom, List.mem_singleton, List.not_mem_nil] at ht
      -- A target is not empty, so that its last token stands in front of the position.
      obtain ⟨k, w, hk, -⟩ := inner.exists_kinds_eq_cons h rfl
      subst ht
      simp only [hk, List.length_cons] at hle hi
      omega
    · have := (inner.target_bounds ht).2
      omega
    · exact ⟨t, ht, hle⟩
  · rintro ⟨t, ht, hle⟩
    exact ⟨t, by simp [ht], hle⟩

/-- A list literal is a pattern just if it lies in a target, or is taken for one from outside. -/
theorem use_eq_pattern_iff (d : Derivation parts) {use : ListUse} {start : Nat} {n : Node}
    (hn : n ∈ d.literals use start) :
    n.use = .pattern ↔
      use = .pattern ∨ ∃ t ∈ d.targets start, t.first ≤ n.opening ∧ n.opening ≤ t.last := by
  induction d generalizing use start with
  | nil => simp at hn
  | token k rest ih => exact ih hn
  | @phrase p _ _ h inner rest ihi ihr =>
    simp only [literals, List.mem_append] at hn
    -- The literal is the phrase itself, or stands in it, or behind it.
    rcases hn with hn | hn | hn
    · cases p <;> simp only [Phrase.literal, List.mem_singleton, List.not_mem_nil] at hn
      case list =>
        subst hn
        refine ⟨.inl, ?_⟩
        rintro (huse | ⟨t, ht, hle, -⟩)
        · exact huse
        · exact absurd hle (Nat.not_le.mpr (lt_first_of_list h inner rest ht))
    · have hbounds := inner.opening_bounds hn
      have huse : p.useWithin use = .pattern ↔ use = .pattern ∨ p.useWithin .array = .pattern := by
        cases p <;> simp [Phrase.useWithin]
      rw [ihi hn, in_target_inner_iff h inner rest hbounds.1 hbounds.2, huse, or_assoc]
    · rw [ihr hn, in_target_rest_iff h inner rest (rest.opening_bounds hn).1]

end Derivation

/-! ### Brackets -/

/-- The number of brackets that are open behind some tokens, where `opened` are open in front of
    them; none if one is closed that was not opened. All three kinds of brackets count alike. -/
def openBehind : (opened : Nat) → List Kind → Option Nat
  | opened, [] => some opened
  | opened, k :: w =>
    match k with
    | .leftParen | .leftBracket | .leftBrace => openBehind (opened + 1) w
    | .rightParen | .rightBracket | .rightBrace =>
      match opened with
      | 0 => none
      | opened + 1 => openBehind opened w
    | _ => openBehind opened w

/-- Whether tokens close just the brackets that they open. -/
def Balanced (w : List Kind) : Prop := ∀ opened, openBehind opened w = some opened

/-- Brackets that are open behind tokens, and others behind them. -/
theorem openBehind_append (opened : Nat) (v w : List Kind) :
    openBehind opened (v ++ w) = (openBehind opened v).bind (openBehind · w) := by
  fun_induction openBehind opened v <;> simp_all [openBehind]

/-- The same for the parts of a phrase, where a phrase leaves as many open as it finds. -/
def openBehindParts : (opened : Nat) → List Part → Option Nat
  | opened, [] => some opened
  | opened, .phrase _ :: parts => openBehindParts opened parts
  | opened, .token k :: parts => (openBehind opened [k]).bind (openBehindParts · parts)

/-- A production leaves as many brackets open as it finds. -/
theorem Production.openBehindParts {p : Phrase} {body : List Part} (h : Production p body)
    (opened : Nat) : openBehindParts opened body = some opened := by
  cases h
  case atom k h => cases k <;> simp_all [isAtom, Grammar.openBehindParts, openBehind]
  case key k h => cases k <;> simp_all [isKey, Grammar.openBehindParts, openBehind]
  case pair k h b => cases k <;> simp_all [isKey, Grammar.openBehindParts, openBehind]
  all_goals rfl

namespace Derivation

variable {parts : List Part}

/-- What tokens leave open is seen from the parts that they are derived from. -/
theorem openBehind_kinds (d : Derivation parts) (opened : Nat) :
    openBehind opened d.kinds = openBehindParts opened parts := by
  induction d generalizing opened with
  | nil => rfl
  | token k rest ih =>
    rw [kinds, ← List.singleton_append, openBehind_append, openBehindParts]
    simp only [ih]
  | phrase h inner rest ihi ihr =>
    rw [kinds, openBehind_append, ihi, h.openBehindParts, Option.bind_some, ihr, openBehindParts]

/-- **Brackets come in pairs.** What is derived from a phrase closes just the brackets that it
    opens. -/
theorem balanced {p : Phrase} {body : List Part} (h : Production p body) (d : Derivation body) :
    Balanced d.kinds := fun opened => by rw [openBehind_kinds, h.openBehindParts]

end Derivation

/-! ### Entries between brackets -/

/-- Whether tokens from a position on are the entries of a list literal, in order: an expression with
    a comma behind it, which may be missing behind the last, or, for a hole, just a comma. -/
inductive Tiled : (start : Nat) → List Kind → List Entry → Prop where
  | nil (start : Nat) : Tiled start [] []
  | last (start : Nat) {b : Bool} {body : List Part} (h : Production (.expression b) body)
    (d : Derivation body) :
    Tiled start d.kinds [.element ⟨start, start + d.kinds.length - 1⟩]
  | next (start : Nat) {b : Bool} {body : List Part} (h : Production (.expression b) body)
    (d : Derivation body) {w : List Kind} {entries : List Entry}
    (hw : Tiled (start + d.kinds.length + 1) w entries) :
    Tiled start (d.kinds ++ .comma :: w)
      (.element ⟨start, start + d.kinds.length - 1⟩ :: entries)
  | hole (start : Nat) {w : List Kind} {entries : List Entry} (hw : Tiled (start + 1) w entries) :
    Tiled start (.comma :: w) (.hole start :: entries)

/-- Whether a list literal stands in a text from a position on: its entries, between brackets that
    belong together. -/
def Listed (start : Nat) (w : List Kind) (n : Node) : Prop :=
  ∃ before inside behind, w = before ++ .leftBracket :: (inside ++ .rightBracket :: behind) ∧
    n.opening = start + before.length ∧ Balanced inside ∧ Tiled (n.opening + 1) inside n.entries

/-- A list literal stands in a text whatever follows. -/
theorem Listed.append {start : Nat} {v w : List Kind} {n : Node} (h : Listed start v n) :
    Listed start (v ++ w) n := by
  obtain ⟨before, inside, behind, rfl, hn⟩ := h
  exact ⟨before, inside, behind ++ w, by simp, hn⟩

/-- A list literal stands in a text whatever is in front of it. -/
theorem Listed.prepend {start : Nat} {v w : List Kind} {n : Node}
    (h : Listed (start + v.length) w n) : Listed start (v ++ w) n := by
  obtain ⟨before, inside, behind, rfl, hopening, hn⟩ := h
  refine ⟨v ++ before, inside, behind, by simp, ?_, hn⟩
  rw [hopening, List.length_append, Nat.add_assoc]

namespace Derivation

/-- An element is an expression. -/
theorem exists_of_element {body : List Part} (h : Production .element body) (d : Derivation body) :
    ∃ (b : Bool) (inner : List Part) (_ : Production (.expression b) inner) (e : Derivation inner),
      d.kinds = e.kinds := by
  cases h with
  | element b =>
    match d with
    | .phrase he e .nil => exact ⟨b, _, he, e, by simp⟩

/-- A hole is a comma. -/
theorem kinds_of_hole {body : List Part} (h : Production .hole body) (d : Derivation body) :
    d.kinds = [.comma] := by
  cases h
  match d with
  | .token _ .nil => rfl

/-- What is derived from entries is tiled by them. -/
theorem tiled {p : Phrase} {body : List Part} (h : Production p body) (d : Derivation body)
    (hp : p = .entries) (start : Nat) : Tiled start d.kinds (d.entries start) := by
  revert hp start
  refine induct (motive := fun {p _} _ d =>
    p = .entries → ∀ start, Tiled start d.kinds (d.entries start)) ?_ h d
  intro p body h d ih hp start
  subst hp
  cases h with
  | entriesEnd =>
    match d with
    | .nil => exact .nil start
  | entriesLast =>
    match d with
    | .phrase h₁ d₁ .nil =>
      obtain ⟨b, _, he, e, hkinds⟩ := exists_of_element h₁ d₁
      simpa [Phrase.entry, hkinds] using Tiled.last start he e
  | entriesHole =>
    match d, ih with
    | .phrase h₁ d₁ (.phrase h₂ d₂ .nil), ih =>
      obtain ⟨-, ih₂, -⟩ := ih
      simpa [Phrase.entry, kinds_of_hole h₁ d₁] using Tiled.hole start (ih₂ rfl (start + 1))
  | entriesNext =>
    match d, ih with
    | .phrase h₁ d₁ (.token _ (.phrase h₂ d₂ .nil)), ih =>
      obtain ⟨-, ih₂, -⟩ := ih
      obtain ⟨b, _, he, e, hkinds⟩ := exists_of_element h₁ d₁
      simpa [Phrase.entry, hkinds] using
        Tiled.next start he e (ih₂ rfl (start + e.kinds.length + 1))

/-- **Entries between brackets.** Every list literal of a derivation stands where it says. -/
theorem listed {parts : List Part} (d : Derivation parts) {use : ListUse} {start : Nat} {n : Node}
    (hn : n ∈ d.literals use start) : Listed start d.kinds n := by
  induction d generalizing use start with
  | nil => simp at hn
  | token k rest ih => exact Listed.prepend (v := [k]) (ih hn)
  | @phrase p _ _ h inner rest ihi ihr =>
    simp only [literals, List.mem_append] at hn
    rw [kinds]
    rcases hn with hn | hn | hn
    · cases p <;> simp only [Phrase.literal, List.mem_singleton, List.not_mem_nil] at hn
      case list =>
        obtain ⟨_, he, e, hkinds, hentries, -⟩ := literals_of_list h inner
        have hinner : Listed start inner.kinds ⟨use, start, inner.entries start⟩ := by
          refine ⟨[], e.kinds, [], hkinds, (Nat.add_zero start).symm, balanced he e, ?_⟩
          simp only [hentries]
          exact tiled he e rfl (start + 1)
        exact hn ▸ hinner.append
    · exact (ihi hn).append
    · exact (ihr hn).prepend

end Derivation

end CommaStyle.Grammar
