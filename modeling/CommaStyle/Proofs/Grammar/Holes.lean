import CommaStyle.Proofs.Grammar.InPlace

namespace CommaStyle.Grammar

/-!
# Holes

A hole is marked by the comma behind it. Where a text follows the grammar, these are just the commas
that directly follow an opening bracket or another comma, whatever construct they stand in.

* `walked` — the positions where a walk along the entries of a list literal looks for the commas
  behind holes. They are not behind these commas, and they are those of the commas just if the
  entries follow one another directly (`Placed.forall₂_walked`, `walked_eq_holes_iff`);
* `hollow` — the commas that directly follow a bracket or a comma;
* `Derivation.mem_hollow_kinds` — in a program, these are the commas of holes. In the proof every
  phrase says what may stand in front of it and what stands at its end.
-/

/-! ### Holes of list literals -/

/-- The comma of an entry that is a hole. -/
def Entry.hole? : Entry → Option Nat
  | .element _ => none
  | .hole comma => some comma

/-- The commas of the holes of a list literal. -/
def Node.holes (n : Node) : List Nat := n.entries.filterMap Entry.hole?

/-- Where a walk along some entries looks for the commas of holes. It starts at a position, and goes
    on behind the comma that it expects behind each entry. -/
def walked : (start : Nat) → List Entry → List Nat
  | _, [] => []
  | _, .element e :: entries => walked (e.last + 2) entries
  | start, .hole _ :: entries => start :: walked (start + 1) entries

/-- Whether the comma of every hole among some entries directly follows what is in front of it. -/
def Contiguous : (start : Nat) → List Entry → Prop
  | _, [] => True
  | _, .element e :: entries => Contiguous (e.last + 2) entries
  | start, .hole comma :: entries => comma = start ∧ Contiguous (comma + 1) entries

instance decidableContiguous : (start : Nat) → (entries : List Entry) →
    Decidable (Contiguous start entries)
  | _, [] => isTrue trivial
  | _, .element e :: entries => decidableContiguous (e.last + 2) entries
  | start, .hole comma :: entries =>
    have := decidableContiguous (comma + 1) entries
    inferInstanceAs (Decidable (comma = start ∧ Contiguous (comma + 1) entries))

/-- Whether no token was passed over in front of a hole of a list literal. -/
def Node.Contiguous (n : Node) : Prop := Grammar.Contiguous (n.opening + 1) n.entries

instance (n : Node) : Decidable n.Contiguous :=
  inferInstanceAs (Decidable (Grammar.Contiguous (n.opening + 1) n.entries))

namespace Placed

variable {kinds : List Kind} {shallow : Prop} {start start' : Nat} {entries : List Entry}

/-- The comma of a hole is a comma. -/
theorem getElem?_of_mem_holes (h : Placed kinds shallow start entries) {c : Nat}
    (hc : c ∈ entries.filterMap Entry.hole?) : kinds[c]? = some .comma := by
  induction h with
  | nil => cases hc
  | last => cases hc
  | next hstart hle hcomma h ih => exact ih hc
  | hole hstart hfree hcomma h ih =>
    rcases List.mem_cons.mp hc with rfl | hc
    · exact hcomma
    · exact ih hc

/-- The walk never gets ahead of entries that stand in some tokens. -/
theorem forall₂_walked (h : Placed kinds shallow start entries) (hle : start' ≤ start) :
    List.Forall₂ (· ≤ ·) (walked start' entries) (entries.filterMap Entry.hole?) := by
  induction h generalizing start' with
  | nil => exact .nil
  | last => exact .nil
  | next hstart hfirst hcomma h ih => exact ih (Nat.le_refl _)
  | hole hstart hfree hcomma h ih =>
    exact .cons (Nat.le_trans hle hstart) (ih (Nat.succ_le_succ (Nat.le_trans hle hstart)))

/-- The walk takes no other comma for that of a hole, unless something was nested too deeply. Where it
    lags behind the entries, the commas between are those of `earlier` holes. -/
theorem mem_holes_of_mem_walked (h : Placed kinds shallow start entries) (hshallow : shallow)
    (hle : start' ≤ start) {earlier : List Nat}
    (hearlier : ∀ q, start' ≤ q → q < start → kinds[q]? = some .comma → q ∈ earlier) {p : Nat}
    (hp : p ∈ walked start' entries) (hcomma : kinds[p]? = some .comma) :
    p ∈ earlier ++ entries.filterMap Entry.hole? := by
  induction h generalizing start' earlier with
  | nil => cases hp
  | last => cases hp
  | @next start e entries hstart hfirst hcomma' h ih =>
    -- Behind an element the walk is in step again.
    have hmem : p ∈ [] ++ entries.filterMap Entry.hole? :=
      ih (Nat.le_refl _) (fun q hq hlt => by omega) hp
    exact List.mem_append_right _ hmem
  | @hole start c entries hstart hfree hcomma' h ih =>
    have hc : ∀ q, start' ≤ q → q < c + 1 → kinds[q]? = some .comma → q ∈ earlier ++ [c] := by
      intro q hq hlt hqcomma
      by_cases hqs : q < start
      · exact List.mem_append_left _ (hearlier q hq hqs hqcomma)
      by_cases hqc : q < c
      · exact absurd hqcomma (hfree hshallow q (Nat.not_lt.mp hqs) hqc)
      · obtain rfl : q = c := by omega
        exact List.mem_append_right _ (List.mem_singleton_self q)
    show p ∈ earlier ++ c :: entries.filterMap Entry.hole?
    rw [List.append_cons]
    rcases List.mem_cons.mp hp with rfl | hp
    · exact List.mem_append_left _ (hc p (Nat.le_refl p) (by omega) hcomma)
    · exact ih (by omega) (fun q hq => hc q (Nat.le_of_succ_le hq)) hp

end Placed

/-- The walk finds all holes just if the entries follow one another directly. -/
theorem walked_eq_holes_iff {start : Nat} {entries : List Entry} :
    walked start entries = entries.filterMap Entry.hole? ↔ Contiguous start entries := by
  fun_induction walked start entries with
  | case1 => exact iff_of_true rfl trivial
  | case2 start e entries ih => exact ih
  | case3 start comma entries ih =>
    show start :: walked (start + 1) entries = comma :: entries.filterMap Entry.hole? ↔
      comma = start ∧ Contiguous (comma + 1) entries
    rw [List.cons.injEq]
    constructor
    · rintro ⟨rfl, h⟩
      exact ⟨rfl, ih.mp h⟩
    · rintro ⟨rfl, h⟩
      exact ⟨rfl, ih.mpr h⟩

/-- The entries of a list literal that follows the grammar follow one another directly. -/
theorem Tiled.contiguous {start : Nat} {w : List Kind} {entries : List Entry}
    (h : Tiled start w entries) : Contiguous start entries := by
  induction h with
  | nil => trivial
  | last => trivial
  | next start h d hw ih =>
    obtain ⟨k, v, hkinds, -⟩ := d.exists_kinds_eq_cons h rfl
    have hlast : start + d.kinds.length - 1 + 2 = start + d.kinds.length + 1 := by
      rw [hkinds, List.length_cons]
      omega
    show Contiguous (start + d.kinds.length - 1 + 2) _
    rw [hlast]
    exact ih
  | hole start hw ih => exact ⟨rfl, ih⟩

/-- A list literal that stands in a text has no token passed over in front of its holes. -/
theorem Listed.contiguous {start : Nat} {w : List Kind} {n : Node} (h : Listed start w n) :
    n.Contiguous := by
  obtain ⟨_, _, _, -, -, -, htiled⟩ := h
  exact htiled.contiguous

/-! ### Commas behind a bracket or a comma -/

/-- Whether a comma directly behind a token has nothing in front of it. -/
def opensHole : Kind → Bool
  | .leftBracket | .comma => true
  | _ => false

/-- The commas that directly follow a bracket or a comma, in tokens from a position on, where `before`
    tells whether such a token stands in front of them. -/
def hollow : (before : Bool) → (start : Nat) → List Kind → List Nat
  | _, _, [] => []
  | before, start, k :: w =>
    (if before && k == .comma then [start] else []) ++ hollow (opensHole k) (start + 1) w

/-- Whether tokens end with a bracket or a comma, where `before` tells so of what stands in front of
    them. -/
def opensBehind : (before : Bool) → List Kind → Bool
  | before, [] => before
  | _, k :: w => opensBehind (opensHole k) w

/-- The commas that follow a bracket or a comma, in tokens and others behind them. -/
theorem hollow_append (before : Bool) (start : Nat) (v w : List Kind) :
    hollow before start (v ++ w) =
      hollow before start v ++ hollow (opensBehind before v) (start + v.length) w := by
  induction v generalizing before start with
  | nil => rfl
  | cons k v ih =>
    rw [List.cons_append, hollow, ih, hollow, opensBehind, List.append_assoc, List.length_cons,
      Nat.add_assoc, Nat.add_comm 1]

/-- What tokens end with, and others behind them. -/
theorem opensBehind_append (before : Bool) (v w : List Kind) :
    opensBehind before (v ++ w) = opensBehind (opensBehind before v) w := by
  induction v generalizing before with
  | nil => rfl
  | cons k v ih => exact ih (opensHole k)

/-- A comma follows a bracket or a comma if the token before it is one, or if it is the first and one
    stands in front. -/
theorem mem_hollow {before : Bool} {start c : Nat} {w : List Kind} :
    c ∈ hollow before start w ↔
      (c = start ∧ before = true ∧ w[0]? = some .comma) ∨
        ∃ p, c = start + (p + 1) ∧ w[p + 1]? = some .comma ∧ w[p]?.any opensHole = true := by
  induction w generalizing before start with
  | nil => simp [hollow]
  | cons k w ih =>
    have hfirst : c ∈ (if before && k == .comma then [start] else []) ↔
        c = start ∧ before = true ∧ (k :: w)[0]? = some .comma := by
      by_cases hk : (before && k == .comma) = true
      · simp_all
      · rw [if_neg hk]
        simp_all
    rw [hollow, List.mem_append, ih, hfirst]
    apply or_congr Iff.rfl
    constructor
    · rintro (⟨rfl, hk, hcomma⟩ | ⟨p, rfl, hcomma, hp⟩)
      · exact ⟨0, rfl, hcomma, hk⟩
      · exact ⟨p + 1, by omega, hcomma, hp⟩
    · rintro ⟨_ | p, rfl, hcomma, hp⟩
      · exact .inl ⟨rfl, hp, hcomma⟩
      · exact .inr ⟨p, by omega, hcomma, hp⟩

/-! ### What stands around the phrases -/

namespace Phrase

/-- Whether a bracket or a comma must, or must not, stand in front of a phrase. -/
def opensBefore? : Phrase → Option Bool
  | hole | entries => some true
  | more | operands | suffixes => some false
  | _ => none

/-- Whether a phrase ends with a bracket or a comma, for phrases of which this is known. -/
def opensBehind? : Phrase → Option Bool
  | hole => some true
  | program _ | arguments | entries | properties => none
  | _ => some false

end Phrase

/-- What is known at the end of some parts, where `before` is known in front of them. No comma may be
    one that follows a bracket or a comma, and every phrase must have in front of it what it asks
    for. -/
def knownBehind : (before : Option Bool) → List Part → Option (Option Bool)
  | before, [] => some before
  | before, .token k :: parts =>
    if k = .comma ∧ before ≠ some false then none else knownBehind (some (opensHole k)) parts
  | before, .phrase p :: parts =>
    if p.opensBefore? = none ∨ p.opensBefore? = before then knownBehind p.opensBehind? parts
    else none

theorem knownBehind_token {k : Kind} (h : opensHole k = false) (before : Option Bool)
    (parts : List Part) : knownBehind before (.token k :: parts) = knownBehind (some false) parts := by
  rw [knownBehind, if_neg, h]
  rintro ⟨rfl, -⟩
  cases h

theorem opensHole_of_isAtom {k : Kind} (h : isAtom k = true) : opensHole k = false := by
  cases k <;> first | rfl | exact absurd h (by decide)

theorem opensHole_of_isKey {k : Kind} (h : isKey k = true) : opensHole k = false := by
  cases k <;> first | rfl | exact absurd h (by decide)

/-- No comma that a phrase has by itself follows a bracket or a comma, that of a hole apart. -/
theorem Production.knownBehind {p : Phrase} {body : List Part} (h : Production p body)
    (hp : p ≠ .hole) :
    ∃ behind, knownBehind p.opensBefore? body = some behind ∧
      (p.opensBehind? = none ∨ p.opensBehind? = behind) := by
  cases h
  case hole => exact absurd rfl hp
  case atom k h => exact ⟨_, knownBehind_token (opensHole_of_isAtom h) _ _, .inr rfl⟩
  case key k h => exact ⟨_, knownBehind_token (opensHole_of_isKey h) _ _, .inr rfl⟩
  case pair k h b => exact ⟨_, knownBehind_token (opensHole_of_isKey h) _ _, .inr rfl⟩
  all_goals first | exact ⟨_, rfl, .inl rfl⟩ | exact ⟨_, rfl, .inr rfl⟩

/-! ### Holes of derivations -/

/-- The comma of a phrase from a position on that is a hole. -/
def Phrase.holeFrom (start : Nat) : Phrase → List Nat
  | hole => [start]
  | _ => []

namespace Derivation

variable {parts : List Part}

/-- The commas of the holes in some parts that start at a position. -/
def holes {parts : List Part} (start : Nat) : Derivation parts → List Nat
  | nil => []
  | token _ rest => rest.holes (start + 1)
  | @phrase p _ _ _ inner rest =>
    p.holeFrom start ++ (inner.holes start ++ rest.holes (start + inner.kinds.length))

/-- Where what stands in front of some parts is as they ask for, a comma in them follows a bracket or a
    comma just if it is that of a hole, and they end as is known of them. -/
theorem hollow_kinds_and_opensBehind (d : Derivation parts) {known behind : Option Bool}
    (h : knownBehind known parts = some behind) {before : Bool}
    (hbefore : known = none ∨ known = some before) (start : Nat) :
    hollow before start d.kinds = d.holes start ∧
      (behind = none ∨ behind = some (opensBehind before d.kinds)) := by
  induction d generalizing known behind before start with
  | nil =>
    cases h
    exact ⟨rfl, hbefore⟩
  | token k rest ih =>
    rw [knownBehind] at h
    split at h
    · cases h
    next hk =>
    obtain ⟨hhollow, hbehind⟩ := ih h (.inr rfl) (start + 1)
    have hcomma : ¬(before && k == .comma) = true := by
      rw [Bool.and_eq_true, beq_iff_eq]
      rintro ⟨rfl, rfl⟩
      have hknown : known ≠ some false := by rcases hbefore with rfl | rfl <;> decide
      exact hk ⟨rfl, hknown⟩
    rw [kinds, hollow, if_neg hcomma, hhollow]
    exact ⟨rfl, hbehind⟩
  | @phrase p body _ hp inner rest ihi ihr =>
    rw [knownBehind] at h
    split at h
    case isFalse => cases h
    next hask =>
    have hinner : hollow before start inner.kinds = p.holeFrom start ++ inner.holes start ∧
        (p.opensBehind? = none ∨ p.opensBehind? = some (opensBehind before inner.kinds)) := by
      have hbefore' : p.opensBefore? = none ∨ p.opensBefore? = some before := by
        rcases hask with hask | rfl
        · exact .inl hask
        · exact hbefore
      by_cases hhole : p = .hole
      -- The comma of a hole is the only one that must follow a bracket or a comma.
      · subst hhole
        obtain rfl : before = true := by simpa [Phrase.opensBefore?] using hbefore'
        cases hp
        match inner with
        | .token _ .nil => exact ⟨rfl, .inr rfl⟩
      · obtain ⟨behind', hknown, hbehind'⟩ := hp.knownBehind hhole
        obtain ⟨hhollow, hopens⟩ := ihi hknown hbefore' start
        have hnone : p.holeFrom start = [] := by
          cases p <;> first | rfl | exact absurd rfl hhole
        rw [hnone, List.nil_append]
        refine ⟨hhollow, ?_⟩
        rcases hbehind' with hnone | rfl
        · exact .inl hnone
        · exact hopens
    obtain ⟨hrest, hbehind⟩ := ihr h hinner.2 (start + inner.kinds.length)
    rw [kinds, hollow_append, opensBehind_append, hinner.1, hrest, holes, List.append_assoc]
    exact ⟨rfl, hbehind⟩

/-- Only the entries of a list literal, and the literal around them, have holes among their parts. -/
theorem holes_entries_eq_nil (d : Derivation parts) (hhole : .phrase .hole ∉ parts)
    (hentries : .phrase .entries ∉ parts) (start : Nat) :
    (d.entries start).filterMap Entry.hole? = [] := by
  induction d generalizing start with
  | nil => rfl
  | token k rest ih =>
    simp only [List.mem_cons, reduceCtorEq, false_or] at hhole hentries
    exact ih hhole hentries (start + 1)
  | @phrase p _ _ h inner rest _ ihr =>
    simp only [List.mem_cons, Part.phrase.injEq, not_or] at hhole hentries
    have hrest := ihr hhole.2 hentries.2 (start + inner.kinds.length)
    have hfirst : (p.entry start inner.kinds.length).filterMap Entry.hole? = [] := by
      cases p <;> first | rfl | exact absurd rfl hhole.1
    rw [entries, if_neg (Ne.symm hentries.1), List.filterMap_append, hfirst]
    exact hrest

end Derivation

/-- Holes stand in list literals only. -/
theorem Production.hole_notMem {p : Phrase} {body : List Part} (h : Production p body)
    (hlist : p ≠ .list) (hentries : p ≠ .entries) :
    .phrase .hole ∉ body ∧ .phrase .entries ∉ body := by
  cases h <;> simp_all

namespace Derivation

variable {parts : List Part}

/-- The holes in some parts are those of their list literals, and those among their entries if they
    are parts of a list literal themselves. -/
theorem mem_holes (d : Derivation parts) (use : ListUse) (start c : Nat) :
    c ∈ d.holes start ↔ (∃ n ∈ d.literals use start, c ∈ n.holes) ∨
      c ∈ (d.entries start).filterMap Entry.hole? := by
  induction d generalizing use start with
  | nil => simp [holes]
  | token k rest ih => exact ih use (start + 1)
  | @phrase p _ _ h inner rest ihi ihr =>
    have hentry : c ∈ p.holeFrom start ↔
        c ∈ (p.entry start inner.kinds.length).filterMap Entry.hole? := by
      cases p <;> exact Iff.rfl
    -- Holes among the parts of a phrase are entries of the literal that it is, or that it is part of.
    have hinner : c ∈ (inner.entries start).filterMap Entry.hole? ↔
        (∃ n ∈ p.literal ⟨use, start, inner.entries start⟩, c ∈ n.holes) ∨
          c ∈ (if p = .entries then inner.entries start else []).filterMap Entry.hole? := by
      by_cases hlist : p = .list
      · subst hlist
        simp [Phrase.literal, Node.holes]
      by_cases hentries : p = .entries
      · subst hentries
        simp [Phrase.literal]
      · obtain ⟨hhole, hinside⟩ := h.hole_notMem hlist hentries
        have hnone : p.literal ⟨use, start, inner.entries start⟩ = [] := by
          cases p <;> first | rfl | exact absurd rfl hlist
        simp [inner.holes_entries_eq_nil hhole hinside, hnone, hentries]
    simp only [holes, literals, entries, List.mem_append, List.filterMap_append, or_and_right,
      exists_or, ihi (p.useWithin use), ihr use, hentry, hinner]
    apply Iff.of_eq
    ac_rfl

/-- **Commas of holes.** In a program, the commas that directly follow a bracket or a comma are those
    of the holes of its list literals. -/
theorem mem_hollow_kinds {b : Bool} (tree : Derivation [Phrase.program b]) {c : Nat} :
    c ∈ hollow false 0 tree.kinds ↔ ∃ n ∈ tree.literals .array 0, c ∈ n.holes := by
  have hknown : knownBehind none [Phrase.program b] = some none := rfl
  rw [(tree.hollow_kinds_and_opensBehind hknown (.inl rfl) 0).1, tree.mem_holes .array,
    tree.holes_entries_eq_nil (by simp) (by simp)]
  simp

end Derivation

end CommaStyle.Grammar
