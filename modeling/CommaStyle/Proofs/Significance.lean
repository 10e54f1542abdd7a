import CommaStyle.Proofs.Documents

namespace CommaStyle.Document

/-!
# Tokens that take part in the grammar

The grammar names a token by its position among those that are no comments, a document by its number
among all. `Document.significantAt` leads from positions to numbers.

* `kind?_significantAt`, `exists_significantAt` — the positions of the kinds that the grammar sees
  are those of the tokens that are no comments;
* `nextSignificant?_significantAt`, `prevSignificant?_significantAt` — neighbouring positions are
  those of tokens with nothing but comments between them.
-/

/-- The number of the last token in front of a number that is no comment. -/
def prevSignificant? (d : Document) : Nat → Option Nat
  | 0 => none
  | i + 1 => if (d.kind? i).any Kind.isSignificant then some i else d.prevSignificant? i

variable {d : Document}

/-! ### Numbers of significant tokens -/

/-- Only tokens have a kind. -/
theorem lt_size_of_kind? {i : Nat} {k : Kind} (h : d.kind? i = some k) : i < d.size := by
  obtain ⟨x, hx, -⟩ := Option.map_eq_some_iff.mp h
  exact lt_size_of_token? hx

/-- A token is significant if its kind is. -/
theorem mem_significant {i : Nat} :
    i ∈ d.significant ↔ (d.kind? i).any Kind.isSignificant = true := by
  rw [significant, ids, List.mem_filter, List.mem_range, and_iff_right_iff_imp, Option.any_eq_true]
  rintro ⟨k, hk, -⟩
  exact lt_size_of_kind? hk

/-- A token is a comment, or it takes part in the grammar. -/
theorem any_isComment {i : Nat} (h : i < d.size) :
    (d.kind? i).any Kind.isComment = decide (i ∉ d.significant) := by
  simp only [mem_significant]
  cases hk : d.kind? i with
  | none =>
    rw [kind?, Option.map_eq_none_iff, token?_eq_none_iff] at hk
    omega
  | some k => simp [Kind.isSignificant]

/-- The significant tokens are in order, and each comes once. -/
theorem pairwise_significant (d : Document) : d.significant.Pairwise (· < ·) :=
  List.pairwise_lt_range.filter _

/-- Every significant token has its kind among those that the grammar sees. -/
theorem map_some_kinds (d : Document) : d.kinds.map some = d.significant.map d.kind? := by
  unfold kinds
  rw [List.map_filterMap_some_eq_filter_map_isSome, List.filter_eq_self]
  intro k hk
  obtain ⟨i, hi, rfl⟩ := List.mem_map.mp hk
  obtain ⟨k, hk, -⟩ := (Option.any_eq_true _ _).mp (mem_significant.mp hi)
  rw [hk]
  rfl

/-- There is a kind for each significant token. -/
theorem length_kinds (d : Document) : d.kinds.length = d.significant.length := by
  have hlength := congrArg List.length d.map_some_kinds
  rwa [List.length_map, List.length_map] at hlength

/-- The kinds that the grammar sees in a text are those of its lexemes that are no comments. -/
theorem kinds_ofText (t : Text) :
    (ofText t).kinds = ((Layout.ofText t).pieces.map (·.lexeme.kind)).filter Kind.isSignificant := by
  have hkinds : (ofText t).kinds = ((ofText t).ids.map (ofText t).token?).filterMap
      fun x => (x.map (·.kind)).filter Kind.isSignificant := by
    rw [kinds, significant, List.filterMap_filter, List.filterMap_map]
    apply List.filterMap_congr
    intro i _
    rw [Function.comp_apply, kind?]
    cases (ofText t).token? i <;> simp [Option.filter_some]
  have hpieces : (Layout.ofText t).pieces.map (·.lexeme.kind) =
      (ofText t).tokens.toList.map (·.kind) := by
    rw [← Token.map_piece_place 0 Place.origin (Layout.ofText t).pieces, List.map_map]
    rfl
  rw [hkinds, hpieces, map_token?_ids, List.filterMap_map, ← List.filterMap_eq_filter,
    List.filterMap_map]
  rfl

/-- A text whose lexemes are all closed has no unclosed tokens. -/
theorem unclosed_ofText {t : Text} (h : ∀ p ∈ (Layout.ofText t).pieces, p.lexeme.closed = true) :
    (ofText t).unclosed = [] := by
  rw [unclosed, List.filterMap_eq_nil_iff]
  intro x hx
  have hpiece : x.piece ∈ (Layout.ofText t).pieces := by
    rw [← Token.map_piece_place 0 Place.origin (Layout.ofText t).pieces]
    exact List.mem_map_of_mem hx
  have hclosed : x.closed = true := h x.piece hpiece
  simp [Token.fault?, hclosed]

/-! ### Positions -/

/-- The token at a position is the significant one there. -/
theorem significantAt_of_lt {p : Nat} (h : p < d.significant.length) :
    d.significantAt p = d.significant[p] := by
  simp [significantAt, h]

/-- The token at a position is significant. -/
theorem significantAt_mem {p : Nat} (h : p < d.kinds.length) : d.significantAt p ∈ d.significant := by
  rw [significantAt_of_lt (d.length_kinds ▸ h)]
  exact List.getElem_mem _

/-- Every significant token stands at a position. -/
theorem exists_significantAt {i : Nat} (h : i ∈ d.significant) :
    ∃ p, p < d.kinds.length ∧ d.significantAt p = i := by
  obtain ⟨p, hp, rfl⟩ := List.mem_iff_getElem.mp h
  exact ⟨p, d.length_kinds.symm ▸ hp, significantAt_of_lt hp⟩

/-- A position past the last stands for the end of the text. -/
theorem significantAt_of_le {p : Nat} (h : d.kinds.length ≤ p) : d.significantAt p = d.size := by
  rw [d.length_kinds] at h
  simp [significantAt, Nat.not_lt.mpr h]

/-- The kinds that the grammar sees are those of the tokens at their positions. -/
theorem kind?_significantAt (d : Document) (p : Nat) :
    d.kind? (d.significantAt p) = d.kinds[p]? := by
  by_cases h : p < d.kinds.length
  · have hlt : p < d.significant.length := d.length_kinds ▸ h
    have hkind := congrArg (·[p]?) d.map_some_kinds
    simp only [List.getElem?_map, List.getElem?_eq_getElem h, List.getElem?_eq_getElem hlt,
      Option.map_some, Option.some.injEq] at hkind
    rw [significantAt_of_lt hlt, List.getElem?_eq_getElem h, hkind]
  · rw [significantAt_of_le (Nat.not_lt.mp h), List.getElem?_eq_none (Nat.not_lt.mp h), kind?,
      (d.token?_eq_none_iff _).mpr (Nat.le_refl _)]
    rfl

/-- There is a token at every position. -/
theorem exists_token?_significantAt {p : Nat} (h : p < d.kinds.length) :
    ∃ x, d.token? (d.significantAt p) = some x := by
  have hkind := d.kind?_significantAt p
  rw [List.getElem?_eq_getElem h] at hkind
  obtain ⟨x, hx, -⟩ := Option.map_eq_some_iff.mp hkind
  exact ⟨x, hx⟩

/-- Tokens come in the order of their positions. -/
theorem significantAt_lt {p q : Nat} (hpq : p < q) (hq : q < d.kinds.length) :
    d.significantAt p < d.significantAt q := by
  rw [d.length_kinds] at hq
  rw [significantAt_of_lt (Nat.lt_trans hpq hq), significantAt_of_lt hq]
  exact List.pairwise_iff_getElem.mp d.pairwise_significant p q _ hq hpq

/-- The same for positions past the last. -/
theorem significantAt_mono (d : Document) {p q : Nat} (hpq : p ≤ q) :
    d.significantAt p ≤ d.significantAt q := by
  rcases Nat.eq_or_lt_of_le hpq with rfl | hlt
  · exact Nat.le_refl _
  by_cases hq : q < d.kinds.length
  · exact Nat.le_of_lt (significantAt_lt hlt hq)
  · rw [significantAt_of_le (Nat.not_lt.mp hq)]
    exact d.significantAt_le p

/-- Positions come in the order of their tokens. -/
theorem lt_of_significantAt_lt {p q : Nat} (hp : p < d.kinds.length)
    (h : d.significantAt p < d.significantAt q) : p < q := by
  by_contra hle
  rcases Nat.lt_or_eq_of_le (Nat.not_lt.mp hle) with hlt | rfl
  · exact Nat.lt_asymm h (significantAt_lt hlt hp)
  · exact Nat.lt_irrefl _ h

/-- Different positions have different tokens. -/
theorem significantAt_inj {p q : Nat} (hp : p < d.kinds.length) (hq : q < d.kinds.length)
    (h : d.significantAt p = d.significantAt q) : p = q := by
  rcases Nat.lt_trichotomy p q with hlt | rfl | hlt
  · exact absurd h (Nat.ne_of_lt (significantAt_lt hlt hq))
  · rfl
  · exact absurd h.symm (Nat.ne_of_lt (significantAt_lt hlt hp))

/-! ### Neighbours -/

/-- Between neighbouring positions there are only comments. -/
theorem notMem_significant_of_between {p m : Nat} (h : p < d.kinds.length)
    (hm : d.significantAt p < m) (hmlt : m < d.significantAt (p + 1)) : m ∉ d.significant := by
  intro hmem
  obtain ⟨q, hq, rfl⟩ := exists_significantAt hmem
  have hpq := lt_of_significantAt_lt h hm
  have hqp := lt_of_significantAt_lt hq hmlt
  omega

/-- The search for the next token that is no comment finds the first one. -/
theorem significantFrom?_eq_some {count i j : Nat} (hle : i ≤ j) (hlt : j < i + count)
    (hbetween : ∀ m, i ≤ m → m < j → (d.kind? m).any Kind.isComment = true)
    (hj : (d.kind? j).any Kind.isComment = false) : d.significantFrom? count i = some j := by
  induction count generalizing i with
  | zero => omega
  | succ count ih =>
    unfold significantFrom?
    rcases Nat.eq_or_lt_of_le hle with rfl | hij
    · rw [hj]
      rfl
    · rw [if_pos (hbetween i (Nat.le_refl i) hij)]
      apply ih hij (by omega)
      intro m hm hmj
      exact hbetween m (by omega) hmj

/-- The next significant token stands at the next position. -/
theorem nextSignificant?_significantAt {p : Nat} (h : p + 1 < d.kinds.length) :
    d.nextSignificant? (d.significantAt p) = some (d.significantAt (p + 1)) := by
  have hlt : d.significantAt p < d.significantAt (p + 1) := significantAt_lt (Nat.lt_succ_self p) h
  have hmem := significantAt_mem h
  have hsize : d.significantAt (p + 1) < d.size := List.mem_range.mp (List.mem_of_mem_filter hmem)
  unfold nextSignificant?
  apply significantFrom?_eq_some hlt (by omega)
  · intro m hm hmlt
    rw [any_isComment (Nat.lt_trans hmlt hsize), decide_eq_true_eq]
    exact notMem_significant_of_between (by omega) hm hmlt
  · rw [any_isComment hsize, decide_eq_false_iff_not, not_not]
    exact hmem

/-- Comments in between do not change what comes before. -/
theorem prevSignificant?_of_between {i j : Nat} (hij : i ≤ j)
    (hbetween : ∀ m, i ≤ m → m < j → m ∉ d.significant) :
    d.prevSignificant? j = d.prevSignificant? i := by
  induction j with
  | zero => rw [Nat.le_zero.mp hij]
  | succ j ih =>
    rcases Nat.eq_or_lt_of_le hij with rfl | hlt
    · rfl
    · have hj : ¬(d.kind? j).any Kind.isSignificant = true := by
        rw [← mem_significant]
        exact hbetween j (Nat.le_of_lt_succ hlt) (Nat.lt_succ_self j)
      rw [prevSignificant?, if_neg hj]
      apply ih (Nat.le_of_lt_succ hlt)
      intro m hm hmj
      exact hbetween m hm (Nat.lt_succ_of_lt hmj)

/-- The significant token before stands at the position before. -/
theorem prevSignificant?_significantAt {p : Nat} (h : p + 1 < d.kinds.length) :
    d.prevSignificant? (d.significantAt (p + 1)) = some (d.significantAt p) := by
  have hlt : d.significantAt p < d.significantAt (p + 1) := significantAt_lt (Nat.lt_succ_self p) h
  rw [prevSignificant?_of_between hlt, prevSignificant?,
    if_pos (mem_significant.mp (significantAt_mem (by omega)))]
  intro m hm hmlt
  exact notMem_significant_of_between (by omega) hm hmlt

/-- No significant token comes before the first one. -/
theorem prevSignificant?_significantAt_zero (d : Document) :
    d.prevSignificant? (d.significantAt 0) = none := by
  apply prevSignificant?_of_between (Nat.zero_le _)
  intro m _ hmlt hmem
  obtain ⟨q, hq, rfl⟩ := exists_significantAt hmem
  exact Nat.not_lt_zero q (lt_of_significantAt_lt hq hmlt)

end CommaStyle.Document
