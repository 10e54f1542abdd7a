import CommaStyle.Proofs.Exemption
import Mathlib.Data.List.NodupEquivFin
import Mathlib.Order.Hom.Set

namespace CommaStyle

open Grammar

/-!
# Comments take no part

Two documents that differ in their comments alone, as far as the grammar can see, have the same list
literals, errors and exempt commas, told by tokens that correspond to each other.

* `Document.matching` — the order-preserving correspondence of the tokens that are no comments;
* `Document.matched_significantAt` — tokens at the same position correspond;
* `Document.exempt_outline` — the exempt commas by their positions, which depend on the kinds alone;
* `Document.outlines_match` — all that the grammar finds corresponds.
-/

namespace Document

/-- The tokens of a document that are no comments. -/
abbrev Significant (d : Document) : Type := { i : Nat // i ∈ d.significant }

variable {d e : Document}

/-! ### Corresponding tokens -/

/-- Documents with the same kinds have as many significant tokens. -/
theorem length_significant_eq (h : d.kinds = e.kinds) :
    d.significant.length = e.significant.length := by
  rw [← d.length_kinds, h, e.length_kinds]

/-- The correspondence of the tokens that are no comments, of documents that the grammar cannot tell
    apart. -/
def matching (h : d.kinds = e.kinds) : d.Significant ≃o e.Significant :=
  (d.pairwise_significant.sortedLT.getIso _).symm.trans
    ((Fin.castOrderIso (length_significant_eq h)).trans (e.pairwise_significant.sortedLT.getIso _))

/-- Whether two numbers are those of tokens that correspond. -/
def Matched (m : d.Significant ≃o e.Significant) (i j : Nat) : Prop :=
  ∃ hi : i ∈ d.significant, (m ⟨i, hi⟩).val = j

/-- Significant tokens at the same position match. -/
theorem matched_significantAt (h : d.kinds = e.kinds) {p : Nat} (hp : p < d.kinds.length) :
    Matched (matching h) (d.significantAt p) (e.significantAt p) := by
  have hd : p < d.significant.length := d.length_kinds ▸ hp
  have he : p < e.significant.length := e.length_kinds ▸ h ▸ hp
  refine ⟨significantAt_mem hp, ?_⟩
  have hsymm : (d.pairwise_significant.sortedLT.getIso _).symm
      ⟨d.significantAt p, significantAt_mem hp⟩ = ⟨p, hd⟩ := by
    rw [OrderIso.symm_apply_eq]
    exact Subtype.ext (significantAt_of_lt hd)
  rw [matching, OrderIso.trans_apply, hsymm, significantAt_of_lt he]
  rfl

/-! ### Exempt commas by position -/

/-- The positions of the exempt commas among some kinds. -/
def exemptPositions (kinds : List Kind) : List Nat :=
  (List.range kinds.length).filter fun p => kinds[p]? == some .comma &&
    (readModule kinds).lists.any fun n => (walked (n.opening + 1) n.entries).contains p

/-- The significant tokens are those at the positions of the kinds. -/
theorem significant_eq_map (d : Document) :
    d.significant = (List.range d.kinds.length).map d.significantAt := by
  apply List.ext_getElem
  · rw [List.length_map, List.length_range, d.length_kinds]
  · intro p hp _
    simp [significantAt_of_lt hp]

/-- A comma is exempt just if the walk along some list literal looks at its position. -/
theorem significantAt_mem_exempt {p : Nat} (hp : p < d.kinds.length) :
    d.significantAt p ∈ d.exempt d.outline.lists ↔
      d.kinds[p]? = some .comma ∧ ∃ n ∈ d.reading.lists, p ∈ walked (n.opening + 1) n.entries := by
  rw [mem_exempt_outline, isComma, kind?_significantAt, beq_iff_eq]
  refine and_congr_right fun _ => exists_congr fun n => and_congr_right fun hn => ?_
  rw [inspected_ofNode hn, List.mem_map]
  constructor
  · rintro ⟨q, hq, hsame⟩
    -- Behind the last position there is no token that the walk could look at.
    have hlt : q < d.kinds.length := by
      by_contra hle
      rw [significantAt_of_le (Nat.not_lt.mp hle)] at hsame
      have hmem := significantAt_mem hp
      rw [← hsame] at hmem
      exact absurd (List.mem_range.mp (List.mem_of_mem_filter hmem)) (Nat.lt_irrefl _)
    rwa [← significantAt_inj hlt hp hsame]
  · intro h
    exact ⟨p, h, rfl⟩

/-- The exempt commas of a document are at positions that the grammar alone determines. -/
theorem exempt_outline (d : Document) :
    d.exempt d.outline.lists = (exemptPositions d.kinds).map d.significantAt := by
  have hsignificant : d.exempt d.outline.lists =
      d.significant.filter (· ∈ d.exempt d.outline.lists) := by
    have hself : d.exempt d.outline.lists = d.ids.filter (· ∈ d.exempt d.outline.lists) := by
      unfold exempt
      apply List.filter_congr
      intro i hi
      simp [hi]
    rw [significant, List.filter_filter]
    refine hself.trans (List.filter_congr fun i _ => ?_)
    -- An exempt token is a comma, and no comment.
    by_cases hi : i ∈ d.exempt d.outline.lists
    · have hcomma := beq_iff_eq.mp (mem_exempt.mp hi).1
      simp [hi, hcomma]
      rfl
    · simp [hi]
  rw [hsignificant, significant_eq_map, List.filter_map]
  congr 1
  apply List.filter_congr
  intro p hp
  rw [Function.comp_apply, Bool.eq_iff_iff, decide_eq_true_eq,
    significantAt_mem_exempt (List.mem_range.mp hp)]
  simp [reading]

end Document

/-! ### Corresponding outlines -/

/-- Whether two list literals are the same, where `R` relates their tokens. -/
structure ListNode.Matched (R : Nat → Nat → Prop) (l l' : ListNode) : Prop where
  use : l.use = l'.use
  opening : R l.opening l'.opening
  elements : List.Forall₂ (Option.Rel fun x y => R x.first y.first ∧ R x.last y.last)
    l.elements l'.elements

/-- Whether two errors say the same, at tokens that `R` relates or both at the end of the text. -/
structure SyntaxError.Matched (d e : Document) (R : Nat → Nat → Prop) (x y : SyntaxError) : Prop where
  fault : x.fault = y.fault
  place : (∃ i j a b, R i j ∧ d.token? i = some a ∧ e.token? j = some b ∧
      x.span = a.span ∧ y.span = b.span) ∨
    (x.span = Span.empty d.width ∧ y.span = Span.empty e.width)

namespace Document

variable {d e : Document}

/-- The grammar reads the same from the same kinds. -/
theorem reading_eq_of_kinds_eq (h : d.kinds = e.kinds) : d.reading = e.reading := by
  rw [reading, reading, h]

/-- The list literals match one by one. -/
theorem lists_match (h : d.kinds = e.kinds) :
    List.Forall₂ (ListNode.Matched (Matched (matching h))) d.outline.lists e.outline.lists := by
  rw [outline_lists, outline_lists, ← reading_eq_of_kinds_eq h, List.forall₂_map_left_iff,
    List.forall₂_map_right_iff, List.forall₂_same]
  intro n hn
  obtain ⟨hopening, hplaced⟩ := inPlace_of_mem_lists hn
  refine ⟨rfl, matched_significantAt h (List.getElem?_eq_some_iff.mp hopening).1, ?_⟩
  show List.Forall₂ _ (n.entries.map _) (n.entries.map _)
  rw [List.forall₂_map_left_iff, List.forall₂_map_right_iff, List.forall₂_same]
  intro entry hentry
  cases entry with
  | hole comma => exact .none
  | element x =>
    obtain ⟨hle, hlast⟩ := hplaced.lt_length hentry
    exact .some ⟨matched_significantAt h (Nat.lt_of_le_of_lt hle hlast),
      matched_significantAt h hlast⟩

/-- The faults of the grammar match one by one. -/
theorem misread_match (h : d.kinds = e.kinds) :
    List.Forall₂ (SyntaxError.Matched d e (Matched (matching h))) d.misread e.misread := by
  unfold misread
  rw [← reading_eq_of_kinds_eq h, List.forall₂_map_left_iff, List.forall₂_map_right_iff,
    List.forall₂_same]
  intro mark _
  refine ⟨rfl, ?_⟩
  by_cases hp : mark.position < d.kinds.length
  · obtain ⟨a, ha⟩ := exists_token?_significantAt hp
    obtain ⟨b, hb⟩ := exists_token?_significantAt (d := e) (h ▸ hp)
    exact .inl ⟨_, _, a, b, matched_significantAt h hp, ha, hb, spanOrEnd_of_token? ha,
      spanOrEnd_of_token? hb⟩
  · have hle := Nat.not_lt.mp hp
    right
    rw [significantAt_of_le hle, significantAt_of_le (h ▸ hle), spanOrEnd_size, spanOrEnd_size]
    exact ⟨rfl, rfl⟩

/-- The commas behind holes match one by one. -/
theorem exempt_match (h : d.kinds = e.kinds) :
    List.Forall₂ (Matched (matching h)) (d.exempt d.outline.lists) (e.exempt e.outline.lists) := by
  rw [exempt_outline, exempt_outline, ← h, List.forall₂_map_left_iff, List.forall₂_map_right_iff,
    List.forall₂_same]
  intro p hp
  exact matched_significantAt h (List.mem_range.mp (List.mem_of_mem_filter hp))

/-- **Comments take no part in the grammar.** Where the tokens of two documents that are no comments
    are of the same kinds, there is just one correspondence between these that keeps their order, and
    by it the list literals, the errors of the grammar and the exempt commas correspond one by one. -/
theorem outlines_match (d e : Document) (h : d.kinds = e.kinds) :
    ∃ m : d.Significant ≃o e.Significant, (∀ m' : d.Significant ≃o e.Significant, m' = m) ∧
      List.Forall₂ (ListNode.Matched (Matched m)) d.outline.lists e.outline.lists ∧
      List.Forall₂ (SyntaxError.Matched d e (Matched m)) d.misread e.misread ∧
      List.Forall₂ (Matched m) (d.exempt d.outline.lists) (e.exempt e.outline.lists) :=
  ⟨matching h, fun _ => Subsingleton.elim _ _, lists_match h, misread_match h, exempt_match h⟩

/-- A list literal that is not closed, with and without comments in front of its hole and its end. -/
theorem outlines_match_comments :
    let d := ofText ['[', '/', '*', '*', '/', ',', 'a', '/', '/']
    let e := ofText ['[', ',', 'a']
    d.kinds = e.kinds ∧ d.significant = [0, 2, 3] ∧ e.significant = [0, 1, 2] ∧
      d.exempt d.outline.lists = [2] ∧
      ∃ m : d.Significant ≃o e.Significant,
        List.Forall₂ (ListNode.Matched (Matched m)) d.outline.lists e.outline.lists ∧
        List.Forall₂ (SyntaxError.Matched d e (Matched m)) d.misread e.misread ∧
        List.Forall₂ (Matched m) (d.exempt d.outline.lists) (e.exempt e.outline.lists) := by
  intro d e
  have h : d.kinds = e.kinds := by decide
  obtain ⟨m, -, hlists, hmisread, hexempt⟩ := outlines_match d e h
  exact ⟨h, by decide, by decide, by decide, m, hlists, hmisread, hexempt⟩

end Document

end CommaStyle
