import CommaStyle.Proofs.Gaps
import CommaStyle.Proofs.Grammar.Holes
import CommaStyle.Proofs.Grammar.Soundness
import CommaStyle.Proofs.Significance

namespace CommaStyle.Document

open Grammar

/-!
# Exempt commas

The walk along the entries of a list literal finds the commas behind its holes again, from the
entries and the tokens of the document alone.

* `inspectedFrom` — the tokens where the walk looks for such commas;
* `inspected_ofNode` — they are at the positions that `walked` says, in any document;
* `exempt_of_contiguous` — the walk finds the holes of a list literal just if no token was passed over
  in front of one of them; otherwise it looks too early;
* `exempt_of_errors_eq_nil` — without errors, the exempt commas are those that directly follow a
  bracket or a comma, comments apart.
-/

/-- The tokens where a walk along some entries looks for the commas of holes. -/
def inspectedFrom (d : Document) : (before : Nat) → List (Option Element) → List Nat
  | _, [] => []
  | _, some e :: entries =>
    match d.nextSignificant? e.last with
    | none => []
    | some next => d.inspectedFrom next entries
  | before, none :: entries =>
    match d.nextSignificant? before with
    | none => []
    | some next => next :: d.inspectedFrom next entries

/-- The tokens where the walk along a list literal looks for the commas of its holes. -/
def inspected (d : Document) (l : ListNode) : List Nat := d.inspectedFrom l.opening l.elements

/-- The walk takes just the commas among the tokens that it looks at. -/
theorem holeCommasFrom_eq_filter (d : Document) (before : Nat) (entries : List (Option Element)) :
    d.holeCommasFrom before entries = (d.inspectedFrom before entries).filter d.isComma := by
  fun_induction d.inspectedFrom before entries with
  | case1 => rfl
  | case2 _ e entries hnext => rw [holeCommasFrom, hnext]; rfl
  | case3 _ e entries next hnext ih => rw [holeCommasFrom, hnext]; exact ih
  | case4 before entries hnext => rw [holeCommasFrom, hnext]; rfl
  | case5 before entries next hnext ih =>
    rw [holeCommasFrom, hnext]
    dsimp only
    rw [ih, List.filter_cons]

/-- A comma is exempt if the walk along the entries of some literal inspects it. -/
theorem mem_exempt {d : Document} {lists : List ListNode} {i : Nat} :
    i ∈ d.exempt lists ↔ d.isComma i = true ∧ ∃ l ∈ lists, i ∈ d.inspected l := by
  have hids : d.isComma i = true → i ∈ d.ids := by
    intro h
    exact List.mem_range.mpr (lt_size_of_kind? (beq_iff_eq.mp h))
  simp only [exempt, List.mem_filter, List.contains_eq_mem, List.mem_flatMap, holeCommas,
    holeCommasFrom_eq_filter, decide_eq_true_eq, inspected]
  constructor
  · rintro ⟨-, l, hl, hi, hcomma⟩
    exact ⟨hcomma, l, hl, hi⟩
  · rintro ⟨hcomma, l, hl, hi⟩
    exact ⟨hids hcomma, l, hl, hi, hcomma⟩

/-- Nothing is asked in front of an exempt comma. -/
theorem violationBefore?_of_mem {d : Document} {exempt : List Nat} {i : Nat} (h : i ∈ exempt)
    (s : Settings) : d.violationBefore? s exempt i = none := by
  unfold violationBefore?
  cases d.token? i with
  | none => rfl
  | some comma =>
    cases hleft : d.prev? i with
    | none => rfl
    | some left => cases d.token? left <;> simp [h]

/-- A violation in front of a comma names that comma and that side. -/
theorem exists_of_violationBefore? {d : Document} {s : Settings} {exempt : List Nat} {i : Nat}
    {v : Violation} (h : d.violationBefore? s exempt i = some v) :
    ∃ left, v = ⟨i, .before, left⟩ := by
  unfold violationBefore? at h
  obtain ⟨comma, -, h⟩ := Option.bind_eq_some_iff.mp h
  obtain ⟨left, -, h⟩ := Option.bind_eq_some_iff.mp h
  obtain ⟨token, -, h⟩ := Option.bind_eq_some_iff.mp h
  split at h
  · exact ⟨left, (Option.some.inj h).symm⟩
  · cases h

/-- A violation behind a comma names that comma and that side. -/
theorem exists_of_violationAfter? {d : Document} {s : Settings} {leaders : Leaders} {i : Nat}
    {v : Violation} (h : d.violationAfter? s leaders i = some v) :
    ∃ right, v = ⟨i, .after, right⟩ := by
  unfold violationAfter? at h
  obtain ⟨comma, -, h⟩ := Option.bind_eq_some_iff.mp h
  obtain ⟨right, -, h⟩ := Option.bind_eq_some_iff.mp h
  obtain ⟨token, -, h⟩ := Option.bind_eq_some_iff.mp h
  split at h
  · exact ⟨right, (Option.some.inj h).symm⟩
  · cases h

/-- Nothing is asked in front of an exempt comma. -/
theorem notMem_exempt_of_before {d : Document} {s : Settings} {exempt : List Nat} {v : Violation}
    (hv : v ∈ d.violations s exempt) (hside : v.side = .before) : v.comma ∉ exempt := by
  intro hexempt
  unfold violations at hv
  obtain ⟨i, -, hi⟩ := List.mem_flatMap.mp hv
  rcases List.mem_append.mp hi with hi | hi <;> rw [Option.mem_toList] at hi
  · obtain ⟨left, rfl⟩ := exists_of_violationBefore? hi
    rw [violationBefore?_of_mem hexempt] at hi
    cases hi
  · obtain ⟨right, rfl⟩ := exists_of_violationAfter? hi
    cases hside

/-! ### The walk in any document -/

variable {d : Document}

/-- An element is passed over together with the token behind it. -/
theorem inspectedFrom_element {before next : Nat} {e : Element} {entries : List (Option Element)}
    (h : d.nextSignificant? e.last = some next) :
    d.inspectedFrom before (some e :: entries) = d.inspectedFrom next entries := by
  rw [inspectedFrom, h]

/-- The token in the place of a hole is inspected. -/
theorem inspectedFrom_hole {before next : Nat} {entries : List (Option Element)}
    (h : d.nextSignificant? before = some next) :
    d.inspectedFrom before (none :: entries) = next :: d.inspectedFrom next entries := by
  rw [inspectedFrom, h]

/-- The walk goes from position to position, wherever entries were found. -/
theorem inspectedFrom_of_placed {shallow : Prop} {start before : Nat} {entries : List Entry}
    (h : Placed d.kinds shallow start entries) (hbefore : before < start) :
    d.inspectedFrom (d.significantAt before) (entries.map (·.element? d.significantAt)) =
      (walked (before + 1) entries).map d.significantAt := by
  induction h generalizing before with
  | nil => rfl
  | @last start e hstart hle hlast =>
    -- Whatever follows the last element, there is nothing left to look for.
    show d.inspectedFrom _ [some ⟨_, d.significantAt e.last⟩] = []
    unfold inspectedFrom
    split <;> rfl
  | next hstart hle hcomma h ih =>
    obtain ⟨hlt, -⟩ := List.getElem?_eq_some_iff.mp hcomma
    exact (inspectedFrom_element (nextSignificant?_significantAt hlt)).trans (ih (by omega))
  | hole hstart hfree hcomma h ih =>
    obtain ⟨hlt, -⟩ := List.getElem?_eq_some_iff.mp hcomma
    have hnext : before + 1 < d.kinds.length := by omega
    refine (inspectedFrom_hole (nextSignificant?_significantAt hnext)).trans ?_
    rw [ih (by omega)]
    rfl

/-- **The walk in any document.** It looks at the positions that the entries of a literal say, in step
    with the grammar or not. -/
theorem inspected_ofNode {n : Node} (hn : n ∈ d.reading.lists) :
    d.inspected (ListNode.ofNode d.significantAt n) =
      (walked (n.opening + 1) n.entries).map d.significantAt :=
  inspectedFrom_of_placed (inPlace_of_mem_lists hn).2 (Nat.lt_succ_self _)

/-- A comma is exempt if it is inspected for some literal that the grammar has read. -/
theorem mem_exempt_outline {i : Nat} :
    i ∈ d.exempt d.outline.lists ↔ d.isComma i = true ∧
      ∃ n ∈ d.reading.lists, i ∈ d.inspected (ListNode.ofNode d.significantAt n) := by
  rw [mem_exempt, outline_lists]
  simp only [List.mem_map, exists_exists_and_eq_and]

/-! ### Holes found again -/

/-- A hole that the grammar has read stands at a comma. -/
theorem isComma_of_mem_holes {n : Node} (hn : n ∈ d.reading.lists) {c : Nat} (hc : c ∈ n.holes) :
    c < d.kinds.length ∧ d.isComma (d.significantAt c) = true := by
  have hcomma := (inPlace_of_mem_lists hn).2.getElem?_of_mem_holes hc
  obtain ⟨hlt, -⟩ := List.getElem?_eq_some_iff.mp hcomma
  refine ⟨hlt, ?_⟩
  rw [isComma, kind?_significantAt, beq_iff_eq]
  exact hcomma

/-- The walk looks at a token for each hole, and never at one behind it. -/
theorem forall₂_inspected {n : Node} (hn : n ∈ d.reading.lists) :
    List.Forall₂ (· ≤ ·) (d.inspected (ListNode.ofNode d.significantAt n))
      (n.holes.map d.significantAt) := by
  have hwalked := (inPlace_of_mem_lists hn).2.forall₂_walked (Nat.le_refl _)
  rw [inspected_ofNode hn, List.forall₂_map_left_iff, List.forall₂_map_right_iff]
  exact hwalked.imp fun _ _ h => d.significantAt_mono h

/-- Positions that are not behind some others are the same if they are those of the same tokens. -/
theorem eq_of_map_significantAt {v w : List Nat} (h : List.Forall₂ (· ≤ ·) v w)
    (hw : ∀ p ∈ w, p < d.kinds.length) (heq : v.map d.significantAt = w.map d.significantAt) :
    v = w := by
  induction h with
  | nil => rfl
  | @cons p q v w hle h ih =>
    obtain ⟨hq, hw⟩ := List.forall_mem_cons.mp hw
    obtain ⟨hfirst, hrest⟩ := List.cons.inj heq
    rw [significantAt_inj (Nat.lt_of_le_of_lt hle hq) hq hfirst, ih hw hrest]

/-- The walk looks at the commas of the holes just if they directly follow what is in front of
    them. -/
theorem inspected_eq_iff {n : Node} (hn : n ∈ d.reading.lists) :
    d.inspected (ListNode.ofNode d.significantAt n) = n.holes.map d.significantAt ↔
      n.Contiguous := by
  have hwalked := (inPlace_of_mem_lists hn).2.forall₂_walked (Nat.le_refl _)
  rw [inspected_ofNode hn, Node.Contiguous, ← walked_eq_holes_iff]
  constructor
  · exact eq_of_map_significantAt hwalked fun c hc => (isComma_of_mem_holes hn hc).1
  · intro h
    rw [h, Node.holes]

/-- The commas of the holes of a list literal are exempt if the walk finds them. -/
theorem mem_exempt_of_mem_holes {n : Node} (hn : n ∈ d.reading.lists) (h : n.Contiguous) {i : Nat}
    (hi : i ∈ n.holes.map d.significantAt) : i ∈ d.exempt d.outline.lists := by
  refine mem_exempt_outline.mpr ⟨?_, n, hn, (inspected_eq_iff hn).mpr h ▸ hi⟩
  obtain ⟨c, hc, rfl⟩ := List.mem_map.mp hi
  exact (isComma_of_mem_holes hn hc).2

/-- The walk takes no other comma for that of a hole if it finds the holes of the list literal, or if
    nothing in the document is nested too deeply. -/
theorem mem_holes_of_mem_inspected {n : Node} (hn : n ∈ d.reading.lists)
    (h : n.Contiguous ∨ d.reading.IsShallow) {i : Nat} (hcomma : d.isComma i = true)
    (hi : i ∈ d.inspected (ListNode.ofNode d.significantAt n)) :
    i ∈ n.holes.map d.significantAt := by
  rcases h with h | h
  · exact (inspected_eq_iff hn).mpr h ▸ hi
  · rw [inspected_ofNode hn] at hi
    obtain ⟨p, hp, rfl⟩ := List.mem_map.mp hi
    rw [isComma, kind?_significantAt, beq_iff_eq] at hcomma
    have hmem : p ∈ [] ++ n.holes := (inPlace_of_mem_lists hn).2.mem_holes_of_mem_walked h
      (Nat.le_refl _) (fun q hq hlt => by omega) hp hcomma
    exact List.mem_map_of_mem hmem

/-- If the walk finds all holes, just the commas of these are exempt. -/
theorem mem_exempt_iff (h : ∀ n ∈ d.reading.lists, n.Contiguous) {i : Nat} :
    i ∈ d.exempt d.outline.lists ↔ ∃ n ∈ d.reading.lists, i ∈ n.holes.map d.significantAt := by
  constructor
  · intro hi
    obtain ⟨hcomma, n, hn, hi⟩ := mem_exempt_outline.mp hi
    exact ⟨n, hn, mem_holes_of_mem_inspected hn (.inl (h n hn)) hcomma hi⟩
  · rintro ⟨n, hn, hi⟩
    exact mem_exempt_of_mem_holes hn (h n hn) hi

/-- **Exempt commas in any document.** Along each list literal the walk looks at one token for each
    hole, never at one behind it, and at the commas of the holes just if no token was passed over in
    front of these. Then they are exempt, and nothing is asked in front of them. No other comma is
    exempt if this is so for all list literals, or if nothing is nested too deeply. -/
theorem exempt_of_contiguous (d : Document) :
    (∀ n ∈ d.reading.lists,
      let inspected := d.inspected (ListNode.ofNode d.significantAt n)
      let holes := n.holes.map d.significantAt
      List.Forall₂ (· ≤ ·) inspected holes ∧ (inspected = holes ↔ n.Contiguous) ∧
        (n.Contiguous → ∀ i ∈ holes, i ∈ d.exempt d.outline.lists ∧
          ∀ s, ∀ v ∈ d.violations s (d.exempt d.outline.lists), v.side = .before → v.comma ≠ i)) ∧
    ((∀ n ∈ d.reading.lists, n.Contiguous) ∨ d.reading.IsShallow →
      ∀ i ∈ d.exempt d.outline.lists, ∃ n ∈ d.reading.lists, i ∈ n.holes.map d.significantAt) := by
  constructor
  · intro n hn
    refine ⟨forall₂_inspected hn, inspected_eq_iff hn, ?_⟩
    intro hcontiguous i hi
    have hexempt := mem_exempt_of_mem_holes hn hcontiguous hi
    refine ⟨hexempt, ?_⟩
    rintro s v hv hside rfl
    exact notMem_exempt_of_before hv hside hexempt
  · intro h i hi
    obtain ⟨hcomma, n, hn, hi⟩ := mem_exempt_outline.mp hi
    exact ⟨n, hn, mem_holes_of_mem_inspected hn (h.imp_left fun h => h n hn) hcomma hi⟩

/-- A document with holes in front of both elements of a list literal, and a comment in one. -/
theorem exempt_of_contiguous_holes :
    let d := ofText ['[', ',', 'a', ',', '/', '*', '*', '/', ' ', ',', 'b', ']']
    let n : Node := ⟨.array, 0, [.hole 1, .element ⟨2, 2⟩, .hole 4, .element ⟨5, 5⟩]⟩
    n ∈ d.reading.lists ∧ n.Contiguous ∧ 5 ∈ n.holes.map d.significantAt ∧
      5 ∈ d.exempt d.outline.lists ∧
      (∀ s, ∀ v ∈ d.violations s (d.exempt d.outline.lists), v.side = .before → v.comma ≠ 5) ∧
      ∀ i ∈ d.exempt d.outline.lists, ∃ n ∈ d.reading.lists, i ∈ n.holes.map d.significantAt := by
  intro d n
  have hn : n ∈ d.reading.lists := by decide
  have h : n.Contiguous := by decide
  have hi : 5 ∈ n.holes.map d.significantAt := by decide
  have hall : ∀ n ∈ d.reading.lists, n.Contiguous := by decide
  obtain ⟨hlists, hothers⟩ := exempt_of_contiguous d
  obtain ⟨hexempt, hbefore⟩ := (hlists n hn).2.2 h 5 hi
  exact ⟨hn, h, hi, hexempt, hbefore, hothers (.inl hall)⟩

/-- A semicolon that does not belong there keeps the walk from finding the hole behind it. -/
theorem notMem_exempt_of_passed_over :
    let d := ofText ['[', ';', ' ', ',', ']']
    d.reading.lists.map (fun n => n.holes.map d.significantAt) = [[2]] ∧
      d.outline.lists.map d.inspected = [[1]] ∧ d.exempt d.outline.lists = [] ∧
      ⟨2, .before, 1⟩ ∈ d.violations Settings.standard (d.exempt d.outline.lists) := by
  decide

/-! ### Documents without errors -/

/-- Whether a number names a comma that directly follows an opening bracket or another comma, comments
    apart. -/
def isHollow (d : Document) (i : Nat) : Bool :=
  d.isComma i && (d.prevSignificant? i).any fun j => (d.kind? j).any opensHole

/-- In terms of kinds, such a comma is one that follows an opening bracket or another comma. -/
theorem isHollow_significantAt {p : Nat} (h : p + 1 < d.kinds.length) :
    d.isHollow (d.significantAt (p + 1)) = true ↔
      d.kinds[p + 1]? = some .comma ∧ d.kinds[p]?.any opensHole = true := by
  rw [isHollow, isComma, prevSignificant?_significantAt h, Option.any_some, kind?_significantAt,
    kind?_significantAt, Bool.and_eq_true, beq_iff_eq]

/-- Such commas are at the positions of those that directly follow a bracket or a comma in what the
    grammar sees. -/
theorem isHollow_iff {i : Nat} :
    d.isHollow i = true ↔ ∃ c ∈ hollow false 0 d.kinds, d.significantAt c = i := by
  simp only [mem_hollow, Bool.false_eq_true, false_and, and_false, false_or, Nat.zero_add]
  constructor
  · intro h
    have hcomma : d.kind? i = some .comma := by
      rw [isHollow, Bool.and_eq_true] at h
      exact beq_iff_eq.mp h.1
    obtain ⟨c, hc, rfl⟩ := exists_significantAt (mem_significant.mpr (by rw [hcomma]; rfl))
    cases c with
    | zero =>
      rw [isHollow, prevSignificant?_significantAt_zero] at h
      simp at h
    | succ p => exact ⟨p + 1, ⟨p, rfl, (isHollow_significantAt hc).mp h⟩, rfl⟩
  · rintro ⟨_, ⟨p, rfl, hp⟩, rfl⟩
    obtain ⟨hlt, -⟩ := List.getElem?_eq_some_iff.mp hp.1
    exact (isHollow_significantAt hlt).mpr hp

/-- Where the grammar finds no fault, the walk finds all holes, and they are where a comma directly
    follows a bracket or a comma. -/
theorem mem_exempt_of_marks_eq_nil (h : d.reading.marks = []) {i : Nat} :
    i ∈ d.exempt d.outline.lists ↔ d.isHollow i = true := by
  obtain ⟨tree, hkinds, hliterals⟩ := exists_derivation_readModule h
  have hlists : d.reading.lists = tree.literals .array 0 := hliterals
  have hcontiguous : ∀ n ∈ d.reading.lists, n.Contiguous := by
    intro n hn
    rw [hlists] at hn
    exact (tree.listed hn).contiguous
  rw [mem_exempt_iff hcontiguous, isHollow_iff, ← hkinds, hlists]
  simp only [tree.mem_hollow_kinds, List.mem_map]
  constructor
  · rintro ⟨n, hn, c, hc, hi⟩
    exact ⟨c, ⟨n, hn, hc⟩, hi⟩
  · rintro ⟨c, ⟨n, hn, hc⟩, hi⟩
    exact ⟨n, hn, c, hc, hi⟩

/-- **Exempt commas in a document without errors.** They are the commas that directly follow an
    opening bracket or another comma, comments apart. -/
theorem exempt_of_errors_eq_nil (d : Document) (h : d.outline.errors = []) :
    d.exempt d.outline.lists = d.ids.filter d.isHollow := by
  have hmarks : d.reading.marks = [] := by
    simp only [outline, List.append_eq_nil_iff, List.map_eq_nil_iff] at h
    exact h.2
  unfold exempt
  apply List.filter_congr
  intro i hi
  rw [Bool.eq_iff_iff, ← mem_exempt_of_marks_eq_nil hmarks, exempt, List.mem_filter,
    and_iff_right hi]

/-- A document without errors, with holes in a pattern and in an array, a comment in front of one of
    their commas, and commas in an index and a call. -/
theorem exempt_of_errors_eq_nil_nested :
    let d := ofText ['[', '/', '*', '*', '/', ',', 'a', ']', '=', 'f', '(', 'b', ',', '[', ',', ',',
      'c', '[', '1', ',', '2', ']', ']', ')']
    d.outline.errors = [] ∧ d.exempt d.outline.lists = d.ids.filter d.isHollow ∧
      d.ids.filter d.isHollow = [2, 11, 12] := by
  intro d
  have h : d.outline.errors = [] := by decide
  exact ⟨h, exempt_of_errors_eq_nil d h, by decide⟩

end CommaStyle.Document
