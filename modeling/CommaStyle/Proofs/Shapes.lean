import CommaStyle.Proofs.Grammar.Arrangement
import CommaStyle.Proofs.Grammar.Holes
import CommaStyle.Proofs.Significance

namespace CommaStyle

open Grammar

/-!
# The shape of list literals

What the list literals of a document look like, whether or not the document follows the grammar:
where their elements stand, and how many commas lie between these.

* `Grammar.Placed.exists_commas` — a comma stands in front of an element for each hole before it;
* `ListNode.WellShaped` — the shape of one list literal, and `Document.wellShaped_ofNode`, that it has
  it;
* `Document.shape_of_lists` — the shape of all of them: they come in order, and their elements do not
  overlap.
-/

namespace Grammar

namespace Placed

variable {kinds : List Kind} {shallow : Prop} {start : Nat} {e : Element}

/-- No element stands in front of where entries may stand. -/
theorem le_first {entries : List Entry} (h : Placed kinds shallow start entries)
    (he : .element e ∈ entries) : start ≤ e.first := by
  induction h with
  | nil => cases he
  | last hstart =>
    obtain rfl := Entry.element.inj (List.mem_singleton.mp he)
    exact hstart
  | next hstart hle _ _ ih =>
    rcases List.mem_cons.mp he with heq | he
    · obtain rfl := Entry.element.inj heq
      exact hstart
    · have := ih he
      omega
  | hole hstart _ _ _ ih =>
    rcases List.mem_cons.mp he with heq | he
    · cases heq
    · have := ih he
      omega

/-- A comma stands directly behind an element that has entries behind it. -/
theorem behind {front rest : List Entry}
    (h : Placed kinds shallow start (front ++ .element e :: rest)) (hrest : rest ≠ []) :
    kinds[e.last + 1]? = some .comma ∧ Placed kinds shallow (e.last + 2) rest := by
  induction front generalizing start with
  | nil =>
    cases h with
    | last => exact absurd rfl hrest
    | next _ _ hcomma h => exact ⟨hcomma, h⟩
  | cons entry front ih =>
    cases hfront : front ++ .element e :: rest with
    | nil => simp at hfront
    | cons a entries =>
      rw [List.cons_append, hfront] at h
      cases h with
      | next _ _ _ h => exact ih (hfront ▸ h)
      | hole _ _ _ h => exact ih (hfront ▸ h)

/-- For each hole in front of an element there is a comma, in order, from where the entries start. -/
theorem exists_commas {holes back : List Entry} (hholes : ∀ entry ∈ holes, entry.extent? = none)
    (h : Placed kinds shallow start (holes ++ .element e :: back)) :
    ∃ commas : List Nat, commas.length = holes.length ∧ commas.Pairwise (· < ·) ∧
      ∀ c ∈ commas, start ≤ c ∧ c < e.first ∧ kinds[c]? = some .comma := by
  induction holes generalizing start with
  | nil => exact ⟨[], rfl, .nil, by simp⟩
  | cons entry holes ih =>
    obtain ⟨hentry, hothers⟩ := List.forall_mem_cons.mp hholes
    cases entry with
    | element _ => cases hentry
    | hole comma =>
      cases h with
      | hole hstart hfree hcomma h =>
        have hfirst := h.le_first (List.mem_append_right _ List.mem_cons_self)
        obtain ⟨commas, hlength, horder, hcommas⟩ := ih hothers h
        refine ⟨comma :: commas, by simp [hlength], ?_, ?_⟩
        · refine List.pairwise_cons.mpr ⟨?_, horder⟩
          intro c hc
          exact (hcommas c hc).1
        · intro c hc
          rcases List.mem_cons.mp hc with rfl | hc
          · exact ⟨hstart, hfirst, hcomma⟩
          · have hbounds := hcommas c hc
            exact ⟨by omega, hbounds.2⟩

end Placed

end Grammar

/-! ### Commas between tokens -/

namespace Document

/-- The commas between two tokens. -/
def commasBetween (d : Document) (left right : Nat) : List Nat :=
  d.ids.filter fun i => decide (left < i) && decide (i < right) && d.isComma i

variable {d : Document}

/-- Commas at positions between those of two tokens are between these. -/
theorem le_length_commasBetween {p q : Nat} (hq : q < d.kinds.length) {commas : List Nat}
    (horder : commas.Pairwise (· < ·))
    (hcommas : ∀ c ∈ commas, p < c ∧ c < q ∧ d.kinds[c]? = some .comma) :
    commas.length ≤ (d.commasBetween (d.significantAt p) (d.significantAt q)).length := by
  have hlt : ∀ c ∈ commas, c < d.kinds.length := fun c hc => Nat.lt_trans (hcommas c hc).2.1 hq
  have hnodup : (commas.map d.significantAt).Nodup := by
    refine List.pairwise_map.mpr (horder.imp_of_mem ?_)
    intro a b _ hb hab
    exact Nat.ne_of_lt (significantAt_lt hab (hlt b hb))
  have hsubset : commas.map d.significantAt ⊆
      d.commasBetween (d.significantAt p) (d.significantAt q) := by
    intro i hi
    obtain ⟨c, hc, rfl⟩ := List.mem_map.mp hi
    obtain ⟨hpc, hcq, hcomma⟩ := hcommas c hc
    have hkind : d.kind? (d.significantAt c) = some .comma := by
      rw [kind?_significantAt]
      exact hcomma
    simp only [commasBetween, List.mem_filter, Bool.and_eq_true, decide_eq_true_eq]
    exact ⟨List.mem_range.mpr (lt_size_of_kind? hkind),
      ⟨significantAt_lt hpc (hlt c hc), significantAt_lt hcq hq⟩, beq_iff_eq.mpr hkind⟩
  have hle := (List.subperm_of_subset hnodup hsubset).length_le
  rwa [List.length_map] at hle

end Document

/-! ### List literals -/

/-- The shape of a list literal in a document. -/
structure ListNode.WellShaped (d : Document) (l : ListNode) : Prop where
  opening : d.kind? l.opening = some .leftBracket
  /-- Elements stand behind the bracket, and start and end with tokens that are no comments. -/
  element : ∀ e, some e ∈ l.elements →
    l.opening < e.first ∧ e.first ≤ e.last ∧ e.first ∈ d.significant ∧ e.last ∈ d.significant
  /-- Between the bracket and the first element there is a comma for each hole. -/
  leading : ∀ holes e back, l.elements = List.replicate holes none ++ some e :: back →
    holes ≤ (d.commasBetween l.opening e.first).length
  /-- Between an element and the next one there is a comma for each hole, and one more. -/
  between : ∀ front e holes e' back,
    l.elements = front ++ some e :: (List.replicate holes none ++ some e' :: back) →
    e.last < e'.first ∧ holes + 1 ≤ (d.commasBetween e.last e'.first).length

namespace Document

variable {d : Document}

/-- An element of a list literal comes from an element that the grammar has read. -/
theorem element?_eq_some {tokenAt : Nat → Nat} {entry : Entry} {e : Element}
    (h : entry.element? tokenAt = some e) :
    ∃ x, entry = .element x ∧ e = ⟨tokenAt x.first, tokenAt x.last⟩ := by
  cases entry with
  | element x => exact ⟨x, rfl, (Option.some.inj h).symm⟩
  | hole comma => cases h

/-- A hole of a list literal comes from a hole that the grammar has read. -/
theorem extent?_eq_none {tokenAt : Nat → Nat} {entry : Entry} (h : entry.element? tokenAt = none) :
    entry.extent? = none := by
  cases entry with
  | element x => cases h
  | hole comma => rfl

/-- Entries that are holes up to one that is an element. -/
theorem exists_of_holes {tokenAt : Nat → Nat} {entries : List Entry} {count : Nat} {e : Element}
    {back : List (Option Element)}
    (h : entries.map (·.element? tokenAt) = List.replicate count none ++ some e :: back) :
    ∃ holes x rest, entries = holes ++ .element x :: rest ∧ holes.length = count ∧
      (∀ entry ∈ holes, entry.extent? = none) ∧ e = ⟨tokenAt x.first, tokenAt x.last⟩ := by
  obtain ⟨holes, others, rfl, hholes, hothers⟩ := List.map_eq_append_iff.mp h
  obtain ⟨entry, rest, rfl, hentry, -⟩ := List.map_eq_cons_iff.mp hothers
  obtain ⟨x, rfl, rfl⟩ := element?_eq_some hentry
  obtain ⟨hlength, hnone⟩ := List.eq_replicate_iff.mp hholes
  refine ⟨holes, x, rest, rfl, by rwa [List.length_map] at hlength, ?_, rfl⟩
  intro entry hentry
  exact extent?_eq_none (hnone _ (List.mem_map_of_mem hentry))

/-- A list literal whose entries are in place has its shape. -/
theorem wellShaped_ofNode {shallow : Prop} {n : Node} (h : n.InPlace d.kinds shallow) :
    (ListNode.ofNode d.significantAt n).WellShaped d := by
  obtain ⟨hopening, hplaced⟩ := h
  constructor
  case opening =>
    show d.kind? (d.significantAt n.opening) = some .leftBracket
    rw [kind?_significantAt, hopening]
  case element =>
    intro e he
    obtain ⟨entry, hentry, hsome⟩ := List.mem_map.mp he
    obtain ⟨x, rfl, rfl⟩ := element?_eq_some hsome
    obtain ⟨hle, hlt⟩ := hplaced.lt_length hentry
    have hfirst : x.first < d.kinds.length := Nat.lt_of_le_of_lt hle hlt
    exact ⟨significantAt_lt (hplaced.le_first hentry) hfirst, d.significantAt_mono hle,
      significantAt_mem hfirst, significantAt_mem hlt⟩
  case leading =>
    intro count e back helements
    obtain ⟨holes, x, rest, hentries, hlength, hholes, rfl⟩ := exists_of_holes helements
    rw [hentries] at hplaced
    obtain ⟨commas, hcount, horder, hcommas⟩ := hplaced.exists_commas hholes
    obtain ⟨hle, hlt⟩ := hplaced.lt_length (List.mem_append_right _ List.mem_cons_self)
    rw [← hlength, ← hcount]
    exact le_length_commasBetween (Nat.lt_of_le_of_lt hle hlt) horder hcommas
  case between =>
    intro front e count e' back helements
    obtain ⟨before, others, hentries, -, hothers⟩ := List.map_eq_append_iff.mp helements
    obtain ⟨entry, behind, rfl, hentry, hbehind⟩ := List.map_eq_cons_iff.mp hothers
    obtain ⟨x, rfl, rfl⟩ := element?_eq_some hentry
    obtain ⟨holes, y, rest, rfl, hlength, hholes, rfl⟩ := exists_of_holes hbehind
    rw [hentries] at hplaced
    obtain ⟨hcomma, hplaced⟩ := hplaced.behind (by simp)
    obtain ⟨commas, hcount, horder, hcommas⟩ := hplaced.exists_commas hholes
    have hmem : .element y ∈ holes ++ .element y :: rest :=
      List.mem_append_right _ List.mem_cons_self
    have hstart := hplaced.le_first hmem
    obtain ⟨hle, hlt⟩ := hplaced.lt_length hmem
    have hfirst : y.first < d.kinds.length := Nat.lt_of_le_of_lt hle hlt
    refine ⟨significantAt_lt (by omega) hfirst, ?_⟩
    -- The comma directly behind the element comes before those of the holes.
    have hall : ((x.last + 1) :: commas).Pairwise (· < ·) := by
      refine List.pairwise_cons.mpr ⟨?_, horder⟩
      intro c hc
      exact (hcommas c hc).1
    have hlength' : ((x.last + 1) :: commas).length = count + 1 := by
      rw [List.length_cons, hcount, hlength]
    rw [← hlength']
    refine le_length_commasBetween hfirst hall ?_
    intro c hc
    rcases List.mem_cons.mp hc with rfl | hc
    · exact ⟨Nat.lt_succ_self _, by omega, hcomma⟩
    · obtain ⟨hstart, hend, hkind⟩ := hcommas c hc
      exact ⟨by omega, hend, hkind⟩

/-- Positions that do not overlap are those of tokens that do not overlap. -/
theorem laminar_significantAt {a b : Element} (h : a.Laminar b) (ha : a.first < d.kinds.length)
    (hb : b.first < d.kinds.length) :
    Element.Laminar ⟨d.significantAt a.first, d.significantAt a.last⟩
      ⟨d.significantAt b.first, d.significantAt b.last⟩ := by
  rcases h with h | h | ⟨h, h'⟩ | ⟨h, h'⟩
  · exact .inl (significantAt_lt h hb)
  · exact .inr (.inl (significantAt_lt h ha))
  · exact .inr (.inr (.inl ⟨d.significantAt_mono h, d.significantAt_mono h'⟩))
  · exact .inr (.inr (.inr ⟨d.significantAt_mono h, d.significantAt_mono h'⟩))

/-- **The shape of list literals.** In any document, with errors or without, the list literals come in
    the order of their brackets, each has its shape, and of any two elements, of one literal or of two,
    one lies in the other or they have no token in common. -/
theorem shape_of_lists (d : Document) :
    d.outline.lists.Pairwise (fun l l' => l.opening < l'.opening) ∧
      (∀ l ∈ d.outline.lists, l.WellShaped d) ∧
      ∀ l ∈ d.outline.lists, ∀ l' ∈ d.outline.lists, ∀ e e', some e ∈ l.elements →
        some e' ∈ l'.elements → e.Laminar e' := by
  have hplace : ∀ n ∈ d.reading.lists, n.InPlace d.kinds d.reading.IsShallow :=
    fun n hn => inPlace_of_mem_lists hn
  rw [outline_lists]
  refine ⟨?_, ?_, ?_⟩
  · refine List.pairwise_map.mpr ((pairwise_openings d.kinds).imp_of_mem ?_)
    intro m n _ hn hlt
    exact significantAt_lt hlt (List.getElem?_eq_some_iff.mp (hplace n hn).1).1
  · intro l hl
    obtain ⟨n, hn, rfl⟩ := List.mem_map.mp hl
    exact wellShaped_ofNode (hplace n hn)
  · intro l hl l' hl' e e' he he'
    obtain ⟨m, hm, rfl⟩ := List.mem_map.mp hl
    obtain ⟨n, hn, rfl⟩ := List.mem_map.mp hl'
    obtain ⟨_, hx, hsome⟩ := List.mem_map.mp he
    obtain ⟨_, hy, hsome'⟩ := List.mem_map.mp he'
    obtain ⟨x, rfl, rfl⟩ := element?_eq_some hsome
    obtain ⟨y, rfl, rfl⟩ := element?_eq_some hsome'
    obtain ⟨hle, hlt⟩ := (hplace m hm).2.lt_length hx
    obtain ⟨hle', hlt'⟩ := (hplace n hn).2.lt_length hy
    exact laminar_significantAt (laminar_of_mem_lists hm hn hx hy) (Nat.lt_of_le_of_lt hle hlt)
      (Nat.lt_of_le_of_lt hle' hlt')

end Document

end CommaStyle
