import CommaStyle.Proofs.Grammar.Assignments
import CommaStyle.Proofs.Significance

namespace CommaStyle.Document

open Grammar Reading

/-!
# Patterns are targets

A list literal of a document is a pattern if its bracket stands in the target of an assignment, and an
array otherwise, whether or not there are syntax errors.
-/

/-- Tokens at positions come in the order of the positions. -/
theorem significantAt_le_iff {d : Document} {p q : Nat} (hp : p < d.kinds.length) :
    d.significantAt p ≤ d.significantAt q ↔ p ≤ q := by
  constructor
  · intro h
    by_contra hlt
    exact Nat.not_lt.mpr h (significantAt_lt (Nat.not_le.mp hlt) hp)
  · exact d.significantAt_mono

/-- The token ahead of a reading on the way through a document is the one at its position. -/
theorem kind?_of_at? {d : Document} {r : Reading} {k : Kind} (h : Onward (ofKinds d.kinds) r)
    (hat : r.at? k = true) : d.kind? (d.significantAt r.position) = some k := by
  obtain ⟨⟨w, hw, hposition⟩, -⟩ := h
  obtain ⟨v, hv⟩ := at?_iff.mp hat
  have hkinds : d.kinds = w ++ k :: v := by rw [← hv, ← hw]; rfl
  have hlength : r.position = w.length := hposition.trans (Nat.zero_add _)
  rw [kind?_significantAt, hkinds, hlength]
  simp

/-- **Patterns are targets.** Whenever the list literals of a target are marked, just before the sign of
    the assignment is passed over, the search backwards marks the same ones as a search through all the
    list literals found so far. In the end, a list literal is a pattern if and only if it was opened in
    the target of some assignment. -/
theorem patterns_are_targets (d : Document) :
    (∀ a ∈ Assigned.inModule d.kinds,
      (∃ levels r, binary (expression levels) r = (some a.target, a.reading)) ∧
        a.reading.at? .assign = true ∧ a.target.last + 1 = a.reading.position ∧
        d.kind? (d.significantAt a.reading.position) = some .assign ∧
        (a.reading.retag a.target.first).lists = a.reading.lists.map fun n =>
          if a.target.first ≤ n.opening ∧ n.opening ≤ a.target.last then { n with use := .pattern }
          else n) ∧
      ∀ n ∈ d.outline.lists, n.use =
        if ∃ a ∈ Assigned.inModule d.kinds,
          d.significantAt a.target.first ≤ n.opening ∧ n.opening ≤ d.significantAt a.target.last
        then .pattern else .array := by
  have hnoted := noted_readModule d.kinds
  have horder := inOrder_ofKinds d.kinds
  have hlength : (readModule d.kinds).position = d.kinds.length := position_readModule d.kinds
  constructor
  · intro a ha
    obtain ⟨hread, hsign, hends, hlists⟩ := hnoted.targets horder a ha
    exact ⟨hread, hsign, hends, kind?_of_at? (hnoted.readings a ha) hsign, hlists⟩
  · intro n hn
    rw [outline_lists] at hn
    obtain ⟨m, hm, rfl⟩ := List.mem_map.mp hn
    have hopening : m.opening < d.kinds.length := by
      rw [← hlength]
      exact (hnoted.inOrder horder).behind m.opening (List.mem_map_of_mem hm)
    -- Tokens come in the order of their positions, so that the same targets hold the bracket.
    have hiff : (∃ a ∈ Assigned.inModule d.kinds, a.target.Holds m.opening) ↔
        ∃ a ∈ Assigned.inModule d.kinds, d.significantAt a.target.first ≤ d.significantAt m.opening ∧
          d.significantAt m.opening ≤ d.significantAt a.target.last := by
      refine exists_congr fun a => and_congr_right fun ha => ?_
      obtain ⟨-, hle, hlt⟩ := hnoted.within a ha
      rw [significantAt_le_iff (by omega), significantAt_le_iff hopening]
    show m.use = _
    rw [use_of_mem_lists hm]
    simp only [hiff]
    rfl

/-- The target of an assignment in the value of another one, list literals in the first target and
    behind the second one, and two brackets that are not closed. -/
theorem patterns_are_targets_nested :
    let d := ofText ['[', 'a', ',', '[', 'b', ']', ']', '=', '[', 'c', ']', '=', '(', '[', 'd']
    d.outline.errors.length = 2 ∧
      (∃ a ∈ Assigned.inModule d.kinds, a.target = ⟨8, 10⟩ ∧
        (a.reading.retag 8).lists = a.reading.lists.map fun n =>
          if 8 ≤ n.opening ∧ n.opening ≤ 10 then { n with use := .pattern } else n) ∧
      (∃ n ∈ d.outline.lists, n.opening = 3 ∧ n.use = .pattern) ∧
      ∃ n ∈ d.outline.lists, n.opening = 13 ∧ n.use = .array := by
  intro d
  obtain ⟨hexact, huses⟩ := patterns_are_targets d
  have htargets : (⟨8, 10⟩ : Element) ∈ (Assigned.inModule d.kinds).map (·.target) := by decide
  have hinner : (⟨.pattern, 3, [some ⟨4, 4⟩]⟩ : ListNode) ∈ d.outline.lists := by decide
  have hlast : (⟨.array, 13, [some ⟨14, 14⟩]⟩ : ListNode) ∈ d.outline.lists := by decide
  refine ⟨by decide, ?_, ?_, ?_⟩
  · obtain ⟨a, ha, htarget⟩ := List.mem_map.mp htargets
    have hlists := (hexact a ha).2.2.2.2
    rw [htarget] at hlists
    exact ⟨a, ha, htarget, hlists⟩
  · exact ⟨_, hinner, rfl, (huses _ hinner).trans (if_pos (by decide))⟩
  · exact ⟨_, hlast, rfl, (huses _ hlast).trans (if_neg (by decide))⟩

end CommaStyle.Document
