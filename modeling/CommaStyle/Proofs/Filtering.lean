import CommaStyle.Proofs.Collections
import CommaStyle.Proofs.Exemption
import CommaStyle.Proofs.Strict.Checking
import Mathlib.Data.Finset.Lattice.Lemmas

namespace CommaStyle

/-!
# What exemptions take away

Exempt commas and excused leaders take violations away and do nothing else, whatever list literals
the exempt commas come from.

* `Strict.visit?` puts the commas behind the holes of one list literal into a set, and fails if it
  comes upon a token that is not there;
* `Strict.foldlM_visit?` — it never fails, and along any list literals it collects the exempt commas;
* `Document.exempt_congr` — the order of the list literals and repetitions do not matter;
* `Document.violations_exempt` — exempt commas lose their violations in front;
* `Document.violations_excuseLeading` — excused leaders lose their violations behind;
* `Document.violations_filtered` — all of it for any text, settings and list literals.
-/

/-! ### Visiting list literals -/

namespace Document

variable {d : Document}

/-- As a set, the exempt commas are those that the walks along the literals find. -/
theorem toFinset_exempt (d : Document) (lists : List ListNode) :
    (d.exempt lists).toFinset = (lists.flatMap d.holeCommas).toFinset := by
  ext i
  simp only [List.mem_toFinset, mem_exempt, List.mem_flatMap, holeCommas, holeCommasFrom_eq_filter,
    List.mem_filter, inspected]
  constructor
  · rintro ⟨hcomma, l, hl, hi⟩
    exact ⟨l, hl, hi, hcomma⟩
  · rintro ⟨l, hl, hi, hcomma⟩
    exact ⟨hcomma, l, hl, hi⟩

/-- The order of the list literals and repetitions of them do not matter. -/
theorem exempt_congr {lists lists' : List ListNode} (h : ∀ l, l ∈ lists' ↔ l ∈ lists) :
    d.exempt lists' = d.exempt lists := by
  unfold exempt
  apply List.filter_congr
  intro i _
  rw [Bool.eq_iff_iff]
  simp only [List.contains_eq_mem, decide_eq_true_eq, List.mem_flatMap, h]

end Document

namespace Strict

/-- Puts the commas behind the holes of a list literal into a set. -/
def visit? (d : Document) (found : Finset Nat) (l : ListNode) : Option (Finset Nat) := do
  let commas ← holeCommasFrom? d l.opening l.elements
  return found ∪ commas.toFinset

/-- A visit to a list literal adds the commas behind its holes to those found before. -/
theorem visit?_eq (d : Document) (found : Finset Nat) (l : ListNode) :
    visit? d found l = some (found ∪ (d.holeCommas l).toFinset) := by
  rw [visit?, holeCommasFrom?_eq]
  rfl

/-- **Visiting list literals.** Along any list literals, the exempt commas are collected without a
    failing step. -/
theorem foldlM_visit? (d : Document) (found : Finset Nat) (lists : List ListNode) :
    lists.foldlM (visit? d) found = some (found ∪ (d.exempt lists).toFinset) := by
  rw [Document.toFinset_exempt]
  induction lists generalizing found with
  | nil => simp
  | cons l lists ih =>
    rw [List.foldlM_cons, visit?_eq]
    show lists.foldlM (visit? d) (found ∪ (d.holeCommas l).toFinset) = _
    rw [ih, List.flatMap_cons, List.toFinset_append, Finset.union_assoc]

end Strict

/-! ### Violations that are taken away -/

namespace Document

variable {d : Document} {s s' : Settings} {exempt exempt' : List Nat} {leaders : Leaders} {i : Nat}

/-- Nothing is asked behind a comma that leads its line, if such commas are excused. -/
theorem violationAfter?_of_isLeading (h : d.isLeading leaders i = true) (s : Settings) :
    d.violationAfter? { s with excuseLeading := true } leaders i = none := by
  unfold violationAfter?
  cases d.token? i with
  | none => rfl
  | some comma =>
    cases hright : d.next? i with
    | none => rfl
    | some right => cases d.token? right <;> simp [h]

/-- An exemption takes away just what is asked in front of the exempt commas. -/
theorem violationBefore?_exempt :
    d.violationBefore? s exempt i =
      (d.violationBefore? s [] i).filter fun v => ¬(v.side = .before ∧ v.comma ∈ exempt) := by
  refine Option.eq_filter_of_iff (c := i ∈ exempt) (fun hi => violationBefore?_of_mem hi s) ?_ ?_
  · intro hi
    simp [violationBefore?, hi]
  · intro v hv
    obtain ⟨left, rfl⟩ := exists_of_violationBefore? hv
    simp

/-- Excusing takes away just what is asked behind the commas that lead a line. -/
theorem violationAfter?_excuseLeading :
    d.violationAfter? { s with excuseLeading := true } leaders i =
      (d.violationAfter? { s with excuseLeading := false } leaders i).filter
        fun v => ¬(v.side = .after ∧ d.isLeading leaders v.comma = true) := by
  refine Option.eq_filter_of_iff (fun hi => violationAfter?_of_isLeading hi s) ?_ ?_
  · intro hi
    rw [Bool.not_eq_true] at hi
    simp [violationAfter?, hi]
  · intro v hv
    obtain ⟨right, rfl⟩ := exists_of_violationAfter? hv
    simp

/-- A violation on one side is left where those on another side are tested. -/
theorem eq_filter_of_side_ne {o : Option Violation} {side : Side} {q : Violation → Prop}
    [DecidablePred q] (h : ∀ v, o = some v → v.side ≠ side) :
    o = o.filter fun v => ¬(v.side = side ∧ q v) := by
  refine Option.eq_filter_of_iff False.elim (fun _ => rfl) fun v hv => ?_
  simp [h v hv]

/-- What is taken away on each side of each comma is taken away from all violations. -/
theorem violations_eq_filter {p : Violation → Bool}
    (hbefore : ∀ i, d.violationBefore? s exempt i = (d.violationBefore? s' exempt' i).filter p)
    (hafter : ∀ i, d.violationAfter? s d.leaders i = (d.violationAfter? s' d.leaders i).filter p) :
    d.violations s exempt = (d.violations s' exempt').filter p := by
  unfold violations
  simp only [hbefore, hafter, Option.toList_filter, ← List.filter_append, List.filter_flatMap]

/-- **Exempt commas.** They lose the violations in front of them, and nothing else is lost. -/
theorem violations_exempt (d : Document) (s : Settings) (exempt : List Nat) :
    d.violations s exempt =
      (d.violations s []).filter fun v => ¬(v.side = .before ∧ v.comma ∈ exempt) := by
  refine violations_eq_filter (fun i => violationBefore?_exempt) fun i => ?_
  apply eq_filter_of_side_ne
  intro v hv
  obtain ⟨right, rfl⟩ := exists_of_violationAfter? hv
  exact Side.noConfusion

/-- **Excused leaders.** They lose the violations behind them, and nothing else is lost. -/
theorem violations_excuseLeading (d : Document) (s : Settings) (exempt : List Nat) :
    d.violations { s with excuseLeading := true } exempt =
      (d.violations { s with excuseLeading := false } exempt).filter
        fun v => ¬(v.side = .after ∧ d.isLeading d.leaders v.comma = true) := by
  refine violations_eq_filter (fun i => ?_) fun i => violationAfter?_excuseLeading
  -- The setting is not looked at in front of a comma.
  show d.violationBefore? s exempt i = (d.violationBefore? s exempt i).filter _
  apply eq_filter_of_side_ne
  intro v hv
  obtain ⟨left, rfl⟩ := exists_of_violationBefore? hv
  exact Side.noConfusion

/-- **Exemptions only take away.** For any list literals, whether or not they fit the text, exempt
    commas are found without a failing step, and so are the violations. Exempt are commas only, and
    neither the order of the list literals nor repetitions of them matter. The violations are those
    that there are without list literals, less the ones in front of exempt commas; and to excuse
    leaders takes away the ones behind commas that lead their lines, and no others. -/
theorem violations_filtered (t : Text) (s : Settings) (lists : List ListNode) :
    let d := ofText t
    lists.foldlM (Strict.visit? d) ∅ = some (d.exempt lists).toFinset ∧
    Strict.violations? d s (d.exempt lists) d.leaders = some (d.violations s (d.exempt lists)) ∧
    (∀ i ∈ d.exempt lists, d.kind? i = some .comma) ∧
    (∀ lists' : List ListNode, (∀ l, l ∈ lists' ↔ l ∈ lists) →
      lists'.foldlM (Strict.visit? d) ∅ = lists.foldlM (Strict.visit? d) ∅ ∧
        d.exempt lists' = d.exempt lists) ∧
    d.violations s (d.exempt lists) =
      (d.violations s (d.exempt [])).filter
        (fun v => ¬(v.side = .before ∧ v.comma ∈ d.exempt lists)) ∧
    d.violations { s with excuseLeading := true } (d.exempt lists) =
      (d.violations { s with excuseLeading := false } (d.exempt lists)).filter
        (fun v => ¬(v.side = .after ∧ d.isLeading d.leaders v.comma = true)) := by
  intro d
  have hnone : d.exempt [] = [] := by simp [exempt]
  refine ⟨?_, Strict.violations?_eq s t _, ?_, ?_, ?_, violations_excuseLeading d s _⟩
  · rw [Strict.foldlM_visit?, Finset.empty_union]
  · intro i hi
    exact beq_iff_eq.mp (mem_exempt.mp hi).1
  · intro lists' h
    rw [Strict.foldlM_visit?, Strict.foldlM_visit?, exempt_congr h]
    exact ⟨rfl, rfl⟩
  · rw [hnone]
    exact violations_exempt d s (d.exempt lists)

/-- A list literal with a hole, and one whose tokens are not there or stand in the wrong order, which
    still makes a comma exempt. -/
theorem violations_filtered_stray :
    let t := ['[', ' ', ',', 'a', ' ', ',', 'b', ']']
    let d := ofText t
    let fitting : ListNode := ⟨.array, 0, [none, some ⟨2, 2⟩, some ⟨4, 4⟩]⟩
    let stray : ListNode := ⟨.pattern, 70, [some ⟨90, 1⟩, none, none, none]⟩
    (∀ l, l ∈ [fitting, stray, fitting] ↔ l ∈ [stray, fitting]) ∧
      d.exempt [fitting, stray, fitting] = [1, 3] ∧
      d.violations .standard (d.exempt [stray, fitting]) = [⟨1, .after, 2⟩, ⟨3, .after, 4⟩] := by
  intro t d fitting stray
  obtain ⟨-, -, -, hsame, hviolations, -⟩ := violations_filtered t .standard [stray, fitting]
  have hmem : ∀ l, l ∈ [fitting, stray, fitting] ↔ l ∈ [stray, fitting] := by
    intro l
    simp [or_comm]
  have hexempt : d.exempt [stray, fitting] = [1, 3] := by decide
  refine ⟨hmem, (hsame _ hmem).2.trans hexempt, hviolations.trans ?_⟩
  rw [hexempt]
  decide

end Document

end CommaStyle
