import CommaStyle.Proofs.Strict.Checking
import CommaStyle.Proofs.Substituting

namespace CommaStyle

open Text

/-!
# Which edits matter

The edits that are made are chosen before the text is looked at. Whether they can be made is up to
them alone: the edits that are left out do not count, nor does the order in which the edits are given.

* `Edit.choose_append` — behind some edits, the choice depends only on what has been reached there;
* `Edit.chosen_insert` — an edit that starts before one made ahead of it has ended changes no choice;
* `Edit.splice?_eq_none_iff` — edits in order cannot be made just if one of them starts or ends inside
  a character or past the end;
* `Edit.applyAll?_fails_iff` — when edits fail, and that those left out have no part in it;
* `Edit.applyAll?_of_rearranged` — edits in another order come to the same.
-/

namespace Edit

/-! ### Edits that are left out -/

/-- What has been reached behind some edits given in order: the end of the last one made. -/
def reachedBy : (reached : Nat) → List Edit → Nat
  | reached, [] => reached
  | reached, e :: edits =>
    if e.span.start < reached then reachedBy reached edits else reachedBy e.span.stop edits

/-- The choice goes on behind some edits from what has been reached there. -/
theorem choose_append (reached : Nat) (l l' : List Edit) :
    choose reached (l ++ l') = choose reached l ++ choose (reachedBy reached l) l' := by
  induction l generalizing reached with
  | nil => rfl
  | cons e l ih =>
    rw [List.cons_append, choose, choose, reachedBy]
    split
    · exact ih reached
    · rw [ih, List.cons_append]

/-- What has been reached is never given up. -/
theorem le_reachedBy (reached : Nat) (edits : List Edit) : reached ≤ reachedBy reached edits := by
  induction edits generalizing reached with
  | nil => exact Nat.le_refl reached
  | cons e edits ih =>
    rw [reachedBy]
    split
    · exact ih reached
    · have hstop := ih e.span.stop
      rw [Span.stop] at hstop ⊢
      omega

/-- An edit that is made has ended where the next one may start. -/
theorem stop_le_reachedBy {reached : Nat} {edits : List Edit} {e : Edit}
    (h : e ∈ choose reached edits) : e.span.stop ≤ reachedBy reached edits := by
  induction edits generalizing reached with
  | nil => cases h
  | cons f edits ih =>
    rw [choose] at h
    rw [reachedBy]
    split at h
    · next hskip =>
      rw [if_pos hskip]
      exact ih h
    · next hmade =>
      rw [if_neg hmade]
      rcases List.mem_cons.mp h with rfl | h
      · exact le_reachedBy _ edits
      · exact ih h

/-- An edit changes no choice if one that is made comes ahead of it and has not ended where it
    starts. -/
theorem chosen_insert {l l' : List Edit} {e f : Edit} (hf : f ∈ chosen (l ++ l'))
    (hahead : le e f = false) (hinside : e.span.start < f.span.stop) :
    chosen (l ++ e :: l') = chosen (l ++ l') := by
  obtain ⟨front, rest, hwithout, hwith⟩ := exists_stableSort_insert le_total le_trans e l l'
  have hsorted := pairwise_stableSort le_total le_trans (l ++ e :: l')
  rw [hwith] at hsorted
  rw [chosen, hwithout, choose_append] at hf
  -- What stands behind the edit in order is not ahead of it.
  have hfront : f ∈ choose 0 front := by
    refine (List.mem_append.mp hf).resolve_right fun hbehind => ?_
    have hle : le e f = true := List.rel_of_pairwise_cons (List.pairwise_append.mp hsorted).2.1
      ((choose_sublist _ rest).subset hbehind)
    exact absurd (hle.symm.trans hahead) (by decide)
  have hskip : e.span.start < reachedBy 0 front :=
    Nat.lt_of_lt_of_le hinside (stop_le_reachedBy hfront)
  rw [chosen, chosen, hwith, hwithout, choose_append, choose_append, choose, if_pos hskip]

/-- The edits that are made are chosen again. -/
theorem chosen_chosen (edits : List Edit) : chosen (chosen edits) = chosen edits := by
  have hsorted : (chosen edits).Pairwise (le · ·) :=
    (pairwise_stableSort le_total le_trans edits).sublist (choose_sublist 0 _)
  rw [chosen, stableSort_of_pairwise hsorted]
  exact choose_eq_self (pairwise_choose 0 _) fun e _ => Nat.zero_le e.span.start

/-! ### Edits that fail -/

/-- Edits in order that can be made behind a front part start and end between characters. -/
theorem fitsIn_of_splice? {edits : List Edit} {front rest edited : Text} (h : edits.Pairwise Clears)
    (hfront : ∀ e ∈ edits, width front ≤ e.span.start)
    (hsplice : splice? (width front) edits rest = some edited) :
    ∀ e ∈ edits, e.FitsIn (front ++ rest) := by
  induction edits generalizing front rest edited with
  | nil =>
    intro e he
    cases he
  | cons e edits ih =>
    obtain ⟨hclears, hedits⟩ := List.pairwise_cons.mp h
    rw [splice?] at hsplice
    obtain ⟨⟨kept, rest'⟩, hkept, hsplice⟩ := Option.bind_eq_some_iff.mp hsplice
    obtain ⟨⟨old, behind⟩, hold, hsplice⟩ := Option.bind_eq_some_iff.mp hsplice
    obtain ⟨more, hmore, -⟩ := Option.bind_eq_some_iff.mp hsplice
    obtain ⟨rfl, hkeptWidth⟩ := cut?_eq_some_iff.mp hkept
    obtain ⟨rfl, holdWidth⟩ := cut?_eq_some_iff.mp hold
    have hle := hfront e List.mem_cons_self
    have hstart : width (front ++ kept) = e.span.start := by
      rw [width_append]
      omega
    have hstop : width (front ++ kept ++ old) = e.span.stop := by
      rw [width_append, hstart, holdWidth, Span.stop]
    have hwhole : front ++ (kept ++ (old ++ behind)) = front ++ kept ++ old ++ behind := by simp
    rw [hwhole]
    rw [← hstop] at hmore
    intro f hf
    rcases List.mem_cons.mp hf with rfl | hf
    · exact ⟨⟨front ++ kept, old ++ behind, by simp, hstart⟩, ⟨_, behind, rfl, hstop⟩⟩
    · exact ih hedits (fun g hg => hstop ▸ hclears g hg) hmore f hf

/-- Edits in order cannot be made just if one of them starts or ends inside a character or past the
    end. -/
theorem splice?_eq_none_iff {edits : List Edit} (h : edits.Pairwise Clears) (t : Text) :
    splice? 0 edits t = none ↔ ∃ e ∈ edits, ¬e.FitsIn t := by
  have hfront : ∀ e ∈ edits, width [] ≤ e.span.start := fun e _ => Nat.zero_le e.span.start
  constructor
  · intro hnone
    by_contra hall
    have hfits : ∀ e ∈ edits, e.FitsIn ([] ++ t) := by
      intro e he
      by_contra hmisfit
      exact hall ⟨e, he, hmisfit⟩
    obtain ⟨edited, hsplice, -⟩ := splice?_eq_foldrM h hfront hfits
    exact absurd (hnone.symm.trans hsplice) (by simp)
  · rintro ⟨e, he, hmisfit⟩
    cases hsplice : splice? 0 edits t with
    | none => rfl
    | some edited => exact absurd (fitsIn_of_splice? h hfront hsplice e he) hmisfit

/-- **Edits that fail.** Any edits of a text, wherever they start and end, fail just if one of those
    that are chosen starts or ends inside a character or past the end. They do so also in the strict
    run, which copies the text stretch by stretch and looks at an end only when it copies from there.
    Those that are left out have no part in this: without them nothing changes, nor does anything if
    an edit is put in anywhere that starts before one that is made ahead of it has ended. -/
theorem applyAll?_fails_iff (t : Text) (edits : List Edit) :
    (applyAll? t edits = none ↔
      ∃ e ∈ chosen edits, ¬t.IsBoundary e.span.start ∨ ¬t.IsBoundary e.span.stop) ∧
    (Text.width t ≤ Strict.maxOffset → Strict.edit? t edits = applyAll? t edits) ∧
    applyAll? t (chosen edits) = applyAll? t edits ∧
    ∀ l l' e f, edits = l ++ l' → f ∈ chosen edits → le e f = false → e.span.start < f.span.stop →
      applyAll? t (l ++ e :: l') = applyAll? t edits := by
  refine ⟨?_, fun hfit => Strict.edit?_eq_applyAll? hfit edits, ?_, ?_⟩
  · rw [applyAll?, Option.map_eq_none_iff]
    simp only [chosen, splice?_eq_none_iff (pairwise_choose 0 _), FitsIn, not_and_or]
  · rw [applyAll?, applyAll?, chosen_chosen]
  · rintro l l' e f rfl hf hahead hinside
    rw [applyAll?, applyAll?, chosen_insert hf hahead hinside]

/-- A deletion of two spaces in front of a character of two bytes. An edit that starts within it
    makes no difference, though it ends far past the end; an insertion inside the character fails. -/
theorem applyAll?_fails_iff_inside :
    let t : Text := ['a', ' ', ' ', 'é']
    let outer : Edit := ⟨"outer", ⟨1, 2⟩, []⟩
    let inner : Edit := ⟨"inner", ⟨2, 9⟩, []⟩
    let split : Edit := ⟨"split", ⟨4, 0⟩, ['x']⟩
    applyAll? t [outer] = some (['a', 'é'], 1) ∧ ¬t.IsBoundary inner.span.stop ∧
      applyAll? t [inner, outer] = some (['a', 'é'], 1) ∧ ¬t.IsBoundary split.span.start ∧
      applyAll? t [split, outer] = none ∧ Strict.edit? t [split, outer] = none := by
  intro t outer inner split
  have hmade : applyAll? t [outer] = some (['a', 'é'], 1) := by decide
  have hinner : applyAll? t [inner, outer] = applyAll? t [outer] :=
    (applyAll?_fails_iff t [outer]).2.2.2 [] [outer] inner outer rfl (by decide) (by decide)
      (by decide)
  obtain ⟨hfails, hstrict, -⟩ := applyAll?_fails_iff t [split, outer]
  have hsplit : ¬t.IsBoundary split.span.start := by decide
  have hnone : applyAll? t [split, outer] = none := hfails.mpr ⟨split, by decide, .inl hsplit⟩
  exact ⟨hmade, by decide, hinner.trans hmade, hsplit, hnone, (hstrict (by decide)).trans hnone⟩

/-! ### Edits in another order -/

/-- Edits have the same span if each may be taken ahead of the other. -/
theorem span_eq_iff (a b : Edit) : a.span = b.span ↔ le a b = true ∧ le b a = true := by
  obtain ⟨_, ⟨start, length⟩, _⟩ := a
  obtain ⟨_, ⟨start', length'⟩, _⟩ := b
  simp only [le, Span.mk.injEq, Bool.or_eq_true, Bool.and_eq_true, decide_eq_true_eq, beq_iff_eq]
  simp only [Span.stop]
  omega

/-- **Edits in another order.** The same edits, given in another order that keeps those of one span
    in theirs, are made or fail alike, with the same text and as many edits made. -/
theorem applyAll?_of_rearranged (t : Text) {edits edits' : List Edit} (hperm : edits.Perm edits')
    (hsame : ∀ span, edits.filter (·.span = span) = edits'.filter (·.span = span)) :
    applyAll? t edits = applyAll? t edits' := by
  have hsorted : stableSort le edits = stableSort le edits' :=
    stableSort_congr le_total le_trans span_eq_iff hperm hsame
  rw [applyAll?, applyAll?, chosen, chosen, hsorted]

/-- Two insertions at one place, with a deletion in front of them that is given between them or behind
    them. -/
theorem applyAll?_of_rearranged_insertions :
    let x : Edit := ⟨"x", ⟨2, 0⟩, ['x']⟩
    let y : Edit := ⟨"y", ⟨2, 0⟩, ['y']⟩
    let gap : Edit := ⟨"gap", ⟨1, 1⟩, []⟩
    [x, y, gap].Perm [x, gap, y] ∧
      (∀ span, [x, y, gap].filter (·.span = span) = [x, gap, y].filter (·.span = span)) ∧
      applyAll? ['a', ' ', 'b'] [x, gap, y] = some (['a', 'x', 'y', 'b'], 3) := by
  intro x y gap
  have hperm : [x, y, gap].Perm [x, gap, y] := by decide
  have hsame : ∀ span, [x, y, gap].filter (·.span = span) = [x, gap, y].filter (·.span = span) := by
    intro span
    by_cases hspan : (⟨1, 1⟩ : Span) = span
    · subst hspan
      decide
    · simp [List.filter_cons, gap, hspan]
  exact ⟨hperm, hsame, (applyAll?_of_rearranged _ hperm hsame).symm.trans (by decide)⟩

/-- The order of the insertions themselves does matter. -/
example :
    applyAll? [] [⟨"x", ⟨0, 0⟩, ['x']⟩, ⟨"y", ⟨0, 0⟩, ['y']⟩] = some (['x', 'y'], 2) ∧
      applyAll? [] [⟨"y", ⟨0, 0⟩, ['y']⟩, ⟨"x", ⟨0, 0⟩, ['x']⟩] = some (['y', 'x'], 2) := by
  decide

end Edit

end CommaStyle
