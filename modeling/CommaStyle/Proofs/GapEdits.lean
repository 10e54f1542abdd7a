import CommaStyle.Proofs.Collections
import CommaStyle.Proofs.Substituting
import CommaStyle.Proofs.Surroundings

namespace CommaStyle

open Text

/-!
# The edits of one pass

Each violation has one edit, and the edit is about the white space between the comma and its
neighbour and nothing else. This holds whatever list literals the commas behind holes are taken from.

* `Violation.HasGap` says what stands between the comma of a violation and its neighbour, and
  `Violation.Mends` what an edit has to do about it;
* `Document.exists_mends` — the edit of a violation does just that;
* `Document.clear_of_tokens` — no edit touches a token;
* `Document.foldrM_edits` — the edits can be made one by one, and give the text with other white space in
  the gaps of the violations;
* `Document.mending_edits` — the edits stand apart, come in order and are all made.
-/

/-! ### The gap that a violation is about -/

namespace Violation

/-- The token in front of the gap that a violation is about. -/
def left (v : Violation) : Nat :=
  match v.side with
  | .before => v.neighbour
  | .after => v.comma

/-- The token behind the gap that a violation is about. -/
def right (v : Violation) : Nat :=
  match v.side with
  | .before => v.comma
  | .after => v.neighbour

/-- Whether `gap` is what stands between the comma of a violation and its neighbour, which is the
    token next to it, where `front` is the text before the gap and `rest` the text behind it. -/
structure HasGap (v : Violation) (t front gap rest : Text) : Prop where
  text : t = front ++ (gap ++ rest)
  comma : (Document.ofText t).isComma v.comma = true
  next : v.right = v.left + 1
  left : ∃ x, (Document.ofText t).token? v.left = some x ∧ x.span.stop = width front
  right : ∃ x, (Document.ofText t).token? v.right = some x ∧ x.span.start = width (front ++ gap)

/-- Whether an edit is what a violation in a text calls for: a space in an empty gap, or the end of
    all the white space in a gap that has some and lies within a line. -/
inductive Mends (v : Violation) (t : Text) (s : Settings) : Edit → Prop where
  | insert {front rest} (hgap : v.HasGap t front [] rest) (hneeds : v.side.needsSpace s = true) :
    Mends v t s (.insert ("insert a space " ++ v.side.word) (width front) [' '])
  | delete {front gap rest} (hgap : v.HasGap t front gap rest) (hneeds : v.side.needsSpace s = false)
    (hne : gap ≠ []) (hblank : gap.AllBlank) (hline : '\n' ∉ gap) :
    Mends v t s (.delete ("remove the whitespace " ++ v.side.word) ⟨width front, width gap⟩)

/-- The edit that a violation calls for is about its gap. -/
theorem Mends.exists_hasGap {v : Violation} {t : Text} {s : Settings} {e : Edit} (h : v.Mends t s e) :
    ∃ front gap rest, v.HasGap t front gap rest ∧ e.span = ⟨width front, width gap⟩ := by
  cases h with
  | insert hgap => exact ⟨_, _, _, hgap, rfl⟩
  | delete hgap => exact ⟨_, _, _, hgap, rfl⟩

end Violation

namespace Document

variable {t : Text} {s : Settings} {exempt : List Nat} {v : Violation} {e : Edit} {i : Nat}
  {x left right : Token}

/-- The white space between two neighbours is the gap of the violation there. -/
theorem AroundGap.hasGap (hgap : (ofText t).AroundGap i left right)
    (hcomma : (ofText t).isComma v.comma = true)
    (hv : v = ⟨i + 1, .before, i⟩ ∨ v = ⟨i, .after, i + 1⟩) :
    ∃ front rest, v.HasGap t front right.blanks rest ∧
      right.gap = ⟨Text.width front, Text.width right.blanks⟩ := by
  obtain ⟨front, rest, hstands⟩ := exists_stands hgap.right_eq
  have hoffset : right.offset = Text.width (front ++ right.blanks) := hstands.offset
  have hstop : left.span.stop = Text.width front := by
    have hfollows := hgap.follows.offset
    rw [width_append] at hoffset
    omega
  have hsides : v.left = i ∧ v.right = i + 1 := by
    rcases hv with rfl | rfl <;> exact ⟨rfl, rfl⟩
  refine ⟨front, right.text ++ rest, ⟨hstands.text, hcomma, ?_, ?_, ?_⟩, ?_⟩
  · rw [hsides.1, hsides.2]
  · exact ⟨left, hsides.1 ▸ hgap.left_eq, hstop⟩
  · exact ⟨right, hsides.2 ▸ hgap.right_eq, hoffset⟩
  · rw [Token.gap, hoffset, width_append, Nat.add_sub_cancel]

/-- **Violations and their edits.** The edit of a violation is the one that it calls for. -/
theorem exists_mends (hv : v ∈ (ofText t).violations s exempt) :
    ∃ e, v.edit? (ofText t) s = some e ∧ v.Mends t s e := by
  have hmem := hv
  rw [violations_eq] at hmem
  obtain ⟨i, -, hgapv⟩ := List.mem_filterMap.mp hmem
  obtain ⟨j, left, right, rfl, hgap, hspaced, hsides⟩ := exists_of_gapViolation? hgapv
  obtain ⟨front, rest, hhas, hspan⟩ := hgap.hasGap (mem_violations.mp hv).1 hsides
  refine ⟨_, edit?_of_gapViolation? hgap hgap.follows hgapv, ?_⟩
  cases hneeds : v.side.needsSpace s with
  | true =>
    -- A space is needed, so there is none yet.
    have hblanks : right.blanks = [] := by simpa [Token.isSpaced, hneeds] using hspaced
    rw [hblanks] at hhas
    rw [hspan, hblanks, Violation.label, hneeds]
    exact .insert hhas hneeds
  | false =>
    have hblanks : right.blanks ≠ [] := by simpa [Token.isSpaced, hneeds] using hspaced
    obtain ⟨before, behind, hstands⟩ := exists_stands hgap.right_eq
    have hline : '\n' ∉ right.blanks := List.count_eq_zero.mp hgap.count_eq_zero
    have htoggled : right.blanks.toggled = [] := by simp [toggled, hblanks]
    rw [hspan, htoggled, Violation.label, hneeds]
    exact .delete hhas hneeds hblanks hstands.blanks hline

/-- No edit touches a token: it ends before the token starts, or starts behind it. -/
theorem clear_of_tokens (hv : v ∈ (ofText t).violations s exempt)
    (he : v.edit? (ofText t) s = some e) (hx : (ofText t).token? i = some x) :
    e.span.stop ≤ x.span.start ∨ x.span.stop ≤ e.span.start := by
  obtain ⟨f, hf, hmends⟩ := exists_mends hv
  obtain rfl := Option.some.inj (he.symm.trans hf)
  obtain ⟨front, gap, rest, hgap, hspan⟩ := hmends.exists_hasGap
  obtain ⟨left, hleft, hstart⟩ := hgap.left
  obtain ⟨right, hright, hstop⟩ := hgap.right
  rw [hgap.next] at hright
  have hend : e.span.stop = right.span.start := by
    rw [hspan, hstop, Text.width_append]
    rfl
  have hbegin : e.span.start = left.span.stop := by rw [hspan, hstart]
  rcases Nat.lt_or_ge v.left i with hlt | hge
  · -- The token is the one behind the gap, or comes later.
    left
    rw [hend]
    rcases Nat.eq_or_lt_of_le hlt with rfl | hlt
    · rw [Option.some.inj (hright.symm.trans hx)]
    · have hle := stop_le_start hlt hright hx
      exact Nat.le_trans (Nat.le_add_right _ _) hle
  · right
    rw [hbegin]
    rcases Nat.eq_or_lt_of_le hge with rfl | hlt
    · rw [Option.some.inj (hleft.symm.trans hx)]
    · have hle := stop_le_start hlt hx hleft
      exact Nat.le_trans hle (Nat.le_add_right _ _)

/-! ### All edits of a pass -/

/-- No edit of a pass keeps another one from being made. -/
theorem chosen_edits (t : Text) (s : Settings) (exempt : List Nat) :
    Edit.chosen ((ofText t).edits s exempt) = (ofText t).edits s exempt := by
  rw [Edit.chosen_of_apart (pairwise_apart_edits t s exempt) (List.Subperm.refl _)]
  exact List.filter_eq_self.mpr fun e he => decide_eq_true he

/-- Put together with the edits, the text has other white space in the gaps of the violations. -/
theorem splice?_edits (t : Text) (s : Settings) (exempt : List Nat) :
    Edit.splice? 0 ((ofText t).edits s exempt) t =
      some (toggledText t ((ofText t).gapEdit? s exempt)) := by
  rw [edits_eq_filterMap]
  exact (toggles_gapEdit? t s exempt).splice?_eq

/-- The edits give this text, and all of them are made. -/
theorem applyAll?_edits (t : Text) (s : Settings) (exempt : List Nat) :
    Edit.applyAll? t ((ofText t).edits s exempt) =
      some (toggledText t ((ofText t).gapEdit? s exempt), ((ofText t).edits s exempt).length) := by
  rw [Edit.applyAll?, chosen_edits, splice?_edits]
  rfl

/-- The edit of a violation starts and ends between characters. -/
theorem fitsIn_of_mem_edits (he : e ∈ (ofText t).edits s exempt) : e.FitsIn t := by
  obtain ⟨v, hv, hedit⟩ := List.mem_filterMap.mp he
  obtain ⟨f, hf, hmends⟩ := exists_mends hv
  obtain rfl := Option.some.inj (hedit.symm.trans hf)
  obtain ⟨front, gap, rest, hgap, hspan⟩ := hmends.exists_hasGap
  refine ⟨⟨front, gap ++ rest, hgap.text, by rw [hspan]⟩, ⟨front ++ gap, rest, ?_, ?_⟩⟩
  · rw [hgap.text, List.append_assoc]
  · rw [hspan, width_append]
    rfl

/-- Made one by one from the last to the first, the edits give the same text as made at once. -/
theorem foldrM_edits (t : Text) (s : Settings) (exempt : List Nat) :
    ((ofText t).edits s exempt).foldrM Edit.substitute? t =
      some (toggledText t ((ofText t).gapEdit? s exempt)) := by
  have hclears : ((ofText t).edits s exempt).Pairwise Edit.Clears :=
    (pairwise_apart_edits t s exempt).imp Nat.le_of_lt
  have hfits : ∀ e ∈ (ofText t).edits s exempt, e.FitsIn ([] ++ t) := fun e he =>
    fitsIn_of_mem_edits he
  obtain ⟨edited, hsplice, hsingle⟩ :=
    Edit.splice?_eq_foldrM hclears (fun e _ => Nat.zero_le _) hfits
  rw [List.nil_append, List.nil_append] at hsingle
  rw [hsingle, ← splice?_edits]
  exact hsplice.symm

/-- Every warning carries the edit of its violation. -/
theorem map_edit_warnings (t : Text) (s : Settings) (lists : List ListNode) :
    ((ofText t).warnings s lists).map (·.edit) =
      ((ofText t).edits s ((ofText t).exempt lists)).map some := by
  rw [warnings, warningsOf, edits, List.map_filterMap, List.map_filterMap]
  apply List.filterMap_congr
  intro v hv
  obtain ⟨comma, diagnostic, -, hdiagnostic, hedit⟩ := exists_diagnostic? hv
  obtain ⟨e, he, -⟩ := exists_mends hv
  rw [hdiagnostic, Option.map_some, hedit, he]
  rfl

/-- **The edits of one pass.** Whatever list literals are given, every violation has its edit, which
    its warning carries and which is about the gap next to its comma. The edits do not touch each other
    and come in strict order, no two have the same span, and all of them are made: the text is what they
    give one by one, from the last to the first. -/
theorem mending_edits (t : Text) (s : Settings) (lists : List ListNode) :
    let violations := (ofText t).violations s ((ofText t).exempt lists)
    ∃ edits : List Edit,
      List.Forall₂ (fun v e => v.edit? (ofText t) s = some e ∧ v.Mends t s e) violations edits ∧
      ((ofText t).warnings s lists).map (·.edit) = edits.map some ∧
      edits.Pairwise (fun e f => e.span.stop < f.span.start) ∧
      edits.Pairwise (fun e f => e.span.start < f.span.start ∨
        (e.span.start = f.span.start ∧ e.span.stop < f.span.stop)) ∧
      (edits.map (·.span)).Nodup ∧ Edit.chosen edits = edits ∧
      ∃ t', Edit.applyAll? t edits = some (t', violations.length) ∧
        edits.foldrM Edit.substitute? t = some t' := by
  intro violations
  have hforall : List.Forall₂ (fun v e => v.edit? (ofText t) s = some e ∧ v.Mends t s e) violations
      ((ofText t).edits s ((ofText t).exempt lists)) :=
    List.forall₂_filterMap fun v hv => exists_mends hv
  have hapart := pairwise_apart_edits t s ((ofText t).exempt lists)
  refine ⟨_, hforall, map_edit_warnings t s lists, hapart, ?_, ?_, chosen_edits t s _, ?_⟩
  · refine hapart.imp fun {e f} hlt => .inl ?_
    rw [Edit.Apart, Span.stop] at hlt
    omega
  · refine List.pairwise_map.mpr (hapart.imp fun {e f} hlt heq => ?_)
    rw [Edit.Apart, heq, Span.stop] at hlt
    omega
  · exact ⟨_, hforall.length_eq ▸ applyAll?_edits t s ((ofText t).exempt lists),
      foldrM_edits t s ((ofText t).exempt lists)⟩

/-- Two commas around one token, wrong on three sides, and list literals that are not in the text. -/
example :
    let t := ['a', ',', 'b', ' ', ',', 'c']
    let lists : List ListNode := [⟨.array, 7, [none, some ⟨9, 2⟩]⟩, ⟨.pattern, 0, [some ⟨4, 4⟩, none]⟩]
    ((ofText t).edits .standard ((ofText t).exempt lists)).map (·.span) = [⟨2, 0⟩, ⟨3, 1⟩, ⟨5, 0⟩] := by
  decide

end Document

end CommaStyle
