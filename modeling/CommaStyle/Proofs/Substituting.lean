import CommaStyle.Proofs.Editing

namespace CommaStyle

open Text

/-!
# Edits one at a time

Making many edits at once comes to the same as making them one by one, from back to front: an edit
does not move what stands before it.

* `Text.IsBoundary` says that an offset falls between two characters, or at an end of the text;
* `Edit.substitute?` makes a single edit of a text;
* `Edit.pairwise_choose` — no edit that is made starts before the one made ahead of it has ended;
* `Edit.exists_perm_choose` — an edit that is left out starts inside one that is made;
* `Edit.splice?_eq_foldrM` — the text that is put together is the one that single edits give;
* `Edit.applied_one_by_one` — what becomes of any edits whose ends fall between characters.
-/

/-! ### Boundaries -/

namespace Text

/-- Whether an offset falls between two characters of a text, or at one of its ends. -/
def IsBoundary (t : Text) (offset : Nat) : Prop := ∃ front rest, t = front ++ rest ∧ width front = offset

/-- An offset is a boundary if the text can be cut there. -/
theorem isBoundary_iff {t : Text} {offset : Nat} :
    t.IsBoundary offset ↔ (cut? offset t).isSome = true := by
  simp only [IsBoundary, Option.isSome_iff_exists, Prod.exists, cut?_eq_some_iff]

instance (t : Text) (offset : Nat) : Decidable (t.IsBoundary offset) :=
  decidable_of_iff _ isBoundary_iff.symm

/-- A boundary that is not inside a front part lies behind it. -/
theorem IsBoundary.exists_append {front rest : Text} {offset : Nat}
    (h : (front ++ rest).IsBoundary offset) (hle : width front ≤ offset) :
    ∃ kept rest', rest = kept ++ rest' ∧ width front + width kept = offset := by
  obtain ⟨a, b, hsplit, rfl⟩ := h
  rcases List.append_eq_append_iff.mp hsplit with ⟨kept, rfl, rfl⟩ | ⟨extra, rfl, rfl⟩
  · exact ⟨kept, b, rfl, (width_append front kept).symm⟩
  · -- The front part would be wider than the offset by what is left over.
    refine ⟨[], rest, rfl, ?_⟩
    rw [width_append] at hle ⊢
    simp only [width_nil]
    omega

end Text

namespace Edit

/-! ### Edits that are made and edits that are left out -/

/-- Whether an edit has ended where another one starts. -/
def Clears (a b : Edit) : Prop := a.span.stop ≤ b.span.start

/-- The edits that are made come in the order in which they are given. -/
theorem choose_sublist (reached : Nat) (edits : List Edit) : (choose reached edits).Sublist edits := by
  induction edits generalizing reached with
  | nil => exact .slnil
  | cons e edits ih =>
    rw [choose]
    split
    · exact (ih reached).cons e
    · exact (ih e.span.stop).cons_cons e

/-- Nothing is made in front of what has been reached. -/
theorem le_start_of_mem_choose {reached : Nat} {edits : List Edit} {e : Edit}
    (h : e ∈ choose reached edits) : reached ≤ e.span.start := by
  induction edits generalizing reached with
  | nil => cases h
  | cons f edits ih =>
    rw [choose] at h
    split at h
    · exact ih h
    · next hf =>
      rcases List.mem_cons.mp h with rfl | h
      · exact Nat.not_lt.mp hf
      · have hreached := ih h
        rw [Span.stop] at hreached
        omega

/-- Each edit that is made has ended where the next one starts. -/
theorem pairwise_choose (reached : Nat) (edits : List Edit) :
    (choose reached edits).Pairwise Clears := by
  induction edits generalizing reached with
  | nil => exact .nil
  | cons e edits ih =>
    rw [choose]
    split
    · exact ih reached
    · exact List.pairwise_cons.mpr ⟨fun f hf => le_start_of_mem_choose hf, ih e.span.stop⟩

/-- Whether an offset falls into the span of an edit. -/
def Meets (e : Edit) (offset : Nat) : Prop := e.span.start ≤ offset ∧ offset < e.span.stop

/-- Of edits in order, one that is left out starts before what has been reached, or inside one that
    is made. -/
theorem exists_perm_choose (reached : Nat) {edits : List Edit} (h : edits.Pairwise (le · ·)) :
    ∃ leftOut, (choose reached edits ++ leftOut).Perm edits ∧
      ∀ e ∈ leftOut, e.span.start < reached ∨ ∃ f ∈ choose reached edits, f.Meets e.span.start := by
  induction edits generalizing reached with
  | nil => exact ⟨[], .nil, by simp⟩
  | cons e edits ih =>
    obtain ⟨hle, hedits⟩ := List.pairwise_cons.mp h
    rw [choose]
    split
    · next hskip =>
      obtain ⟨leftOut, hperm, hleft⟩ := ih reached hedits
      refine ⟨e :: leftOut, List.perm_middle.trans (hperm.cons e), ?_⟩
      rintro f (_ | ⟨_, hf⟩)
      · exact .inl hskip
      · exact hleft f hf
    · obtain ⟨leftOut, hperm, hleft⟩ := ih e.span.stop hedits
      refine ⟨leftOut, hperm.cons e, ?_⟩
      intro f hf
      rcases hleft f hf with hinside | ⟨g, hg, hmeets⟩
      · -- It does not start before the edit just made, since the edits come in order.
        have hstart : e.span.start ≤ f.span.start := by
          have hef := hle f (hperm.mem_iff.mp (List.mem_append_right _ hf))
          simp only [le, Bool.or_eq_true, Bool.and_eq_true, decide_eq_true_eq, beq_iff_eq] at hef
          omega
        exact .inr ⟨e, List.mem_cons_self, hstart, hinside⟩
      · exact .inr ⟨g, List.mem_cons_of_mem e hg, hmeets⟩

/-! ### Single edits -/

/-- The text after one edit, which fails where the edit starts or ends inside a character or past
    the end. -/
def substitute? (e : Edit) (t : Text) : Option Text := do
  let (front, rest) ← Text.cut? e.span.start t
  let (_, rest) ← Text.cut? e.span.length rest
  return front ++ (e.replacement ++ rest)

/-- An edit puts its replacement in the place of what its span holds. -/
theorem substitute?_of_span {e : Edit} {front old : Text}
    (hspan : e.span = ⟨width front, width old⟩) (rest : Text) :
    e.substitute? (front ++ (old ++ rest)) = some (front ++ (e.replacement ++ rest)) := by
  simp [substitute?, hspan]

/-- Whether both ends of an edit fall between characters of a text. -/
def FitsIn (e : Edit) (t : Text) : Prop := t.IsBoundary e.span.start ∧ t.IsBoundary e.span.stop

instance (e : Edit) (t : Text) : Decidable (e.FitsIn t) := inferInstanceAs (Decidable (_ ∧ _))

/-- What an edit behind a front part puts something else in the place of. -/
theorem FitsIn.exists_old {e : Edit} {front rest : Text} (h : e.FitsIn (front ++ rest))
    (hfront : width front ≤ e.span.start) :
    ∃ kept old behind, rest = kept ++ (old ++ behind) ∧
      e.span = ⟨width front + width kept, width old⟩ := by
  obtain ⟨hstart, hstop⟩ := h
  obtain ⟨kept, rest', rfl, hkept⟩ := hstart.exists_append hfront
  rw [← List.append_assoc] at hstop
  have hle : width (front ++ kept) ≤ e.span.stop := by
    rw [width_append, hkept, Span.stop]
    omega
  obtain ⟨old, behind, rfl, hold⟩ := hstop.exists_append hle
  refine ⟨kept, old, behind, rfl, ?_⟩
  rw [width_append, hkept, Span.stop] at hold
  rw [hkept, Nat.add_left_cancel hold]

/-- Edits in order, behind a front part that stays, give what the same edits give one by one from
    back to front. -/
theorem splice?_eq_foldrM {edits : List Edit} {front rest : Text} (h : edits.Pairwise Clears)
    (hfront : ∀ e ∈ edits, width front ≤ e.span.start) (hfits : ∀ e ∈ edits, e.FitsIn (front ++ rest)) :
    ∃ edited, splice? (width front) edits rest = some edited ∧
      edits.foldrM substitute? (front ++ rest) = some (front ++ edited) := by
  induction edits generalizing front rest with
  | nil => exact ⟨rest, rfl, rfl⟩
  | cons e edits ih =>
    obtain ⟨hclears, hedits⟩ := List.pairwise_cons.mp h
    obtain ⟨kept, old, behind, rfl, hspan⟩ :=
      (hfits e List.mem_cons_self).exists_old (hfront e List.mem_cons_self)
    -- The later edits find in front of them all that this one keeps or takes away.
    have hwhole : front ++ (kept ++ (old ++ behind)) = front ++ (kept ++ old) ++ behind := by simp
    have hstop : e.span.stop = width (front ++ (kept ++ old)) := by
      simp only [hspan, Span.stop, width_append, Nat.add_assoc]
    have hmore : ∀ f ∈ edits, f.FitsIn (front ++ (kept ++ old) ++ behind) := by
      intro f hf
      rw [← hwhole]
      exact hfits f (List.mem_cons_of_mem e hf)
    obtain ⟨edited, hsplice, hsingle⟩ := ih hedits (fun f hf => hstop ▸ hclears f hf) hmore
    refine ⟨kept ++ (e.replacement ++ edited), ?_, ?_⟩
    · rw [splice?_cons hspan, Nat.add_assoc, ← width_append, ← width_append, hsplice]
      rfl
    · have hlast : e.substitute? (front ++ kept ++ (old ++ edited)) =
          some (front ++ kept ++ (e.replacement ++ edited)) :=
        substitute?_of_span (by rw [hspan, width_append]) edited
      rw [List.foldrM_cons, hwhole, hsingle]
      simpa using hlast

/-- **Edits one by one.** Any edits of a text, in whatever order they are given and however they
    overlap, can be made if their ends fall between characters. Those that are made come in order, and
    each has ended where the next one starts; those that are left out start inside one that is made.
    The text is what the edits that are made give one by one, from the last to the first. -/
theorem applied_one_by_one (t : Text) (edits : List Edit) (h : ∀ e ∈ edits, e.FitsIn t) :
    ∃ t' leftOut, applyAll? t edits = some (t', (chosen edits).length) ∧
      (chosen edits).Sublist (stableSort le edits) ∧ (chosen edits ++ leftOut).Perm edits ∧
      (chosen edits).Pairwise (fun f g => f.span.stop ≤ g.span.start) ∧
      (∀ e ∈ leftOut, ∃ f ∈ chosen edits,
        f.span.start ≤ e.span.start ∧ e.span.start < f.span.stop) ∧
      (chosen edits).foldrM substitute? t = some t' := by
  have hsorted := perm_stableSort le edits
  obtain ⟨leftOut, hperm, hleft⟩ := exists_perm_choose 0 (pairwise_stableSort le_total le_trans edits)
  have hfits : ∀ e ∈ chosen edits, e.FitsIn ([] ++ t) := by
    intro e he
    exact h e (hsorted.mem_iff.mp ((choose_sublist 0 _).subset he))
  obtain ⟨t', hsplice, hsingle⟩ :=
    splice?_eq_foldrM (pairwise_choose 0 (stableSort le edits)) (fun e _ => Nat.zero_le _) hfits
  refine ⟨t', leftOut, ?_, choose_sublist 0 _, hperm.trans hsorted, pairwise_choose 0 _, ?_, hsingle⟩
  · show (splice? (width []) (chosen edits) t).map _ = some (t', (chosen edits).length)
    rw [chosen, hsplice]
    rfl
  · intro e he
    rcases hleft e he with hzero | hmade
    · exact absurd hzero (Nat.not_lt_zero _)
    · exact hmade

/-- A deletion behind a character of two bytes, an edit inside it, and two insertions where it ends. -/
theorem applied_one_by_one_touching :
    let t := ['a', 'é', ' ', ' ', 'b']
    let edits : List Edit :=
      [⟨"insert", ⟨5, 0⟩, ['x']⟩, ⟨"inner", ⟨4, 1⟩, []⟩, ⟨"outer", ⟨3, 2⟩, []⟩, ⟨"again", ⟨5, 0⟩, ['y']⟩]
    (∀ e ∈ edits, e.FitsIn t) ∧ (chosen edits).map (·.label) = ["outer", "insert", "again"] ∧
      applyAll? t edits = some (['a', 'é', 'x', 'y', 'b'], 3) ∧
      (chosen edits).foldrM substitute? t = some ['a', 'é', 'x', 'y', 'b'] := by
  intro t edits
  have h : ∀ e ∈ edits, e.FitsIn t := by decide
  have hmade : applyAll? t edits = some (['a', 'é', 'x', 'y', 'b'], 3) := by decide
  obtain ⟨t', -, hall, -, -, -, -, hsingle⟩ := applied_one_by_one t edits h
  obtain rfl : ['a', 'é', 'x', 'y', 'b'] = t' :=
    congrArg Prod.fst (Option.some.inj (hmade.symm.trans hall))
  exact ⟨h, by decide, hmade, hsingle⟩

end Edit

end CommaStyle
