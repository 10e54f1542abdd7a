import CommaStyle.Diagnostic
import CommaStyle.Proofs.Collections
import CommaStyle.Proofs.Sorting

namespace CommaStyle

/-!
# Edits that stand apart

Edits that leave something untouched between them do not get into each other's way.

* `Text.cut?_width_add` — behind a front part, a text is cut where what follows is cut: it can be cut
  behind any front part, and nowhere else (`Text.cut?_eq_some_iff`);
* `Edit.chosen_of_apart` — of edits that stand apart, any selection is made in full, each edit in
  its place, in whatever order the selection names them;
* `Edit.splice?_cons` — what one edit does to the text in front of the next.
-/

namespace Text

@[simp] theorem width_nil : width [] = 0 := rfl

@[simp] theorem width_cons (c : Char) (t : Text) : width (c :: t) = c.utf8Size + width t := rfl

/-- The bytes of two texts add up. -/
@[simp] theorem width_append (t u : Text) : width (t ++ u) = width t + width u := by
  induction t with
  | nil => simp
  | cons c t ih => simp [ih, Nat.add_assoc]

/-- Every character takes a byte or more. -/
theorem width_pos {t : Text} (h : t ≠ []) : 0 < width t := by
  obtain ⟨c, t, rfl⟩ := List.exists_cons_of_ne_nil h
  have := c.utf8Size_pos
  rw [width_cons]
  omega

/-- Behind a front part, a text is cut where what follows that part is cut. -/
theorem cut?_width_add (t u : Text) (n : Nat) :
    cut? (width t + n) (t ++ u) = (cut? n u).map fun (before, after) => (t ++ before, after) := by
  induction t with
  | nil => simp
  | cons c t ih =>
    -- Every character has a width, which is what lets the cut get on.
    obtain ⟨m, hm⟩ := Nat.exists_eq_succ_of_ne_zero (Nat.pos_iff_ne_zero.mp c.utf8Size_pos)
    have hwidth : width (c :: t) + n = m + width t + n + 1 := by
      rw [width_cons, hm]
      omega
    have hrest : m + width t + n + 1 - c.utf8Size = width t + n := by omega
    rw [hwidth, List.cons_append, cut?, if_pos (by omega), hrest, ih, Option.map_map]
    rfl

/-- A text can be cut behind any front part of it. -/
@[simp] theorem cut?_width_append (t u : Text) : cut? (width t) (t ++ u) = some (t, u) := by
  simpa [cut?] using cut?_width_add t u 0

/-- A text is cut at an offset just if that is the width of a part in front. -/
theorem cut?_eq_some_iff {n : Nat} {t front rest : Text} :
    cut? n t = some (front, rest) ↔ t = front ++ rest ∧ width front = n := by
  constructor
  · intro h
    fun_induction cut? n t generalizing front rest with
    | case1 t =>
      obtain ⟨rfl, rfl⟩ := Prod.mk.inj (Option.some.inj h)
      exact ⟨rfl, rfl⟩
    | case2 n => cases h
    | case3 n c t hle ih =>
      obtain ⟨⟨a, b⟩, hcut, hpair⟩ := Option.map_eq_some_iff.mp h
      obtain ⟨rfl, rfl⟩ := Prod.mk.inj hpair
      obtain ⟨rfl, hwidth⟩ := ih hcut
      exact ⟨rfl, by rw [width_cons, hwidth]; omega⟩
    | case4 n c t hle => cases h
  · rintro ⟨rfl, rfl⟩
    exact cut?_width_append front rest

end Text

namespace Edit

/-! ### The edits that are made -/

/-- Of two edits, one may be taken ahead of the other. -/
theorem le_total (a b : Edit) (h : le a b = false) : le b a = true := by
  simp only [le, Bool.or_eq_false_iff, Bool.and_eq_false_iff, Bool.or_eq_true, Bool.and_eq_true,
    decide_eq_false_iff_not, decide_eq_true_eq, beq_eq_false_iff_ne, beq_iff_eq] at *
  omega

/-- Taking one edit ahead of another is transitive. -/
theorem le_trans (a b c : Edit) (hab : le a b = true) (hbc : le b c = true) : le a c = true := by
  simp only [le, Bool.or_eq_true, Bool.and_eq_true, decide_eq_true_eq, beq_iff_eq] at *
  omega

/-- Whether an edit ends before another starts, with something left between them. -/
def Apart (a b : Edit) : Prop := a.span.stop < b.span.start

/-- Of two edits that stand apart, the later one may not be taken ahead. -/
theorem le_eq_false_of_apart {a b : Edit} (h : Apart a b) : le b a = false := by
  simp only [Apart, Span.stop] at h
  simp only [le, Bool.or_eq_false_iff, Bool.and_eq_false_iff, decide_eq_false_iff_not,
    beq_eq_false_iff_ne]
  omega

/-- Edits that stand apart are distinct. -/
theorem nodup_of_apart {edits : List Edit} (h : edits.Pairwise Apart) : edits.Nodup := by
  refine h.imp ?_
  rintro a b hab rfl
  simp only [Apart, Span.stop] at hab
  omega

/-- Edits in order of which each has ended where the next one starts are all made. -/
theorem choose_eq_self {reached : Nat} {edits : List Edit}
    (h : edits.Pairwise fun a b => a.span.stop ≤ b.span.start)
    (hreached : ∀ e ∈ edits, reached ≤ e.span.start) : choose reached edits = edits := by
  induction edits generalizing reached with
  | nil => rfl
  | cons e edits ih =>
    obtain ⟨he, hedits⟩ := List.pairwise_cons.mp h
    have hstart : ¬e.span.start < reached := Nat.not_lt.mpr (hreached e List.mem_cons_self)
    rw [choose, if_neg hstart, ih hedits he]

/-- All of some edits are made if they stand apart behind what has been reached. -/
theorem choose_of_apart {reached : Nat} {edits : List Edit} (h : edits.Pairwise Apart)
    (hreached : ∀ e ∈ edits, reached ≤ e.span.start) : choose reached edits = edits :=
  choose_eq_self (h.imp fun hab => Nat.le_of_lt hab) hreached

/-- **Selections are made in full.** Of edits that stand apart, any selection is made as it is,
    from front to back. -/
theorem chosen_of_apart {edits selected : List Edit} (h : edits.Pairwise Apart)
    (hselected : selected.Subperm edits) :
    chosen selected = edits.filter (· ∈ selected) := by
  have hperm := List.perm_filter_mem (nodup_of_apart h) hselected
  have hapart : (edits.filter (· ∈ selected)).Pairwise Apart := h.sublist List.filter_sublist
  rw [chosen, stableSort_eq_of_perm le_total le_trans hperm (hapart.imp le_eq_false_of_apart)]
  exact choose_of_apart hapart fun _ _ => Nat.zero_le _

/-! ### The edited text -/

/-- What an edit does behind a front part that stays: it puts its replacement in the place of the
    text that it names, and the edits behind it have only the rest to work on. -/
theorem splice?_cons {e : Edit} {reached : Nat} {front old : Text}
    (hspan : e.span = ⟨reached + Text.width front, Text.width old⟩) (edits : List Edit)
    (rest : Text) :
    splice? reached (e :: edits) (front ++ (old ++ rest)) =
      (splice? (reached + Text.width front + Text.width old) edits rest).map
        fun edited => front ++ (e.replacement ++ edited) := by
  have hfront : e.span.start - reached = Text.width front := by simp [hspan]
  have hlength : e.span.length = Text.width old := by rw [hspan]
  have hstop : e.span.stop = reached + Text.width front + Text.width old := by
    rw [hspan, Span.stop]
  rw [splice?, hfront, hlength, hstop]
  simp only [Text.cut?_width_append, Option.bind_eq_bind, Option.bind_some, Option.map_eq_bind,
    List.append_assoc]
  rfl

end Edit

end CommaStyle
