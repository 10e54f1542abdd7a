import CommaStyle.Diagnostic
import Mathlib.Data.List.Perm.Basic
import Mathlib.Data.List.Sort

namespace CommaStyle

/-!
# Sorted lists

Sorting keeps the members of a list and puts them in order.

* `stableSort_eq_insertionSort` — it is the insertion sort of the library;
* `perm_stableSort` — nothing is lost and nothing added;
* `pairwise_stableSort` — the result is in order;
* `stableSort_eq_of_perm` — a list in a strict order is what its arrangements are sorted into;
* `stableSort_append` — lists behind one another are sorted by merging what each is sorted into;
* `filter_stableSort` — members that the order does not tell apart keep their order;
* `stableSort_congr` — nothing but their order among members of one key matters to the result;
* `exists_stableSort_insert` — one member more leaves the others in their places.
-/

variable {α : Type} {le : α → α → Bool}

/-- Inserting in order is insertion as the library knows it. -/
theorem insertOrdered_eq_orderedInsert (le : α → α → Bool) (a : α) (l : List α) :
    insertOrdered le a l = l.orderedInsert (le · ·) a := by
  induction l with
  | nil => rfl
  | cons b l ih => rw [insertOrdered, List.orderedInsert_cons, ih]

/-- Sorting is insertion sort as the library knows it. -/
theorem stableSort_eq_insertionSort (le : α → α → Bool) (l : List α) :
    stableSort le l = l.insertionSort (le · ·) := by
  induction l with
  | nil => rfl
  | cons a l ih =>
    show insertOrdered le a (stableSort le l) = _
    rw [List.insertionSort_cons, insertOrdered_eq_orderedInsert, ih]

/-- Sorting loses nothing and adds nothing. -/
theorem perm_stableSort (le : α → α → Bool) (l : List α) : (stableSort le l).Perm l := by
  rw [stableSort_eq_insertionSort]
  exact List.perm_insertionSort _ l

/-- Members that may all be taken ahead of each other keep their order. -/
theorem filter_stableSort {p : α → Bool} (hp : ∀ a b, p a = true → p b = true → le a b = true)
    (l : List α) : (stableSort le l).filter p = l.filter p := by
  have hties : (l.filter p).Pairwise (le · ·) := by
    refine List.pairwise_of_forall_mem_list fun a ha b hb => ?_
    exact hp a b (List.mem_filter.mp ha).2 (List.mem_filter.mp hb).2
  -- What is in order already stays as it is, and nothing else has come in between.
  have hsub : (l.filter p).Sublist ((stableSort le l).filter p) := by
    have hsort := (List.sublist_insertionSort hties List.filter_sublist).filter p
    rwa [List.filter_filter, ← stableSort_eq_insertionSort, funext fun a => Bool.and_self (p a)]
      at hsort
  exact (hsub.eq_of_length ((perm_stableSort le l).filter p).length_eq.symm).symm

/-- What is in order is left as it is. -/
theorem stableSort_of_pairwise {l : List α} (h : l.Pairwise (le · ·)) : stableSort le l = l := by
  rw [stableSort_eq_insertionSort]
  exact h.insertionSort_eq

/-- Merging with a single member is inserting it. -/
theorem merge_singleton (le : α → α → Bool) (a : α) (l : List α) :
    [a].merge l le = insertOrdered le a l := by
  induction l with
  | nil => rw [List.merge_right, insertOrdered]
  | cons b l ih =>
    rw [List.cons_merge_cons, insertOrdered]
    split
    · rw [List.nil_merge]
    · rw [ih]

/-- What is inserted takes a place among the others, which stay as they are. -/
theorem exists_insertOrdered (le : α → α → Bool) (a : α) (l : List α) :
    ∃ front rest, l = front ++ rest ∧ insertOrdered le a l = front ++ a :: rest := by
  refine ⟨l.takeWhile fun b => ¬le a b, l.dropWhile fun b => ¬le a b,
    List.takeWhile_append_dropWhile.symm, ?_⟩
  rw [insertOrdered_eq_orderedInsert]
  exact List.orderedInsert_eq_take_drop _ a l

/-- What is inserted into a list in order takes its place whether or not a certain member is there. -/
theorem exists_insertOrdered_insert
    (htrans : ∀ a b c, le a b = true → le b c = true → le a c = true) (a b : α) {front rest : List α}
    (h : (front ++ a :: rest).Pairwise (le · ·)) :
    ∃ front' rest', insertOrdered le b (front ++ rest) = front' ++ rest' ∧
      insertOrdered le b (front ++ a :: rest) = front' ++ a :: rest' := by
  induction front with
  | nil =>
    show ∃ front' rest', insertOrdered le b rest = front' ++ rest' ∧
      insertOrdered le b (a :: rest) = front' ++ a :: rest'
    rw [insertOrdered]
    split
    · next hba =>
      refine ⟨[b], rest, ?_, rfl⟩
      cases rest with
      | nil => rfl
      | cons c rest =>
        have hac : le a c = true := List.rel_of_pairwise_cons h List.mem_cons_self
        rw [insertOrdered, if_pos (htrans b a c hba hac)]
        rfl
    · exact ⟨[], insertOrdered le b rest, rfl, rfl⟩
  | cons c front ih =>
    obtain ⟨front', rest', hwithout, hwith⟩ := ih (List.pairwise_cons.mp h).2
    rw [List.cons_append, List.cons_append, insertOrdered, insertOrdered]
    split
    · exact ⟨b :: c :: front, rest, rfl, rfl⟩
    · exact ⟨c :: front', rest', by rw [hwithout]; rfl, by rw [hwith]; rfl⟩

/-- Lists in order that arrange the same members are the same if members of one key come in the same
    order in both, where the order tells all keys apart. -/
theorem eq_of_pairwise_of_filter {κ : Type} [DecidableEq κ] {key : α → κ} {l l' : List α}
    (hkey : ∀ a b, le a b = true → le b a = true → key a = key b) (h : l.Pairwise (le · ·))
    (h' : l'.Pairwise (le · ·)) (hperm : l.Perm l')
    (hsame : ∀ k, l.filter (key · = k) = l'.filter (key · = k)) : l = l' := by
  induction l generalizing l' with
  | nil => exact hperm.nil_eq
  | cons a l ih =>
    cases l' with
    | nil => exact absurd hperm.eq_nil (List.cons_ne_nil a l)
    | cons b l' =>
      obtain ⟨ha, hl⟩ := List.pairwise_cons.mp h
      obtain ⟨hb, hl'⟩ := List.pairwise_cons.mp h'
      -- Each of the first members may be taken ahead of the other one.
      have hfirst : key a = key b := by
        rcases List.mem_cons.mp (hperm.mem_iff.mp List.mem_cons_self) with rfl | hal'
        · rfl
        · rcases List.mem_cons.mp (hperm.mem_iff.mpr List.mem_cons_self) with rfl | hbl
          · rfl
          · exact hkey a b (ha b hbl) (hb a hal')
      obtain rfl : a = b := by
        have := hsame (key a)
        simp only [List.filter_cons, hfirst, decide_true, if_true, List.cons.injEq] at this
        exact this.1
      congr 1
      refine ih hl hl' hperm.cons_inv fun k => ?_
      have := hsame k
      simp only [List.filter_cons] at this
      split at this
      · exact List.tail_eq_of_cons_eq this
      · exact this

section

variable (htotal : ∀ a b, le a b = false → le b a = true)
  (htrans : ∀ a b c, le a b = true → le b c = true → le a c = true)

include htotal htrans

/-- What is sorted is in order. -/
theorem pairwise_stableSort (l : List α) : (stableSort le l).Pairwise (le · ·) := by
  have : Std.Total fun a b => le a b = true := ⟨fun a b => by
    cases hab : le a b with
    | true => exact .inl rfl
    | false => exact .inr (htotal a b hab)⟩
  have : IsTrans α fun a b => le a b = true := ⟨htrans⟩
  rw [stableSort_eq_insertionSort]
  exact List.pairwise_insertionSort _ l

/-- Inserting into a merged list is merging after inserting into its first part. -/
theorem insertOrdered_merge (a : α) (l l' : List α) :
    insertOrdered le a (l.merge l' le) = (insertOrdered le a l).merge l' le := by
  induction l generalizing l' with
  | nil => rw [List.nil_merge, insertOrdered, merge_singleton]
  | cons b l ih =>
    induction l' with
    | nil => rw [List.merge_right, List.merge_right]
    | cons c l' ih' =>
      rw [List.cons_merge_cons]
      by_cases hbc : le b c = true
      · rw [if_pos hbc, insertOrdered, insertOrdered]
        by_cases hab : le a b = true
        · rw [if_pos hab, if_pos hab, List.cons_merge_cons, if_pos (htrans a b c hab hbc),
            List.cons_merge_cons, if_pos hbc]
        · rw [if_neg hab, if_neg hab, List.cons_merge_cons, if_pos hbc, ih]
      · have hcb : le c b = true := htotal b c (by simpa using hbc)
        rw [if_neg hbc, insertOrdered]
        by_cases hac : le a c = true
        · rw [if_pos hac, insertOrdered, if_pos (htrans a c b hac hcb), List.cons_merge_cons,
            if_pos hac, List.cons_merge_cons, if_neg hbc]
        -- The first member of the second part stays ahead, whether or not the new one comes next.
        · rw [if_neg hac, ih', insertOrdered]
          split
          · rw [List.cons_merge_cons (a := a), if_neg hac]
          · rw [List.cons_merge_cons (b := c), if_neg hbc]

/-- **Sorting is merging.** Lists behind one another are sorted by merging what each of them is sorted
    into, where the first comes ahead of what may follow it. -/
theorem stableSort_append (l l' : List α) :
    stableSort le (l ++ l') = (stableSort le l).merge (stableSort le l') le := by
  induction l with
  | nil => exact (List.nil_merge _).symm
  | cons a l ih =>
    show insertOrdered le a (stableSort le (l ++ l')) =
      (insertOrdered le a (stableSort le l)).merge (stableSort le l') le
    rw [ih, insertOrdered_merge htotal htrans]

/-- **Sorting forgets the order.** Arrangements of the same members are sorted into the same list if
    members of one key come in the same order in both. -/
theorem stableSort_congr {κ : Type} [DecidableEq κ] {key : α → κ} {l l' : List α}
    (hkey : ∀ a b, key a = key b ↔ le a b = true ∧ le b a = true) (hperm : l.Perm l')
    (hsame : ∀ k, l.filter (key · = k) = l'.filter (key · = k)) :
    stableSort le l = stableSort le l' := by
  have hties : ∀ k a b, decide (key a = k) = true → decide (key b = k) = true → le a b = true := by
    intro k a b ha hb
    exact ((hkey a b).mp ((of_decide_eq_true ha).trans (of_decide_eq_true hb).symm)).1
  refine eq_of_pairwise_of_filter (fun a b hab hba => (hkey a b).mpr ⟨hab, hba⟩)
    (pairwise_stableSort htotal htrans l) (pairwise_stableSort htotal htrans l')
    (((perm_stableSort le l).trans hperm).trans (perm_stableSort le l').symm) fun k => ?_
  rw [filter_stableSort (hties k), filter_stableSort (hties k), hsame]

/-- **Sorting one member more.** It takes a place among the others, which stay as they are. -/
theorem exists_stableSort_insert (a : α) (l l' : List α) :
    ∃ front rest, stableSort le (l ++ l') = front ++ rest ∧
      stableSort le (l ++ a :: l') = front ++ a :: rest := by
  induction l with
  | nil => exact exists_insertOrdered le a (stableSort le l')
  | cons b l ih =>
    obtain ⟨front, rest, hwithout, hwith⟩ := ih
    have hsorted := pairwise_stableSort htotal htrans (l ++ a :: l')
    rw [hwith] at hsorted
    show ∃ front rest, insertOrdered le b (stableSort le (l ++ l')) = front ++ rest ∧
      insertOrdered le b (stableSort le (l ++ a :: l')) = front ++ a :: rest
    rw [hwithout, hwith]
    exact exists_insertOrdered_insert htrans a b hsorted

/-- **Strict orders are restored.** A list in which nothing may be taken ahead of what stands in
    front of it is what any arrangement of its members is sorted into. -/
theorem stableSort_eq_of_perm {l l' : List α} (hperm : l.Perm l')
    (hstrict : l'.Pairwise fun a b => le b a = false) : stableSort le l = l' := by
  refine List.Perm.eq_of_pairwise ?_ (pairwise_stableSort htotal htrans l)
    (hstrict.imp fun h => htotal _ _ h) ((perm_stableSort le l).trans hperm)
  intro a b ha hb hab hba
  replace ha : a ∈ l' := hperm.mem_iff.mp ((perm_stableSort le l).mem_iff.mp ha)
  -- Of two members that stand apart, one may not be taken ahead of the other.
  have hor : l'.Pairwise fun a b => le a b = true → le b a = true → a = b :=
    hstrict.imp fun h _ hba => absurd hba (by simp [h])
  have hflip : l'.Pairwise fun a b => le b a = true → le a b = true → b = a :=
    hor.imp fun h hba hab => (h hab hba).symm
  exact hor.forall_of_forall_of_flip (fun _ _ _ _ => rfl) hflip ha hb hab hba

end

end CommaStyle
