import Mathlib.Data.List.DropRight
import Mathlib.Data.List.Forall2
import Mathlib.Data.List.Perm.Subperm

/-!
# Lists, options and results

Facts that hold of all lists, options, results and characters, and that several of the proofs about
texts and their outlines need. Nothing here is about commas.

* `List.mapM_eq_some_map`, `List.foldlM_eq_some_foldl` — a walk in which no step fails is a plain one;
* `List.append_cases` — where a place in a list that is made of two parts lies;
* `List.flatMap_range_succ` — what stands before and after places, listed by the gaps between them;
* `Option.eq_filter_of_iff` — what is missing under a condition is what a test leaves;
* `Except.bind_eq_ok_iff` — a step succeeds if both of its parts do.
-/

namespace List

variable {α β : Type}

/-! ### Walks in which no step fails -/

/-- A walk that never fails finds what a walk that passes over failures finds. -/
theorem mapM_eq_some_filterMap {f : α → Option β} {l : List α} (h : ∀ a ∈ l, ∃ b, f a = some b) :
    l.mapM f = some (l.filterMap f) := by
  induction l with
  | nil => rfl
  | cons a l ih =>
    obtain ⟨b, hb⟩ := h a mem_cons_self
    have hmore := ih fun c hc => h c (mem_cons_of_mem a hc)
    simp [mapM_cons, hb, hmore]

/-- A walk in which each member has its value collects the values. -/
theorem mapM_eq_some_map {f : α → Option β} {g : α → β} {l : List α}
    (h : ∀ a ∈ l, f a = some (g a)) : l.mapM f = some (l.map g) := by
  rw [mapM_eq_some_filterMap fun a ha => ⟨g a, h a ha⟩, filterMap_congr h]
  exact congrArg some (congrFun filterMap_eq_map l)

/-- A fold in which no step fails is a plain fold. -/
theorem foldlM_eq_some_foldl {f : β → α → Option β} {g : β → α → β} {l : List α}
    (h : ∀ a ∈ l, ∀ b, f b a = some (g b a)) (b : β) : l.foldlM f b = some (l.foldl g b) := by
  induction l generalizing b with
  | nil => rfl
  | cons a l ih =>
    rw [foldlM_cons, h a mem_cons_self b]
    exact ih (fun c hc => h c (mem_cons_of_mem a hc)) (g b a)

/-- If every member has a value that is related to it, the values found are related to the members one
    by one. -/
theorem forall₂_filterMap {f : α → Option β} {R : α → β → Prop} {l : List α}
    (h : ∀ a ∈ l, ∃ b, f a = some b ∧ R a b) :
    Forall₂ (fun a b => f a = some b ∧ R a b) l (l.filterMap f) := by
  induction l with
  | nil => exact .nil
  | cons a l ih =>
    obtain ⟨b, hb, hr⟩ := h a mem_cons_self
    rw [filterMap_cons, hb]
    exact .cons ⟨hb, hr⟩ (ih fun c hc => h c (mem_cons_of_mem a hc))

/-! ### Lists made of two parts -/

/-- A place in a list that is made of two parts lies within the first one, or in the second. -/
theorem append_cases {a b front l : List α} (h : a ++ b = front ++ l) :
    (∃ v, v ≠ [] ∧ front = a ++ v ∧ b = v ++ l) ∨ ∃ u, a = front ++ u ∧ l = u ++ b := by
  rcases append_eq_append_iff.mp h with ⟨v, hfront, hb⟩ | ⟨u, ha, hl⟩
  · rcases eq_or_ne v [] with rfl | hv
    · exact .inr ⟨[], by simpa using hfront.symm, by simpa using hb.symm⟩
    · exact .inl ⟨v, hv, hfront, hb⟩
  · exact .inr ⟨u, ha, hl⟩

/-- Within a single member there is no place but in front of it. -/
theorem eq_of_singleton_eq_append {a : α} {u v : List α} (hv : v ≠ []) (h : [a] = u ++ v) :
    u = [] ∧ v = [a] := by
  rcases append_eq_singleton_iff.mp h.symm with ⟨hu, hv⟩ | ⟨-, hnil⟩
  · exact ⟨hu, hv⟩
  · exact absurd hnil hv

/-- Members of a class at the end of a list are added to those in front of them. -/
theorem rtakeWhile_append_of_pos {p : α → Bool} {u : List α} (h : ∀ a ∈ u, p a = true)
    (l : List α) : (l ++ u).rtakeWhile p = l.rtakeWhile p ++ u := by
  have hreverse : ∀ a ∈ u.reverse, p a = true := fun a ha => h a (mem_reverse.mp ha)
  rw [rtakeWhile, reverse_append, takeWhile_append_of_pos hreverse, reverse_append,
    reverse_reverse, rtakeWhile]

/-- A member outside of a class ends the stretch of the class at the end of a list. -/
theorem rtakeWhile_append_of_neg {p : α → Bool} {a : α} {u : List α} (ha : a ∈ u)
    (hp : p a = false) (l : List α) : (l ++ u).rtakeWhile p = u.rtakeWhile p := by
  have hshort : (u.reverse.takeWhile p).length ≠ u.reverse.length := by
    intro hlength
    have hall := takeWhile_eq_self_iff.mp
      ((List.takeWhile_prefix p).eq_of_length hlength) a (mem_reverse.mpr ha)
    rw [hp] at hall
    exact absurd hall (by decide)
  rw [rtakeWhile, reverse_append, takeWhile_append, if_neg hshort, rtakeWhile]

/-! ### Members in their places -/

/-- A selection of different members, in the order in which they come. -/
theorem perm_filter_mem [DecidableEq α] {l selected : List α} (h : l.Nodup)
    (hselected : selected.Subperm l) : selected.Perm (l.filter (· ∈ selected)) := by
  obtain ⟨l', hperm, hsub⟩ := id hselected
  -- Neither side has a member twice, so that it is enough to compare members.
  rw [perm_ext_iff_of_nodup (hperm.nodup (h.sublist hsub)) (h.filter _)]
  intro a
  simpa using fun ha => hselected.subset ha

/-- What is found in the first place, and what is found behind it. -/
theorem filterMap_range_succ (f : Nat → Option α) (n : Nat) :
    (range (n + 1)).filterMap f = (f 0).toList ++ (range n).filterMap fun i => f (i + 1) := by
  rw [range_succ_eq_map, filterMap_cons, filterMap_map]
  cases f 0 <;> rfl

/-- Members that a test takes away leave nothing. -/
theorem flatMap_filter (p : α → Bool) (f : α → List β) (l : List α) :
    (l.filter p).flatMap f = l.flatMap fun a => if p a then f a else [] := by
  induction l with
  | nil => rfl
  | cons a l ih => cases hp : p a <;> simp [hp, ih]

/-- What stands before and after each of some places, listed by the gaps between them. -/
theorem flatMap_range_succ {before after : Nat → List α} {gap : Nat → Option α}
    (hzero : before 0 = [] ∧ gap 0 = none)
    (hsucc : ∀ i, (gap (i + 1)).toList = after i ++ before (i + 1)) (n : Nat) :
    (range (n + 1)).flatMap (fun i => before i ++ after i) =
      (range (n + 1)).filterMap gap ++ after n := by
  induction n with
  | zero => simp [hzero]
  | succ n ih =>
    rw [range_succ, flatMap_append, ih, filterMap_append]
    have hgap : [n + 1].filterMap gap = after n ++ before (n + 1) := by
      rw [← hsucc]
      cases hg : gap (n + 1) <;> simp [hg]
    simp [hgap]

/-- Changing the member behind a front part changes this member only. -/
theorem modify_append_cons (old found : List α) (a : α) (f : α → α) :
    (old ++ a :: found).modify old.length f = old ++ f a :: found := by
  induction old with
  | nil => rfl
  | cons b old ih => simp [ih]

/-- Replacing what stands under a key is seen under this key only. -/
theorem lookup_map_replace [BEq α] [LawfulBEq α] [DecidableEq α] (key : α) (new : β)
    (entries : List (α × β)) (k : α) :
    (entries.map fun e => if e.1 = key then (key, new) else e).lookup k =
      if k = key then (entries.lookup k).map fun _ => new else entries.lookup k := by
  induction entries with
  | nil => simp
  | cons e entries ih =>
    rw [map_cons, lookup_cons, lookup_cons, ih]
    by_cases hk : k = key
    · subst hk
      by_cases hkey : e.1 = k
      · simp [hkey]
      · simp [hkey, beq_false_of_ne (Ne.symm hkey)]
    · by_cases hkey : e.1 = key
      · simp [hkey, hk, beq_false_of_ne hk]
      · simp [hkey, hk]

end List

namespace Option

variable {α : Type}

/-- A test of what is there under a condition is one more condition. -/
theorem filter_ite_some {c : Prop} [Decidable c] (a : α) (p : α → Bool) :
    (if c then some a else none).filter p = if c ∧ p a then some a else none := by
  by_cases hc : c <;> simp [hc, filter_some]

/-- What is missing just where a condition holds is what a test for the condition leaves. -/
theorem eq_filter_of_iff {o o' : Option α} {p : α → Bool} {c : Prop} (hnone : c → o = none)
    (hsame : ¬c → o = o') (hp : ∀ a, o' = some a → (p a = true ↔ ¬c)) : o = o'.filter p := by
  by_cases hc : c
  · rw [hnone hc, eq_comm, filter_eq_none_iff]
    intro a ha
    rw [hp a ha]
    exact not_not_intro hc
  · ext a
    rw [hsame hc, filter_eq_some_iff]
    exact ⟨fun ha => ⟨ha, (hp a ha).mpr hc⟩, fun ha => ha.1⟩

end Option

namespace Except

variable {ε α β : Type} {x : Except ε α}

/-- One step after another has a result if the first has one and the second has one for it. -/
theorem bind_eq_ok_iff {f : α → Except ε β} {b : β} :
    (x >>= f) = .ok b ↔ ∃ a, x = .ok a ∧ f a = .ok b := by
  cases x <;> simp [bind, Except.bind]

/-- The second step goes on with the result of the first. -/
theorem bind_eq_of_eq_ok {a : α} (h : x = .ok a) (f : α → Except ε β) : (x >>= f) = f a := by
  rw [h]
  rfl

/-- Where the first step fails, there is no result. -/
theorem bind_ne_ok (h : ∀ a, x ≠ .ok a) (f : α → Except ε β) (b : β) : (x >>= f) ≠ .ok b := by
  intro hb
  obtain ⟨a, ha, -⟩ := bind_eq_ok_iff.mp hb
  exact h a ha

end Except

/-- A letter has one of the codes of the capital or of the small letters. -/
theorem Char.toNat_of_isAlpha {c : Char} (h : c.isAlpha = true) :
    (65 ≤ c.toNat ∧ c.toNat ≤ 90) ∨ (97 ≤ c.toNat ∧ c.toNat ≤ 122) := by
  have hranges : c.isAlpha = (decide (c.val ≥ 65 ∧ c.val ≤ 90) ||
      (decide (c.val ≥ 97) && decide (c.val ≤ 122))) := rfl
  simp only [hranges, Bool.or_eq_true, Bool.and_eq_true, decide_eq_true_eq, ge_iff_le,
    UInt32.le_iff_toNat_le] at h
  exact h
