import CommaStyle.Proofs.Grammar.Progress
import Mathlib.Data.List.Pairwise
import Mathlib.Data.List.Perm.Basic

namespace CommaStyle

/-!
# The arrangement of what the rules find

The rules never go back, whatever the tokens are. What they note therefore comes in the order of the
tokens, and what they read within an expression lies within it.

* `Element.Laminar` — two expressions have no token in common, or one lies in the other;
* `Grammar.Arranged` — from one reading to another, faults and list literals were noted in order, and
  any two elements of these literals are laminar. All rules keep it;
* `Grammar.pairwise_marks`, `Grammar.pairwise_openings`, `Grammar.laminar_of_mem_lists` — hence this
  holds of a whole program.
-/

/-- Whether two stretches of tokens have no token in common, or one of them lies in the other. -/
def Element.Laminar (a b : Element) : Prop :=
  a.last < b.first ∨ b.last < a.first ∨
    (b.first ≤ a.first ∧ a.last ≤ b.last) ∨ (a.first ≤ b.first ∧ b.last ≤ a.last)

/-- Laminarity does not depend on the order. -/
theorem Element.Laminar.symm {a b : Element} (h : a.Laminar b) : b.Laminar a := by
  unfold Laminar at h ⊢
  omega

instance : Std.Symm Element.Laminar := ⟨fun _ _ => Element.Laminar.symm⟩

theorem Element.Laminar.refl (a : Element) : a.Laminar a :=
  .inr (.inr (.inl ⟨Nat.le_refl _, Nat.le_refl _⟩))

namespace Grammar

open Reading

/-! ### Elements of list literals -/

/-- The expression that an entry is, unless it is a hole. -/
def Entry.extent? : Entry → Option Element
  | .element e => some e
  | .hole _ => none

/-- The elements of a list literal. -/
def Node.extents (n : Node) : List Element := n.entries.filterMap Entry.extent?

namespace Reading

/-- The elements of the list literals found so far. -/
def extents (r : Reading) : List Element := r.lists.flatMap Node.extents

theorem extents_advance (r : Reading) : r.advance.extents = r.extents := by
  rw [extents, lists_advance, extents]

theorem extents_openList (r : Reading) : r.openList.extents = r.extents := by
  simp [extents, openList, Node.extents]

theorem extents_retag (r : Reading) (first : Nat) : (r.retag first).extents = r.extents := by
  have hmap : (r.retag first).lists.map Node.extents = r.lists.map Node.extents :=
    map_lists_retag (fun _ => rfl) r first
  rw [extents, List.flatMap_def, hmap, ← List.flatMap_def, extents]

/-- An entry joins the elements if it is one, in the place of its list literal. -/
theorem extents_addEntry {r : Reading} {slot : Nat} (hslot : slot < r.lists.length) (entry : Entry) :
    (r.addEntry slot entry).extents.Perm (r.extents ++ entry.extent?.toList) := by
  have hlists : r.lists = r.lists.take slot ++ r.lists[slot] :: r.lists.drop (slot + 1) := by
    rw [List.getElem_cons_drop, List.take_append_drop]
  have hold : (r.lists.take slot).length = slot := List.length_take_of_le (Nat.le_of_lt hslot)
  have hadd : ∀ n : Node, (n.add [entry]).extents = n.extents ++ entry.extent?.toList := by
    intro n
    cases entry <;> simp [Node.add, Node.extents, Entry.extent?]
  rw [extents, lists_addEntry entry hlists hold, extents]
  conv_rhs => rw [hlists]
  simp only [List.flatMap_append, List.flatMap_cons, hadd, List.append_assoc]
  exact (List.perm_append_comm.append_left _).append_left _

end Reading

/-! ### Between two readings -/

/-- Whether positions were added to others, in an order and between two bounds. -/
def Added (rel : Nat → Nat → Prop) (start stop : Nat) (old all : List Nat) : Prop :=
  ∃ new, all = old ++ new ∧ new.Pairwise rel ∧ ∀ p ∈ new, start ≤ p ∧ rel p stop

theorem Added.none (rel : Nat → Nat → Prop) (start stop : Nat) (old : List Nat) :
    Added rel start stop old old :=
  ⟨[], by simp, .nil, by simp⟩

theorem Added.one {rel : Nat → Nat → Prop} {start stop p : Nat} (hstart : start ≤ p)
    (hstop : rel p stop) (old : List Nat) : Added rel start stop old (old ++ [p]) :=
  ⟨[p], rfl, List.pairwise_singleton _ _, by simpa using ⟨hstart, hstop⟩⟩

/-- Positions added in two stretches, one behind the other, are added in both together. -/
theorem Added.trans {rel : Nat → Nat → Prop} {start middle stop : Nat} {old mid all : List Nat}
    (h : Added rel start middle old mid) (h' : Added rel middle stop mid all)
    (hle : start ≤ middle) (hle' : middle ≤ stop) (hrel : ∀ p q q', rel p q → q ≤ q' → rel p q') :
    Added rel start stop old all := by
  obtain ⟨new, rfl, hnew, hbounds⟩ := h
  obtain ⟨new', rfl, hnew', hbounds'⟩ := h'
  refine ⟨new ++ new', List.append_assoc _ _ _, ?_, ?_⟩
  · refine List.pairwise_append.mpr ⟨hnew, hnew', ?_⟩
    intro p hp q hq
    exact hrel p middle q (hbounds p hp).2 (hbounds' q hq).1
  · intro p hp
    rcases List.mem_append.mp hp with hp | hp
    · exact ⟨(hbounds p hp).1, hrel p middle stop (hbounds p hp).2 hle'⟩
    · exact ⟨Nat.le_trans hle (hbounds' p hp).1, (hbounds' p hp).2⟩

/-- Whether expressions were added to others, all between two bounds, and any two of them laminar. -/
def Enclosed (start stop : Nat) (old all : List Element) : Prop :=
  ∃ new, all.Perm (old ++ new) ∧ new.Pairwise Element.Laminar ∧
    ∀ e ∈ new, start ≤ e.first ∧ e.last < stop

theorem Enclosed.none (start stop : Nat) {old all : List Element} (h : all.Perm old) :
    Enclosed start stop old all :=
  ⟨[], by simpa using h, .nil, by simp⟩

/-- Expressions added in two stretches, one behind the other, are added in both together. -/
theorem Enclosed.trans {start middle stop : Nat} {old mid all : List Element}
    (h : Enclosed start middle old mid) (h' : Enclosed middle stop mid all)
    (hle : start ≤ middle) (hle' : middle ≤ stop) : Enclosed start stop old all := by
  obtain ⟨new, hperm, hnew, hbounds⟩ := h
  obtain ⟨new', hperm', hnew', hbounds'⟩ := h'
  refine ⟨new ++ new', ?_, ?_, ?_⟩
  · rw [← List.append_assoc]
    exact hperm'.trans (hperm.append_right new')
  · refine List.pairwise_append.mpr ⟨hnew, hnew', ?_⟩
    intro a ha b hb
    exact .inl (Nat.lt_of_lt_of_le (hbounds a ha).2 (hbounds' b hb).1)
  · intro e he
    rcases List.mem_append.mp he with he | he
    · exact ⟨(hbounds e he).1, Nat.lt_of_lt_of_le (hbounds e he).2 hle'⟩
    · exact ⟨Nat.le_trans hle (hbounds' e he).1, (hbounds' e he).2⟩

/-- The stretch from one bound to the other holds all expressions that were added between them. -/
theorem Enclosed.around {start stop : Nat} (hlt : start < stop) {old all : List Element}
    (h : Enclosed start stop old all) {all' : List Element}
    (hall : all'.Perm (all ++ [⟨start, stop - 1⟩])) : Enclosed start stop old all' := by
  obtain ⟨new, hperm, hnew, hbounds⟩ := h
  refine ⟨new ++ [⟨start, stop - 1⟩], ?_, ?_, ?_⟩
  · rw [← List.append_assoc]
    exact hall.trans (hperm.append_right _)
  · refine List.pairwise_append.mpr ⟨hnew, List.pairwise_singleton _ _, ?_⟩
    intro e he a ha
    obtain rfl := List.mem_singleton.mp ha
    have hbound := hbounds e he
    exact .inr (.inr (.inl ⟨hbound.1, Nat.le_sub_one_of_lt hbound.2⟩))
  · intro e he
    rcases List.mem_append.mp he with he | he
    · exact hbounds e he
    · obtain rfl := List.mem_singleton.mp he
      exact ⟨Nat.le_refl _, Nat.sub_one_lt_of_lt hlt⟩

/-- Whether what was found from one reading to another comes in the order of the tokens: the faults, the
    list literals by their brackets, and the elements of these, of which any two are laminar. -/
structure Arranged (r s : Reading) : Prop where
  onward : Onward r s
  marks : Added (· ≤ ·) r.position s.position (r.marks.map (·.position)) (s.marks.map (·.position))
  openings : Added (· < ·) r.position s.position r.openings s.openings
  extents : Enclosed r.position s.position r.extents s.extents

namespace Arranged

variable {r s u : Reading}

/-- A move that finds nothing. -/
theorem ofMove (h : Onward r s) (hmarks : s.marks = r.marks) (hopenings : s.openings = r.openings)
    (hextents : s.extents.Perm r.extents) : Arranged r s where
  onward := h
  marks := by
    rw [hmarks]
    exact .none _ _ _ _
  openings := by
    rw [hopenings]
    exact .none _ _ _ _
  extents := .none _ _ hextents

theorem refl (r : Reading) : Arranged r r := .ofMove (.refl r) rfl rfl (.refl _)

/-- What was found in two moves, one behind the other, is arranged. -/
theorem trans (h : Arranged r s) (h' : Arranged s u) : Arranged r u := by
  have hle := h.onward.position_le
  have hle' := h'.onward.position_le
  constructor
  case onward => exact h.onward.trans h'.onward
  case marks => exact h.marks.trans h'.marks hle hle' fun _ _ _ => Nat.le_trans
  case openings => exact h.openings.trans h'.openings hle hle' fun _ _ _ => Nat.lt_of_lt_of_le
  case extents => exact h.extents.trans h'.extents hle hle'

theorem advance (r : Reading) : Arranged r r.advance :=
  .ofMove (.advance r) (marks_advance r) (openings_advance r) (.of_eq (extents_advance r))

/-- A fault is reported at the token ahead, behind all others. -/
theorem report (r : Reading) (fault : Fault) : Arranged r (r.report fault) where
  onward := .of_eq rfl rfl (Nat.le_refl _)
  marks := by
    rw [Reading.report, List.map_append]
    exact .one (Nat.le_refl _) (Nat.le_refl _) _
  openings := .none _ _ _ _
  extents := .none _ _ (.refl _)

theorem retag (r : Reading) (first : Nat) : Arranged r (r.retag first) :=
  .ofMove (.retag r first) rfl (openings_retag r first) (.of_eq (extents_retag r first))

end Arranged

/-- The entries of a list literal keep what was found arranged. -/
theorem tracksEntries_arranged : TracksEntries Arranged where
  refl := .refl
  trans := .trans
  lists_le h := h.onward.lists
  advance := .advance
  report := .report
  openList {r} hat := by
    have hlt : r.position < r.openList.position := by
      show r.position < r.advance.position
      rw [(moves_advance hat).position]
      exact Nat.lt_succ_self _
    constructor
    case onward => exact onward_openList r
    case marks =>
      have hmarks : r.openList.marks = r.marks := marks_advance r
      rw [hmarks]
      exact .none _ _ _ _
    case openings =>
      rw [openings_openList]
      exact .one (Nat.le_refl _) hlt _
    case extents => exact .none _ _ (.of_eq (extents_openList r))
  hole hslot :=
    .ofMove (.addEntry _ _ _) rfl (openings_addEntry _ _ _) (by
      simpa [Entry.extent?] using extents_addEntry hslot (.hole _))
  element {r s slot} hs hlt hslot := by
    constructor
    case onward => exact hs.onward.trans (.addEntry _ _ _)
    case marks => exact hs.marks
    case openings =>
      rw [openings_addEntry]
      exact hs.openings
    -- The element is added behind all that was found in it, and holds it.
    case extents => exact hs.extents.around hlt (extents_addEntry hslot _)

/-- All rules keep what they find arranged. -/
theorem tracks_arranged : Tracks Arranged fun _ _ => True where
  refl := .refl
  trans := .trans
  position_le h := h.onward.position_le
  advance := .advance
  report := .report
  retag h := h.trans (.retag _ _)
  list := tracksEntries_arranged.list
  leave _ := trivial
  drop _ _ := trivial
  tooDeep _ := trivial

/-! ### Whole programs -/

/-- **Faults come in order.** They are reported at tokens that follow one another. -/
theorem pairwise_marks (kinds : List Kind) :
    (readModule kinds).marks.Pairwise fun a b => a.position ≤ b.position := by
  obtain ⟨new, hmarks, hnew, -⟩ := (tracks_arranged.readModule kinds).marks
  have hall : ((readModule kinds).marks.map Mark.position).Pairwise (· ≤ ·) := by
    rw [hmarks]
    exact hnew
  exact List.pairwise_map.mp hall

/-- **List literals come in order.** They are listed by their opening brackets. -/
theorem pairwise_openings (kinds : List Kind) :
    (readModule kinds).lists.Pairwise fun a b => a.opening < b.opening := by
  obtain ⟨new, hopenings, hnew, -⟩ := (tracks_arranged.readModule kinds).openings
  have hall : ((readModule kinds).lists.map Node.opening).Pairwise (· < ·) := by
    rw [← openings, hopenings]
    exact hnew
  exact List.pairwise_map.mp hall

/-- **Elements do not overlap.** Of any two elements of list literals, one lies in the other or they have
    no token in common. -/
theorem laminar_of_mem_lists {kinds : List Kind} {m n : Node} (hm : m ∈ (readModule kinds).lists)
    (hn : n ∈ (readModule kinds).lists) {a b : Element} (ha : .element a ∈ m.entries)
    (hb : .element b ∈ n.entries) : a.Laminar b := by
  have hmem : ∀ {n : Node} {e : Element}, n ∈ (readModule kinds).lists → .element e ∈ n.entries →
      e ∈ (readModule kinds).extents := by
    intro n e hn he
    exact List.mem_flatMap.mpr ⟨n, hn, List.mem_filterMap.mpr ⟨.element e, he, rfl⟩⟩
  obtain ⟨new, hextents, hnew, -⟩ := (tracks_arranged.readModule kinds).extents
  have hpairwise : (readModule kinds).extents.Pairwise Element.Laminar :=
    (hextents.pairwise_iff fun h => h.symm).mpr hnew
  exact hpairwise.forall_of_forall (fun e _ => .refl e) (hmem hm ha) (hmem hn hb)

end Grammar

end CommaStyle
