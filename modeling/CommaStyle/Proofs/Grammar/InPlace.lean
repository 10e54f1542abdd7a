import CommaStyle.Proofs.Grammar.Tracking

namespace CommaStyle.Grammar

open Reading

/-!
# Entries in their places

What is known of the list literals that the rules find in any tokens, also in tokens that do not
follow the grammar.

* `Placed` — entries stand one behind the other. A comma stands where a hole says, and directly
  behind each expression but the last;
* `Grows` — a reading has got further in some tokens, and all new literals are in place;
* `inPlace_of_mem_lists` — all literals that are found are in place.

Between two entries there may be other tokens: those that were passed over because they did not fit.
Only an expression that is nested too deeply is passed over together with the commas in it.
-/

/-- Whether no comma stands between two positions. -/
def CommaFree (kinds : List Kind) (start stop : Nat) : Prop :=
  ∀ p, start ≤ p → p < stop → kinds[p]? ≠ some .comma

/-- Whether entries stand in some tokens, one behind the other and all from a position on. If
    `shallow`, there is no comma between that of a hole and the place where it could have stood. -/
inductive Placed (kinds : List Kind) (shallow : Prop) : (start : Nat) → List Entry → Prop where
  | nil (start : Nat) : Placed kinds shallow start []
  | last {start : Nat} {e : Element} (hstart : start ≤ e.first) (hle : e.first ≤ e.last)
    (hlast : e.last < kinds.length) : Placed kinds shallow start [.element e]
  | next {start : Nat} {e : Element} {entries : List Entry} (hstart : start ≤ e.first)
    (hle : e.first ≤ e.last) (hcomma : kinds[e.last + 1]? = some .comma)
    (h : Placed kinds shallow (e.last + 2) entries) :
    Placed kinds shallow start (.element e :: entries)
  | hole {start comma : Nat} {entries : List Entry} (hstart : start ≤ comma)
    (hfree : shallow → CommaFree kinds start comma) (hcomma : kinds[comma]? = some .comma)
    (h : Placed kinds shallow (comma + 1) entries) :
    Placed kinds shallow start (.hole comma :: entries)

namespace Placed

variable {kinds : List Kind} {shallow : Prop} {start start' : Nat} {entries : List Entry}

/-- Entries that stand from a position on stand from an earlier one on, if no comma is in between. -/
theorem mono (h : Placed kinds shallow start entries) (hle : start' ≤ start)
    (hfree : shallow → CommaFree kinds start' start) : Placed kinds shallow start' entries := by
  cases h with
  | nil => exact .nil start'
  | last hstart hfirst hlast => exact .last (Nat.le_trans hle hstart) hfirst hlast
  | next hstart hfirst hcomma h => exact .next (Nat.le_trans hle hstart) hfirst hcomma h
  | hole hstart hfree' hcomma h =>
    refine .hole (Nat.le_trans hle hstart) ?_ hcomma h
    intro hshallow p hp hlt
    by_cases hps : p < start
    · exact hfree hshallow p hp hps
    · exact hfree' hshallow p (Nat.not_lt.mp hps) hlt

/-- Entries stand in tokens even if less is asked of their holes. -/
theorem weaken (h : Placed kinds shallow start entries) {shallow' : Prop}
    (himp : shallow' → shallow) : Placed kinds shallow' start entries := by
  induction h with
  | nil start => exact .nil start
  | last hstart hle hlast => exact .last hstart hle hlast
  | next hstart hle hcomma _ ih => exact .next hstart hle hcomma ih
  | hole hstart hfree hcomma _ ih => exact .hole hstart (fun h => hfree (himp h)) hcomma ih

/-- No expression among the entries ends in front of its start or behind the last token. -/
theorem lt_length (h : Placed kinds shallow start entries) {e : Element}
    (he : .element e ∈ entries) : e.first ≤ e.last ∧ e.last < kinds.length := by
  induction h with
  | nil => cases he
  | last _ hle hlast =>
    obtain rfl := Entry.element.inj (List.mem_singleton.mp he)
    exact ⟨hle, hlast⟩
  | next _ hle hcomma _ ih =>
    rcases List.mem_cons.mp he with heq | he
    · obtain rfl := Entry.element.inj heq
      have hlt := (List.getElem?_eq_some_iff.mp hcomma).1
      exact ⟨hle, Nat.lt_of_succ_lt hlt⟩
    · exact ih he
  | hole _ _ _ _ ih =>
    rcases List.mem_cons.mp he with heq | he
    · cases heq
    · exact ih he

/-- No entry stands behind the last token. -/
theorem eq_nil (h : Placed kinds shallow kinds.length entries) : entries = [] := by
  cases h with
  | nil => rfl
  | last hstart hle hlast => omega
  | next hstart hle hcomma h =>
    obtain ⟨hlt, -⟩ := List.getElem?_eq_some_iff.mp hcomma
    omega
  | hole hstart hfree hcomma h =>
    obtain ⟨hlt, -⟩ := List.getElem?_eq_some_iff.mp hcomma
    omega

end Placed

/-- Whether a list literal stands in some tokens: its bracket, and its entries behind it. -/
def Node.InPlace (kinds : List Kind) (shallow : Prop) (n : Node) : Prop :=
  kinds[n.opening]? = some .leftBracket ∧ Placed kinds shallow (n.opening + 1) n.entries

/-- A list literal stands in tokens even if less is asked of its holes. -/
theorem Node.InPlace.weaken {kinds : List Kind} {shallow shallow' : Prop} {n : Node}
    (h : n.InPlace kinds shallow) (himp : shallow' → shallow) : n.InPlace kinds shallow' :=
  ⟨h.1, h.2.weaken himp⟩

namespace Reading

variable {kinds : List Kind} {r s u : Reading}

/-! ### Readings of some tokens -/

/-- Whether nothing was nested too deeply so far. -/
def IsShallow (r : Reading) : Prop := ∀ m ∈ r.marks, m.fault ≠ .nestingTooDeep

/-- Whether the tokens ahead of a reading are those of `kinds` from its position on. -/
def On (kinds : List Kind) (r : Reading) : Prop :=
  r.position ≤ kinds.length ∧ r.rest = kinds.drop r.position

/-- A token is ahead if it stands at the position. -/
theorem On.at?_iff {k : Kind} (h : r.On kinds) :
    r.at? k = true ↔ kinds[r.position]? = some k := by
  rw [at?, peek?, h.2, List.head?_drop, beq_iff_eq]

theorem position_advance_le (r : Reading) : r.advance.position ≤ r.position + 1 := by
  unfold Reading.advance
  split
  · exact Nat.le_succ _
  · exact Nat.le_refl _

/-- Passing over a token keeps a reading on its tokens. -/
theorem On.advance (h : r.On kinds) : r.advance.On kinds := by
  cases hr : r.rest with
  | nil =>
    have hstay : r.advance = r := by rw [Reading.advance, hr]
    rw [hstay]
    exact h
  | cons k w =>
    obtain ⟨hlt, -⟩ := List.getElem?_eq_some_iff.mp (h.at?_iff.mp (Reading.at?_iff.mpr ⟨w, hr⟩))
    rw [advance_of_rest hr]
    refine ⟨hlt, ?_⟩
    show w = kinds.drop (r.position + 1)
    rw [← List.tail_drop, ← h.2, hr, List.tail_cons]

/-- Passing over a token that is no comma. -/
theorem On.commaFree_advance (h : r.On kinds) (hat : r.at? .comma = false) :
    CommaFree kinds r.position r.advance.position := by
  intro p hp hlt hcomma
  have hle := r.position_advance_le
  obtain rfl : p = r.position := by omega
  rw [h.at?_iff.mpr hcomma] at hat
  cases hat

/-! ### List literals whatever their use -/

/-- The list literals found so far, all taken for patterns. -/
def shapes (r : Reading) : List Node := r.lists.map Node.asPattern

theorem shapes_advance (r : Reading) : r.advance.shapes = r.shapes := by
  rw [shapes, lists_advance, shapes]

theorem shapes_retag (r : Reading) (first : Nat) : (r.retag first).shapes = r.shapes :=
  map_lists_retag (fun _ => rfl) r first

/-- An entry is added to the list literal in its place, and to no other. -/
theorem shapes_addEntry {slot : Nat} {old found : List Node} {n : Node} (entry : Entry)
    (hshapes : r.shapes = old ++ n :: found) (hslot : old.length = slot) :
    (r.addEntry slot entry).shapes = old ++ n.add [entry] :: found := by
  obtain ⟨old', nodes, hlists, rfl, hnodes⟩ := List.map_eq_append_iff.mp hshapes
  obtain ⟨n', found', rfl, rfl, rfl⟩ := List.map_eq_cons_iff.mp hnodes
  rw [shapes, lists_addEntry entry hlists (by rw [← hslot, List.length_map])]
  simp only [List.map_append, List.map_cons]
  rfl

end Reading

/-! ### Growing readings -/

/-- Whether `u` is a reading of some tokens that has found just the list literals of `r` and others
    that are in place. -/
structure FoundSince (kinds : List Kind) (r u : Reading) : Prop where
  on : u.On kinds
  shallow : u.IsShallow → r.IsShallow
  shapes : ∃ found, u.shapes = r.shapes ++ found ∧ ∀ n ∈ found, n.InPlace kinds u.IsShallow

/-- Whether `s` got at least as far as `r`, and all literals that it has found since are in place. -/
structure Grows (kinds : List Kind) (r s : Reading) : Prop where
  position_le : r.position ≤ s.position
  found : r.On kinds → FoundSince kinds r s

/-- Whether no comma stands between two readings, unless something was nested too deeply. -/
def PassesNoComma (kinds : List Kind) (r s : Reading) : Prop :=
  r.On kinds → s.IsShallow → CommaFree kinds r.position s.position

namespace Grows

variable {kinds : List Kind} {r s u : Reading}

/-- A move that finds no literals. -/
theorem ofMove (hle : r.position ≤ s.position) (hon : r.On kinds → s.On kinds)
    (hshallow : s.IsShallow → r.IsShallow) (hshapes : s.shapes = r.shapes) : Grows kinds r s :=
  ⟨hle, fun hr => ⟨hon hr, hshallow, [], by rw [hshapes, List.append_nil], by simp⟩⟩

theorem refl (kinds : List Kind) (r : Reading) : Grows kinds r r :=
  .ofMove (Nat.le_refl _) id id rfl

theorem advance (kinds : List Kind) (r : Reading) : Grows kinds r r.advance := by
  refine .ofMove (position_le_advance r) On.advance ?_ (shapes_advance r)
  unfold Reading.advance
  split <;> exact id

theorem report (kinds : List Kind) (r : Reading) (fault : Fault) :
    Grows kinds r (r.report fault) := by
  refine .ofMove (Nat.le_refl _) id ?_ rfl
  intro h m hm
  exact h m (List.mem_append_left _ hm)

/-- What was found in two moves, one behind the other, is in place. -/
theorem trans (h : Grows kinds r s) (h' : Grows kinds s u) : Grows kinds r u := by
  refine ⟨Nat.le_trans h.position_le h'.position_le, ?_⟩
  intro hr
  obtain ⟨hs, hshallow, found, hshapes, hfound⟩ := h.found hr
  obtain ⟨hu, hshallow', found', hshapes', hfound'⟩ := h'.found hs
  refine ⟨hu, fun h => hshallow (hshallow' h), found ++ found',
    by rw [hshapes', hshapes, List.append_assoc], ?_⟩
  intro n hn
  rcases List.mem_append.mp hn with hn | hn
  · exact (hfound n hn).weaken hshallow'
  · exact hfound' n hn

theorem advanceIfStuck (h : Grows kinds r s) : Grows kinds r (s.advanceIfStuck r) := by
  unfold Reading.advanceIfStuck
  split
  · exact h.trans (Grows.advance kinds s)
  · exact h

/-- Getting unstuck passes over no comma either, if none was ahead. -/
theorem passesNoComma_advanceIfStuck (h : Grows kinds r s) (hat : r.at? .comma = false)
    (hfree : PassesNoComma kinds r s) : PassesNoComma kinds r (s.advanceIfStuck r) := by
  unfold Reading.advanceIfStuck
  split
  · next hstuck =>
    intro hr _
    have hs := (h.found hr).on
    have hat' : s.at? .comma = false := by
      rw [Bool.eq_false_iff, ne_eq, hs.at?_iff, hstuck, ← hr.at?_iff, hat]
      decide
    rw [← hstuck]
    exact hs.commaFree_advance hat'
  · exact hfree

end Grows

/-! ### Entries of list literals -/

/-- Whether a reading stands among the entries of the list literal that opens at `r`. The entries found
    so far may go on with any that stand from `start` on. -/
structure Filling (kinds : List Kind) (r : Reading) (start : Nat) (u : Reading) : Prop where
  on : u.On kinds
  shallow : u.IsShallow → r.IsShallow
  shapes : ∃ n found, u.shapes = r.shapes ++ n :: found ∧ n.opening = r.position ∧
    (∀ shallow : Prop, (shallow → u.IsShallow) → ∀ entries, Placed kinds shallow start entries →
      Placed kinds shallow (r.position + 1) (n.entries ++ entries)) ∧
    ∀ m ∈ found, m.InPlace kinds u.IsShallow

namespace Filling

variable {kinds : List Kind} {slot start : Nat} {r u v : Reading}

/-- Entries go on where the reading has moved on. -/
theorem grows (h : Filling kinds r start u) (hv : Grows kinds u v) : Filling kinds r start v := by
  obtain ⟨n, found, hshapes, hopening, hplaced, hfound⟩ := h.shapes
  obtain ⟨hon, hshallow, found', hshapes', hfound'⟩ := hv.found h.on
  refine ⟨hon, fun hv => h.shallow (hshallow hv), n, found ++ found',
    by rw [hshapes', hshapes]; simp, hopening, ?_, ?_⟩
  · intro shallow himp
    exact hplaced shallow fun h => hshallow (himp h)
  · intro m hm
    rcases List.mem_append.mp hm with hm | hm
    · exact (hfound m hm).weaken hshallow
    · exact hfound' m hm

/-- Tokens that are passed over. -/
theorem mono {start' : Nat} (h : Filling kinds r start u) (hle : start ≤ start')
    (hfree : u.IsShallow → CommaFree kinds start start') : Filling kinds r start' u := by
  obtain ⟨n, found, hshapes, hopening, hplaced, hfound⟩ := h.shapes
  refine ⟨h.on, h.shallow, n, found, hshapes, hopening, ?_, hfound⟩
  intro shallow himp entries hentries
  exact hplaced shallow himp entries (hentries.mono hle fun hshallow => hfree (himp hshallow))

/-- Another entry, behind which entries may go on from another place. -/
theorem addEntry {start' : Nat} (h : Filling kinds r start u) (hslot : r.lists.length = slot)
    {entry : Entry}
    (hentry : ∀ shallow entries, Placed kinds shallow start' entries →
      Placed kinds shallow start (entry :: entries)) :
    Filling kinds r start' (u.addEntry slot entry) := by
  obtain ⟨n, found, hshapes, hopening, hplaced, hfound⟩ := h.shapes
  have hslot' : r.shapes.length = slot := by rw [Reading.shapes, List.length_map, hslot]
  refine ⟨h.on, h.shallow, n.add [entry], found, shapes_addEntry entry hshapes hslot', hopening, ?_,
    hfound⟩
  intro shallow himp entries hentries
  have hall := hplaced shallow himp (entry :: entries) (hentry shallow entries hentries)
  rwa [List.append_cons] at hall

/-- The literal is in place, wherever its entries end. -/
theorem found (h : Filling kinds r start u) (hopening : kinds[r.position]? = some .leftBracket) :
    FoundSince kinds r u := by
  obtain ⟨n, found, hshapes, hn, hplaced, hfound⟩ := h.shapes
  refine ⟨h.on, h.shallow, n :: found, hshapes, ?_⟩
  intro m hm
  rcases List.mem_cons.mp hm with rfl | hm
  · have hall := hplaced u.IsShallow id [] (.nil start)
    rw [← hn] at hopening hall
    rw [List.append_nil] at hall
    exact ⟨hopening, hall⟩
  · exact hfound m hm

/-- Opening a list literal makes room for its entries. -/
theorem openList (hr : r.On kinds) (hat : r.at? .leftBracket = true) :
    Filling kinds r r.openList.position r.openList := by
  have hadvance := (Grows.advance kinds r).found hr
  refine ⟨hadvance.on, hadvance.shallow, ⟨.pattern, r.position, []⟩, [], List.map_append, rfl, ?_,
    by simp⟩
  intro shallow _ entries hentries
  have hposition : r.openList.position = r.position + 1 := (moves_advance hat).position
  rwa [hposition] at hentries

/-- A comma without an expression in front of it is a hole. -/
theorem hole (h : Filling kinds r u.position u) (hslot : r.lists.length = slot)
    (hat : u.at? .comma = true) :
    let v := (u.addEntry slot (.hole u.position)).advance
    Filling kinds r v.position v := by
  intro v
  have hat' : (u.addEntry slot (.hole u.position)).at? .comma = true := hat
  have hposition : v.position = u.position + 1 := (moves_advance hat').position
  rw [hposition]
  refine (h.addEntry hslot ?_).grows (Grows.advance kinds _)
  intro shallow entries hentries
  exact .hole (Nat.le_refl _) (fun _ p hp hlt => by omega) (h.on.at?_iff.mp hat) hentries

section

variable (h : Filling kinds r u.position u) (hv : Grows kinds u v)
  (hlt : u.position < v.position) (hslot : r.lists.length = slot)

include h hv hlt hslot

/-- An expression with a comma behind it. -/
theorem next (hat : v.at? .comma = true) :
    let w := (v.addEntry slot (.element (v.extentFrom u.position))).advance
    Filling kinds r w.position w := by
  intro w
  have hat' : (v.addEntry slot (.element (v.extentFrom u.position))).at? .comma = true := hat
  have hposition : w.position = v.position + 1 := (moves_advance hat').position
  have hlast : (v.extentFrom u.position).last + 1 = v.position := Nat.sub_add_cancel (by omega)
  rw [hposition]
  refine ((h.grows hv).addEntry hslot ?_).grows (Grows.advance kinds _)
  intro shallow entries hentries
  refine .next (Nat.le_refl _) (Nat.le_sub_one_of_lt hlt) ?_ ?_
  · rw [hlast]
    exact (hv.found h.on).on.at?_iff.mp hat
  · rwa [← hlast] at hentries

/-- An expression with something else behind it. Nothing is added after it. -/
theorem last :
    Filling kinds r kinds.length (v.addEntry slot (.element (v.extentFrom u.position))) := by
  refine (h.grows hv).addEntry hslot ?_
  intro shallow entries hentries
  rw [hentries.eq_nil]
  have hend := (hv.found h.on).on.1
  refine .last (Nat.le_refl _) (Nat.le_sub_one_of_lt hlt) ?_
  show v.position - 1 < kinds.length
  omega

end

/-- One step through the entries of a list literal. -/
theorem listStep {nested : Rule} (hnested : nested.Keeps (Grows kinds) (PassesNoComma kinds))
    (h : Filling kinds r u.position u) (hslot : r.lists.length = slot) :
    (Grammar.listStep nested slot u).Holds (fun v => Filling kinds r v.position v)
      fun v => ∃ start, Filling kinds r start v := by
  unfold Grammar.listStep
  split
  · exact ⟨_, h⟩
  split
  · next hat => exact h.hole hslot hat
  next hat =>
  rcases hr : nested u with ⟨_ | e, v⟩
  -- Nothing is noted of what was passed over because it did not fit.
  · have hv := hnested.outcome hr
    have hstuck := hv.related.advanceIfStuck
    have hfree := hv.related.passesNoComma_advanceIfStuck (Bool.eq_false_iff.mpr hat) (hv.missed rfl)
    exact (h.grows hstuck).mono hstuck.position_le (hfree h.on)
  · have hv := hnested.outcome hr
    obtain ⟨rfl, hlt⟩ := hv.extent e rfl
    dsimp only
    split
    · next hcomma => exact h.next hv.related hlt hslot hcomma
    · exact ⟨_, h.last hv.related hlt hslot⟩

end Filling

/-- **List literals.** All entries that are added to a literal are in place, and so are the literals
    found among them. -/
theorem grows_listLiteral {kinds : List Kind} {nested : Rule}
    (hnested : nested.Keeps (Grows kinds) (PassesNoComma kinds)) {r : Reading}
    (hat : r.at? .leftBracket = true) : Grows kinds r (listLiteral nested r).2 := by
  have hle := fun r => (hnested r).related.position_le
  refine ⟨Nat.le_of_lt (lt_position_listLiteral hle hat), ?_⟩
  intro hr
  have hentries : ∃ start, Filling kinds r start
      (r.openList.turns (Grammar.listStep nested r.lists.length)) := by
    apply turns_induct (P := fun u => Filling kinds r u.position u)
      (Q := fun u => ∃ start, Filling kinds r start u)
    · exact fun u hu => ⟨_, hu⟩
    · exact fun u hu => hu.listStep hnested rfl
    · exact .openList hr hat
  obtain ⟨start, hfilling⟩ := hentries
  refine (hfilling.grows ?_).found (hr.at?_iff.mp hat)
  unfold listLiteral Reading.expect
  dsimp only
  split
  · exact Grows.advance kinds _
  · exact Grows.report kinds _ _

/-- What is too deep is reported as such. -/
theorem not_isShallow_tooDeep (r : Reading) : ¬(tooDeep r).2.IsShallow := by
  intro h
  exact h ⟨.nestingTooDeep, r.position⟩ (List.mem_append_right _ (List.mem_singleton_self _)) rfl

/-- All rules find list literals in place, and pass over no comma where they find nothing. -/
theorem tracks_grows (kinds : List Kind) : Tracks (Grows kinds) (PassesNoComma kinds) where
  refl := Grows.refl kinds
  trans := Grows.trans
  position_le := Grows.position_le
  advance := Grows.advance kinds
  report := Grows.report kinds
  retag := fun h => h.trans (.ofMove (Nat.le_refl _) id id (shapes_retag _ _))
  list := grows_listLiteral
  leave := fun r _ _ p hp hlt => absurd hlt (Nat.not_lt.mpr hp)
  drop := by
    intro r k hat hk hr _
    have hreport : (r.report .expectedExpression).On kinds := hr
    have hcomma : r.at? .comma = false := by
      obtain ⟨w, hw⟩ := at?_iff.mp hat
      rw [at?_of_rest hw]
      cases k <;> first | rfl | cases hk
    exact hreport.commaFree_advance hcomma
  tooDeep := fun r _ hshallow => absurd hshallow (not_isShallow_tooDeep r)

/-- **Entries in their places.** All list literals that are found in any tokens are in place. -/
theorem inPlace_of_mem_lists {kinds : List Kind} {n : Node} (hn : n ∈ (readModule kinds).lists) :
    n.InPlace kinds (readModule kinds).IsShallow := by
  have hgrows := (tracks_grows kinds).readModule kinds
  obtain ⟨-, -, found, hshapes, hfound⟩ := hgrows.found ⟨Nat.zero_le _, rfl⟩
  have hmem : n.asPattern ∈ (readModule kinds).shapes := List.mem_map_of_mem hn
  rw [hshapes] at hmem
  exact hfound n.asPattern hmem

end CommaStyle.Grammar
