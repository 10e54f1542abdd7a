import CommaStyle.Grammar.Rules
import CommaStyle.Proofs.Collections
import CommaStyle.Proofs.Grammar.Literals

namespace CommaStyle.Grammar

/-!
# Passing over what is derived

What a reading becomes when the rules pass over a derivation without a fault.

* `Reading.Moves` — tokens ahead are now behind, and there is no new fault;
* `Reading.Passes` — the tokens are those of a derivation, and its list literals have been found;
* `Reading.Fills` — the same within a list literal, whose entries have been found too.

Passing over parts one by one is passing over all of them. Marking the literals of a target as
patterns (`Reading.Passes.retag`) and giving a literal its place (`Reading.Passes.ofFills`) rely on
the order in which literals are found.
-/

/-- A list literal with more entries. -/
def Node.add (n : Node) (entries : List Entry) : Node := { n with entries := n.entries ++ entries }

/-- Whether the list literals of a phrase are just those of its parts. -/
def Phrase.isPlain : Phrase → Bool
  | list | target _ => false
  | _ => true

namespace Reading

variable {r s u : Reading} {parts : List Part} {p : Phrase} {body : List Part}

/-! ### Tokens ahead -/

/-- A token is ahead if it is the first of the rest. -/
theorem at?_iff {k : Kind} : r.at? k = true ↔ ∃ w, r.rest = k :: w := by
  rw [at?, peek?, beq_iff_eq, List.head?_eq_some_iff]

theorem at?_of_rest {k k' : Kind} {w : List Kind} (h : r.rest = k :: w) :
    r.at? k' = (k == k') := by
  rw [at?, peek?, h]
  rfl

theorem peek?_of_rest {k : Kind} {w : List Kind} (h : r.rest = k :: w) : r.peek? = some k := by
  rw [peek?, h]
  rfl

theorem advance_of_rest {k : Kind} {w : List Kind} (h : r.rest = k :: w) :
    r.advance = { r with position := r.position + 1, rest := w } := by
  rw [advance, h]

/-- An operator that is ahead is passed over with the others. -/
theorem skipOperators_of_at? (h : r.at? .operator = true) :
    r.skipOperators = r.advance.skipOperators := by
  obtain ⟨w, hw⟩ := at?_iff.mp h
  rw [advance_of_rest hw]
  simp [skipOperators, hw]
  omega

/-- Where no operator is ahead, none is passed over. -/
theorem skipOperators_of_not_at? (h : r.at? .operator = false) :
    r.skipOperators = r := by
  cases r with | mk position rest lists marks =>
  cases rest with
  | nil => rfl
  | cons k w =>
    have hk : (k == .operator) = false := by simpa [at?, peek?] using h
    simp [skipOperators, hk]

/-- Whether or not there are operators in front, what remains is read behind them. -/
theorem unary_snd (nested : Rule) (r : Reading) :
    (unary nested r).2 = (postfixed nested r.skipOperators).2 := by
  rw [unary]
  cases h : r.at? .operator with
  | true => rfl
  | false => simp [skipOperators_of_not_at? h]

/-- A property with a key has a value if a colon follows. -/
theorem property_of_key {nested : Rule} {k : Kind} {w : List Kind} (hr : r.rest = k :: w)
    (hk : isKey k = true) :
    property nested r =
      (true, if r.advance.at? .colon then (nested r.advance.advance).2 else r.advance) := by
  rw [property, peek?_of_rest hr]
  cases k <;> first | rfl | exact absurd hk (by decide)

/-! ### Moving over tokens -/

/-- Whether `s` is `r` behind some of the tokens ahead, without a new fault. -/
structure Moves (r : Reading) (w : List Kind) (s : Reading) : Prop where
  rest : r.rest = w ++ s.rest
  position : s.position = r.position + w.length
  marks : s.marks = r.marks

theorem Moves.refl (r : Reading) : Moves r [] r := ⟨rfl, rfl, rfl⟩

/-- Moving over tokens, and then over others. -/
theorem Moves.trans {v w : List Kind} (h : Moves r v s) (h' : Moves s w u) : Moves r (v ++ w) u where
  rest := by rw [h.rest, h'.rest, List.append_assoc]
  position := by rw [h'.position, h.position, List.length_append, Nat.add_assoc]
  marks := h'.marks.trans h.marks

/-- What is left behind some tokens is what follows them. -/
theorem Moves.rest_eq {v w : List Kind} (h : Moves r v s) (hr : r.rest = v ++ w) : s.rest = w :=
  List.append_cancel_left (h.rest.symm.trans hr)

theorem moves_advance {k : Kind} (h : r.at? k = true) : Moves r [k] r.advance := by
  obtain ⟨w, hw⟩ := at?_iff.mp h
  rw [advance_of_rest hw]
  exact ⟨by simp [hw], rfl, rfl⟩

/-- Passing over a token leaves fewer of them. -/
theorem length_rest_advance {k : Kind} (h : r.at? k = true) :
    r.advance.rest.length < r.rest.length := by
  rw [(moves_advance h).rest]
  simp

/-- A reading that has moved on is not stuck, whether or not it then accepts a token. -/
theorem advanceIfStuck_accept (h : r.position < s.position) (k : Kind) :
    (s.accept k).advanceIfStuck r = s.accept k := by
  rw [advanceIfStuck, if_neg]
  rw [accept]
  split
  · next hat =>
    rw [(moves_advance hat).position]
    omega
  · omega

theorem lists_advance (r : Reading) : r.advance.lists = r.lists := by
  rw [advance]
  split <;> rfl

theorem marks_advance (r : Reading) : r.advance.marks = r.marks := by
  rw [advance]
  split <;> rfl

/-- The opening brackets of the list literals found so far. -/
def openings (r : Reading) : List Nat := r.lists.map (·.opening)

@[simp] theorem openings_advance (r : Reading) : r.advance.openings = r.openings := by
  rw [openings, lists_advance, openings]

@[simp] theorem openings_report (r : Reading) (fault : Fault) :
    (r.report fault).openings = r.openings := rfl

/-- A list literal is opened at the token ahead. -/
@[simp] theorem openings_openList (r : Reading) :
    r.openList.openings = r.openings ++ [r.position] := by
  simp [openings, openList]

/-- An entry opens no list literal. -/
@[simp] theorem openings_addEntry (r : Reading) (slot : Nat) (entry : Entry) :
    (r.addEntry slot entry).openings = r.openings := by
  simp only [openings, addEntry]
  apply List.ext_getElem?
  intro i
  rw [List.getElem?_map, List.getElem?_map, List.getElem?_modify]
  by_cases hi : slot = i <;> cases r.lists[i]? <;> simp [hi]

/-- Marking patterns changes nothing of a list literal but its use. -/
theorem map_lists_retag {α : Type} {f : Node → α} (hf : ∀ n, f n.asPattern = f n) (r : Reading)
    (first : Nat) : (r.retag first).lists.map f = r.lists.map f := by
  have hfront : ∀ nodes : List Node, (retagFront first nodes).map f = nodes.map f := by
    intro nodes
    induction nodes with
    | nil => rfl
    | cons n nodes ih =>
      unfold retagFront
      split
      · rw [List.map_cons, List.map_cons, ih]
        exact congrArg (· :: _) (hf n)
      · rfl
  rw [retag, List.map_reverse, hfront, List.map_reverse, List.reverse_reverse]

@[simp] theorem openings_retag (r : Reading) (first : Nat) :
    (r.retag first).openings = r.openings := map_lists_retag (fun _ => rfl) r first

/-- Whether the list literals found so far were opened behind the token ahead. -/
def Ordered (r : Reading) : Prop := ∀ n ∈ r.lists, n.opening < r.position

/-- Passing over a token leaves the list literals behind. -/
theorem Ordered.advance (h : r.Ordered) : r.advance.Ordered := by
  intro n hn
  rw [lists_advance] at hn
  have := h n hn
  rw [Reading.advance]
  split
  · exact this
  · exact Nat.lt_succ_of_lt this

/-! ### Passing over derivations -/

/-- Whether `s` is `r` behind the tokens of a derivation, with its list literals. -/
structure Passes (r : Reading) (d : Derivation parts) (s : Reading) : Prop extends
    Moves r d.kinds s where
  lists : r.Ordered → s.lists = r.lists ++ d.literals .array r.position

namespace Passes

/-- List literals in a derivation are opened behind the token ahead. -/
theorem ordered {d : Derivation parts} (h : Passes r d s) (hr : r.Ordered) : s.Ordered := by
  intro n hn
  rw [h.lists hr] at hn
  rw [h.position]
  rcases List.mem_append.mp hn with hn | hn
  · have := hr n hn
    omega
  · exact (d.opening_bounds hn).2

theorem nil (r : Reading) : Passes r .nil r := ⟨Moves.refl r, by simp⟩

/-- Passing over a token, and then over what is behind it. -/
theorem token {k : Kind} {d : Derivation parts} (hk : r.at? k = true) (h : Passes r.advance d s) :
    Passes r (.token k d) s := by
  have hmove := moves_advance hk
  refine ⟨hmove.trans h.toMoves, fun hr => ?_⟩
  rw [h.lists hr.advance, lists_advance, hmove.position]
  rfl

/-- Passing over a phrase, and then over what is behind it. -/
theorem phrase {h : Production p body} {inner : Derivation body} {d : Derivation parts}
    (h₁ : Passes r (.single h inner) s) (h₂ : Passes s d u) : Passes r (.phrase h inner d) u := by
  have hmove : Moves r inner.kinds s := by simpa using h₁.toMoves
  refine ⟨hmove.trans h₂.toMoves, fun hr => ?_⟩
  rw [h₂.lists (h₁.ordered hr), h₁.lists hr, hmove.position]
  simp

/-- A phrase that is neither a list literal nor a target has the literals of its parts. -/
theorem single {h : Production p body} {inner : Derivation body} (h₁ : Passes r inner s)
    (hp : p.isPlain = true) : Passes r (.single h inner) s := by
  refine ⟨by simpa using h₁.toMoves, fun hr => ?_⟩
  rw [h₁.lists hr]
  cases p <;> simp_all [Phrase.isPlain, Phrase.literal, Phrase.useWithin]

end Passes

/-- The extent of a phrase that was passed over is that of its tokens. -/
theorem extentFrom_eq {h : Production p body} {d : Derivation body}
    (hpass : r.Passes (.single h d) s) :
    s.extentFrom r.position = ⟨r.position, r.position + d.kinds.length - 1⟩ := by
  have hposition : s.position = r.position + d.kinds.length := by simpa using hpass.position
  rw [extentFrom, hposition]

/-! ### Targets of assignments -/

/-- Marking stops at the first literal, from the end, that was opened too early. -/
theorem retagFront_append {first : Nat} {new old : List Node} (hnew : ∀ n ∈ new, first ≤ n.opening)
    (hold : ∀ n ∈ old, n.opening < first) :
    retagFront first (new ++ old) = new.map Node.asPattern ++ old := by
  induction new with
  | nil =>
    cases old with
    | nil => rfl
    | cons n old => rw [List.nil_append, retagFront, if_neg (Nat.not_le.mpr (hold n (by simp)))]; rfl
  | cons n new ih =>
    rw [List.cons_append, retagFront, if_pos (hnew n (by simp)), ih fun m hm => hnew m (by simp [hm])]
    rfl

/-- The literals opened from a position on become patterns, and no others do. -/
theorem lists_retag {first : Nat} {old new : List Node} (hlists : r.lists = old ++ new)
    (hnew : ∀ n ∈ new, first ≤ n.opening) (hold : ∀ n ∈ old, n.opening < first) :
    (r.retag first).lists = old ++ new.map Node.asPattern := by
  rw [retag, hlists, List.reverse_append,
    retagFront_append (by simpa using hnew) (by simpa using hold)]
  simp

/-- The literals found in a target become patterns, and no others do. -/
theorem Passes.retag {b : Bool} {h : Production (.binary b) body} {inner : Derivation body}
    (h₁ : Passes r (.single h inner) s) :
    Passes r (.single (.target b) (.single h inner)) (s.retag r.position) := by
  refine ⟨⟨by simpa [Reading.retag] using h₁.rest, by simpa [Reading.retag] using h₁.position,
    h₁.marks⟩, fun hr => ?_⟩
  rw [lists_retag (h₁.lists hr) (fun n hn => ((Derivation.single h inner).opening_bounds hn).1) hr,
    Derivation.map_asPattern_literals]
  simp [Phrase.literal, Phrase.useWithin]

/-! ### Entries of list literals -/

/-- Whether `s` is `r` behind the tokens of a derivation, with its list literals, and its entries
    added to the literal in a place. -/
structure Fills (slot : Nat) (r : Reading) (d : Derivation parts) (s : Reading) : Prop extends
    Moves r d.kinds s where
  lists : r.Ordered → ∀ old n found, r.lists = old ++ n :: found → old.length = slot →
    s.lists = old ++ n.add (d.entries r.position) :: (found ++ d.literals .array r.position)

/-- An entry is added to the list literal in its place, and to no other. -/
theorem lists_addEntry {slot : Nat} {old found : List Node} {n : Node} (entry : Entry)
    (hlists : r.lists = old ++ n :: found) (hslot : old.length = slot) :
    (r.addEntry slot entry).lists = old ++ n.add [entry] :: found := by
  subst hslot
  rw [addEntry, hlists, List.modify_append_cons]
  rfl

namespace Fills

variable {slot : Nat}

/-- List literals among entries are opened behind the token ahead. -/
theorem ordered {d : Derivation parts} (h : Fills slot r d s) (hr : r.Ordered)
    {old found : List Node} {n : Node} (hlists : r.lists = old ++ n :: found)
    (hslot : old.length = slot) : s.Ordered := by
  intro m hm
  rw [h.position]
  rw [h.lists hr old n found hlists hslot] at hm
  have hn : n.opening < r.position := hr n (by simp [hlists])
  -- The literals in front of the open one, the open one itself, and those found since.
  rcases List.mem_append.mp hm with hm | hm
  · have := hr m (by simp [hlists, hm])
    omega
  rcases List.mem_cons.mp hm with rfl | hm
  · exact Nat.lt_add_right _ hn
  rcases List.mem_append.mp hm with hm | hm
  · have := hr m (by simp [hlists, hm])
    omega
  · exact (d.opening_bounds hm).2

theorem add_nil (n : Node) : n.add [] = n := by simp [Node.add]

theorem add_add (n : Node) (a b : List Entry) : (n.add a).add b = n.add (a ++ b) := by
  simp [Node.add]

theorem nil (slot : Nat) (r : Reading) : Fills slot r .nil r := by
  refine ⟨Moves.refl r, fun _ old n found hlists _ => ?_⟩
  simp [hlists, add_nil]

/-- Filling with a token, and then with what is behind it. -/
theorem token {k : Kind} {d : Derivation parts} (hk : r.at? k = true)
    (h : Fills slot r.advance d s) : Fills slot r (.token k d) s := by
  have hmove := moves_advance hk
  refine ⟨hmove.trans h.toMoves, fun hr old n found hlists hslot => ?_⟩
  rw [h.lists hr.advance old n found (by rw [lists_advance, hlists]) hslot, hmove.position]
  rfl

/-- Filling with a phrase, and then with what is behind it. -/
theorem phrase {h : Production p body} {inner : Derivation body} {d : Derivation parts}
    (h₁ : Fills slot r (.single h inner) s) (h₂ : Fills slot s d u) :
    Fills slot r (.phrase h inner d) u := by
  have hmove : Moves r inner.kinds s := by simpa using h₁.toMoves
  refine ⟨hmove.trans h₂.toMoves, fun hr old n found hlists hslot => ?_⟩
  rw [h₂.lists (h₁.ordered hr hlists hslot) old _ _ (h₁.lists hr old n found hlists hslot) hslot,
    hmove.position]
  simp [add_add]

/-- Filling with the parts of entries is filling with the entries. -/
theorem single {h : Production .entries body} {inner : Derivation body} (h₁ : Fills slot r inner s) :
    Fills slot r (.single h inner) s := by
  refine ⟨by simpa using h₁.toMoves, fun hr old n found hlists hslot => ?_⟩
  rw [h₁.lists hr old n found hlists hslot]
  simp [Phrase.entry, Phrase.literal, Phrase.useWithin]

/-- The comma behind a hole. -/
theorem hole (slot : Nat) (hk : r.at? .comma = true) :
    Fills slot r (.single .hole (.token .comma .nil))
      (r.addEntry slot (.hole r.position)).advance := by
  obtain ⟨w, hw⟩ := at?_iff.mp hk
  have hadd : (r.addEntry slot (.hole r.position)).rest = .comma :: w := hw
  refine ⟨?_, fun hr old n found hlists hslot => ?_⟩
  · rw [advance_of_rest hadd]
    exact ⟨by simp [hw], rfl, rfl⟩
  · rw [lists_advance, lists_addEntry _ hlists hslot]
    simp [Phrase.entry, Phrase.literal]

/-- An expression that is an element. -/
theorem element {b : Bool} {h : Production (.expression b) body} {inner : Derivation body}
    (h₁ : Passes r (.single h inner) s) :
    Fills slot r (.single (.element b) (.single h inner))
      (s.addEntry slot (.element ⟨r.position, r.position + inner.kinds.length - 1⟩)) := by
  refine ⟨⟨by simpa [addEntry] using h₁.rest, by simpa [addEntry] using h₁.position, h₁.marks⟩, ?_⟩
  intro hr old n found hlists hslot
  have hs : s.lists = old ++ n :: (found ++ inner.literals .array r.position) := by
    rw [h₁.lists hr, hlists]
    simp [Phrase.literal, Phrase.useWithin]
  rw [lists_addEntry _ hs hslot]
  simp [Phrase.entry, Phrase.literal, Phrase.useWithin]

end Fills

/-- **List literals.** Between its brackets a literal is given its entries; it has its place in front
    of the literals among these. -/
theorem Passes.ofFills {he : Production .entries body} {e : Derivation body}
    (hopen : r.at? .leftBracket = true)
    (h : Fills r.lists.length r.openList (.single he e) s) (hclose : s.at? .rightBracket = true) :
    Passes r (.single .list (.token .leftBracket (.phrase he e (.token .rightBracket .nil))))
      s.advance := by
  obtain ⟨w, hw⟩ := at?_iff.mp hopen
  have hmove := moves_advance hopen
  have hopened : Moves r [.leftBracket] r.openList := ⟨hmove.rest, hmove.position, hmove.marks⟩
  refine ⟨by simpa using (hopened.trans h.toMoves).trans (moves_advance hclose), fun hr => ?_⟩
  -- The literal is opened in front of its entries, so that the order is kept.
  have hordered : r.openList.Ordered := by
    intro n hn
    rw [hopened.position]
    rcases List.mem_append.mp hn with hn | hn
    · exact Nat.lt_succ_of_lt (hr n hn)
    · rw [List.mem_singleton.mp hn]
      exact Nat.lt_succ_self _
  rw [lists_advance, h.lists hordered r.lists ⟨.array, r.position, []⟩ [] rfl rfl, hopened.position]
  simp [Node.add, Phrase.entry, Phrase.literal, Phrase.useWithin]

end Reading

end CommaStyle.Grammar
