import CommaStyle.Proofs.Grammar.Completeness.Literals

namespace CommaStyle.Grammar

open Reading Grammar.Derivation

/-!
# Cutting off what is nested too deeply

A derivation may nest expressions in one another more deeply than the rules follow. What lies too
deep is cut off: an expression for which no level is left is passed over as a whole.

* `Derivation.openings` are the list literals that are not cut off, by `openings_eq` those that have
  few enough expressions around them;
* `Derivation.faults` are the faults that are met: one for each expression that is cut off, and one
  for each comma that then has no argument or spread property in front of it. Where
  `Derivation.ItemsFit` holds, there are no such commas;
* `Derivation.IndicesFit` says that no index that is cut off holds a comma. The rules lose their way
  in one that does;
* `skipNested_of_derivation` — an expression that is cut off is passed over to its end, and no
  further;
* `Reading.Skims` — what a reading becomes when the rules pass over a derivation, with the literals
  that are not cut off and the faults.
-/

/-! ### What is cut off -/

namespace Phrase

/-- The levels that are left inside of a phrase, if so many are left around it. An expression takes a
    level, and is cut off if there is none. -/
def levelsWithin : Phrase → (levels : Nat) → Option Nat
  | expression _, 0 => none
  | expression _, levels + 1 => some levels
  | _, levels => some levels

/-- Whether a phrase, made of some parts, is an expression that stands by itself or is spread. -/
def isItem (body : List Part) : Phrase → Bool
  | expression _ => true
  | property => body == [.phrase (.expression true)]
  | _ => false

end Phrase

namespace Derivation

/-- The list literals in some parts that start at a position, by their opening brackets, where no more
    than `levels` expressions may be nested in one another. Those in other expressions are cut off. -/
def openings {parts : List Part} (levels start : Nat) : Derivation parts → List Nat
  | nil => []
  | token _ rest => rest.openings levels (start + 1)
  | @phrase p _ _ _ inner rest =>
    (if p = .list then [start] else []) ++
      ((match p.levelsWithin levels with
        | none => []
        | some inside => inner.openings inside start) ++
      rest.openings levels (start + inner.kinds.length))

/-- The faults in some parts that start at a position, where no more than `levels` expressions may be
    nested in one another: each expression that is cut off, and each comma directly behind one that
    is an argument or a spread property. -/
def faults {parts : List Part} (levels start : Nat) : Derivation parts → List Mark
  | nil => []
  | token _ rest => rest.faults levels (start + 1)
  | @phrase p body parts _ inner rest =>
    (match p.levelsWithin levels with
      | none => [⟨.nestingTooDeep, start⟩]
      | some inside => inner.faults inside start) ++
    ((if levels = 0 ∧ p.isItem body = true ∧ parts.head? = some (.token .comma) then
        [⟨.unexpectedComma, start + inner.kinds.length⟩]
      else []) ++
      rest.faults levels (start + inner.kinds.length))

/-- The list literals in some parts that start at a position, by their opening brackets, each with the
    number of expressions around it. So many as `around` says are around all of the parts. -/
def brackets {parts : List Part} (around start : Nat) : Derivation parts → List (Nat × Nat)
  | nil => []
  | token _ rest => rest.brackets around (start + 1)
  | @phrase p _ _ _ inner rest =>
    (if p = .list then [(start, around)] else []) ++
      (inner.brackets (around + p.nesting) start ++
        rest.brackets around (start + inner.kinds.length))

/-- Whether no comma stands directly behind an argument or a spread property that is cut off, where no
    more than `levels` expressions may be nested in one another. -/
def ItemsFit {parts : List Part} (levels : Nat) : Derivation parts → Prop
  | nil => True
  | token _ rest => rest.ItemsFit levels
  | @phrase p body parts _ inner rest =>
    (levels = 0 → p.isItem body = true → parts.head? ≠ some (.token .comma)) ∧
      (∀ inside ∈ p.levelsWithin levels, inner.ItemsFit inside) ∧ rest.ItemsFit levels

/-- Whether no sequence holds a comma that has its expressions cut off, where no more than `levels`
    expressions may be nested in one another. -/
def IndicesFit {parts : List Part} (levels : Nat) : Derivation parts → Prop
  | nil => True
  | token _ rest => rest.IndicesFit levels
  | @phrase p _ _ _ inner rest =>
    (p = .more → levels = 0 → inner.kinds = []) ∧
      (∀ inside ∈ p.levelsWithin levels, inner.IndicesFit inside) ∧ rest.IndicesFit levels

variable {parts : List Part}

/-- No list literal has fewer expressions around it than all of the parts have. -/
theorem le_of_mem_brackets (d : Derivation parts) {around start : Nat} {b : Nat × Nat}
    (hb : b ∈ d.brackets around start) : around ≤ b.2 := by
  induction d generalizing around start with
  | nil => cases hb
  | token k rest ih => exact ih hb
  | @phrase p _ _ h inner rest ihi ihr =>
    simp only [brackets, List.mem_append] at hb
    rcases hb with hb | hb | hb
    · split at hb
      · exact Nat.le_of_eq (congrArg Prod.snd (List.mem_singleton.mp hb)).symm
      · cases hb
    · exact Nat.le_trans (Nat.le_add_right _ _) (ihi hb)
    · exact ihr hb

/-- The list literals that are not cut off are those with few enough expressions around them. -/
theorem openings_eq (d : Derivation parts) (levels around start : Nat) :
    d.openings levels start =
      ((d.brackets around start).filter (·.2 ≤ around + levels)).map (·.1) := by
  induction d generalizing levels around start with
  | nil => rfl
  | token k rest ih => exact ih levels around (start + 1)
  | @phrase p _ _ h inner rest ihi ihr =>
    have hinner : (match p.levelsWithin levels with
        | none => []
        | some inside => inner.openings inside start) =
        ((inner.brackets (around + p.nesting) start).filter (·.2 ≤ around + levels)).map (·.1) := by
      cases p with
      | expression b =>
        cases levels with
        | zero =>
          -- All literals in an expression that is cut off have one expression more around them.
          have hnone : (inner.brackets (around + 1) start).filter (·.2 ≤ around + 0) = [] := by
            rw [List.filter_eq_nil_iff]
            intro b hb
            have := inner.le_of_mem_brackets hb
            simp only [decide_eq_true_eq]
            omega
          exact (congrArg (List.map (·.1)) hnone).symm
        | succ levels =>
          have hlevels : around + (levels + 1) = around + 1 + levels := by omega
          rw [hlevels]
          exact ihi levels (around + 1) start
      | _ => exact ihi levels around start
    have hself : (if p = .list then [start] else []) =
        ((if p = .list then [(start, around)] else []).filter (·.2 ≤ around + levels)).map (·.1) := by
      split <;> simp
    rw [openings, brackets, hinner, hself, ihr levels around]
    simp only [List.filter_append, List.map_append]

/-- There are no other faults than these two. -/
theorem fault_of_mem_faults (d : Derivation parts) {levels start : Nat} {m : Mark}
    (hm : m ∈ d.faults levels start) :
    m.fault = .nestingTooDeep ∨ m.fault = .unexpectedComma ∧ ¬d.ItemsFit levels := by
  induction d generalizing levels start with
  | nil => cases hm
  | token k rest ih => exact ih hm
  | @phrase p body parts h inner rest ihi ihr =>
    simp only [faults, List.mem_append] at hm
    rcases hm with hm | hm | hm
    · cases hlevels : p.levelsWithin levels with
      | none =>
        rw [hlevels] at hm
        exact .inl (by rw [List.mem_singleton.mp hm])
      | some inside =>
        rw [hlevels] at hm
        refine (ihi hm).imp id fun ⟨hfault, hfits⟩ => ⟨hfault, fun hall => hfits ?_⟩
        exact hall.2.1 inside hlevels
    · split at hm
      · next hcomma =>
        refine .inr ⟨by rw [List.mem_singleton.mp hm], fun hall => ?_⟩
        exact hall.1 hcomma.1 hcomma.2.1 hcomma.2.2
      · cases hm
    · exact (ihr hm).imp id fun ⟨hfault, hfits⟩ => ⟨hfault, fun hall => hfits hall.2.2⟩

end Derivation

/-! ### Passing over an expression -/

/-- The number of brackets that are open behind a token that is passed over, where `opened` are open
    in front of it; none if the token is left. -/
def openPast? (opened : Nat) : Kind → Option Nat
  | .leftParen | .leftBracket | .leftBrace => some (opened + 1)
  | .rightParen | .rightBracket | .rightBrace => if opened = 0 then none else some (opened - 1)
  | .comma | .semicolon => if opened = 0 then none else some opened
  | _ => some opened

/-- A token that is passed over counts, with what is passed over behind it. -/
theorem nestedLength_cons (opened : Nat) (k : Kind) (w : List Kind) :
    nestedLength opened (k :: w) =
      ((openPast? opened k).map (nestedLength · w + 1)).getD 0 := by
  cases k <;> cases opened <;> rfl

/-- Whether no comma and no semicolon stands in a phrase outside of brackets. -/
def Phrase.isSealed : Phrase → Bool
  | program _ | sequence | more | arguments | entries | hole | properties => false
  | _ => true

/-- The same for the parts of a phrase, where a phrase leaves as many open as it finds. Outside of
    brackets it must not hold a comma or a semicolon. -/
def openPastParts? : (opened : Nat) → List Part → Option Nat
  | opened, [] => some opened
  | opened, .phrase p :: parts =>
    if opened = 0 ∧ p.isSealed = false then none else openPastParts? opened parts
  | opened, .token k :: parts => (openPast? opened k).bind (openPastParts? · parts)

/-- A production leaves as many brackets open as it finds. -/
theorem Production.openPastParts? {p : Phrase} {body : List Part} (h : Production p body)
    {opened : Nat} (hopened : opened = 0 → p.isSealed = true) :
    openPastParts? opened body = some opened := by
  cases opened <;> cases h
  case zero.atom k h | succ.atom k h =>
    cases k <;> simp_all [isAtom, Grammar.openPastParts?, openPast?]
  case zero.key k h | succ.key k h | zero.pair k h b | succ.pair k h b =>
    cases k <;> simp_all [isKey, Grammar.openPastParts?, openPast?, Phrase.isSealed]
  all_goals first | rfl | exact absurd (hopened rfl) (by simp [Phrase.isSealed])

/-- **Tokens of a phrase are passed over.** As many are counted as it has, and then those behind
    it. -/
theorem nestedLength_kinds {parts : List Part} (d : Derivation parts) {opened opened' : Nat}
    (h : openPastParts? opened parts = some opened') (w : List Kind) :
    nestedLength opened (d.kinds ++ w) = d.kinds.length + nestedLength opened' w := by
  induction d generalizing opened opened' w with
  | nil =>
    obtain rfl := Option.some.inj h
    simp
  | token k rest ih =>
    obtain ⟨next, hnext, h⟩ := Option.bind_eq_some_iff.mp h
    simp only [kinds, List.cons_append, nestedLength_cons, hnext, ih h, Option.map_some,
      Option.getD_some, List.length_cons]
    omega
  | @phrase p _ _ hp inner rest ihi ihr =>
    rw [openPastParts?] at h
    split at h
    · cases h
    · next hsealed =>
      have hinner : openPastParts? opened _ = some opened :=
        hp.openPastParts? fun hzero => by simpa [hzero] using hsealed
      rw [kinds, List.append_assoc, ihi hinner, ihr h, List.length_append, Nat.add_assoc]

/-- **An expression is passed over to its end.** No bracket that closes it, no comma and no semicolon
    around it is passed over with it. -/
theorem skipNested_of_derivation {b : Bool} {body : List Part} (h : Production (.expression b) body)
    (d : Derivation body) {r : Reading} {rest : List Kind} (hr : r.rest = d.kinds ++ rest)
    (hrest : Ahead endsExpression rest) :
    r.skipNested = { r with position := r.position + d.kinds.length, rest := rest } := by
  have hend : nestedLength 0 rest = 0 := by
    cases rest with
    | nil => rfl
    | cons k w =>
      have hk : endsExpression k = true := ahead_cons.mp hrest
      cases k <;> first | rfl | exact absurd hk (by decide)
  have hlength : nestedLength 0 r.rest = d.kinds.length := by
    rw [hr, nestedLength_kinds d (h.openPastParts? fun _ => rfl), hend, Nat.add_zero]
  rw [skipNested, hlength, hr, List.drop_left]

/-! ### Readings -/

namespace Reading

/-- Whether `s` is `r` behind the tokens of a derivation, with the list literals that are not cut off
    and the faults, where no more than `levels` expressions may be nested in one another. -/
structure Skims (levels : Nat) (r : Reading) {parts : List Part} (d : Derivation parts)
    (s : Reading) : Prop where
  rest : r.rest = d.kinds ++ s.rest
  position : s.position = r.position + d.kinds.length
  openings : s.openings = r.openings ++ d.openings levels r.position
  marks : s.marks = r.marks ++ d.faults levels r.position

namespace Skims

variable {levels : Nat} {r s u : Reading} {parts body : List Part} {p : Phrase}

/-- What is left behind a derivation is what follows it. -/
theorem rest_eq {d : Derivation parts} (h : Skims levels r d s) {w : List Kind}
    (hr : r.rest = d.kinds ++ w) : s.rest = w :=
  List.append_cancel_left (h.rest.symm.trans hr)

theorem nil (levels : Nat) (r : Reading) : Skims levels r .nil r := by
  constructor <;> simp [Derivation.openings, faults]

/-- A token that is ahead is passed over, and the other parts behind it. -/
theorem token {k : Kind} {d : Derivation parts} (hk : r.at? k = true)
    (h : Skims levels r.advance d s) : Skims levels r (.token k d) s := by
  have hmove := moves_advance hk
  obtain ⟨hrest, hposition, hopenings, hmarks⟩ := h
  rw [hmove.position, List.length_singleton] at hposition hopenings hmarks
  refine ⟨?_, ?_, ?_, ?_⟩
  · rw [hmove.rest, hrest]
    rfl
  · rw [hposition, kinds, List.length_cons]
    omega
  · rw [hopenings, openings_advance]
    rfl
  · rw [hmarks, hmove.marks]
    rfl

/-- A phrase that has no comma behind it which would be lost. -/
theorem phrase {h : Production p body} {inner : Derivation body} {d : Derivation parts}
    (h₁ : Skims levels r (.single h inner) s) (h₂ : Skims levels s d u)
    (hcomma : levels = 0 → p.isItem body = true → parts.head? ≠ some (.token .comma)) :
    Skims levels r (.phrase h inner d) u := by
  obtain ⟨hrest, hposition, hopenings, hmarks⟩ := h₁
  simp only [kinds, List.append_nil] at hrest hposition
  have hno : ¬(levels = 0 ∧ p.isItem body = true ∧ parts.head? = some (.token .comma)) :=
    fun h => hcomma h.1 h.2.1 h.2.2
  refine ⟨?_, ?_, ?_, ?_⟩
  · rw [hrest, h₂.rest, kinds, List.append_assoc]
  · rw [h₂.position, hposition, kinds, List.length_append, Nat.add_assoc]
  · rw [h₂.openings, hopenings, hposition]
    simp [Derivation.openings]
  · rw [h₂.marks, hmarks, hposition]
    simp [faults, hno]

/-- An item that is cut off, and the comma behind it, which has nothing in front of it then. -/
theorem phraseCut {h : Production p body} {inner : Derivation body} {d : Derivation parts}
    (h₁ : Skims 0 r (.single h inner) s) (hitem : p.isItem body = true)
    (hk : s.at? .comma = true) (h₂ : Skims 0 (s.report .unexpectedComma).advance d u) :
    Skims 0 r (.phrase h inner (.token .comma d)) u := by
  obtain ⟨hrest, hposition, hopenings, hmarks⟩ := h₁
  simp only [kinds, List.append_nil] at hrest hposition
  have hreported : (s.report .unexpectedComma).at? .comma = true := hk
  have hmove := moves_advance hreported
  obtain ⟨hrest₂, hposition₂, hopenings₂, hmarks₂⟩ := h₂
  have hstart : (s.report .unexpectedComma).advance.position = s.position + 1 := hmove.position
  rw [hstart] at hposition₂ hopenings₂ hmarks₂
  refine ⟨?_, ?_, ?_, ?_⟩
  · have hs : s.rest = [.comma] ++ (s.report .unexpectedComma).advance.rest := hmove.rest
    rw [hrest, hs, hrest₂]
    simp
  · rw [hposition₂, hposition]
    simp only [kinds, List.length_append, List.length_cons]
    omega
  · rw [hopenings₂, openings_advance, openings_report, hopenings, hposition]
    simp [Derivation.openings]
  · have hs : (s.report .unexpectedComma).advance.marks = s.marks ++ [⟨.unexpectedComma, s.position⟩] :=
      hmove.marks
    rw [hmarks₂, hs, hmarks, hposition]
    simp [faults, hitem]

/-- What lies in a phrase that is not cut off, other than the bracket of a list literal. -/
theorem single {inside : Nat} {h : Production p body} {inner : Derivation body}
    (h₁ : Skims inside r inner s) (hlevels : p.levelsWithin levels = some inside)
    (hlist : p ≠ .list) : Skims levels r (.single h inner) s := by
  obtain ⟨hrest, hposition, hopenings, hmarks⟩ := h₁
  refine ⟨by simpa using hrest, by simpa using hposition, ?_, ?_⟩
  · simpa [Derivation.openings, hlevels, hlist] using hopenings
  · simpa [faults, hlevels] using hmarks

/-- What is left behind a phrase is what follows it. -/
theorem rest_of_single {h : Production p body} {d : Derivation body}
    (hskims : Skims levels r (.single h d) s) {w : List Kind} (hr : r.rest = d.kinds ++ w) :
    s.rest = w := hskims.rest_eq (by simpa using hr)

/-- A phrase that is not empty does not leave a reading stuck. -/
theorem advanceIfStuck_of_single {h : Production p body} {d : Derivation body}
    (hskims : Skims levels r (.single h d) s) (hd : d.kinds ≠ []) : s.advanceIfStuck r = s := by
  have hposition : s.position = r.position + d.kinds.length := by simpa using hskims.position
  have hlength := List.length_pos_iff.mpr hd
  rw [advanceIfStuck, if_neg (by omega)]

/-- A list literal: its bracket is found in front of the literals among its entries. -/
theorem list {he : Production .entries body} {e : Derivation body}
    (hopen : r.at? .leftBracket = true) (h : Skims levels r.openList (.single he e) s)
    (hclose : s.at? .rightBracket = true) :
    Skims levels r (.single .list (.token .leftBracket (.phrase he e (.token .rightBracket .nil))))
      s.advance := by
  have hopened := moves_advance hopen
  have hclosed := moves_advance hclose
  obtain ⟨hrest, hposition, hopenings, hmarks⟩ := h
  have hstart : r.openList.position = r.position + 1 := hopened.position
  have hmarks' : r.openList.marks = r.marks := hopened.marks
  rw [hstart] at hposition hopenings hmarks
  refine ⟨?_, ?_, ?_, ?_⟩
  · have hrest' : r.openList.rest = r.advance.rest := rfl
    rw [hopened.rest, ← hrest', hrest, hclosed.rest]
    simp
  · rw [hclosed.position, hposition]
    simp only [kinds, List.length_append, List.length_cons, List.length_nil]
    omega
  · rw [openings_advance, hopenings, openings_openList]
    simp [Derivation.openings, Phrase.levelsWithin]
  · rw [hclosed.marks, hmarks, hmarks']
    simp [faults, Phrase.levelsWithin, Phrase.isItem]

/-- What is noted about literals that were found is not looked at. -/
theorem addEntry {d : Derivation parts} (h : Skims levels r d s) (slot : Nat) (entry : Entry) :
    Skims levels r d (s.addEntry slot entry) :=
  ⟨h.rest, h.position, by simpa using h.openings, h.marks⟩

/-- Marking literals changes neither their places nor the faults. -/
theorem retag {d : Derivation parts} (h : Skims levels r d s) (first : Nat) :
    Skims levels r d (s.retag first) :=
  ⟨h.rest, h.position, by simpa using h.openings, h.marks⟩

/-- An entry changes neither the places of literals nor the faults. -/
theorem ofAddEntry {d : Derivation parts} {slot : Nat} {entry : Entry}
    (h : Skims levels (r.addEntry slot entry) d s) : Skims levels r d s :=
  ⟨h.rest, h.position, by rw [h.openings, openings_addEntry]; rfl, h.marks⟩

end Skims

end Reading

end CommaStyle.Grammar
