import CommaStyle.Lint
import CommaStyle.Proofs.Respacing

namespace CommaStyle

open Text

/-!
# Mending a text

The edits that mend violations are independent of each other: any selection of them can be made, and
what it leaves is the program it was made in, with the violations whose edits were left out.

* `Document.Toggles` says of edits that they exchange the white space next to commas, which is what
  the edits of violations do (`Document.toggles_gapEdit?`);
* `Document.Toggles.alike` — the tokens look the same behind such edits as in front of them, and
  `Document.Toggles.isSpaced_eq` — just the gaps that were edited have changed sides;
* `Lint.violations_selected` — the violations that are left;
* `Lint.program_selected` — the program stays what it was.
-/

namespace Document

variable {t : Text} {i : Nat} {left right : Token}

/-- A token with its place taken away is a piece of the layout. -/
theorem map_piece_token? (t : Text) (i : Nat) :
    ((ofText t).token? i).map Token.piece = (Layout.ofText t).pieces[i]? := by
  rw [token?_ofText, ← List.getElem?_map, Token.map_piece_place]

/-- A text has as many tokens as its layout has pieces. -/
theorem size_ofText (t : Text) : (ofText t).size = (Layout.ofText t).pieces.length := by
  have hlength := congrArg List.length
    (Token.map_piece_place 0 Place.origin (Layout.ofText t).pieces)
  simpa [size, ofText] using hlength

/-! ### A gap next to a comma -/

/-- The two tokens around a gap follow each other. -/
theorem AroundGap.follows (h : (ofText t).AroundGap i left right) : Token.Follows left right := by
  have hleft := h.left_eq
  have hright := h.right_eq
  rw [token?_ofText] at hleft hright
  exact Token.follows_of_place hleft hright

/-- The two tokens around a gap are neighbours in the layout. -/
theorem AroundGap.pieces (h : (ofText t).AroundGap i left right) :
    (Layout.ofText t).pieces[i]? = some left.piece ∧
      (Layout.ofText t).pieces[i + 1]? = some right.piece := by
  rw [← map_piece_token?, ← map_piece_token?, h.left_eq, h.right_eq]
  exact ⟨rfl, rfl⟩

/-- Between two tokens that start on the same line there is no line feed. -/
theorem AroundGap.count_eq_zero (h : (ofText t).AroundGap i left right) :
    right.blanks.count '\n' = 0 := by
  have hline := h.follows.line
  have hleft := h.left_eq
  rw [token?_ofText] at hleft
  have hpast := Token.past_line_of_mem (List.mem_of_getElem? hleft)
  have hsame : left.first.line = right.first.line := by
    simpa [Token.onSameLine] using h.sameLine
  omega

/-- The new white space may stand in the gap, since no token that runs on to the end of its line ends
    in front of it. -/
theorem AroundGap.newGap (h : (ofText t).AroundGap i left right) :
    Layout.NewGap (some left.toLexeme) right.blanks right.blanks.toggled right.toLexeme := by
  obtain ⟨hpiece, hpiece'⟩ := h.pieces
  obtain ⟨rest, hfits, -, ⟨c, u, htext, hc, -⟩⟩ := (Layout.tiles_ofText t).next hpiece hpiece'
  simp only [Token.piece] at hfits htext
  -- Behind a token that runs on comes a line feed, and the next token would be on another line.
  have hruns : ¬left.toLexeme.runsOn := by
    intro hruns
    have hhead := Lexeme.head?_of_runsOn hfits hruns
    have hcount := h.count_eq_zero
    cases hblanks : right.blanks with
    | nil =>
      obtain rfl : c = '\n' := hhead c (by simp [hblanks, htext])
      exact absurd hc (by decide)
    | cons b blanks =>
      obtain rfl : b = '\n' := hhead b (by simp [hblanks])
      simp [hblanks] at hcount
  -- A new space may stand anywhere; for none, a comma must be there to keep the tokens apart.
  by_cases hblanks : right.blanks = []
  · rw [toggled, hblanks]
    exact ⟨by simp [AllBlank]; decide, .inr (.inl ⟨by simp, fun h => absurd h hruns⟩)⟩
  · rw [toggled, if_neg (by simpa using hblanks)]
    exact ⟨by simp [AllBlank], .inr (.inr ⟨rfl, hruns, h.comma⟩)⟩

/-- Exchanging white space within a line changes nothing that is kept. -/
theorem AroundGap.filter_toggled (h : (ofText t).AroundGap i left right) :
    right.blanks.toggled.filter isKept = right.blanks.filter isKept := by
  obtain ⟨hpiece, hpiece'⟩ := h.pieces
  obtain ⟨-, -, hblank, -⟩ := (Layout.tiles_ofText t).next hpiece hpiece'
  have hline : '\n' ∉ right.blanks := List.count_eq_zero.mp h.count_eq_zero
  have hold : right.blanks.filter isKept = [] := by
    rw [List.filter_eq_nil_iff]
    intro c hc hkept
    have hne : c ≠ '\n' := fun h => hline (h ▸ hc)
    have hc' : isBlank c = true := hblank c hc
    simp [isKept, hc', hne] at hkept
  rw [hold, toggled]
  split <;> decide

/-! ### Edits of such gaps -/

/-- Whether edits, numbered by tokens, exchange the white space in front of these tokens, each next
    to a comma and within a line: some for none, and none for some. -/
def Toggles (d : Document) (edits : Nat → Option Edit) : Prop :=
  ∀ i e, edits i = some e → ∃ j left right, i = j + 1 ∧ d.AroundGap j left right ∧
    e.span = right.gap ∧ e.replacement = right.blanks.toggled

variable {edits : Nat → Option Edit}

/-- Such edits are numbered by the tokens whose gaps they change. -/
theorem Toggles.ofGaps (h : (ofText t).Toggles edits) :
    Edit.OfGaps (Token.place 0 Place.origin (Layout.ofText t).pieces) edits := by
  intro i token e htoken he
  obtain ⟨j, left, right, rfl, hgap, hspan, -⟩ := h i e he
  have hright := hgap.right_eq
  rw [token?_ofText, htoken] at hright
  rw [hspan, Option.some.inj hright]

/-- Such edits stand apart. -/
theorem Toggles.pairwise_apart (h : (ofText t).Toggles edits) :
    ((ofText t).ids.filterMap edits).Pairwise Edit.Apart := by
  rw [ids, size_ofText]
  exact Edit.pairwise_apart_of_gaps (fun _ => (Layout.tiles_ofText t).text_ne_nil) h.ofGaps

/-- The new white space that edits of gaps bring. -/
def toggledGaps (edits : Nat → Option Edit) (i : Nat) : Option Text := (edits i).map (·.replacement)

/-- New white space is put into gaps next to commas only, and it is exchanged for the old. -/
theorem Toggles.exists_aroundGap (h : (ofText t).Toggles edits) {w : Text}
    (hw : toggledGaps edits i = some w) :
    ∃ j left right, i = j + 1 ∧ (ofText t).AroundGap j left right ∧ w = right.blanks.toggled := by
  obtain ⟨e, he, rfl⟩ := Option.map_eq_some_iff.mp hw
  obtain ⟨j, left, right, hi, hgap, -, hnew⟩ := h i e he
  exact ⟨j, left, right, hi, hgap, hnew⟩

/-- In each gap, the new white space keeps what the old one kept. -/
theorem Toggles.filter_eq (h : (ofText t).Toggles edits) (i : Nat) (p : Piece) (w : Text)
    (hp : (Layout.ofText t).pieces[i]? = some p) (hw : toggledGaps edits i = some w) :
    w.filter isKept = p.blanks.filter isKept := by
  obtain ⟨j, left, right, rfl, hgap, rfl⟩ := h.exists_aroundGap hw
  obtain rfl : right.piece = p := by simpa [hgap.pieces.2] using hp
  exact hgap.filter_toggled

/-- The text with new white space in the gaps that are edited. -/
def toggledText (t : Text) (edits : Nat → Option Edit) : Text :=
  Layout.toText
    ⟨Layout.respace (toggledGaps edits) (Layout.ofText t).pieces, (Layout.ofText t).trailing⟩

/-- The edits give this text. -/
theorem Toggles.splice?_eq (h : (ofText t).Toggles edits) :
    Edit.splice? 0 ((ofText t).ids.filterMap edits) t = some (toggledText t edits) := by
  have hsplice := Edit.splice?_respace (Layout.ofText t).trailing 0 [] rfl h.ofGaps
  rwa [List.nil_append, List.nil_append, ← size_ofText, Layout.toText_ofText] at hsplice

/-- The new text keeps the characters that are more than white space within a line. -/
theorem Toggles.filter_toggledText (h : (ofText t).Toggles edits) :
    (toggledText t edits).filter isKept = t.filter isKept := by
  rw [toggledText, Layout.filter_toText_respace h.filter_eq, Layout.toText_ofText]

/-- The lexemes are what the new text is cut into. -/
theorem Toggles.ofText_toggledText (h : (ofText t).Toggles edits) :
    Layout.ofText (toggledText t edits) =
      ⟨Layout.respace (toggledGaps edits) (Layout.ofText t).pieces, (Layout.ofText t).trailing⟩ := by
  apply Layout.ofText_toText
  have htiles := Layout.tiles_ofText t
  refine (Layout.respaced_respace (x := none) htiles ?_ ?_).tiles htiles
  -- No edit changes the white space in front of the first token.
  · intro p w _ hw
    obtain ⟨j, left, right, hj, -⟩ := h.exists_aroundGap hw
    omega
  · intro i p q w hp hq hw
    obtain ⟨j, left, right, hj, hgap, rfl⟩ := h.exists_aroundGap hw
    obtain rfl : i = j := by omega
    obtain rfl : left.piece = p := by simpa [hgap.pieces.1] using hp
    obtain rfl : right.piece = q := by simpa [hgap.pieces.2] using hq
    exact hgap.newGap

/-- The tokens look the same as before. -/
theorem Toggles.alike (h : (ofText t).Toggles edits) :
    (ofText t).Alike (ofText (toggledText t edits)) := by
  intro i
  rw [token?_ofText, token?_ofText, h.ofText_toggledText, ← List.getElem?_map, ← List.getElem?_map,
    Token.map_look_place (Layout.forall₂_respace h.filter_eq) rfl]

/-- A token is spaced if its piece has white space in front. -/
theorem isSpaced_ofText (t : Text) (i : Nat) :
    (ofText t).isSpaced i = ((Layout.ofText t).pieces[i]?).any fun p => !p.blanks.isEmpty := by
  rw [← map_piece_token?, isSpaced]
  cases (ofText t).token? i <;> rfl

/-- Just the gaps that are edited turn from spaced to unspaced, or back. -/
theorem Toggles.isSpaced_eq (h : (ofText t).Toggles edits) (i : Nat) :
    (ofText (toggledText t edits)).isSpaced i = ((edits i).isSome ^^ (ofText t).isSpaced i) := by
  rw [isSpaced_ofText, isSpaced_ofText, h.ofText_toggledText, Layout.getElem?_respace]
  cases he : edits i with
  | none => cases (Layout.ofText t).pieces[i]? <;> simp [toggledGaps, he]
  | some e =>
    have hw : toggledGaps edits i = some e.replacement := by rw [toggledGaps, he]; rfl
    obtain ⟨j, left, right, rfl, hgap, hnew⟩ := h.exists_aroundGap hw
    rw [hgap.pieces.2, hw, hnew]
    cases hblanks : right.blanks <;> simp [Token.piece, hblanks, toggled]

end Document

/-! ### The edits of violations -/

namespace Document

variable {t : Text} {i : Nat} {s : Settings} {exempt : List Nat}

/-- The edit that mends the violation in the gap in front of a token. -/
def gapEdit? (d : Document) (s : Settings) (exempt : List Nat) (i : Nat) : Option Edit :=
  (d.gapViolation? s exempt d.leaders i).bind (·.edit? d s)

/-- The edits of violations exchange the white space next to commas, whichever commas are exempt. -/
theorem toggles_gapEdit? (t : Text) (s : Settings) (exempt : List Nat) :
    (ofText t).Toggles ((ofText t).gapEdit? s exempt) := by
  intro i e he
  obtain ⟨v, hv, hedit⟩ := Option.bind_eq_some_iff.mp he
  obtain ⟨j, left, right, rfl, hgap, -⟩ := exists_of_gapViolation? hv
  rw [edit?_of_gapViolation? hgap hgap.follows hv] at hedit
  obtain rfl := Option.some.inj hedit
  exact ⟨j, left, right, rfl, hgap, rfl, rfl⟩

/-- A violation in a gap has an edit, and it is the edit of that gap. -/
theorem exists_gapEdit? {v : Violation}
    (hv : (ofText t).gapViolation? s exempt (ofText t).leaders i = some v) :
    ∃ e, v.edit? (ofText t) s = some e ∧ (ofText t).gapEdit? s exempt i = some e := by
  obtain ⟨j, left, right, rfl, hgap, -⟩ := exists_of_gapViolation? hv
  refine ⟨_, edit?_of_gapViolation? hgap hgap.follows hv, ?_⟩
  rw [gapEdit?, hv]
  exact edit?_of_gapViolation? hgap hgap.follows hv

/-- The edits of the violations, comma by comma. -/
def edits (d : Document) (s : Settings) (exempt : List Nat) : List Edit :=
  (d.violations s exempt).filterMap (·.edit? d s)

/-- The edits of the violations, gap by gap. -/
theorem edits_eq_filterMap (d : Document) (s : Settings) (exempt : List Nat) :
    d.edits s exempt = d.ids.filterMap (d.gapEdit? s exempt) := by
  rw [edits, violations_eq, List.filterMap_filterMap]
  rfl

/-- The edits of a text stand apart. -/
theorem pairwise_apart_edits (t : Text) (s : Settings) (exempt : List Nat) :
    ((ofText t).edits s exempt).Pairwise Edit.Apart := by
  rw [edits_eq_filterMap]
  exact (toggles_gapEdit? t s exempt).pairwise_apart

/-- Every violation in a text has a warning with an edit, and its comma is there. -/
theorem exists_diagnostic? {v : Violation} (hv : v ∈ (ofText t).violations s exempt) :
    ∃ comma diagnostic, (ofText t).token? v.comma = some comma ∧
      v.diagnostic? (ofText t) s = some diagnostic ∧ diagnostic.edit = v.edit? (ofText t) s := by
  rw [violations_eq] at hv
  obtain ⟨i, -, hv⟩ := List.mem_filterMap.mp hv
  obtain ⟨e, hedit, -⟩ := exists_gapEdit? hv
  obtain ⟨j, left, right, -, hgap, -, hcomma⟩ := exists_of_gapViolation? hv
  -- A diagnostic needs the comma itself, which is one of the two tokens around the gap.
  have htoken : ∃ comma, (ofText t).token? v.comma = some comma := by
    rcases hcomma with rfl | rfl
    · exact ⟨right, hgap.right_eq⟩
    · exact ⟨left, hgap.left_eq⟩
  obtain ⟨comma, hcomma⟩ := htoken
  simp [Violation.diagnostic?, Violation.message?, text?, hcomma, hedit]

/-- The warning about a violation carries the edit of the violation. -/
theorem edit_diagnostic? {v : Violation} (hv : v ∈ (ofText t).violations s exempt) :
    (v.diagnostic? (ofText t) s).bind (·.edit) = v.edit? (ofText t) s := by
  obtain ⟨comma, diagnostic, -, hdiagnostic, hedit⟩ := exists_diagnostic? hv
  rw [hdiagnostic, ← hedit]
  rfl

end Document

namespace Lint

open Document

/-! ### The violations of a text and their edits -/

/-- The violations in a text. -/
def violations (s : Settings) (t : Text) : List Violation :=
  let d := ofText t
  d.violations s (d.exempt d.outline.lists)

/-- The edits that mend the violations in a text. -/
def edits (s : Settings) (t : Text) : List Edit := (violations s t).filterMap (·.edit? (ofText t) s)

/-- The violation in the gap in front of a token. -/
def gapViolation? (s : Settings) (t : Text) (i : Nat) : Option Violation :=
  let d := ofText t
  d.gapViolation? s (d.exempt d.outline.lists) d.leaders i

/-- The edit that mends it. -/
def gapEdit? (s : Settings) (t : Text) (i : Nat) : Option Edit :=
  (gapViolation? s t i).bind (·.edit? (ofText t) s)

/-- The violations in a text, gap by gap. -/
theorem violations_eq_filterMap (s : Settings) (t : Text) :
    violations s t = (ofText t).ids.filterMap (gapViolation? s t) :=
  Document.violations_eq _ s _

/-- The edits of a text, gap by gap. -/
theorem edits_eq_filterMap (s : Settings) (t : Text) :
    edits s t = (ofText t).ids.filterMap (gapEdit? s t) :=
  Document.edits_eq_filterMap _ s _

variable {s : Settings} {t : Text}

/-! ### Selections -/

/-- The edit of the gap in front of a token, if it is selected. -/
def selectedEdit? (s : Settings) (t : Text) (selected : List Edit) (i : Nat) : Option Edit :=
  (gapEdit? s t i).filter (· ∈ selected)

/-- A selection of the edits exchanges white space next to commas, too. -/
theorem toggles_selectedEdit? (s : Settings) (t : Text) (selected : List Edit) :
    (ofText t).Toggles (selectedEdit? s t selected) := by
  intro i e he
  exact toggles_gapEdit? t s _ i e (Option.filter_eq_some_iff.mp he).1

/-- Every selection can be made. -/
theorem applyAll?_selected {selected : List Edit} (h : selected.Subperm (edits s t)) :
    Edit.applyAll? t selected =
      some (toggledText t (selectedEdit? s t selected), selected.length) := by
  have hapart : (edits s t).Pairwise Edit.Apart := pairwise_apart_edits t s _
  -- Edits that stand apart differ, so that a selection is found again by its members.
  have hlength := (List.perm_filter_mem (Edit.nodup_of_apart hapart) h).length_eq
  have hselected : (edits s t).filter (· ∈ selected) =
      (ofText t).ids.filterMap (selectedEdit? s t selected) := by
    rw [edits_eq_filterMap, List.filter_filterMap]
    rfl
  rw [Edit.applyAll?, Edit.chosen_of_apart hapart h, ← hlength, hselected,
    (toggles_selectedEdit? s t selected).splice?_eq]
  rfl

/-- Whether the edit of a violation is left out of a selection. -/
def isLeft (s : Settings) (t : Text) (selected : List Edit) (v : Violation) : Bool :=
  (v.edit? (ofText t) s).all (· ∉ selected)

/-- What a selection does to a gap: it mends the violation there if its edit is selected, and does
    nothing otherwise. -/
theorem gapViolation?_toggledText (s : Settings) (t : Text) (selected : List Edit) (i : Nat) :
    gapViolation? s (toggledText t (selectedEdit? s t selected)) i =
      (gapViolation? s t i).filter (isLeft s t selected) := by
  have htoggles := toggles_selectedEdit? s t selected
  have halike := htoggles.alike
  -- What is asked of the gap depends on the looks of tokens, which stay, and only the answer
  -- changes.
  have hnew : gapViolation? s (toggledText t (selectedEdit? s t selected)) i =
      ((ofText t).demand? s ((ofText t).exempt (ofText t).outline.lists) (ofText t).leaders i).filter
        fun v => ((selectedEdit? s t selected i).isSome ^^ (ofText t).isSpaced i) !=
          v.side.needsSpace s := by
    simp only [gapViolation?, Document.gapViolation?]
    rw [← halike.demand?_eq, ← halike.lists_eq, ← halike.exempt_eq, ← halike.leaders_eq,
      htoggles.isSpaced_eq]
  rw [hnew]
  cases hv : gapViolation? s t i with
  | none =>
    have hselected : selectedEdit? s t selected i = none := by
      simp [selectedEdit?, gapEdit?, hv]
    simp only [hselected, Option.isSome_none, Bool.false_xor, Option.filter_none]
    exact hv
  | some v =>
    obtain ⟨hdemand, hspaced⟩ := Option.filter_eq_some_iff.mp hv
    obtain ⟨e, hedit, (hgap : gapEdit? s t i = some e)⟩ := exists_gapEdit? hv
    have hselected : (selectedEdit? s t selected i).isSome = decide (e ∈ selected) := by
      rw [selectedEdit?, hgap, Option.filter_some]
      split <;> simp_all
    have hleft : isLeft s t selected v = !decide (e ∈ selected) := by
      simp [isLeft, hedit]
    rw [hdemand, hselected, Option.filter_some, Option.filter_some, hleft]
    by_cases he : e ∈ selected
    · -- The gap is what it should be now, since it was not before.
      simp only [bne_iff_ne] at hspaced
      simp [he, Bool.not_eq_eq_eq_not.mpr (Bool.eq_not.mpr hspaced)]
    · simpa [he] using hspaced

/-- The violations that a selection leaves. -/
theorem violations_toggledText (s : Settings) (t : Text) (selected : List Edit) :
    violations s (toggledText t (selectedEdit? s t selected)) =
      (violations s t).filter (isLeft s t selected) := by
  rw [violations_eq_filterMap, violations_eq_filterMap, List.filter_filterMap,
    ← (toggles_selectedEdit? s t selected).alike.ids_eq]
  exact List.filterMap_congr fun i _ => gapViolation?_toggledText s t selected i

/-- If all edits are selected, none is left out. -/
theorem isLeft_edits {v : Violation} (hv : v ∈ violations s t) : isLeft s t (edits s t) v = false := by
  rw [violations_eq_filterMap] at hv
  obtain ⟨i, hi, hv⟩ := List.mem_filterMap.mp hv
  obtain ⟨e, hedit, hgap⟩ := exists_gapEdit? hv
  have he : e ∈ edits s t := by
    rw [edits_eq_filterMap]
    exact List.mem_filterMap.mpr ⟨i, hi, hgap⟩
  simp [isLeft, hedit, he]

/-! ### Mending everything -/

/-- The diagnostics of a text carry the edits of its violations. -/
theorem filterMap_edit_findings (s : Settings) (t : Text) :
    (findings s t).filterMap (·.edit) = edits s t := by
  have herrors : ((ofText t).outline.errors.map Diagnostic.ofError).filterMap (·.edit) = [] := by
    simp [List.filterMap_map, Diagnostic.ofError, Function.comp_def]
  rw [findings, List.filterMap_append, herrors, List.nil_append, Document.warnings,
    Document.warningsOf, List.filterMap_filterMap]
  exact List.filterMap_congr fun v hv => edit_diagnostic? hv

/-- Mending is making all edits. -/
theorem mend_eq (s : Settings) (t : Text) :
    mend s t = (toggledText t (selectedEdit? s t (edits s t)), (edits s t).length) := by
  rw [mend, mendBy, filterMap_edit_findings, applyAll?_selected (List.Subperm.refl _)]
  rfl

/-- After mending, there is no violation. -/
theorem violations_mend (s : Settings) (t : Text) : violations s (mend s t).1 = [] := by
  rw [mend_eq, violations_toggledText, List.filter_eq_nil_iff]
  intro v hv
  simp [isLeft_edits hv]

/-- A text without edits is mended already. -/
theorem mend_of_edits_eq_nil (h : edits s t = []) : mend s t = (t, 0) := by
  rw [mend, mendBy, filterMap_edit_findings, h]
  rfl

/-- A text without violations is mended already. -/
theorem mend_of_violations_eq_nil (h : violations s t = []) : mend s t = (t, 0) := by
  apply mend_of_edits_eq_nil
  rw [edits, h]
  rfl

/-- If no edit was made, nothing has changed. -/
theorem mend_of_count_eq_zero (h : (mend s t).2 = 0) : mend s t = (t, 0) := by
  rw [mend_eq] at h
  exact mend_of_edits_eq_nil (List.length_eq_zero_iff.mp h)

/-! ### What a selection leaves -/

/-- **Edits are independent.** However many of the edits of a text are made, in whatever order they
    are named, all of them are made, and just the violations whose edits were not selected are
    left, in the same order. Mending everything leaves none and has nothing to do a second time. -/
theorem violations_selected (s : Settings) (t : Text) :
    (∀ selected : List Edit, selected.Subperm (edits s t) →
      ∃ t', Edit.applyAll? t selected = some (t', selected.length) ∧
        violations s t' = (violations s t).filter
          fun v => (v.edit? (ofText t) s).all (· ∉ selected)) ∧
      violations s (mend s t).1 = [] ∧ mend s (mend s t).1 = ((mend s t).1, 0) := by
  refine ⟨?_, violations_mend s t, mend_of_violations_eq_nil (violations_mend s t)⟩
  intro selected h
  exact ⟨_, applyAll?_selected h, violations_toggledText s t selected⟩

/-- Of the three edits of a text with a hole, the last two, named from back to front. -/
theorem violations_selected_hole :
    let t := ['[', ',', 'a', ' ', ',', 'b', ']']
    let selected : List Edit :=
      [⟨"insert a space after", ⟨5, 0⟩, [' ']⟩, ⟨"remove the whitespace before", ⟨3, 1⟩, []⟩]
    selected.Subperm (edits .standard t) ∧
      ∃ t', Edit.applyAll? t selected = some (t', 2) ∧
        violations .standard t' = (violations .standard t).filter
          fun v => (v.edit? (ofText t) .standard).all (· ∉ selected) := by
  intro t selected
  have h : selected.Subperm (edits .standard t) := by decide
  exact ⟨h, (violations_selected .standard t).1 selected h⟩

/-- **Edits keep the program.** However many of the edits of a text are made, the characters other
    than white space, and the line feeds, stay what they were; so do the kinds, the texts and the
    lines of the tokens, the list literals, and the syntax errors with the tokens that they are
    reported at, where the number of tokens stands for the end of the text. -/
theorem program_selected (s : Settings) (t : Text) (selected : List Edit)
    (h : selected.Subperm (edits s t)) :
    ∃ t', Edit.applyAll? t selected = some (t', selected.length) ∧
      t'.filter isKept = t.filter isKept ∧
      (ofText t').tokens.toList.map (fun x => (x.kind, x.text, x.first.line, x.past.line)) =
        (ofText t).tokens.toList.map (fun x => (x.kind, x.text, x.first.line, x.past.line)) ∧
      (ofText t').outline.lists = (ofText t).outline.lists ∧
      ∃ anchors : List (Fault × Nat), (∀ a ∈ anchors, a.2 ≤ (ofText t).size) ∧
        (ofText t).outline.errors = anchors.map (fun a => ⟨a.1, (ofText t).spanOrEnd a.2⟩) ∧
        (ofText t').outline.errors = anchors.map (fun a => ⟨a.1, (ofText t').spanOrEnd a.2⟩) := by
  have htoggles := toggles_selectedEdit? s t selected
  have halike := htoggles.alike
  refine ⟨_, applyAll?_selected h, htoggles.filter_toggledText, ?_, halike.lists_eq.symm,
    (ofText t).anchors, fun _ => le_size_of_mem_anchors, outline_errors _, ?_⟩
  · exact (halike.map_tokens _ (fun l => (l.1.kind, l.1.text, l.2.1, l.2.2)) fun _ => rfl).symm
  · rw [halike.anchors_eq]
    exact outline_errors _

/-- A text with a list literal, a comment that is not closed, and an edit between them. -/
theorem program_selected_unclosed :
    let t := ['[', 'a', ' ', ',', ']', '/', '*']
    let selected : List Edit := [⟨"remove the whitespace before", ⟨2, 1⟩, []⟩]
    selected.Subperm (edits .standard t) ∧
      ∃ t', Edit.applyAll? t selected = some (t', 1) ∧ t'.filter isKept = t.filter isKept ∧
        (ofText t').outline.lists = (ofText t).outline.lists := by
  intro t selected
  have h : selected.Subperm (edits .standard t) := by decide
  obtain ⟨t', hmade, hkept, -, hlists, -⟩ := program_selected .standard t selected h
  exact ⟨h, t', hmade, hkept, hlists⟩

end Lint

end CommaStyle
