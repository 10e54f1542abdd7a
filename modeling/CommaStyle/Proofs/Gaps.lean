import CommaStyle.Proofs.Collections
import CommaStyle.Proofs.Documents
import CommaStyle.Spacing

namespace CommaStyle

/-!
# Violations by gaps

Violations are listed comma by comma, but each is about one gap: the white space between a token and
the one in front of it. No two are about the same gap, so they can just as well be listed gap by gap.

* `Document.demand?` is what the settings ask of the gap in front of a token. It does not depend on
  the white space in the gap;
* `Document.gapViolation?` is the violation in a gap: a demand that the gap does not meet;
* `Document.violations_eq` — the violations in a document are those in its gaps;
* `Document.edit?_of_gapViolation?` — every one of them has an edit, which exchanges the white space
  of its gap for a space, or for none.
-/

namespace Document

/-- Whether white space stands in front of a token. -/
def isSpaced (d : Document) (i : Nat) : Bool := (d.token? i).any Token.isSpaced

/-- What is asked of the gap in front of a token, as the violation that there is if the gap does not
    meet it. -/
def demand? (d : Document) (s : Settings) (exempt : List Nat) (leaders : Leaders) :
    Nat → Option Violation
  | 0 => none
  | i + 1 => do
    let left ← d.token? i
    let right ← d.token? (i + 1)
    if left.kind != .comma && right.kind == .comma && !exempt.contains (i + 1)
        && left.onSameLine right then
      some ⟨i + 1, .before, i⟩
    else if left.kind == .comma && right.kind != .comma
        && !(right.kind == .lineComment && !s.spaceAfter) && left.onSameLine right
        && !(s.excuseLeading && d.isLeading leaders i) then
      some ⟨i, .after, i + 1⟩
    else none

/-- The violation in the gap in front of a token. -/
def gapViolation? (d : Document) (s : Settings) (exempt : List Nat) (leaders : Leaders) (i : Nat) :
    Option Violation :=
  (d.demand? s exempt leaders i).filter fun v => d.isSpaced i != v.side.needsSpace s

/-- The next number names the next token, if there is one. -/
theorem next?_of_token? {d : Document} {i : Nat} {t : Token} (h : d.token? (i + 1) = some t) :
    d.next? i = some (i + 1) := by
  rw [next?, if_pos (lt_size_of_token? h)]

/-- There is no next number behind the last token. -/
theorem next?_of_token?_none {d : Document} {i : Nat} (h : d.token? (i + 1) = none) :
    d.next? i = none := by
  rw [next?, if_neg (Nat.not_lt.mpr ((token?_eq_none_iff d _).mp h))]

/-- The looks of tokens decide what is asked of the gaps between them. -/
theorem Alike.demand?_eq {d e : Document} (h : Alike d e) (s : Settings) (exempt : List Nat)
    (leaders : Leaders) (i : Nat) :
    d.demand? s exempt leaders i = e.demand? s exempt leaders i := by
  cases i with
  | zero => rfl
  | succ i =>
    have hleft := h i
    have hright := h (i + 1)
    rw [demand?, demand?, h.isLeading_eq]
    -- A token is there in both documents or in neither.
    cases hd : d.token? i <;> cases he : e.token? i <;>
      cases hd' : d.token? (i + 1) <;> cases he' : e.token? (i + 1) <;>
      simp_all [Token.look, Token.onSameLine]

/-- The violations behind one token and in front of the next are those in the gap between them. -/
theorem toList_gapViolation? (d : Document) (s : Settings) (exempt : List Nat) (leaders : Leaders)
    (i : Nat) :
    (d.gapViolation? s exempt leaders (i + 1)).toList =
      (if d.isComma i then (d.violationAfter? s leaders i).toList else []) ++
        (if d.isComma (i + 1) then (d.violationBefore? s exempt (i + 1)).toList else []) := by
  cases hright : d.token? (i + 1) with
  | none =>
    simp [gapViolation?, demand?, violationAfter?, isComma, kind?, hright,
      next?_of_token?_none hright]
  | some right =>
    cases hleft : d.token? i with
    | none =>
      simp [gapViolation?, demand?, violationBefore?, isComma, kind?, prev?, hleft]
    | some left =>
      simp only [gapViolation?, demand?, violationBefore?, violationAfter?, isComma, kind?, prev?,
        isSpaced, hleft, hright, next?_of_token? hright, Option.map_some, Option.bind_eq_bind,
        Option.bind_some, Option.any_some]
      -- Only a comma and a token of another kind leave something to ask for.
      by_cases hl : left.kind = .comma <;> by_cases hr : right.kind = .comma <;>
        simp [hl, hr, Option.filter_ite_some, Side.needsSpace]

/-- **Violations by gaps.** The violations in a document are those in its gaps. -/
theorem violations_eq (d : Document) (s : Settings) (exempt : List Nat) :
    d.violations s exempt = d.ids.filterMap (d.gapViolation? s exempt d.leaders) := by
  rw [violations, List.flatMap_filter, ids]
  cases hn : d.size with
  | zero => rfl
  | succ n =>
    -- Nothing is asked in front of the first token, nor behind the last.
    have hbefore : d.violationBefore? s exempt 0 = none := by
      simp [violationBefore?, prev?]
    have hafter : d.violationAfter? s d.leaders n = none := by
      simp [violationAfter?, next?, hn]
    -- Each comma has a gap on both sides; the list is cut at the commas and put together by gaps.
    have hsplit : (fun i => if d.isComma i then (d.violationBefore? s exempt i).toList ++
        (d.violationAfter? s d.leaders i).toList else []) = fun i =>
        (if d.isComma i then (d.violationBefore? s exempt i).toList else []) ++
          (if d.isComma i then (d.violationAfter? s d.leaders i).toList else []) := by
      funext i
      split <;> simp
    rw [hsplit, List.flatMap_range_succ (by simp [hbefore, gapViolation?, demand?])
      (d.toList_gapViolation? s exempt d.leaders) n]
    simp [hafter]

/-! ### Edits of gaps -/

/-- Whether two tokens stand around a gap that may be exchanged: on the same line, and one of them a
    comma. -/
structure AroundGap (d : Document) (i : Nat) (left right : Token) : Prop where
  left_eq : d.token? i = some left
  right_eq : d.token? (i + 1) = some right
  sameLine : left.onSameLine right = true
  comma : left.kind = .comma ∨ right.kind = .comma

/-- What a violation in a gap says about the tokens around it. -/
theorem exists_of_gapViolation? {d : Document} {s : Settings} {exempt : List Nat}
    {leaders : Leaders} {i : Nat} {v : Violation} (h : d.gapViolation? s exempt leaders i = some v) :
    ∃ j left right, i = j + 1 ∧ d.AroundGap j left right ∧
      right.isSpaced = !v.side.needsSpace s ∧
      (v = ⟨j + 1, .before, j⟩ ∨ v = ⟨j, .after, j + 1⟩) := by
  rw [gapViolation?, Option.filter_eq_some_iff] at h
  obtain ⟨hdemand, hspaced⟩ := h
  cases i with
  | zero => simp [demand?] at hdemand
  | succ j =>
    rw [demand?] at hdemand
    obtain ⟨left, hleft, hdemand⟩ := Option.bind_eq_some_iff.mp hdemand
    obtain ⟨right, hright, hdemand⟩ := Option.bind_eq_some_iff.mp hdemand
    refine ⟨j, left, right, rfl, ?_⟩
    have hother : right.isSpaced = !v.side.needsSpace s := by
      simpa [isSpaced, hright, Bool.eq_not] using hspaced
    -- The comma is the token behind the gap, or the one in front of it.
    split at hdemand
    · next hask =>
      simp only [Bool.and_eq_true, bne_iff_ne, beq_iff_eq] at hask
      obtain rfl := Option.some.inj hdemand
      exact ⟨⟨hleft, hright, hask.2, .inr hask.1.1.2⟩, hother, .inl rfl⟩
    · split at hdemand
      · next hask =>
        simp only [Bool.and_eq_true, bne_iff_ne, beq_iff_eq] at hask
        obtain rfl := Option.some.inj hdemand
        exact ⟨⟨hleft, hright, hask.1.2, .inl hask.1.1.1.1⟩, hother, .inr rfl⟩
      · exact absurd hdemand (by simp)

end Document

/-- A space for no white space, and none for some. -/
def Text.toggled (blanks : Text) : Text := if blanks.isEmpty then [' '] else []

/-- The white space in front of a token. -/
def Token.gap (t : Token) : Span := ⟨t.offset - Text.width t.blanks, Text.width t.blanks⟩

/-- The words on the edit that mends a violation. -/
def Violation.label (v : Violation) (s : Settings) : String :=
  (if v.side.needsSpace s then "insert a space " else "remove the whitespace ") ++ v.side.word

/-- The stretch between two tokens that follow each other is the white space in front of the
    second. -/
theorem Document.gap?_eq_gap {d : Document} {i : Nat} {left right : Token}
    (hleft : d.token? i = some left) (hright : d.token? (i + 1) = some right)
    (hfollows : Token.Follows left right) : d.gap? i (i + 1) = some right.gap := by
  have hstart : right.span.start = left.span.stop + Text.width right.blanks := hfollows.offset
  have hle : left.span.stop ≤ right.span.start := by omega
  have hspan : (⟨left.span.stop, right.span.start - left.span.stop⟩ : Span) = right.gap := by
    rw [hstart, Token.gap, hfollows.offset, Nat.add_sub_cancel, Nat.add_sub_cancel_left]
  simp only [gap?, hleft, hright, Option.bind_eq_bind, Option.bind_some, Span.between?, if_pos hle,
    hspan]

/-- **Violations have edits.** The edit of a violation in a gap exchanges the white space there. -/
theorem Document.edit?_of_gapViolation? {d : Document} {s : Settings} {exempt : List Nat}
    {leaders : Leaders} {i : Nat} {v : Violation} {left right : Token}
    (hgap : d.AroundGap i left right) (hfollows : Token.Follows left right)
    (h : d.gapViolation? s exempt leaders (i + 1) = some v) :
    v.edit? d s = some ⟨v.label s, right.gap, right.blanks.toggled⟩ := by
  obtain ⟨j, left', right', hj, hgap', hspaced, hv⟩ := exists_of_gapViolation? h
  obtain rfl : i = j := by omega
  obtain rfl : left = left' := by simpa [hgap.left_eq] using hgap'.left_eq
  obtain rfl : right = right' := by simpa [hgap.right_eq] using hgap'.right_eq
  have hoffset := hfollows.offset
  cases hneeds : v.side.needsSpace s with
  | true =>
    -- A space is needed, so there is none: the edit puts one into an empty gap.
    have hblanks : right.blanks = [] := by simpa [Token.isSpaced, hneeds] using hspaced
    rcases hv with rfl | rfl
    · simp [Violation.edit?, Violation.label, hneeds, hgap.right_eq, Edit.insert, Span.empty,
        Token.gap, Text.toggled, hblanks, Token.span]
    · have hstop : left.span.stop = right.offset := by simp [hoffset, hblanks]
      simp [Violation.edit?, Violation.label, hneeds, hgap.left_eq, Edit.insert, Span.empty,
        Token.gap, Text.toggled, hblanks, hstop]
  | false =>
    -- No space is needed, so there is some: the edit takes it all away.
    have hblanks : right.blanks ≠ [] := by simpa [Token.isSpaced, hneeds] using hspaced
    have hgap? : v.gap? d = some right.gap := by
      rcases hv with rfl | rfl <;> exact gap?_eq_gap hgap.left_eq hgap.right_eq hfollows
    simp [Violation.edit?, Violation.label, hneeds, hgap?, Edit.delete, Text.toggled, hblanks]

end CommaStyle
