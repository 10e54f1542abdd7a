import CommaStyle.Proofs.Exemption
import CommaStyle.Proofs.Leading

namespace CommaStyle

open Text

/-!
# Violations in the text

Violations are found by way of tokens and their lines. What they mean can be said of the characters
around a comma alone, together with the tokens that hold the nearest ones that are no white space.

* `Document.WrongBefore` and `Document.WrongAfter` say that the white space on a side of a comma is
  not what the settings ask for;
* `Document.onSameLine_iff` — two neighbours start on the same line just if neither the first one nor
  the white space between them has a line feed;
* `Document.mem_violations_before` and `Document.mem_violations_after` — the violations of a comma are
  those of its surroundings;
* `Document.pairwise_violations` — they come in the order of the commas, the left side first.
-/

/-- The order in which violations are listed: by their commas, the left side first. -/
def Violation.Precedes (v w : Violation) : Prop :=
  v.comma < w.comma ∨ (v.comma = w.comma ∧ v.side = .before ∧ w.side = .after)

namespace Document

/-! ### Surroundings of a comma -/

/-- Whether the white space at the end of `front`, the text before a comma, is not what is asked for,
    and the token `left` holds the last character in front of it. -/
structure WrongBefore (d : Document) (s : Settings) (front : Text) (left : Nat) : Prop where
  neighbour : ∃ before c x, front = before ++ c :: front.blanksAtEnd ∧ d.token? left = some x ∧
    x.Holds (Text.width before) ∧ x.kind ≠ .comma ∧ '\n' ∉ x.text
  sameLine : '\n' ∉ front.blanksAtEnd
  spacing : ¬(front.blanksAtEnd ≠ [] ↔ s.spaceBefore = true)

/-- Whether the white space at the start of `rest`, the text behind a comma that stands behind
    `front`, is not what is asked for, and the token `right` starts behind it. -/
structure WrongAfter (d : Document) (s : Settings) (front rest : Text) (right : Nat) : Prop where
  neighbour : ∃ x, d.token? right = some x ∧
    x.span.start = Text.width front + 1 + Text.width (rest.takeWhile isBlank) ∧ x.kind ≠ .comma ∧
    ¬(x.kind = .lineComment ∧ s.spaceAfter = false)
  sameLine : '\n' ∉ rest.takeWhile isBlank
  notExcused : ¬(s.excuseLeading = true ∧ front.lastLine.AllBlank)
  spacing : ¬(rest.takeWhile isBlank ≠ [] ↔ s.spaceAfter = true)

section

variable {d : Document} {s : Settings} {exempt : List Nat} {leaders : Leaders} {i : Nat}
  {x y : Token} {v : Violation}

/-- What is asked in front of a comma with a token before it. -/
theorem violationBefore?_succ (hx : d.token? i = some x) (hy : d.token? (i + 1) = some y) :
    d.violationBefore? s exempt (i + 1) = some v ↔
      (x.kind ≠ .comma ∧ i + 1 ∉ exempt ∧ x.onSameLine y = true ∧ y.isSpaced ≠ s.spaceBefore) ∧
        ⟨i + 1, .before, i⟩ = v := by
  simp [violationBefore?, prev?, hx, hy, and_assoc]

/-- What is asked behind a comma with a token after it. -/
theorem violationAfter?_of_token? (hx : d.token? i = some x) (hy : d.token? (i + 1) = some y) :
    d.violationAfter? s leaders i = some v ↔
      (y.kind ≠ .comma ∧ ¬(y.kind = .lineComment ∧ s.spaceAfter = false) ∧ x.onSameLine y = true ∧
        ¬(s.excuseLeading = true ∧ d.isLeading leaders i = true) ∧ y.isSpaced ≠ s.spaceAfter) ∧
        ⟨i, .after, i + 1⟩ = v := by
  simp [violationAfter?, next?_of_token? hy, hx, hy, and_assoc, imp_iff_not_or]

/-- Nothing is asked behind the last token. -/
theorem violationAfter?_of_none (hy : d.token? (i + 1) = none) :
    d.violationAfter? s leaders i = none := by
  simp [violationAfter?, next?_of_token?_none hy]

/-- The violations of a comma are those found on its two sides. -/
theorem mem_violations :
    v ∈ d.violations s exempt ↔ d.isComma v.comma = true ∧
      (d.violationBefore? s exempt v.comma = some v ∨ d.violationAfter? s d.leaders v.comma = some v) := by
  unfold violations
  simp only [List.mem_flatMap, List.mem_filter, List.mem_append, Option.mem_toList]
  constructor
  · rintro ⟨i, ⟨-, hcomma⟩, h⟩
    obtain rfl : v.comma = i := by
      rcases h with h | h
      · obtain ⟨left, rfl⟩ := exists_of_violationBefore? h
        rfl
      · obtain ⟨right, rfl⟩ := exists_of_violationAfter? h
        rfl
    exact ⟨hcomma, h⟩
  · rintro ⟨hcomma, h⟩
    exact ⟨v.comma, ⟨List.mem_range.mpr (lt_size_of_kind? (beq_iff_eq.mp hcomma)), hcomma⟩, h⟩

end

/-! ### Lines -/

variable {t before rest : Text} {s : Settings} {i : Nat} {x y : Token}

/-- Two neighbours start on the same line just if no line feed stands in the first one or between
    them. -/
theorem onSameLine_iff (hx : (ofText t).token? i = some x) (hy : (ofText t).token? (i + 1) = some y) :
    x.onSameLine y = true ↔ '\n' ∉ x.text ∧ '\n' ∉ y.blanks := by
  have hline := (follows_of_token? hx hy).line
  have hpast := past_line_of_token? hx
  rw [Token.onSameLine, beq_iff_eq, ← List.count_eq_zero, ← List.count_eq_zero]
  omega

/-- A token is not spaced as asked if there is white space in front of it and should not be, or the
    other way round. -/
theorem isSpaced_ne_iff {b : Bool} : y.isSpaced ≠ b ↔ ¬(y.blanks ≠ [] ↔ b = true) := by
  cases b <;> simp [Token.isSpaced]

/-- A comma and what stands around it. -/
theorem comma_stands (hkind : x.kind = .comma) (h : x.Stands t before rest) :
    x.text = [','] ∧ t = before ++ x.blanks ++ ',' :: rest := by
  have htext : x.text = [','] := congrArg Lexeme.text (Lexeme.fits_comma h.fits hkind).1
  refine ⟨htext, ?_⟩
  rw [h.text, htext]
  simp

/-- Where no line feed stands between two neighbours, the white space between them is all that there
    is, and the left one holds the character in front of it. -/
theorem blanksAtEnd_between {before' rest' : Text} (hy : y.Stands t before' rest')
    (hx : x.Stands t before rest) (hfollows : Token.Follows y x) (hfeed : '\n' ∉ x.blanks) :
    (before ++ x.blanks).blanksAtEnd = x.blanks ∧
      ∃ front c, before = front ++ [c] ∧ y.Holds (Text.width front) := by
  have hink : EndsInInk y.text := by
    rcases hy.endsInInk hx hfollows with hink | ⟨u, hu⟩
    · exact hink
    · exact absurd (by simp [hu]) hfeed
  rw [(hy.next hx hfollows).1]
  exact ⟨blanksAtEnd_append (endsInInk_append before' (endsInInk_append y.blanks hink)) hx.blanks,
    hy.exists_last hink⟩

/-! ### The two sides of a comma -/

/-- A violation is listed if it is found on its side. -/
theorem mem_violations_of_side (hx : (ofText t).token? i = some x) (hkind : x.kind = .comma)
    (exempt : List Nat) (j : Nat) :
    (⟨i, .before, j⟩ ∈ (ofText t).violations s exempt ↔
      (ofText t).violationBefore? s exempt i = some ⟨i, .before, j⟩) ∧
    (⟨i, .after, j⟩ ∈ (ofText t).violations s exempt ↔
      (ofText t).violationAfter? s (ofText t).leaders i = some ⟨i, .after, j⟩) := by
  have hcomma : (ofText t).isComma i = true := by simp [isComma, kind?, hx, hkind]
  constructor
  · rw [mem_violations]
    refine ⟨?_, fun h => ⟨hcomma, .inl h⟩⟩
    rintro ⟨-, h | h⟩
    · exact h
    · obtain ⟨right, hright⟩ := exists_of_violationAfter? h
      cases hright
  · rw [mem_violations]
    refine ⟨?_, fun h => ⟨hcomma, .inr h⟩⟩
    rintro ⟨-, h | h⟩
    · obtain ⟨left, hleft⟩ := exists_of_violationBefore? h
      cases hleft
    · exact h

/-- **In front of a comma.** The violation there is the one that its surroundings show. -/
theorem mem_violations_before (hx : (ofText t).token? i = some x) (hkind : x.kind = .comma)
    (hstands : x.Stands t before rest) (exempt : List Nat) (j : Nat) :
    ⟨i, .before, j⟩ ∈ (ofText t).violations s exempt ↔
      i ∉ exempt ∧ (ofText t).WrongBefore s (before ++ x.blanks) j := by
  rw [(mem_violations_of_side hx hkind exempt j).1]
  cases i with
  | zero =>
    -- Nothing but white space stands in front of the first token.
    obtain rfl := before_eq_nil hx hstands
    constructor
    · intro h
      simp [violationBefore?, prev?] at h
    · rintro ⟨-, ⟨front, c, y, hfront, -⟩, -⟩
      have hall : blanksAtEnd ([] ++ x.blanks) = x.blanks :=
        List.rtakeWhile_eq_self_iff.mpr hstands.blanks
      rw [hall] at hfront
      have hlength := congrArg List.length hfront
      simp only [List.nil_append, List.length_append, List.length_cons] at hlength
      omega
  | succ k =>
    obtain ⟨y, hy⟩ := token?_of_succ hx
    obtain ⟨before', rest', hstands'⟩ := exists_stands hy
    have hfollows := follows_of_token? hy hx
    rw [violationBefore?_succ hy hx, onSameLine_iff hy hx, isSpaced_ne_iff]
    constructor
    · rintro ⟨⟨hne, hexempt, ⟨htext, hfeed⟩, hspacing⟩, hv⟩
      obtain rfl : k = j := congrArg Violation.neighbour hv
      obtain ⟨hblanks, front, c, hfront, hholds⟩ := blanksAtEnd_between hstands' hstands hfollows hfeed
      refine ⟨hexempt, ⟨⟨front, c, y, ?_, hy, hholds, hne, htext⟩, ?_, ?_⟩⟩
      · rw [hblanks, hfront]
        simp
      · rwa [hblanks]
      · rwa [hblanks]
    · rintro ⟨hexempt, ⟨front', c', z, hfront', hz, hholds', hne, htext⟩, hsame, hspacing⟩
      have hfeed : '\n' ∉ x.blanks := by
        intro hmem
        rw [blanksAtEnd, List.rtakeWhile_append_of_pos hstands.blanks] at hsame
        exact hsame (List.mem_append_right _ hmem)
      obtain ⟨hblanks, front, c, hfront, hholds⟩ := blanksAtEnd_between hstands' hstands hfollows hfeed
      rw [hblanks] at hfront' hspacing
      have hlast : front ++ [c] = front' ++ [c'] := by
        rw [← hfront]
        exact List.append_cancel_right (hfront'.trans (by simp))
      obtain rfl : front = front' := (List.append_inj' hlast rfl).1
      obtain rfl := eq_of_holds hy hz hholds hholds'
      obtain rfl := Option.some.inj (hy.symm.trans hz)
      exact ⟨⟨hne, hexempt, ⟨htext, hfeed⟩, hspacing⟩, rfl⟩

/-- **Behind a comma.** The violation there is the one that its surroundings show. -/
theorem mem_violations_after (hx : (ofText t).token? i = some x) (hkind : x.kind = .comma)
    (hstands : x.Stands t before rest) (exempt : List Nat) (j : Nat) :
    ⟨i, .after, j⟩ ∈ (ofText t).violations s exempt ↔
      (ofText t).WrongAfter s (before ++ x.blanks) rest j := by
  rw [(mem_violations_of_side hx hkind exempt j).2]
  obtain ⟨htext, hwhole⟩ := comma_stands hkind hstands
  cases hy : (ofText t).token? (i + 1) with
  | none =>
    constructor
    · intro h
      rw [violationAfter?_of_none hy] at h
      cases h
    · -- Behind the white space the text has ended, and no token can start there.
      rintro ⟨⟨z, hz, hstart, -⟩, -⟩
      obtain ⟨front, behind, hzstands⟩ := exists_stands hz
      have hall : rest.takeWhile isBlank = rest :=
        List.takeWhile_eq_self_iff.mpr (allBlank_rest hx hy hstands)
      have hpos := hzstands.width_text_pos
      have hoffset : z.span.start = Text.width (front ++ z.blanks) := hzstands.offset
      have hwidth := congrArg Text.width (hwhole.symm.trans hzstands.text)
      have hone : (',' : Char).utf8Size = 1 := rfl
      rw [hall] at hstart
      simp only [width_append, width_cons, hone] at hstart hoffset hwidth
      omega
  | some y =>
    obtain ⟨before', rest', hstands'⟩ := exists_stands hy
    have hfollows := follows_of_token? hx hy
    have hrest := (hstands.next hstands' hfollows).2
    have hblanks : rest.takeWhile isBlank = y.blanks := by
      obtain ⟨c, u, hc, hink⟩ := hstands'.head_text
      rw [hrest]
      refine hstands'.blanks.takeWhile_append ?_
      simpa [hc] using hink
    have hstart : y.span.start =
        Text.width (before ++ x.blanks) + 1 + Text.width (rest.takeWhile isBlank) := by
      have hstop : x.span.stop = x.offset + Text.width x.text := rfl
      have hone : Text.width [','] = 1 := rfl
      rw [hblanks, ← hstands.offset, ← hone, ← htext, ← hstop]
      exact hfollows.offset
    have hfeed : '\n' ∉ x.text := by simp [htext]
    rw [violationAfter?_of_token? hx hy, onSameLine_iff hx hy, isSpaced_ne_iff,
      isLeading_iff_allBlank hx hstands]
    constructor
    · rintro ⟨⟨hne, hcomment, ⟨-, hsame⟩, hexcused, hspacing⟩, hv⟩
      obtain rfl : i + 1 = j := congrArg Violation.neighbour hv
      rw [← hblanks] at hsame hspacing
      exact ⟨⟨y, hy, hstart, hne, hcomment⟩, hsame, hexcused, hspacing⟩
    · rintro ⟨⟨z, hz, hstart', hne, hcomment⟩, hsame, hexcused, hspacing⟩
      obtain ⟨front, behind, hzstands⟩ := exists_stands hz
      have hholds := hzstands.holds_start
      rw [hstart', ← hstart] at hholds
      obtain rfl := eq_of_holds hy hz hstands'.holds_start hholds
      obtain rfl := Option.some.inj (hy.symm.trans hz)
      rw [hblanks] at hsame hspacing
      exact ⟨⟨hne, hcomment, ⟨hfeed, hsame⟩, hexcused, hspacing⟩, rfl⟩

/-! ### All violations -/

/-- Violations are listed by their commas, the left side first. -/
theorem pairwise_violations (d : Document) (s : Settings) (exempt : List Nat) :
    (d.violations s exempt).Pairwise Violation.Precedes := by
  unfold violations
  rw [List.pairwise_flatMap]
  constructor
  · intro i _
    -- A comma has at most one violation on each side.
    cases hbefore : d.violationBefore? s exempt i with
    | none => cases hafter : d.violationAfter? s d.leaders i <;> simp
    | some v =>
      cases hafter : d.violationAfter? s d.leaders i with
      | none => simp
      | some w =>
        obtain ⟨left, rfl⟩ := exists_of_violationBefore? hbefore
        obtain ⟨right, rfl⟩ := exists_of_violationAfter? hafter
        simp [Violation.Precedes]
  · refine (List.pairwise_lt_range.filter _).imp fun {i j} hij v hv w hw => .inl ?_
    have hcomma : ∀ {k u}, u ∈ (d.violationBefore? s exempt k).toList ++
        (d.violationAfter? s d.leaders k).toList → u.comma = k := by
      intro k u hu
      simp only [List.mem_append, Option.mem_toList] at hu
      rcases hu with hu | hu
      · obtain ⟨left, rfl⟩ := exists_of_violationBefore? hu
        rfl
      · obtain ⟨right, rfl⟩ := exists_of_violationAfter? hu
        rfl
    rw [hcomma hv, hcomma hw]
    exact hij

/-- **Violations in the text.** What is reported about a comma can be seen in the characters around
    it: on its left side unless it is exempt, and on its right side. Only commas are reported, in
    their order, and the left side before the right one. -/
theorem violations_in_text (t : Text) (s : Settings) (lists : List ListNode) :
    (∀ i x, (ofText t).token? i = some x → x.kind = .comma →
      ∃ front rest, t = front ++ ',' :: rest ∧ x.span = ⟨Text.width front, 1⟩ ∧
        (∀ j, ⟨i, .before, j⟩ ∈ (ofText t).violations s ((ofText t).exempt lists) ↔
          i ∉ (ofText t).exempt lists ∧ (ofText t).WrongBefore s front j) ∧
        ∀ j, ⟨i, .after, j⟩ ∈ (ofText t).violations s ((ofText t).exempt lists) ↔
          (ofText t).WrongAfter s front rest j) ∧
      (∀ v ∈ (ofText t).violations s ((ofText t).exempt lists), (ofText t).isComma v.comma = true) ∧
      ((ofText t).violations s ((ofText t).exempt lists)).Pairwise Violation.Precedes := by
  refine ⟨?_, fun v hv => (mem_violations.mp hv).1, pairwise_violations _ s _⟩
  intro i x hx hkind
  obtain ⟨before, rest, hstands⟩ := exists_stands hx
  obtain ⟨htext, hwhole⟩ := comma_stands hkind hstands
  refine ⟨before ++ x.blanks, rest, hwhole, ?_, fun j => mem_violations_before hx hkind hstands _ j,
    fun j => mem_violations_after hx hkind hstands _ j⟩
  rw [Token.span, htext, hstands.offset]
  rfl

/-- A comma that is wrong on both sides, behind a hole. -/
theorem violations_in_text_both :
    let t := ['[', ',', 'a', ' ', ',', 'b', ']']
    let lists := (ofText t).outline.lists
    (ofText t).token? 3 = some ⟨⟨.comma, [','], true⟩, [' '], 4, ⟨0, 4⟩, ⟨0, 5⟩⟩ ∧
      (ofText t).exempt lists = [1] ∧
      ∃ front rest, t = front ++ ',' :: rest ∧ Text.width front = 4 ∧
        (ofText t).WrongBefore .standard front 2 ∧ (ofText t).WrongAfter .standard front rest 4 := by
  intro t lists
  have hx : (ofText t).token? 3 = some ⟨⟨.comma, [','], true⟩, [' '], 4, ⟨0, 4⟩, ⟨0, 5⟩⟩ := by
    decide
  obtain ⟨front, rest, hwhole, hspan, hbefore, hafter⟩ :=
    (violations_in_text t .standard lists).1 3 _ hx rfl
  exact ⟨hx, by decide, front, rest, hwhole, (congrArg Span.start hspan).symm,
    ((hbefore 2).mp (by decide)).2, (hafter 4).mp (by decide)⟩

end Document

end CommaStyle
