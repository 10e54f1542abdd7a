import CommaStyle.Proofs.GapEdits
import CommaStyle.Proofs.Scanning.Contents

namespace CommaStyle

open Text

/-!
# What opaque tokens enclose

Every character with ink is in a token. Comments, and the commas that are no tokens, are in opaque
ones, which end where they should.

* `Token.Includes` says that a character of a text is in a token, and `Document.exists_includes` that
  every character with ink is;
* `Document.opaque_tokens` — where comments and commas are, where opaque tokens end, and which of them
  are reported.
-/

namespace Token

/-- Whether a character of a text, behind the part `before` and in front of the part `rest`, is in a
    token: `start` is what stands before the token and its white space, `u` and `v` are the other
    characters of the token, and `behind` is what stands behind it. -/
structure Includes (x : Token) (before : Text) (c : Char) (rest start u v behind : Text) : Prop where
  text : x.text = u ++ c :: v
  before_eq : before = start ++ (x.blanks ++ u)
  rest_eq : rest = v ++ behind
  stands : x.Stands (before ++ c :: rest) start behind

namespace Includes

variable {x : Token} {before rest start u v behind : Text} {c : Char}

/-- The start of a token that includes a character, and what stands in it before the character, make
    up the offset of the character. -/
theorem start_eq (h : x.Includes before c rest start u v behind) :
    x.span.start + width u = width before := by
  have hoffset : x.span.start = width (start ++ x.blanks) := h.stands.offset
  rw [hoffset, h.before_eq]
  simp only [width_append]
  omega

/-- A token that includes a character holds its offset. -/
theorem holds (h : x.Includes before c rest start u v behind) : x.Holds (width before) := by
  have hstart := h.start_eq
  have hstop : x.span.stop = x.span.start + width x.text := rfl
  have hpos := c.utf8Size_pos
  rw [h.text] at hstop
  simp only [Holds, width_append, width_cons] at hstop ⊢
  omega

end Includes

/-- A character with ink in the text of some pieces is in one of the tokens that they are placed as. -/
theorem exists_includes_place (front : Text) {trailing before rest : Text} {c : Char}
    {pieces : List Piece} (htiles : Layout.Tiles pieces trailing) (hc : isBlank c = false)
    (htext : Layout.toText ⟨pieces, trailing⟩ = before ++ c :: rest) :
    ∃ (i : Nat) (x : Token), (place (width front) (Place.origin.after front) pieces)[i]? = some x ∧
      ∃ start u v behind, x.Includes (front ++ before) c rest start u v behind := by
  induction pieces generalizing front before with
  | nil =>
    -- Behind the last piece there is white space only.
    have hblank := htiles c (by rw [← Layout.toText_nil trailing, htext]; simp)
    rw [hc] at hblank
    cases hblank
  | cons p pieces ih =>
    have hcons := htext
    rw [Layout.toText_cons] at hcons
    rcases List.append_cases hcons.symm with ⟨v, hv, hblanks, hrest⟩ | ⟨u, rfl, hrest⟩
    · -- The white space in front of the first piece has no ink.
      obtain ⟨a, v, rfl⟩ := List.exists_cons_of_ne_nil hv
      obtain ⟨rfl, -⟩ := List.cons.inj hrest
      have hblank := htiles.1 c (by simp [hblanks])
      rw [hc] at hblank
      cases hblank
    rcases List.append_cases hrest.symm with ⟨v, hv, hlexeme, hbehind⟩ | ⟨w, rfl, hbehind⟩
    · -- The character is in the first piece.
      obtain ⟨a, v, rfl⟩ := List.exists_cons_of_ne_nil hv
      obtain ⟨rfl, rfl⟩ := List.cons.inj hbehind
      have hstands := stands_place_zero front htiles rfl
      refine ⟨0, _, rfl, front, u, v, _, hlexeme, rfl, rfl, ?_⟩
      rw [htext] at hstands
      simpa only [List.append_assoc] using hstands
    · obtain ⟨i, x, hx, hincludes⟩ := ih (front ++ (p.blanks ++ p.lexeme.text)) htiles.2.2 hbehind
      refine ⟨i + 1, x, ?_, ?_⟩
      · rw [getElem?_place_succ]
        exact hx
      · simpa only [List.append_assoc] using hincludes

end Token

namespace Document

variable {t : Text} {x : Token} {c : Char}

/-- Every character with ink is in a token. -/
theorem exists_includes (before rest : Text) (hc : isBlank c = false) :
    ∃ i x, (ofText (before ++ c :: rest)).token? i = some x ∧
      ∃ start u v behind, x.Includes before c rest start u v behind := by
  have htiles := Layout.tiles_ofText (before ++ c :: rest)
  obtain ⟨i, x, hx, hincludes⟩ :=
    Token.exists_includes_place [] htiles hc (Layout.toText_ofText (before ++ c :: rest))
  refine ⟨i, x, ?_, hincludes⟩
  rw [token?_ofText]
  exact hx

/-- A comment starts in an opaque token, if only in that comment. -/
theorem exists_opaque_of_startsComment (before : Text) {rest : Text}
    (h : Lexeme.startsComment rest = true) :
    ∃ i x, (ofText (before ++ rest)).token? i = some x ∧ x.kind.isOpaque = true ∧
      x.Holds (Text.width before) := by
  obtain ⟨d, w, rfl, -⟩ := Lexeme.startsComment_iff.mp h
  obtain ⟨i, x, hx, start, u, v, behind, hincludes⟩ :=
    exists_includes (c := '/') before (d :: w) (by decide)
  refine ⟨i, x, hx, ?_, hincludes.holds⟩
  by_contra hseal
  have hplain := hincludes.stands.fits.plain (by simpa using hseal)
  have hno := hplain.startsComment_eq_false hincludes.text
  rw [← hincludes.rest_eq, h] at hno
  cases hno

/-- A comma is a token, or in an opaque one. -/
theorem exists_comma_or_enclosing (before rest : Text) :
    ∃ i x, (ofText (before ++ ',' :: rest)).token? i = some x ∧ x.Holds (Text.width before) ∧
      (x.kind.isOpaque = true ∨
        (x.kind = .comma ∧ x.text = [','] ∧ x.span = ⟨Text.width before, 1⟩)) := by
  obtain ⟨i, x, hx, start, u, v, behind, hincludes⟩ :=
    exists_includes (c := ',') before rest (by decide)
  refine ⟨i, x, hx, hincludes.holds, or_iff_not_imp_left.mpr fun hseal => ?_⟩
  have hplain := hincludes.stands.fits.plain (by simpa using hseal)
  have hcomma := hplain.eq_comma (by simp [hincludes.text])
  have htext : x.text = [','] := by rw [hcomma]
  have hstart := hincludes.start_eq
  obtain rfl : u = [] := by
    have hlength := congrArg List.length (hincludes.text.symm.trans htext)
    simp only [List.length_append, List.length_cons, List.length_nil] at hlength
    exact List.length_eq_zero_iff.mp (by omega)
  refine ⟨by rw [hcomma], htext, ?_⟩
  show (⟨x.span.start, Text.width x.text⟩ : Span) = _
  rw [htext, ← hstart]
  rfl

/-- A token without its end has a fault, since only opaque ones need an end. -/
theorem exists_fault (hx : x ∈ (ofText t).tokens) (hopen : x.closed = false) :
    ∃ fault, Fault.ofUnclosed? x.kind = some fault := by
  obtain ⟨i, hi⟩ := Array.getElem?_of_mem hx
  obtain ⟨before, rest, hstands⟩ := exists_stands hi
  by_cases hseal : x.kind.isOpaque = true
  · exact (hstands.fits.delimited hseal).exists_fault hopen
  · have hclosed := (hstands.fits.plain (by simpa using hseal)).closed
    rw [hopen] at hclosed
    cases hclosed

/-- **Reported tokens.** There is one report for each token without its end, in the same order. -/
theorem forall₂_unclosed (t : Text) :
    List.Forall₂ (fun x error => Fault.ofUnclosed? x.kind = some error.fault ∧ error.span = x.span)
      ((ofText t).tokens.toList.filter (!·.closed)) (ofText t).unclosed := by
  have hunclosed : (ofText t).unclosed = ((ofText t).tokens.toList.filter (!·.closed)).filterMap
      fun x => x.fault?.map fun fault => ⟨fault, x.span⟩ := by
    rw [List.filterMap_filter, unclosed]
    apply List.filterMap_congr
    intro x _
    cases hx : x.closed <;> simp [Token.fault?, hx]
  rw [hunclosed]
  have hfault : ∀ x ∈ (ofText t).tokens.toList.filter (!·.closed), ∃ error : SyntaxError,
      x.fault?.map (fun fault => (⟨fault, x.span⟩ : SyntaxError)) = some error ∧
        Fault.ofUnclosed? x.kind = some error.fault ∧ error.span = x.span := by
    intro x hx
    obtain ⟨hmem, hopen⟩ := List.mem_filter.mp hx
    replace hopen : x.closed = false := by simpa using hopen
    obtain ⟨fault, hfault⟩ := exists_fault (Array.mem_toList_iff.mp hmem) hopen
    exact ⟨⟨fault, x.span⟩, by simp [Token.fault?, hopen, hfault], hfault, rfl⟩
  exact (List.forall₂_filterMap hfault).imp fun _ _ h => h.2

/-- **Opaque tokens.** Comments start in opaque tokens only, which end where their terminators are;
    those without their end are reported, one by one; and commas that are no tokens are in opaque
    ones. -/
theorem opaque_tokens (t : Text) :
    (∀ before c rest, t = before ++ '/' :: c :: rest → c = '/' ∨ c = '*' →
      ∃ i x, (ofText t).token? i = some x ∧ x.kind.isOpaque = true ∧
        x.Holds (Text.width before)) ∧
    (∀ i x, (ofText t).token? i = some x → x.kind.isOpaque = true →
      ∃ before rest, t = before ++ (x.text ++ rest) ∧
        x.span = ⟨Text.width before, Text.width x.text⟩ ∧ x.Delimited rest) ∧
    List.Forall₂ (fun x error => Fault.ofUnclosed? x.kind = some error.fault ∧ error.span = x.span)
      ((ofText t).tokens.toList.filter (!·.closed)) (ofText t).unclosed ∧
    ∀ before rest, t = before ++ ',' :: rest →
      ∃ i x, (ofText t).token? i = some x ∧ x.Holds (Text.width before) ∧
        (x.kind.isOpaque = true ∨
          (x.kind = .comma ∧ x.text = [','] ∧ x.span = ⟨Text.width before, 1⟩)) := by
  refine ⟨?_, ?_, forall₂_unclosed t, ?_⟩
  · rintro before c rest rfl hc
    apply exists_opaque_of_startsComment
    exact Lexeme.startsComment_iff.mpr ⟨c, rest, rfl, hc⟩
  · intro i x hx hseal
    obtain ⟨before, rest, hstands⟩ := exists_stands hx
    refine ⟨before ++ x.blanks, rest, ?_, ?_, hstands.fits.delimited hseal⟩
    · rw [List.append_assoc]
      exact hstands.text
    · rw [← hstands.offset]
      rfl
  · rintro before rest rfl
    exact exists_comma_or_enclosing before rest

/-- A comment does not end with the slash of its own opening, and no operator runs into it. -/
example :
    let d := ofText ['+', '/', '*', '/', ',']
    d.tokens.toList.map (fun x => (x.kind, x.span)) =
        [(.operator, ⟨0, 1⟩), (.blockComment, ⟨1, 4⟩)] ∧
      d.unclosed = [⟨.unterminatedComment, ⟨1, 4⟩⟩] := by
  decide

end Document

end CommaStyle
