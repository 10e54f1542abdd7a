import CommaStyle.Proofs.Lexers
import CommaStyle.Proofs.Mending
import CommaStyle.Proofs.Scanning.Endings

namespace CommaStyle

open Text

/-!
# Where tokens stand

A token of a text has a part of the text in front of it, white space between them, and a part
behind it. Its offset and its places are counted along what stands before.

* `Token.Stands` says where a token stands, and `Document.exists_stands` that every token does so;
* `Token.Stands.next` — what stands behind a token is the white space in front of the next one, that
  one, and what is behind it. Behind the last token there is white space only;
* `Token.Stands.endsInInk` — the white space in front of a token starts with a line feed, or the
  token before it ends in a character with ink;
* `Document.eq_of_holds` — no two tokens hold the same offset.
-/

/-- Going over a text in two parts is going over both of them. -/
theorem Place.after_append (p : Place) (t u : Text) : p.after (t ++ u) = (p.after t).after u :=
  List.foldl_append

namespace Text

/-- A text is divided at an offset in one way. -/
theorem append_inj_of_width {t t' u u' : Text} (h : t ++ u = t' ++ u') (hwidth : width t = width t') :
    t = t' ∧ u = u' := by
  have hcut := cut?_width_append t u
  rw [h, hwidth, cut?_width_append] at hcut
  obtain ⟨rfl, rfl⟩ := Prod.mk.inj (Option.some.inj hcut)
  exact ⟨rfl, rfl⟩

/-- White space in front of something else is all the white space there. -/
theorem AllBlank.takeWhile_append {blanks rest : Text} (h : AllBlank blanks)
    (hrest : ∀ c ∈ rest.head?, isBlank c = false) :
    (blanks ++ rest).takeWhile isBlank = blanks := by
  rw [List.takeWhile_append_of_pos h]
  cases rest with
  | nil => simp
  | cons c rest => simp [hrest c rfl]

end Text

namespace Token

/-- Whether a token stands in a text behind the part `before`, with its white space between them,
    and in front of the part `rest`. -/
structure Stands (x : Token) (t before rest : Text) : Prop where
  text : t = before ++ (x.blanks ++ (x.text ++ rest))
  offset : x.offset = width (before ++ x.blanks)
  first : x.first = Place.origin.after (before ++ x.blanks)
  past : x.past = Place.origin.after (before ++ (x.blanks ++ x.text))
  blanks : x.blanks.AllBlank
  fits : x.Fits rest

/-- The first piece stands behind what it is placed behind. -/
theorem stands_place_zero (front : Text) {trailing : Text} {p : Piece} {pieces : List Piece}
    {x : Token} (htiles : Layout.Tiles (p :: pieces) trailing)
    (hx : (place (width front) (Place.origin.after front) (p :: pieces))[0]? = some x) :
    x.Stands (front ++ Layout.toText ⟨p :: pieces, trailing⟩) front
      (Layout.toText ⟨pieces, trailing⟩) := by
  obtain ⟨hblanks, hfits, -⟩ := htiles
  rw [place] at hx
  obtain rfl := Option.some.inj hx
  constructor
  case text => rw [Layout.toText_cons]
  case offset => simp
  case first => rw [Place.after_append]
  case past => rw [Place.after_append, Place.after_append]
  case blanks => exact hblanks
  case fits => exact hfits

/-- The other pieces are placed behind the first one. -/
theorem getElem?_place_succ (front : Text) (p : Piece) (pieces : List Piece) (i : Nat) :
    (place (width front) (Place.origin.after front) (p :: pieces))[i + 1]? =
      (place (width (front ++ (p.blanks ++ p.lexeme.text)))
        (Place.origin.after (front ++ (p.blanks ++ p.lexeme.text))) pieces)[i]? := by
  have hfront : width front + width p.blanks + width p.lexeme.text =
      width (front ++ (p.blanks ++ p.lexeme.text)) := by
    simp only [width_append]
    omega
  rw [place, List.getElem?_cons_succ, hfront, ← Place.after_append, ← Place.after_append]

/-- Every piece stands in the text where it is placed. -/
theorem exists_stands_place {front trailing : Text} {pieces : List Piece} {i : Nat} {x : Token}
    (htiles : Layout.Tiles pieces trailing)
    (hx : (place (width front) (Place.origin.after front) pieces)[i]? = some x) :
    ∃ before rest, x.Stands (front ++ Layout.toText ⟨pieces, trailing⟩) before rest ∧
      (i = 0 → before = front) ∧ (pieces.length ≤ i + 1 → rest = trailing) := by
  induction pieces generalizing front i with
  | nil => simp [place] at hx
  | cons p pieces ih =>
    cases i with
    | zero =>
      refine ⟨front, _, stands_place_zero front htiles hx, fun _ => rfl, fun hlast => ?_⟩
      obtain rfl : pieces = [] := by simpa using hlast
      rfl
    | succ i =>
      rw [getElem?_place_succ] at hx
      obtain ⟨before, rest, hstands, -, hlast⟩ := ih htiles.2.2 hx
      refine ⟨before, rest, ?_, by simp, fun h => hlast (by simpa using h)⟩
      rw [Layout.toText_cons]
      simpa only [List.append_assoc] using hstands

namespace Stands

variable {x y : Token} {t before rest : Text} (h : x.Stands t before rest)

include h

/-- A token starts with a character that is no white space. -/
theorem head_text : ∃ c u, x.text = c :: u ∧ isBlank c = false := by
  obtain ⟨c, u, htext, hc, -⟩ := h.fits
  exact ⟨c, u, htext, hc⟩

/-- A token takes a byte or more. -/
theorem width_text_pos : 0 < width x.text := by
  obtain ⟨c, u, htext, -⟩ := h.head_text
  exact width_pos (by simp [htext])

/-- A token stands in one place only. -/
theorem unique {before' rest' : Text} (h' : x.Stands t before' rest') :
    before = before' ∧ rest = rest' := by
  have hwidth : width before = width before' := by
    have hoffset := h.offset.symm.trans h'.offset
    simp only [width_append] at hoffset
    omega
  obtain ⟨hbefore, hbehind⟩ := append_inj_of_width (h.text.symm.trans h'.text) hwidth
  exact ⟨hbefore, by simpa using hbehind⟩

/-- What stands behind a token, up to the end of the next one. -/
theorem next {before' rest' : Text} (hy : y.Stands t before' rest') (hfollows : Follows x y) :
    before' = before ++ (x.blanks ++ x.text) ∧ rest = y.blanks ++ (y.text ++ rest') := by
  have hwidth : width before' = width (before ++ (x.blanks ++ x.text)) := by
    have hoffset := hfollows.offset
    have hx := h.offset
    have hy := hy.offset
    have hstop : x.span.stop = x.offset + width x.text := rfl
    simp only [width_append] at hx hy ⊢
    omega
  have htext : before' ++ (y.blanks ++ (y.text ++ rest')) =
      before ++ (x.blanks ++ x.text) ++ rest := by
    rw [← hy.text, h.text]
    simp
  obtain ⟨hbefore, hrest⟩ := append_inj_of_width htext hwidth
  exact ⟨hbefore, hrest.symm⟩

/-- The white space in front of a token starts with a line feed, or the token before it ends in a
    character with ink. -/
theorem endsInInk {before' rest' : Text} (hy : y.Stands t before' rest')
    (hfollows : Follows x y) : EndsInInk x.text ∨ ∃ u, y.blanks = '\n' :: u := by
  refine h.fits.endsInInk.imp_right fun hhead => ?_
  rw [(h.next hy hfollows).2] at hhead
  obtain ⟨c, u, htext, hc⟩ := hy.head_text
  cases hblanks : y.blanks with
  | nil =>
    -- The next token would have to start with the line feed.
    obtain rfl : c = '\n' := hhead c (by simp [hblanks, htext])
    exact absurd hc (by decide)
  | cons a u =>
    obtain rfl : a = '\n' := hhead a (by simp [hblanks])
    exact ⟨u, rfl⟩

end Stands

/-- Whether an offset falls into a token. -/
def Holds (x : Token) (offset : Nat) : Prop := x.span.start ≤ offset ∧ offset < x.span.stop

namespace Stands

variable {x : Token} {t before rest : Text}

/-- A token holds the offset at which it starts. -/
theorem holds_start (h : x.Stands t before rest) : x.Holds x.span.start :=
  ⟨Nat.le_refl _, Nat.lt_add_of_pos_right h.width_text_pos⟩

/-- A token holds the offset of its last character. -/
theorem exists_last (h : x.Stands t before rest) (hink : EndsInInk x.text) :
    ∃ front c, before ++ (x.blanks ++ x.text) = front ++ [c] ∧ x.Holds (width front) := by
  obtain ⟨u, c, htext, -⟩ := hink
  refine ⟨before ++ (x.blanks ++ u), c, by simp [htext], ?_⟩
  have hstart : x.span.start = width before + width x.blanks := by
    rw [← width_append]
    exact h.offset
  have hstop : x.span.stop = x.span.start + width x.text := rfl
  have hpos := c.utf8Size_pos
  rw [htext] at hstop
  simp only [Holds, width_append, width_cons, width_nil] at hstop ⊢
  omega

end Stands

end Token

namespace Document

variable {t : Text} {i j : Nat} {x y : Token}

/-- A token of a text stands in it: the first one at its start, and the last one in front of white
    space. -/
theorem exists_stands_and (hx : (ofText t).token? i = some x) :
    ∃ before rest, x.Stands t before rest ∧ (i = 0 → before = []) ∧
      ((ofText t).token? (i + 1) = none → rest.AllBlank) := by
  have htiles := Layout.tiles_ofText t
  have hplace : (Token.place (Text.width []) (Place.origin.after []) (Layout.ofText t).pieces)[i]? =
      some x := by
    rw [token?_ofText] at hx
    exact hx
  obtain ⟨before, rest, hstands, hfirst, hlast⟩ := Token.exists_stands_place htiles hplace
  have htext : [] ++ Layout.toText ⟨(Layout.ofText t).pieces, (Layout.ofText t).trailing⟩ = t :=
    Layout.toText_ofText t
  rw [htext] at hstands
  refine ⟨before, rest, hstands, hfirst, fun hnone => ?_⟩
  rw [token?_eq_none_iff, size_ofText] at hnone
  rw [hlast hnone]
  exact htiles.allBlank_trailing

/-- Every token of a text stands somewhere in it. -/
theorem exists_stands (hx : (ofText t).token? i = some x) :
    ∃ before rest, x.Stands t before rest := by
  obtain ⟨before, rest, hstands, -⟩ := exists_stands_and hx
  exact ⟨before, rest, hstands⟩

/-- The first token stands behind nothing but white space. -/
theorem before_eq_nil {before rest : Text} (hx : (ofText t).token? 0 = some x)
    (h : x.Stands t before rest) : before = [] := by
  obtain ⟨before', rest', hstands, hfirst, -⟩ := exists_stands_and hx
  rw [(h.unique hstands).1, hfirst rfl]

/-- The last token stands in front of nothing but white space. -/
theorem allBlank_rest {before rest : Text} (hx : (ofText t).token? i = some x)
    (hlast : (ofText t).token? (i + 1) = none) (h : x.Stands t before rest) : rest.AllBlank := by
  obtain ⟨before', rest', hstands, -, hrest⟩ := exists_stands_and hx
  rw [(h.unique hstands).2]
  exact hrest hlast

/-- Neighbours in a text follow each other. -/
theorem follows_of_token? (hx : (ofText t).token? i = some x)
    (hy : (ofText t).token? (i + 1) = some y) : Token.Follows x y := by
  rw [token?_ofText] at hx hy
  exact Token.follows_of_place hx hy

theorem exists_token? {d : Document} (h : i < d.size) : ∃ x, d.token? i = some x :=
  ⟨d.tokens[i], Array.getElem?_eq_getElem h⟩

/-- In front of a token that is not the first there is another. -/
theorem token?_of_succ {d : Document} (h : d.token? (i + 1) = some y) : ∃ x, d.token? i = some x := by
  cases hx : d.token? i with
  | some x => exact ⟨x, rfl⟩
  | none =>
    rw [token?_eq_none_iff] at hx
    have hnone := (d.token?_eq_none_iff (i + 1)).mpr (by omega)
    rw [hnone] at h
    cases h

/-- What holds of any two tokens in order holds of those with two numbers. -/
theorem of_pairwise {d : Document} {R : Token → Token → Prop} (h : d.tokens.toList.Pairwise R)
    (hij : i < j) (hx : d.token? i = some x) (hy : d.token? j = some y) : R x y := by
  rw [token?, ← Array.getElem?_toList] at hx hy
  obtain ⟨hi, rfl⟩ := List.getElem?_eq_some_iff.mp hx
  obtain ⟨hj, rfl⟩ := List.getElem?_eq_some_iff.mp hy
  exact List.pairwise_iff_getElem.mp h i j hi hj hij

/-- Of two tokens, the first has ended where the second starts. -/
theorem stop_le_start (hij : i < j) (hx : (ofText t).token? i = some x)
    (hy : (ofText t).token? j = some y) : x.span.stop ≤ y.span.start :=
  of_pairwise (Token.pairwise_place 0 Place.origin (Layout.ofText t).pieces) hij hx hy

/-- An offset falls into one token only. -/
theorem eq_of_holds {offset : Nat} (hx : (ofText t).token? i = some x)
    (hy : (ofText t).token? j = some y) (hxo : x.Holds offset) (hyo : y.Holds offset) : i = j := by
  obtain ⟨hx1, hx2⟩ := hxo
  obtain ⟨hy1, hy2⟩ := hyo
  rcases Nat.lt_trichotomy i j with hij | rfl | hij
  · have := stop_le_start hij hx hy
    omega
  · rfl
  · have := stop_le_start hij hy hx
    omega

end Document

end CommaStyle
