import CommaStyle.Proofs.Gaps

namespace CommaStyle

open Text

/-!
# Editing the white space of a layout

New white space in some of the gaps of a layout, once as edits of its text and once as pieces.

* `Layout.respace` gives some of the pieces new white space;
* `Edit.splice?_respace` — edits of the gaps in a text give the text of the pieces so changed;
* `Edit.pairwise_apart_of_gaps` — such edits stand apart;
* `Layout.respaced_respace`, `Layout.filter_toText_respace` and `Layout.forall₂_respace` — where the
  new white space may stand and has the line feeds of the old, nothing else changes.
-/

/-- Whether a character is more than white space within a line. -/
def isKept (c : Char) : Bool := !isBlank c || c == '\n'

namespace Layout

/-- Pieces with new white space in front of some of them. -/
def respace (new : Nat → Option Text) (pieces : List Piece) : List Piece :=
  pieces.mapIdx fun i p => ⟨(new i).getD p.blanks, p.lexeme⟩

@[simp] theorem respace_nil (new : Nat → Option Text) : respace new [] = [] := rfl

/-- New white space is put in front of the pieces one by one. -/
@[simp] theorem respace_cons (new : Nat → Option Text) (p : Piece) (pieces : List Piece) :
    respace new (p :: pieces) =
      ⟨(new 0).getD p.blanks, p.lexeme⟩ :: respace (fun i => new (i + 1)) pieces :=
  List.mapIdx_cons

/-- Each piece keeps its lexeme, and its white space unless there is new. -/
theorem getElem?_respace (new : Nat → Option Text) (pieces : List Piece) (i : Nat) :
    (respace new pieces)[i]? = pieces[i]?.map fun p => ⟨(new i).getD p.blanks, p.lexeme⟩ :=
  List.getElem?_mapIdx

/-- White space that may stand in its gap gives pieces that may stand for the old ones. -/
theorem respaced_respace {x : Option Lexeme} {new : Nat → Option Text} {pieces : List Piece}
    {trailing : Text} (ht : Tiles pieces trailing)
    (hfirst : ∀ p w, pieces[0]? = some p → new 0 = some w → NewGap x p.blanks w p.lexeme)
    (hnext : ∀ i p q w, pieces[i]? = some p → pieces[i + 1]? = some q → new (i + 1) = some w →
      NewGap (some p.lexeme) q.blanks w q.lexeme) :
    Respaced x pieces (respace new pieces) := by
  induction pieces generalizing x new with
  | nil => exact .nil
  | cons p pieces ih =>
    obtain ⟨hblanks, -, htiles⟩ := ht
    rw [respace_cons]
    refine .cons ?_ (ih htiles ?_ fun i => hnext (i + 1))
    · cases hw : new 0 with
      | some w => exact hfirst p w rfl hw
      -- Where nothing new is given, the old white space stays.
      | none =>
        cases x with
        | none => exact hblanks
        | some x => exact ⟨hblanks, .inl rfl⟩
    · intro q w hq hw
      exact hnext 0 p q w rfl hq hw

/-- Texts that keep the same characters have as many line feeds. -/
theorem count_eq_of_filter {t u : Text} (h : t.filter isKept = u.filter isKept) :
    t.count '\n' = u.count '\n' := by
  rw [← List.count_filter (show isKept '\n' = true by decide), h, List.count_filter (by decide)]

section

variable {new : Nat → Option Text} {pieces : List Piece}
  (hkept : ∀ i p w, pieces[i]? = some p → new i = some w →
    w.filter isKept = p.blanks.filter isKept)

include hkept

/-- Texts keep the same characters if the white space in each gap does. -/
theorem filter_toText_respace (trailing : Text) :
    (toText ⟨respace new pieces, trailing⟩).filter isKept =
      (toText ⟨pieces, trailing⟩).filter isKept := by
  induction pieces generalizing new with
  | nil => rfl
  | cons p pieces ih =>
    have hblanks : ((new 0).getD p.blanks).filter isKept = p.blanks.filter isKept := by
      cases hw : new 0 with
      | none => rfl
      | some w => exact hkept 0 p w rfl hw
    simp only [respace_cons, toText_cons, List.filter_append, hblanks]
    rw [ih fun i => hkept (i + 1)]

/-- The pieces keep their lexemes and the line feeds in front of them. -/
theorem forall₂_respace :
    List.Forall₂ (fun p q => p.lexeme = q.lexeme ∧ p.blanks.count '\n' = q.blanks.count '\n')
      pieces (respace new pieces) := by
  induction pieces generalizing new with
  | nil => exact .nil
  | cons p pieces ih =>
    rw [respace_cons]
    refine .cons ⟨rfl, ?_⟩ (ih fun i => hkept (i + 1))
    cases hw : new 0 with
    | none => rfl
    | some w => exact (count_eq_of_filter (hkept 0 p w rfl hw)).symm

end

end Layout

namespace Edit

/-! ### The edits of gaps -/

/-- A token stands behind the white space in front of it. -/
theorem add_width_le_offset {offset : Nat} {start : Place} {pieces : List Piece} {t : Token}
    (h : t ∈ Token.place offset start pieces) : offset + width t.blanks ≤ t.offset := by
  induction pieces generalizing offset start with
  | nil => simp [Token.place] at h
  | cons p pieces ih =>
    rw [Token.place] at h
    rcases List.mem_cons.mp h with rfl | h
    · exact Nat.le_refl _
    · have := ih h
      omega

/-- Whether edits are numbered by the tokens whose gaps they change. -/
def OfGaps (tokens : List Token) (edits : Nat → Option Edit) : Prop :=
  ∀ i t e, tokens[i]? = some t → edits i = some e → e.span = t.gap

variable {edits : Nat → Option Edit} {pieces : List Piece} {offset : Nat} {start : Place}

/-- Edits of gaps stand apart, since a lexeme is never empty. -/
theorem pairwise_apart_of_gaps (hne : ∀ p ∈ pieces, p.lexeme.text ≠ [])
    (hgaps : OfGaps (Token.place offset start pieces) edits) :
    ((List.range pieces.length).filterMap edits).Pairwise Apart := by
  induction pieces generalizing edits offset start with
  | nil => simp
  | cons p pieces ih =>
    rw [List.length_cons, List.filterMap_range_succ]
    rw [Token.place] at hgaps
    have htail := ih (fun q hq => hne q (List.mem_cons_of_mem _ hq)) fun i => hgaps (i + 1)
    cases he : edits 0 with
    | none => exact htail
    | some e =>
      refine List.pairwise_cons.mpr ⟨?_, htail⟩
      intro e' he'
      obtain ⟨i, hi, he'⟩ := List.mem_filterMap.mp he'
      -- Between the first gap and any other there is the lexeme of the first piece.
      have hlength := congrArg List.length (Token.map_piece_place
        (offset + width p.blanks + width p.lexeme.text)
        ((start.after p.blanks).after p.lexeme.text) pieces)
      rw [List.length_map] at hlength
      have hi' : i < pieces.length := List.mem_range.mp hi
      have htoken := List.getElem?_eq_getElem (hlength.symm ▸ hi')
      have hspan := hgaps 0 _ e rfl he
      have hspan' := hgaps (i + 1) _ e' htoken he'
      have hle := add_width_le_offset (List.mem_of_getElem? htoken)
      have hpos := width_pos (hne p List.mem_cons_self)
      rw [Apart, Span.stop, hspan, hspan']
      simp only [Token.gap]
      omega

/-- **Edits of gaps.** Edits of the gaps between pieces give the text of the pieces with the
    replacements between them. -/
theorem splice?_respace (trailing : Text) (reached : Nat) (front : Text)
    (hreached : reached + width front = offset)
    (hgaps : OfGaps (Token.place offset start pieces) edits) :
    splice? reached ((List.range pieces.length).filterMap edits)
        (front ++ Layout.toText ⟨pieces, trailing⟩) =
      some (front ++
        Layout.toText ⟨Layout.respace (fun i => (edits i).map (·.replacement)) pieces, trailing⟩) := by
  induction pieces generalizing edits offset start reached front with
  | nil => rfl
  | cons p pieces ih =>
    rw [List.length_cons, List.filterMap_range_succ, Layout.toText_cons, Layout.respace_cons,
      Layout.toText_cons]
    rw [Token.place] at hgaps
    cases he : edits 0 with
    | none =>
      -- The piece joins the text that stays in front of the next edit.
      have hnext := ih reached (front ++ (p.blanks ++ p.lexeme.text)) (by
        simp only [width_append]
        omega) fun i => hgaps (i + 1)
      simpa using hnext
    | some e =>
      -- The edit takes the place of the gap, and the lexeme stays in front of the next edit.
      have hspan : e.span = ⟨reached + width front, width p.blanks⟩ := by
        rw [hgaps 0 _ e rfl he, Token.gap, hreached, Nat.add_sub_cancel]
      have hnext := ih (reached + width front + width p.blanks) p.lexeme.text (by omega)
        fun i => hgaps (i + 1)
      rw [Option.toList_some, List.singleton_append, splice?_cons hspan, hnext]
      simp

end Edit

end CommaStyle
