import CommaStyle.Proofs.Collections
import CommaStyle.Proofs.Grammar.InPlace
import CommaStyle.Proofs.Standing
import CommaStyle.Proofs.Strict.Basic

namespace CommaStyle

open Text Grammar

/-!
# Strict documents and outlines

The tokens and the outline of a text that is not too long are found without a failing step.

* `Text.slice?_width_append`, `Text.slice?_of_append` — what is between two cuts of a text;
* `Strict.document?_eq` — strict lexing finds the tokens of the document;
* `Strict.outline?_eq` — the strict outline is the outline;
* `Strict.exists_describe?` — every outline can be printed.
-/

/-! ### Cuts -/

namespace Text

/-- A slice behind a front part is what can be cut off there. -/
theorem slice?_width_append (front rest : Text) (length : Nat) :
    slice? (front ++ rest) ⟨width front, length⟩ = (cut? length rest).map Prod.fst := by
  simp only [slice?, cut?_width_append, Option.bind_eq_bind, Option.bind_some, Option.map_eq_bind]
  rfl

/-- What stands between two cuts. -/
theorem slice?_of_append (front inside rest : Text) :
    slice? (front ++ (inside ++ rest)) ⟨width front, width inside⟩ = some inside := by
  rw [slice?_width_append, cut?_width_append, Option.map_some]

/-- A text can be sliced between any two of its cuts. -/
theorem exists_slice? {t a b u v : Text} (ha : t = a ++ u) (hb : t = b ++ v)
    (hle : width a ≤ width b) : ∃ w, slice? t ⟨width a, width b - width a⟩ = some w := by
  have hprefix : ∃ w, b = a ++ w ∧ u = w ++ v := by
    rcases List.append_eq_append_iff.mp (ha.symm.trans hb) with ⟨w, rfl, rfl⟩ | ⟨w, rfl, rfl⟩
    · exact ⟨w, rfl, rfl⟩
    · -- The second cut is not in front of the first one, so that nothing is between them.
      obtain rfl : w = [] := by
        by_contra hne
        have hpos := width_pos hne
        rw [width_append] at hle
        omega
      exact ⟨[], by simp, rfl⟩
  obtain ⟨w, rfl, rfl⟩ := hprefix
  refine ⟨w, ?_⟩
  rw [width_append, Nat.add_sub_cancel_left, ha]
  exact slice?_of_append a w v

/-- The place behind a front part of a text. -/
theorem place?_width_append (front rest : Text) :
    place? (front ++ rest) (width front) = some (Place.origin.after front) := by
  simp [place?]

end Text

namespace Strict

/-! ### Numbers -/

theorem fit?_of_le {n : Nat} (h : n ≤ maxOffset) : fit? n = some n := if_pos h

theorem minus?_of_le {a b : Nat} (h : b ≤ a) : minus? a b = some (a - b) := if_pos h

theorem width?_of_le {t : Text} (h : Text.width t ≤ maxOffset) : width? t = some (Text.width t) :=
  fit?_of_le h

/-! ### Tokens -/

section

variable {t front rest : Text}

/-- The span of a part of a text, from what was left in front of it and what is left behind it. -/
theorem span?_eq {inside : Text} (ht : t = front ++ (inside ++ rest))
    (hfit : Text.width t ≤ maxOffset) :
    span? t (Text.width (inside ++ rest)) rest = some ⟨Text.width front, Text.width inside⟩ := by
  have hwidth : Text.width t = Text.width front + (Text.width inside + Text.width rest) := by
    rw [ht, width_append, width_append]
  have hrest : Text.width rest ≤ maxOffset := by omega
  have hleft : Text.width rest ≤ Text.width t := by omega
  have hstop : Text.width t - Text.width rest = Text.width front + Text.width inside := by omega
  have hahead : Text.width rest ≤ Text.width inside + Text.width rest := Nat.le_add_left _ _
  have hlength : Text.width inside ≤ Text.width front + Text.width inside := Nat.le_add_left _ _
  simp only [span?, width?_of_le hfit, width?_of_le hrest, width_append, minus?_of_le hleft,
    minus?_of_le hahead, hstop, Nat.add_sub_cancel, minus?_of_le hlength, Option.bind_eq_bind,
    Option.bind_some, Span.between?, Nat.le_add_right, if_true, Nat.add_sub_cancel_left]

/-- A lexeme that was cut off is found in the text again, in its place. -/
theorem token?_eq {blanks : Text} {x : Lexeme} (ht : t = front ++ (blanks ++ (x.text ++ rest)))
    (hfit : Text.width t ≤ maxOffset) :
    token? t blanks (Text.width (x.text ++ rest)) x rest =
      some ⟨x, blanks, Text.width front + Text.width blanks, (Place.origin.after front).after blanks,
        ((Place.origin.after front).after blanks).after x.text⟩ := by
  have hsplit : t = (front ++ blanks) ++ (x.text ++ rest) := by rw [ht, List.append_assoc]
  have hsplit' : t = (front ++ blanks ++ x.text) ++ rest := by rw [ht]; simp
  have hslice : slice? t ⟨Text.width (front ++ blanks), Text.width x.text⟩ = some x.text := by
    rw [hsplit]
    exact slice?_of_append _ _ _
  have hfirst : place? t (Text.width (front ++ blanks)) =
      some (Place.origin.after (front ++ blanks)) := by
    rw [hsplit]
    exact place?_width_append _ _
  have hpast : place? t (Text.width (front ++ blanks) + Text.width x.text) =
      some (Place.origin.after (front ++ blanks ++ x.text)) := by
    rw [← width_append, hsplit']
    exact place?_width_append _ _
  rw [token?, span?_eq hsplit hfit]
  simp only [hslice, Span.stop, hfirst, hpast, Option.bind_eq_bind, Option.bind_some,
    Option.pure_def]
  rw [width_append, Place.after_append, Place.after_append, Place.after_append]

/-- **Tokens.** The tokens of a text that is not too long are found strictly, each where its piece is
    placed. -/
theorem tokensWithin?_eq {pieces : List Piece} {trailing : Text} {bound : Nat}
    (htiles : Layout.Tiles pieces trailing)
    (ht : t = front ++ Layout.toText ⟨pieces, trailing⟩) (hfit : Text.width t ≤ maxOffset)
    (hbound : pieces.length < bound) :
    tokensWithin? t bound (Layout.toText ⟨pieces, trailing⟩) =
      some (Token.place (Text.width front) (Place.origin.after front) pieces) := by
  induction pieces generalizing front bound with
  | nil =>
    obtain ⟨bound, rfl⟩ := Nat.exists_eq_succ_of_ne_zero (Nat.ne_of_gt hbound)
    have hdrop : trailing.dropWhile isBlank = [] := List.dropWhile_eq_nil_iff.mpr htiles
    have hend : t = t ++ ([] ++ []) := by simp
    have hspan := span?_eq hend hfit
    simp only [List.append_nil, width_nil] at hspan
    simp [tokensWithin?, hdrop, width?_of_le (t := []) (Nat.zero_le _), hspan, Token.place]
  | cons p pieces ih =>
    obtain ⟨bound, rfl⟩ := Nat.exists_eq_succ_of_ne_zero (Nat.ne_of_gt (Nat.zero_lt_of_lt hbound))
    obtain ⟨hblanks, ⟨c, u, htext, hc, hscan⟩, htiles⟩ := htiles
    rw [Layout.toText_cons] at ht ⊢
    have hhead : ∀ a ∈ (p.lexeme.text ++ Layout.toText ⟨pieces, trailing⟩).head?,
        isBlank a = false := by
      simpa [htext] using hc
    have htake := hblanks.takeWhile_append hhead
    have hdrop : (p.blanks ++ (p.lexeme.text ++ Layout.toText ⟨pieces, trailing⟩)).dropWhile isBlank =
        p.lexeme.text ++ Layout.toText ⟨pieces, trailing⟩ := by
      rw [List.dropWhile_append_of_pos hblanks, htext, List.cons_append,
        List.dropWhile_cons_of_neg (by simp [hc])]
    have hahead : Text.width (p.lexeme.text ++ Layout.toText ⟨pieces, trailing⟩) ≤ maxOffset := by
      rw [ht] at hfit
      simp only [width_append] at hfit ⊢
      omega
    have htoken := token?_eq ht hfit
    have hrest : t = front ++ (p.blanks ++ p.lexeme.text) ++ Layout.toText ⟨pieces, trailing⟩ := by
      rw [ht]
      simp
    have hmore := ih htiles hrest (Nat.lt_of_succ_lt_succ hbound)
    rw [tokensWithin?, htake, hdrop, width?_of_le hahead]
    simp only [htext, List.cons_append, Option.bind_eq_bind, Option.bind_some] at htoken ⊢
    simp only [hscan, htoken, hmore, Option.bind_some, Option.pure_def, Token.place, width_append,
      Place.after_append, Nat.add_assoc, htext]

/-- **Strict tokens.** The tokens of a text that is not too long are found without a failing step. -/
theorem document?_eq (hfit : Text.width t ≤ maxOffset) : document? t = some (Document.ofText t) := by
  have htiles := Layout.tiles_ofText t
  have htext : Layout.toText ⟨(Layout.ofText t).pieces, (Layout.ofText t).trailing⟩ = t :=
    Layout.toText_ofText t
  have hlength : (Layout.ofText t).pieces.length ≤ t.length :=
    htiles.length_le.trans_eq (congrArg List.length htext)
  have hwhole : t = [] ++ Layout.toText ⟨(Layout.ofText t).pieces, (Layout.ofText t).trailing⟩ :=
    htext.symm
  have htokens := tokensWithin?_eq htiles hwhole hfit (Nat.lt_succ_of_le hlength)
  rw [htext] at htokens
  have hcount : (Token.place (Text.width []) (Place.origin.after [])
      (Layout.ofText t).pieces).length ≤ maxOffset := by
    have hsize := Document.size_ofText t
    rw [Document.size, Document.ofText, List.size_toArray] at hsize
    exact (hsize.trans_le hlength).trans ((length_le_width t).trans hfit)
  rw [document?, htokens]
  simp only [Option.bind_eq_bind, Option.bind_some, fit?_of_le hcount]
  rfl

end

/-! ### Outlines -/

section

variable {d : Document}

/-- A position of a kind has its token. -/
theorem tokenAt?_of_lt {p : Nat} (h : p < d.kinds.length) :
    tokenAt? d p = some (d.significantAt p) := by
  have hlt : p < d.significant.length := d.length_kinds ▸ h
  rw [tokenAt?, List.getElem?_eq_getElem hlt, Document.significantAt_of_lt hlt]

theorem tokenAt?_of_le {p : Nat} (h : d.kinds.length ≤ p) : tokenAt? d p = none :=
  List.getElem?_eq_none (d.length_kinds ▸ h)

/-- A list literal whose entries are in place has all of its tokens. -/
theorem list?_eq {shallow : Prop} {n : Node} (h : n.InPlace d.kinds shallow) :
    list? d n = some (ListNode.ofNode d.significantAt n) := by
  obtain ⟨hopening, hplaced⟩ := h
  have hentries : n.entries.mapM (element? d) =
      some (n.entries.map (Entry.element? d.significantAt)) := by
    refine List.mapM_eq_some_map fun e he => ?_
    cases e with
    | hole comma => rfl
    | element e =>
      obtain ⟨hle, hlast⟩ := hplaced.lt_length he
      simp [element?, Entry.element?, tokenAt?_of_lt hlast,
        tokenAt?_of_lt (Nat.lt_of_le_of_lt hle hlast)]
  have hlt : n.opening < d.kinds.length := (List.getElem?_eq_some_iff.mp hopening).1
  simp [list?, tokenAt?_of_lt hlt, hentries, ListNode.ofNode]

/-- A fault has a span, at a token or at the end of the text. -/
theorem error?_eq (hfit : Text.width d.text ≤ maxOffset) (m : Mark) :
    error? d m = some ⟨m.fault, d.spanOrEnd (d.significantAt m.position)⟩ := by
  by_cases h : m.position < d.kinds.length
  · obtain ⟨x, hx⟩ := Document.exists_token?_significantAt h
    simp [error?, tokenAt?_of_lt h, hx, Document.spanOrEnd_of_token? hx]
  · have hle := Nat.not_lt.mp h
    simp [error?, tokenAt?_of_le hle, width?_of_le hfit, Document.significantAt_of_le hle,
      Document.spanOrEnd_size, Document.width]

/-- **Strict outlines.** The outline is found without a failing step. -/
theorem outline?_eq (hfit : Text.width d.text ≤ maxOffset) : outline? d = some d.outline := by
  have hkinds : d.significant.mapM d.kind? = some d.kinds := by
    have hall : (d.significant.map d.kind?).mapM id = (d.kinds.map some).mapM id :=
      congrArg _ d.map_some_kinds.symm
    rw [List.mapM_map, List.mapM_map] at hall
    exact hall.trans ((List.mapM_eq_some_map fun _ _ => rfl).trans (congrArg some (List.map_id' _)))
  have hrun : Guarded.program.run ⟨Reading.ofKinds d.kinds, 0⟩ = some ((), ⟨d.reading, 0⟩) :=
    Guarded.guards_program _
  have hlists : d.reading.lists.mapM (list? d) =
      some (d.reading.lists.map (ListNode.ofNode d.significantAt)) :=
    List.mapM_eq_some_map fun n hn => list?_eq (inPlace_of_mem_lists hn)
  have herrors := List.mapM_eq_some_map (l := d.reading.marks) fun m _ => error?_eq hfit m
  simp only [outline?, hkinds, hrun, hlists, herrors, Option.bind_eq_bind, Option.bind_some]
  rfl

end

/-! ### Printed outlines -/

section

variable {t : Text} {i j : Nat}

/-- The stretch of text from one token to another one that is not in front of it. -/
theorem exists_slice?_cover? (hij : i ≤ j) (hj : j < (Document.ofText t).size) :
    ∃ cover text, (Document.ofText t).cover? i j = some cover ∧ slice? t cover = some text := by
  obtain ⟨x, hx⟩ := Document.exists_token? (Nat.lt_of_le_of_lt hij hj)
  obtain ⟨y, hy⟩ := Document.exists_token? hj
  obtain ⟨before, rest, hstands⟩ := Document.exists_stands hx
  obtain ⟨before', rest', hstands'⟩ := Document.exists_stands hy
  have hstart : x.span.start ≤ y.span.start ∧ x.span.stop ≤ y.span.stop := by
    rcases Nat.eq_or_lt_of_le hij with rfl | hlt
    · rw [Option.some.inj (hx.symm.trans hy)]
      exact ⟨Nat.le_refl _, Nat.le_refl _⟩
    · have hle := Document.stop_le_start hlt hx hy
      exact ⟨(Nat.le_add_right _ _).trans hle, hle.trans (Nat.le_add_right _ _)⟩
  have hfirst : x.span.start = Text.width (before ++ x.blanks) := hstands.offset
  have hpast : y.span.stop = Text.width (before' ++ (y.blanks ++ y.text)) := by
    have hoffset := hstands'.offset
    simp only [Token.span, Span.stop, width_append] at hoffset ⊢
    omega
  have hle : x.span.start ≤ y.span.stop := hstart.1.trans (Nat.le_add_right _ _)
  have hsplit : t = (before ++ x.blanks) ++ (x.text ++ rest) := by
    rw [List.append_assoc, ← hstands.text]
  have hsplit' : t = (before' ++ (y.blanks ++ y.text)) ++ rest' := by
    rw [List.append_assoc, List.append_assoc, ← hstands'.text]
  obtain ⟨w, hw⟩ := exists_slice? hsplit hsplit' (by rwa [← hfirst, ← hpast])
  refine ⟨x.span.cover y.span, w, ?_, ?_⟩
  · simp [Document.cover?, hx, hy]
  · rw [Span.cover, Nat.min_eq_left hstart.1, Nat.max_eq_right hstart.2, hfirst, hpast]
    exact hw

/-- The token at a position is in the document. -/
theorem significantAt_lt_size {d : Document} {p : Nat} (h : p < d.kinds.length) :
    d.significantAt p < d.size := by
  obtain ⟨x, hx⟩ := Document.exists_token?_significantAt h
  exact Document.lt_size_of_token? hx

/-- Every list literal that is found in a text can be printed. -/
theorem exists_describeList? {n : Node} {shallow : Prop}
    (h : n.InPlace (Document.ofText t).kinds shallow) :
    ∃ line, Outline.describeList? (Document.ofText t)
      (ListNode.ofNode (Document.ofText t).significantAt n) = some line := by
  obtain ⟨hopening, hplaced⟩ := h
  obtain ⟨x, hx⟩ := Document.exists_token?_significantAt (List.getElem?_eq_some_iff.mp hopening).1
  have helements : ∃ lines, (n.entries.map (Entry.element? (Document.ofText t).significantAt)).mapM
      (Outline.describeElement? (Document.ofText t)) = some lines := by
    refine ⟨_, List.mapM_eq_some_filterMap fun element helement => ?_⟩
    obtain ⟨e, he, rfl⟩ := List.mem_map.mp helement
    cases e with
    | hole comma => exact ⟨_, rfl⟩
    | element e =>
      obtain ⟨hle, hlast⟩ := hplaced.lt_length he
      obtain ⟨cover, text, hcover, htext⟩ := exists_slice?_cover?
        ((Document.ofText t).significantAt_mono hle) (significantAt_lt_size hlast)
      refine ⟨String.ofList text, ?_⟩
      simp only [Outline.describeElement?, Entry.element?, hcover, Option.bind_eq_bind,
        Option.bind_some]
      exact (congrArg (Option.bind · _) htext)
  obtain ⟨lines, hlines⟩ := helements
  simp [Outline.describeList?, ListNode.ofNode, hx, hlines]

/-- **Printed outlines.** The outline of a text can be printed. -/
theorem exists_describe? (t : Text) :
    ∃ description, (Document.ofText t).outline.describe? (Document.ofText t) = some description := by
  have hlists : ∃ lines, (Document.ofText t).outline.lists.mapM
      (Outline.describeList? (Document.ofText t)) = some lines := by
    refine ⟨_, List.mapM_eq_some_filterMap fun l hl => ?_⟩
    rw [Document.outline_lists] at hl
    obtain ⟨n, hn, rfl⟩ := List.mem_map.mp hl
    exact exists_describeList? (inPlace_of_mem_lists hn)
  obtain ⟨lines, hlines⟩ := hlists
  simp [Outline.describe?, hlines]

end

end Strict

end CommaStyle
