import CommaStyle.Proofs.Enclosing

namespace CommaStyle

open Text

/-!
# Texts joined line by line

Every token looks a little further than it reaches, but never past a line feed that ends the line it
stands on, unless it lacks its terminator. So a text whose tokens are all closed can be continued on
a new line, and what follows is cut as if it stood alone.

* `Lexeme.fits_append_line` — a closed token stays what it is when a new line is added behind the
  text that it stands in front of;
* `Layout.joined` puts one layout behind another, and `Layout.ofText_append_line` says that this is
  how the joined text is laid out;
* `Token.place_below` — placing pieces further down moves their tokens, and does nothing else to
  them;
* `Document.tokens_append_line` — tokens and faults of the joined text.
-/

/-! ### Tokens in front of a new line -/

namespace Lexeme

/-- To a scanner, the end of a text and a line feed behind it are the same. -/
theorem replacedBy_append_line (rest more : Text) : ReplacedBy rest (rest ++ '\n' :: more) := by
  have hsoft : StartsSoft ('\n' :: more) := by
    intro c hc
    obtain rfl : '\n' = c := by simpa using hc
    decide
  match rest with
  | [] => exact replacedBy_of_startsSoft hsoft
  | [c] => exact Layout.replacedBy_cons_of_startsSoft (by simp [startsComment]) hsoft
  | c :: d :: rest => exact Layout.replacedBy_cons_cons c d _ _

/-- A line comment ends in front of any line feed, and at the end of the text. -/
theorem fits_lineComment {x : Lexeme} {rest rest' : Text} (h : x.Fits rest)
    (hx : x.kind = .lineComment) (hline : ∀ c ∈ rest'.head?, c = '\n') : x.Fits rest' := by
  rw [fits_iff_cuts] at h ⊢
  obtain ⟨c, t, htext, hc, hcuts⟩ := h
  refine ⟨c, t, htext, hc, ?_⟩
  rw [hx] at hcuts ⊢
  generalize hu : t ++ rest = u at hcuts
  generalize hd : (⟨c :: t, rest, x.closed⟩ : Division) = d at hcuts
  generalize hk : Kind.lineComment = k at hcuts
  cases hcuts with
  | lineComment hslash =>
    obtain ⟨w, rfl, hbody⟩ := exists_body_of_pair hu hd
    have hclosed : x.closed = true := (congrArg Division.closed hbody).symm
    rw [hclosed] at hbody ⊢
    have hnew : Division.run (· != '\n') (w ++ rest') = ⟨w, rest', true⟩ :=
      run_eq_iff.mpr ⟨(run_eq_iff.mp hbody).1, fun c hc => by simpa using hline c hc⟩
    have := Cuts.lineComment (t := w ++ rest') hslash
    rw [hnew] at this
    subst hslash
    exact this
  | punctuation hp => exact absurd (.inr hk.symm) (not_runsOn_of_ofPunctuation? hp)
  | operator => exact absurd (.inr hk.symm) (not_runsOn_operatorKind _)
  | _ => exact absurd hk (by decide)

/-- A closed token does not see a new line behind the text that follows it. -/
theorem fits_append_line {x : Lexeme} {rest : Text} (h : x.Fits rest) (hclosed : x.closed = true)
    (more : Text) : x.Fits (rest ++ '\n' :: more) := by
  by_cases hruns : x.runsOn
  · have hkind : x.kind = .lineComment := hruns.resolve_left (by simp [hclosed])
    refine fits_lineComment h hkind ?_
    cases rest with
    | nil => simp
    | cons c rest => simpa using head?_of_runsOn h hruns
  · exact fits_of_replacedBy h hruns (replacedBy_append_line rest more)

end Lexeme

/-! ### Layouts behind one another -/

namespace Layout

/-- A layout in two parts is written as one part and then the other. -/
theorem toText_append (pieces more : List Piece) (trailing : Text) :
    toText ⟨pieces ++ more, trailing⟩ = toText ⟨pieces, []⟩ ++ toText ⟨more, trailing⟩ := by
  simp [toText]

/-- Pieces behind others whose trailing white space and a line feed they start with. -/
theorem Tiles.append_line {pieces more : List Piece} {trailing trailing' rest : Text}
    (h : Tiles pieces trailing) (hclosed : ∀ p ∈ pieces, p.lexeme.closed = true)
    (hmore : Tiles more trailing') (hline : toText ⟨more, trailing'⟩ = trailing ++ '\n' :: rest) :
    Tiles (pieces ++ more) trailing' := by
  induction pieces with
  | nil => exact hmore
  | cons p pieces ih =>
    obtain ⟨hblanks, hfits, htiles⟩ := h
    obtain ⟨hp, hpieces⟩ := List.forall_mem_cons.mp hclosed
    have hbehind : toText ⟨pieces ++ more, trailing'⟩ =
        toText ⟨pieces, trailing⟩ ++ '\n' :: rest := by
      rw [toText_append, hline]
      simp [toText]
    refine ⟨hblanks, ?_, ih htiles hpieces⟩
    show p.lexeme.Fits (toText ⟨pieces ++ more, trailing'⟩)
    rw [hbehind]
    exact Lexeme.fits_append_line hfits hp rest

/-- Pieces with more white space in front of the first one; without any piece it stands behind them. -/
def indented (blanks : Text) : Layout → Layout
  | ⟨[], trailing⟩ => ⟨[], blanks ++ trailing⟩
  | ⟨p :: pieces, trailing⟩ => ⟨⟨blanks ++ p.blanks, p.lexeme⟩ :: pieces, trailing⟩

/-- White space in front of a layout is written in front of its text. -/
theorem toText_indented (blanks : Text) (l : Layout) :
    (l.indented blanks).toText = blanks ++ l.toText := by
  obtain ⟨_ | ⟨p, pieces⟩, trailing⟩ := l
  · rfl
  · simp [indented]

/-- White space in front of the first piece leaves a tiling a tiling. -/
theorem tiles_indented {blanks : Text} (hblanks : blanks.AllBlank) {l : Layout}
    (h : Tiles l.pieces l.trailing) :
    Tiles (l.indented blanks).pieces (l.indented blanks).trailing := by
  have happend : ∀ t : Text, t.AllBlank → (blanks ++ t).AllBlank := fun t ht =>
    List.forall_mem_append.mpr ⟨hblanks, ht⟩
  obtain ⟨_ | ⟨p, pieces⟩, trailing⟩ := l
  · exact happend _ h
  · exact ⟨happend _ h.1, h.2⟩

/-- A layout with another one below it, on a new line. -/
def joined (l m : Layout) : Layout :=
  let below := m.indented (l.trailing ++ ['\n'])
  ⟨l.pieces ++ below.pieces, below.trailing⟩

/-- **Layouts join.** A text with closed tokens only is laid out on its own, whatever follows it on a
    new line. -/
theorem ofText_append_line {a : Text}
    (hclosed : ∀ p ∈ (ofText a).pieces, p.lexeme.closed = true) (b : Text) :
    ofText (a ++ '\n' :: b) = (ofText a).joined (ofText b) := by
  have hblank : ((ofText a).trailing ++ ['\n']).AllBlank :=
    List.forall_mem_append.mpr
      ⟨(tiles_ofText a).allBlank_trailing, List.forall_mem_singleton.mpr (by decide)⟩
  have hbelow : toText ((ofText b).indented ((ofText a).trailing ++ ['\n'])) =
      (ofText a).trailing ++ '\n' :: b := by
    rw [toText_indented, toText_ofText]
    simp
  have htiles : Tiles ((ofText a).joined (ofText b)).pieces ((ofText a).joined (ofText b)).trailing :=
    (tiles_ofText a).append_line hclosed (tiles_indented hblank (tiles_ofText b)) hbelow
  have htext : toText ((ofText a).joined (ofText b)) = a ++ '\n' :: b := by
    rw [joined, toText_append, hbelow]
    conv_rhs => rw [← toText_ofText a]
    simp [toText]
  rw [← htext]
  exact ofText_toText htiles

end Layout

/-! ### Tokens further down -/

/-- A place some lines further down, in the same column. -/
def Place.below (p : Place) (lines : Nat) : Place := ⟨p.line + lines, p.column⟩

/-- Going down by some lines and going over a text can be done in either order. -/
theorem Place.after_below (p : Place) (lines : Nat) (t : Text) :
    (p.below lines).after t = (p.after t).below lines := by
  induction t generalizing p with
  | nil => rfl
  | cons c t ih =>
    have hstep : (p.below lines).step c = (p.step c).below lines := by
      unfold step
      split
      · simp [below]
        omega
      · rfl
    show ((p.below lines).step c).after t = ((p.step c).after t).below lines
    rw [hstep, ih]

/-- Behind a line feed, columns are counted from zero. -/
theorem Place.after_append_line (t : Text) :
    origin.after (t ++ ['\n']) = origin.below (t.count '\n' + 1) := by
  have hline : (origin.after t).line = t.count '\n' := (line_after origin t).trans (Nat.zero_add _)
  rw [after_append]
  show (⟨(origin.after t).line + 1, 0⟩ : Place) = ⟨0 + (t.count '\n' + 1), 0⟩
  rw [hline, Nat.zero_add]

namespace Token

/-- A token without the white space in front of it. -/
def bare (x : Token) : Token := { x with blanks := [] }

/-- A token so many bytes behind, and so many lines further down. -/
def moved (x : Token) (bytes lines : Nat) : Token :=
  { x with
    offset := x.offset + bytes
    first := x.first.below lines
    past := x.past.below lines }

/-- Pieces behind others are placed from where the others end. -/
theorem place_append (front : Text) (pieces more : List Piece) :
    place (width front) (Place.origin.after front) (pieces ++ more) =
      place (width front) (Place.origin.after front) pieces ++
        place (width (front ++ Layout.toText ⟨pieces, []⟩))
          (Place.origin.after (front ++ Layout.toText ⟨pieces, []⟩)) more := by
  induction pieces generalizing front with
  | nil => simp [place]
  | cons p pieces ih =>
    have hnext := ih (front ++ (p.blanks ++ p.lexeme.text))
    simp only [width_append, Place.after_append, ← Nat.add_assoc] at hnext
    simp only [List.cons_append, place, hnext, Layout.toText_cons, width_append, Place.after_append,
      ← Nat.add_assoc]

/-- Pieces placed further down give the same tokens further down. -/
theorem place_below (bytes lines offset : Nat) (start : Place) (pieces : List Piece) :
    place (offset + bytes) (start.below lines) pieces =
      (place offset start pieces).map (·.moved bytes lines) := by
  induction pieces generalizing offset start with
  | nil => rfl
  | cons p pieces ih =>
    simp only [place, List.map_cons, Nat.add_right_comm _ bytes, Place.after_below, ih]
    rfl

/-- White space in front of the first piece only moves what follows it. -/
theorem map_bare_place_indented (offset : Nat) (start : Place) (blanks : Text) (l : Layout) :
    (place offset start (l.indented blanks).pieces).map bare =
      (place (offset + width blanks) (start.after blanks) l.pieces).map bare := by
  obtain ⟨_ | ⟨p, pieces⟩, trailing⟩ := l
  · rfl
  · simp only [Layout.indented, place, List.map_cons, bare, width_append, Place.after_append,
      Nat.add_assoc]

end Token

namespace Document

/-- The faults do not depend on the white space in front of the tokens. -/
theorem unclosed_eq_of_bare (d : Document) :
    d.unclosed = (d.tokens.toList.map Token.bare).filterMap fun x =>
      x.fault?.map fun fault => ⟨fault, x.span⟩ := by
  rw [unclosed, List.filterMap_map]
  rfl

/-- Without faults, every token of a text is closed. -/
theorem closed_of_unclosed_eq_nil {t : Text} (h : (ofText t).unclosed = []) :
    ∀ p ∈ (Layout.ofText t).pieces, p.lexeme.closed = true := by
  have hnone : (ofText t).tokens.toList.filter (!·.closed) = [] := by
    have hforall := forall₂_unclosed t
    rw [h] at hforall
    exact List.forall₂_nil_right_iff.mp hforall
  have hpieces : (Layout.ofText t).pieces = (ofText t).tokens.toList.map Token.piece :=
    (Token.map_piece_place 0 Place.origin _).symm
  intro p hp
  rw [hpieces] at hp
  obtain ⟨x, hx, rfl⟩ := List.mem_map.mp hp
  show x.closed = true
  simpa using List.filter_eq_nil_iff.mp hnone x hx

/-- Tokens of a text on the lines below another one. -/
theorem map_bare_append_line {a : Text} (h : (ofText a).unclosed = []) (b : Text) :
    (ofText (a ++ '\n' :: b)).tokens.toList.map Token.bare =
      (ofText a).tokens.toList.map Token.bare ++
        ((ofText b).tokens.toList.map Token.bare).map
          (·.moved (Text.width a + 1) (a.count '\n' + 1)) := by
  have hlayout := Layout.ofText_append_line (closed_of_unclosed_eq_nil h) b
  -- The pieces of the second text start behind the first one and its line feed.
  have hfront : Layout.toText ⟨(Layout.ofText a).pieces, []⟩ ++
      ((Layout.ofText a).trailing ++ ['\n']) = a ++ ['\n'] := by
    conv_rhs => rw [← Layout.toText_ofText a]
    simp [Layout.toText]
  have hoffset := congrArg Text.width hfront
  have hstart := congrArg Place.origin.after hfront
  rw [width_append, width_append a] at hoffset
  rw [Place.after_append, Place.after_append_line] at hstart
  have hbelow := Token.place_below (Text.width a + 1) (a.count '\n' + 1) 0 Place.origin
    (Layout.ofText b).pieces
  rw [Nat.zero_add] at hbelow
  have happend := Token.place_append [] (Layout.ofText a).pieces
    ((Layout.ofText b).indented ((Layout.ofText a).trailing ++ ['\n'])).pieces
  show (Token.place 0 Place.origin (Layout.ofText (a ++ '\n' :: b)).pieces).map Token.bare =
    (Token.place 0 Place.origin (Layout.ofText a).pieces).map Token.bare ++
      ((Token.place 0 Place.origin (Layout.ofText b).pieces).map Token.bare).map _
  rw [hlayout]
  refine (congrArg (List.map Token.bare) happend).trans ?_
  rw [List.map_append, Token.map_bare_place_indented, List.nil_append, hoffset, hstart]
  refine congrArg₂ _ rfl ?_
  refine (congrArg (List.map Token.bare) hbelow).trans ?_
  rw [List.map_map, List.map_map]
  rfl

/-- **Tokenizing line by line.** A text whose tokens are all closed can be continued on a new line:
    its tokens stay what and where they are, and those of the rest follow, each as many bytes further
    on and as many lines further down as the rest itself. The faults are those of the rest. -/
theorem tokens_append_line (a b : Text) (h : (ofText a).unclosed = []) :
    (ofText (a ++ '\n' :: b)).tokens.toList.map Token.bare =
        (ofText a).tokens.toList.map Token.bare ++
          ((ofText b).tokens.toList.map Token.bare).map
            (·.moved (Text.width a + 1) (1 + a.count '\n')) ∧
      (ofText (a ++ '\n' :: b)).unclosed = (ofText b).unclosed.map fun error =>
        { error with span := ⟨error.span.start + (Text.width a + 1), error.span.length⟩ } := by
  have htokens := map_bare_append_line h b
  rw [Nat.add_comm 1]
  refine ⟨htokens, ?_⟩
  -- The first text adds no fault, and a token that is moved takes its fault along.
  rw [unclosed_eq_of_bare] at h
  rw [unclosed_eq_of_bare, htokens, List.filterMap_append, h, List.nil_append, unclosed_eq_of_bare,
    List.filterMap_map, List.map_filterMap]
  apply List.filterMap_congr
  intro x _
  show Option.map _ (Token.fault? x) = _
  rw [Option.map_map]
  rfl

/-- A line comment at the end of the first text, which also holds a character of two bytes, in front
    of a string that lacks its quote. -/
theorem tokens_append_line_comment :
    let a := ['é', '\n', '/', '/', 'b']
    let b := [' ', '\'', 'c', '\n', 'd']
    (ofText a).unclosed = [] ∧
      (ofText (a ++ '\n' :: b)).tokens.toList.map Token.bare =
        [⟨⟨.unknown, ['é'], true⟩, [], 0, ⟨0, 0⟩, ⟨0, 2⟩⟩,
          ⟨⟨.lineComment, ['/', '/', 'b'], true⟩, [], 3, ⟨1, 0⟩, ⟨1, 3⟩⟩,
          ⟨⟨.string, ['\'', 'c'], false⟩, [], 8, ⟨2, 1⟩, ⟨2, 3⟩⟩,
          ⟨⟨.name, ['d'], true⟩, [], 11, ⟨3, 0⟩, ⟨3, 1⟩⟩] ∧
      (ofText (a ++ '\n' :: b)).unclosed = [⟨.unterminatedString, ⟨8, 2⟩⟩] := by
  intro a b
  have hclosed : (ofText a).unclosed = [] := by decide
  obtain ⟨htokens, hfaults⟩ := tokens_append_line a b hclosed
  exact ⟨hclosed, htokens.trans (by decide), hfaults.trans (by decide)⟩

end Document

end CommaStyle
