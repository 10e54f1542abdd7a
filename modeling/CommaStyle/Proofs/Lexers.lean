import CommaStyle.Proofs.Mending

namespace CommaStyle

open Text

/-!
# Reading lexemes one at a time

A lexer gives the lexemes of a text one after the other, and nothing more once the text has ended.

* `Lexer.afterCalls` and `Lexer.recorded` follow a lexer through any number of calls: where it
  stands, and which unterminated lexemes it has met;
* `Lexer.next_nil` and `Lexer.next_cons` — a call gives the first piece of what is ahead;
* `Lexer.Covers` says of lexemes with their spans that a text is made of them and white space;
* `Lexer.covers_ofText` — a lexer gives such lexemes, then stands at the end of the text for good.
-/

namespace Lexer

/-! ### Calls -/

/-- The lexer after a number of calls. -/
def afterCalls (l : Lexer) : (calls : Nat) → Lexer
  | 0 => l
  | calls + 1 => l.next.2.afterCalls calls

/-- The error of a lexeme whose terminator is missing. -/
def error? (x : Lexeme × Span) : Option SyntaxError :=
  if x.1.closed then none else (Fault.ofUnclosed? x.1.kind).map (⟨·, x.2⟩)

/-- The errors of the lexemes that a number of calls give. -/
def recorded (l : Lexer) : (calls : Nat) → List SyntaxError
  | 0 => []
  | calls + 1 => (l.next.1.bind error?).toList ++ l.next.2.recorded calls

/-- A lexeme in its place, as a lexer gives it. -/
def ofToken (x : Token) : Lexeme × Span := (x.toLexeme, x.span)

/-- The error of a lexeme that has been read is that of the token. -/
theorem error?_ofToken (x : Token) : error? (ofToken x) = x.fault?.map (⟨·, x.span⟩) := by
  unfold error? ofToken Token.fault?
  dsimp only
  split <;> rfl

/-! ### What one call gives -/

variable {pieces : List Piece} {trailing : Text}

/-- Passing over white space stops at the first other character. -/
theorem skipBlanks_append {blanks rest : Text} (hblanks : blanks.AllBlank)
    (hrest : ∀ c ∈ rest.head?, isBlank c = false) (offset : Nat) :
    skipBlanks ⟨offset, blanks ++ rest⟩ = ⟨offset + width blanks, rest⟩ := by
  have hstop : rest.takeWhile isBlank = [] ∧ rest.dropWhile isBlank = rest := by
    cases rest with
    | nil => simp
    | cons c rest => simp [hrest c rfl]
  unfold skipBlanks pass
  rw [List.takeWhile_append_of_pos hblanks, List.dropWhile_append_of_pos hblanks, hstop.1, hstop.2,
    List.append_nil]

/-- Behind the last piece there is only white space to pass over. -/
theorem skipBlanks_trailing (h : Layout.Tiles [] trailing) (offset : Nat) :
    skipBlanks ⟨offset, trailing⟩ = ⟨offset + width trailing, []⟩ := by
  have hskip : skipBlanks ⟨offset, trailing ++ []⟩ = ⟨offset + width trailing, []⟩ :=
    skipBlanks_append h (by simp) offset
  rwa [List.append_nil] at hskip

/-- Where there are no more pieces, no lexeme is read. -/
theorem next_nil (h : Layout.Tiles [] trailing) (offset : Nat) :
    next ⟨offset, trailing⟩ = (none, ⟨offset + width trailing, []⟩) := by
  unfold next
  rw [skipBlanks_trailing h]

/-- In front of a piece, a call gives its lexeme and leaves the pieces behind it. -/
theorem next_cons {p : Piece} (h : Layout.Tiles (p :: pieces) trailing) (offset : Nat) :
    next ⟨offset, Layout.toText ⟨p :: pieces, trailing⟩⟩ =
      (some (p.lexeme, ⟨offset + width p.blanks, width p.lexeme.text⟩),
        ⟨offset + width p.blanks + width p.lexeme.text, Layout.toText ⟨pieces, trailing⟩⟩) := by
  obtain ⟨hblanks, ⟨c, t, htext, hc, hscan⟩, -⟩ := h
  have hskip : skipBlanks ⟨offset, Layout.toText ⟨p :: pieces, trailing⟩⟩ =
      ⟨offset + width p.blanks, c :: (t ++ Layout.toText ⟨pieces, trailing⟩)⟩ := by
    rw [Layout.toText_cons, htext]
    apply skipBlanks_append hblanks
    intro a ha
    obtain rfl : c = a := by simpa using ha
    exact hc
  unfold next
  rw [hskip]
  dsimp only
  rw [hscan]
  rfl

/-! ### Any number of calls -/

/-- At the end of the text a call changes nothing. -/
theorem next_end (offset : Nat) : next ⟨offset, []⟩ = (none, ⟨offset, []⟩) :=
  next_nil (by simp [Layout.Tiles, AllBlank]) offset

/-- At the end of a text, calls change nothing. -/
theorem afterCalls_end (offset calls : Nat) : afterCalls ⟨offset, []⟩ calls = ⟨offset, []⟩ := by
  induction calls with
  | zero => rfl
  | succ calls ih => rw [afterCalls, next_end, ih]

/-- At the end of a text, nothing more is recorded. -/
theorem recorded_end (offset calls : Nat) : recorded ⟨offset, []⟩ calls = [] := by
  induction calls with
  | zero => rfl
  | succ calls ih => rw [recorded, next_end, ih]; rfl

/-- The calls give the tokens that the pieces become, one by one, and then nothing. -/
theorem next_afterCalls (h : Layout.Tiles pieces trailing) (offset : Nat) (start : Place)
    (calls : Nat) :
    (afterCalls ⟨offset, Layout.toText ⟨pieces, trailing⟩⟩ calls).next.1 =
      ((Token.place offset start pieces).map ofToken)[calls]? := by
  induction pieces generalizing offset start calls with
  | nil =>
    cases calls with
    | zero => rw [afterCalls, Layout.toText_nil, next_nil h]; rfl
    | succ calls => rw [afterCalls, Layout.toText_nil, next_nil h, afterCalls_end, next_end]; rfl
  | cons p pieces ih =>
    cases calls with
    | zero => rw [afterCalls, next_cons h]; rfl
    | succ calls => rw [afterCalls, next_cons h]; exact ih h.2.2 _ _ calls

/-- After as many calls as there are pieces, every call finds the end of the text. -/
theorem next_afterCalls_of_length_le (h : Layout.Tiles pieces trailing) (offset : Nat) {calls : Nat}
    (hcalls : pieces.length ≤ calls) :
    (afterCalls ⟨offset, Layout.toText ⟨pieces, trailing⟩⟩ calls).next =
      (none, ⟨offset + width (Layout.toText ⟨pieces, trailing⟩), []⟩) := by
  induction pieces generalizing offset calls with
  | nil =>
    cases calls with
    | zero => rw [afterCalls, Layout.toText_nil, next_nil h]
    | succ calls => rw [afterCalls, Layout.toText_nil, next_nil h, afterCalls_end, next_end]
  | cons p pieces ih =>
    cases calls with
    | zero => simp at hcalls
    | succ calls =>
      rw [afterCalls, next_cons h, ih h.2.2 _ (Nat.le_of_succ_le_succ hcalls), Layout.toText_cons,
        width_append, width_append, Nat.add_assoc, Nat.add_assoc]

/-- The errors recorded in the meantime are those of the tokens. -/
theorem recorded_of_length_le (h : Layout.Tiles pieces trailing) (offset : Nat) (start : Place)
    {calls : Nat} (hcalls : pieces.length ≤ calls) :
    recorded ⟨offset, Layout.toText ⟨pieces, trailing⟩⟩ calls =
      ((Token.place offset start pieces).map ofToken).filterMap error? := by
  induction pieces generalizing offset start calls with
  | nil =>
    cases calls with
    | zero => rfl
    | succ calls => rw [recorded, Layout.toText_nil, next_nil h, recorded_end]; rfl
  | cons p pieces ih =>
    cases calls with
    | zero => simp at hcalls
    | succ calls =>
      have hrest := ih h.2.2 (offset + width p.blanks + width p.lexeme.text)
        ((start.after p.blanks).after p.lexeme.text) (Nat.le_of_succ_le_succ hcalls)
      have hfirst : ∀ x : Lexeme × Span, [x].filterMap error? = (error? x).toList := by
        intro x
        cases hx : error? x <;> simp [hx]
      rw [recorded, next_cons h, hrest, Token.place, List.map_cons, ← List.singleton_append,
        List.filterMap_append, hfirst]
      rfl

/-- A lexer that starts in front of some pieces reads just these, and stops at the end of the text. -/
theorem readWithin_eq (h : Layout.Tiles pieces trailing) (offset : Nat) (start : Place)
    (bound : Text) (hbound : pieces.length ≤ bound.length) :
    readWithin bound ⟨offset, Layout.toText ⟨pieces, trailing⟩⟩ =
      ((Token.place offset start pieces).map ofToken,
        ⟨offset + width (Layout.toText ⟨pieces, trailing⟩), []⟩) := by
  induction bound generalizing pieces offset start with
  | nil =>
    obtain rfl : pieces = [] := by simpa using hbound
    rw [readWithin, Layout.toText_nil, skipBlanks_trailing h]
    rfl
  | cons b bound ih =>
    cases pieces with
    | nil =>
      rw [readWithin, Layout.toText_nil, next_nil h]
      rfl
    | cons p pieces =>
      have hrest := ih h.2.2 (offset + width p.blanks + width p.lexeme.text)
        ((start.after p.blanks).after p.lexeme.text) (by simpa using hbound)
      rw [readWithin, next_cons h]
      dsimp only
      rw [hrest, Layout.toText_cons, width_append, width_append, Token.place]
      simp only [List.map_cons, Prod.mk.injEq, mk.injEq, and_true]
      exact ⟨rfl, by omega⟩

end Lexer

/-! ### Spans -/

/-- A text has no more characters than bytes. -/
theorem Text.length_le_width (t : Text) : t.length ≤ width t := by
  induction t with
  | nil => simp
  | cons c t ih =>
    have := c.utf8Size_pos
    rw [List.length_cons, width_cons]
    omega

/-- Every piece has a character of the text. -/
theorem Layout.Tiles.length_le {pieces : List Piece} {trailing : Text} (h : Tiles pieces trailing) :
    pieces.length ≤ (toText ⟨pieces, trailing⟩).length := by
  induction pieces with
  | nil => simp
  | cons p pieces ih =>
    obtain ⟨-, ⟨c, t, htext, -⟩, htiles⟩ := h
    have := ih htiles
    rw [toText_cons, htext]
    simp only [List.length_cons, List.length_append]
    omega

/-- White space stands around the lexemes, and not in front of their characters. -/
theorem Layout.Tiles.blanks_and_head {pieces : List Piece} {trailing : Text}
    (h : Tiles pieces trailing) {p : Piece} (hp : p ∈ pieces) :
    p.blanks.AllBlank ∧ ∀ c ∈ p.lexeme.text.head?, isBlank c = false := by
  induction pieces with
  | nil => simp at hp
  | cons q pieces ih =>
    obtain ⟨hblanks, ⟨c, t, htext, hc, -⟩, htiles⟩ := h
    rcases List.mem_cons.mp hp with rfl | hp
    · exact ⟨hblanks, by simpa [htext] using hc⟩
    · exact ih htiles hp

/-- What stands behind the last piece of a tiling is white space. -/
theorem Layout.Tiles.allBlank_trailing {pieces : List Piece} {trailing : Text}
    (h : Tiles pieces trailing) : trailing.AllBlank := by
  induction pieces with
  | nil => exact h
  | cons p pieces ih => exact ih h.2.2

namespace Token

/-- A token is found where its span says. -/
theorem slice?_span {front trailing : Text} {start : Place} {pieces : List Piece} {x : Token}
    (h : x ∈ place (width front) start pieces) :
    slice? (front ++ Layout.toText ⟨pieces, trailing⟩) x.span = some x.text := by
  induction pieces generalizing front start with
  | nil => simp [place] at h
  | cons p pieces ih =>
    rw [place] at h
    rcases List.mem_cons.mp h with rfl | h
    · -- The text is cut in front of the lexeme and behind it.
      have hfront : width front + width p.blanks = width (front ++ p.blanks) := by simp
      show slice? _ ⟨width front + width p.blanks, width p.lexeme.text⟩ = some p.lexeme.text
      rw [Layout.toText_cons, ← List.append_assoc, hfront]
      simp only [slice?, cut?_width_append, Option.bind_eq_bind, Option.bind_some]
      rfl
    · have hfront : width front + width p.blanks + width p.lexeme.text =
          width (front ++ (p.blanks ++ p.lexeme.text)) := by
        simp only [width_append]
        omega
      rw [hfront] at h
      simpa using ih h

/-- Tokens end before the next ones start. -/
theorem pairwise_place (offset : Nat) (start : Place) (pieces : List Piece) :
    (place offset start pieces).Pairwise fun x y => x.span.stop ≤ y.span.start := by
  induction pieces generalizing offset start with
  | nil => simp [place]
  | cons p pieces ih =>
    rw [place]
    refine List.pairwise_cons.mpr ⟨?_, ih _ _⟩
    intro y hy
    have hle := Edit.add_width_le_offset hy
    show offset + width p.blanks + width p.lexeme.text ≤ y.offset
    omega

end Token

namespace Lexer

/-! ### The lexemes of a text -/

/-- Whether a text is made of lexemes, in their spans, and white space between them. -/
structure Covers (t : Text) (found : List (Lexeme × Span)) : Prop where
  /-- Every span falls between characters, and holds the characters of its lexeme. -/
  slice : ∀ x ∈ found, slice? t x.2 = some x.1.text
  /-- No span is empty. -/
  nonempty : ∀ x ∈ found, x.2.start < x.2.stop
  /-- Spans come in order and do not overlap. -/
  ordered : found.Pairwise fun x y => x.2.stop ≤ y.2.start
  /-- There are no more lexemes than bytes. -/
  length_le : found.length ≤ width t
  /-- Lexemes and white space take turns, and no lexeme starts with white space. -/
  alternates : ∃ l : Layout, l.toText = t ∧ l.pieces.map (·.lexeme) = found.map Prod.fst ∧
    (∀ p ∈ l.pieces, p.blanks.AllBlank ∧ ∀ c ∈ p.lexeme.text.head?, isBlank c = false) ∧
    l.trailing.AllBlank

/-- The lexemes of a text in their spans. -/
def lexemes (t : Text) : List (Lexeme × Span) := (Document.ofText t).tokens.toList.map ofToken

/-- The lexemes of a text cover it. -/
theorem covers_lexemes (t : Text) : Covers t (lexemes t) := by
  have htiles := Layout.tiles_ofText t
  have hpieces : (Document.ofText t).tokens.toList.map Token.piece = (Layout.ofText t).pieces :=
    Token.map_piece_place _ _ _
  have hslice : ∀ x ∈ (Document.ofText t).tokens.toList, slice? t x.span = some x.text := by
    intro x hx
    have hspan : slice? ([] ++ (Layout.ofText t).toText) x.span = some x.text :=
      Token.slice?_span hx
    rwa [List.nil_append, Layout.toText_ofText] at hspan
  constructor
  case slice =>
    intro x hx
    obtain ⟨y, hy, rfl⟩ := List.mem_map.mp hx
    exact hslice y hy
  case nonempty =>
    intro x hx
    obtain ⟨y, hy, rfl⟩ := List.mem_map.mp hx
    have hmem : y.piece ∈ (Layout.ofText t).pieces := hpieces ▸ List.mem_map_of_mem hy
    have hpos := width_pos (htiles.text_ne_nil hmem)
    show y.offset < y.offset + width y.text
    exact Nat.lt_add_of_pos_right hpos
  case ordered => exact List.pairwise_map.mpr (Token.pairwise_place _ _ _)
  case length_le =>
    have hlength : (lexemes t).length = (Layout.ofText t).pieces.length := by
      rw [← hpieces, lexemes, List.length_map, List.length_map]
    have hle := htiles.length_le
    rw [Layout.toText_ofText] at hle
    rw [hlength]
    exact Nat.le_trans hle (length_le_width t)
  case alternates =>
    refine ⟨Layout.ofText t, Layout.toText_ofText t, ?_, ?_, htiles.allBlank_trailing⟩
    · rw [← hpieces, lexemes, List.map_map, List.map_map]
      rfl
    · exact fun p hp => htiles.blanks_and_head hp

/-- **Nothing is lost, and reading ends.** The calls of a lexer give lexemes that a text is made of,
    one by one, whatever its characters are. After as many calls, every further one finds the end of
    the text, gives no lexeme and records no error. -/
theorem covers_ofText (t : Text) :
    ∃ found, Covers t found ∧
      (∀ calls, ((ofText t).afterCalls calls).next.1 = found[calls]?) ∧
      (∀ calls, found.length ≤ calls →
        ((ofText t).afterCalls calls).next = (none, ⟨width t, []⟩) ∧
        (ofText t).recorded calls = (Document.ofText t).unclosed) ∧
      (ofText t).readAll = (found, ⟨width t, []⟩) := by
  have htiles := Layout.tiles_ofText t
  have htext := Layout.toText_ofText t
  have hlength : (lexemes t).length = (Layout.ofText t).pieces.length := by
    rw [lexemes, List.length_map, ← Document.size_ofText]
    rfl
  refine ⟨lexemes t, covers_lexemes t, ?_, ?_, ?_⟩
  · intro calls
    have hcalls := next_afterCalls htiles 0 Place.origin calls
    rwa [htext] at hcalls
  · intro calls hcalls
    have hend := next_afterCalls_of_length_le htiles 0 (hlength ▸ hcalls)
    have herrors := recorded_of_length_le htiles 0 Place.origin (hlength ▸ hcalls)
    rw [htext, Nat.zero_add] at hend
    rw [htext, List.filterMap_map] at herrors
    refine ⟨hend, herrors.trans ?_⟩
    exact List.filterMap_congr fun x _ => error?_ofToken x
  · have hbound := htiles.length_le
    rw [htext] at hbound
    have hread := readWithin_eq htiles 0 Place.origin t hbound
    rwa [htext, Nat.zero_add] at hread

example : (ofText ['\x00', ' ', ',']).readAll =
    ([(⟨.unknown, ['\x00'], true⟩, ⟨0, 1⟩), (⟨.comma, [','], true⟩, ⟨2, 1⟩)], ⟨3, []⟩) := by
  decide

end Lexer

end CommaStyle
