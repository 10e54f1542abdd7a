import CommaStyle.Proofs.Documents

namespace CommaStyle

open Text

/-!
# Laying out a text anew

A text can be laid out in many ways and still be cut into the same lexemes.

* `Layout.Relaid` says which layouts may stand for another one: any white space in front of the first
  lexeme, and between two lexemes any that is not empty, or none next to a comma. Only a lexeme that
  the end of its line has ended asks for more (`Lexeme.EndsWithLine`): a line feed must follow it;
* `Lexeme.rest_eq_nil_of_fits` — all other lexemes without their terminator run to the end of the
  text, so that nothing is asked of the white space behind them;
* `Document.lexemes_of_relaid` — the new text is cut as the layout says, with the same lexemes and the
  same faults.
-/

/-- Whether the end of its line has ended a lexeme: a line comment, or a string without its closing
    quote. -/
def Lexeme.EndsWithLine (x : Lexeme) : Prop :=
  x.kind = .lineComment ∨ (x.kind = .string ∧ x.closed = false)

instance (x : Lexeme) : Decidable x.EndsWithLine := inferInstanceAs (Decidable (_ ∨ _))

instance (t : Text) : Decidable t.AllBlank := List.decidableBAll (isBlank · = true) t

namespace Layout

/-- Whether white space may stand between a lexeme and the next one: it is not empty, and starts with
    a line feed behind a lexeme that needs one; or it is empty, next to a comma. -/
def MayStand (x : Lexeme) (blanks : Text) (y : Lexeme) : Prop :=
  (blanks ≠ [] ∧ (x.EndsWithLine → blanks.head? = some '\n')) ∨
    (blanks = [] ∧ ¬x.EndsWithLine ∧ (x.kind = .comma ∨ y.kind = .comma))

instance (x : Lexeme) (blanks : Text) (y : Lexeme) : Decidable (MayStand x blanks y) :=
  inferInstanceAs (Decidable (_ ∨ _))

/-- Whether pieces have the same lexemes as others, with white space between them that is the old or
    may stand there; `x` is the lexeme in front of them. -/
inductive RelaidBehind : (x : Option Lexeme) → List Piece → List Piece → Prop where
  | nil {x} : RelaidBehind x [] []
  | cons {x old new y pieces pieces'} (hblank : AllBlank new)
    (hgap : ∀ z ∈ x, new = old ∨ MayStand z new y) (hrest : RelaidBehind (some y) pieces pieces') :
    RelaidBehind x (⟨old, y⟩ :: pieces) (⟨new, y⟩ :: pieces')

/-- Whether a layout may stand for another one. What follows the last lexeme stays; without lexemes,
    all of the white space stands in front. -/
structure Relaid (l l' : Layout) : Prop where
  pieces : RelaidBehind none l.pieces l'.pieces
  trailing : l'.trailing = l.trailing ∨ (l.pieces = [] ∧ l'.trailing.AllBlank)

end Layout

/-! ### Lexemes without their terminator -/

/-- Only a string stops in front of something without its terminator. -/
theorem Lexeme.Cuts.rest_eq_nil {c : Char} {t rest : Text} {k : Kind}
    (h : Lexeme.Cuts c (t ++ rest) k ⟨c :: t, rest, false⟩) (hk : k ≠ .string) : rest = [] := by
  generalize hu : t ++ rest = u at h
  generalize hd : (⟨c :: t, rest, false⟩ : Division) = d at h
  have hclosed : d.closed = false := congrArg Division.closed hd.symm
  cases h with
  | blockComment hc =>
    obtain ⟨w, rfl, hbody⟩ := Lexeme.exists_body_of_pair hu hd
    rw [Lexeme.commentBody_eq_upTo] at hbody
    exact Lexeme.rest_eq_nil_of_upTo hbody
  | markup hc =>
    obtain ⟨w, rfl, hbody⟩ := Lexeme.exists_body_of_pair hu hd
    rw [Lexeme.markupBody_eq_upTo] at hbody
    exact Lexeme.rest_eq_nil_of_upTo hbody
  | string hc => exact absurd rfl hk
  -- All other lexemes need no terminator.
  | number hc => exact absurd hclosed (by simp [Division.prepend, Lexeme.numberBody,
      Division.thenTake, Lexeme.closed_exponentBody])
  | operator hc hpair => exact absurd hclosed (by simp [Division.prepend, Lexeme.closed_operatorBody])
  | _ => exact absurd hclosed (by simp [Division.prepend, Division.run])

/-- A token without its terminator that is no string ends the text. -/
theorem Lexeme.rest_eq_nil_of_fits {x : Lexeme} {rest : Text} (h : x.Fits rest)
    (hclosed : x.closed = false) (hkind : x.kind ≠ .string) : rest = [] := by
  obtain ⟨c, t, -, -, hcuts⟩ := Lexeme.fits_iff_cuts.mp h
  rw [hclosed] at hcuts
  exact hcuts.rest_eq_nil hkind

/-- A lexeme that runs on, with something behind it, has been ended by its line. -/
theorem Lexeme.endsWithLine_of_runsOn {x : Lexeme} {rest : Text} (h : x.Fits rest)
    (hrest : rest ≠ []) (hruns : x.runsOn) : x.EndsWithLine := by
  rcases hruns with hclosed | hkind
  · by_cases hstring : x.kind = .string
    · exact .inr ⟨hstring, hclosed⟩
    · exact absurd (Lexeme.rest_eq_nil_of_fits h hclosed hstring) hrest
  · exact .inl hkind

namespace Layout

/-- Relaid pieces have the same lexemes. -/
theorem RelaidBehind.map_lexeme {x : Option Lexeme} {pieces pieces' : List Piece}
    (h : RelaidBehind x pieces pieces') :
    pieces'.map (·.lexeme) = pieces.map (·.lexeme) := by
  induction h with
  | nil => rfl
  | cons _ _ _ ih => simp [ih]

/-- White space that may stand between lexemes may be exchanged for the old. -/
theorem newGap_of_mayStand {x y : Lexeme} {old new rest : Text} (hfits : x.Fits rest)
    (hrest : rest ≠ []) (hblank : AllBlank new) (h : new = old ∨ MayStand x new y) :
    NewGap (some x) old new y := by
  refine ⟨hblank, ?_⟩
  rcases h with h | ⟨hne, hline⟩ | ⟨hnil, hline, hcomma⟩
  · exact .inl h
  · refine .inr (.inl ⟨hne, ?_⟩)
    intro hruns
    exact hline (Lexeme.endsWithLine_of_runsOn hfits hrest hruns)
  · refine .inr (.inr ⟨hnil, ?_, hcomma⟩)
    intro hruns
    exact hline (Lexeme.endsWithLine_of_runsOn hfits hrest hruns)

/-- White space that may be relaid behind fitting lexemes may stand in their gaps. -/
theorem RelaidBehind.respaced {x : Option Lexeme} {pieces pieces' : List Piece} {trailing : Text}
    (h : RelaidBehind x pieces pieces') (ht : Tiles pieces trailing)
    (hx : ∀ z ∈ x, z.Fits (toText ⟨pieces, trailing⟩)) : Respaced x pieces pieces' := by
  induction h with
  | nil => exact .nil
  | @cons x old new y pieces pieces' hblank hgap hrest ih =>
    obtain ⟨-, hfits, htiles⟩ := ht
    refine .cons ?_ (ih htiles ?_)
    · cases x with
      | none => exact hblank
      | some z =>
        -- The next lexeme has a character, so that there is something behind this one.
        have hsome : toText ⟨⟨old, y⟩ :: pieces, trailing⟩ ≠ [] := by
          obtain ⟨c, t, htext, -⟩ := hfits
          rw [toText_cons]
          simp only at htext
          simp [htext]
        exact newGap_of_mayStand (hx z rfl) hsome hblank (hgap z rfl)
    · intro z hz
      obtain rfl := Option.mem_some_iff.mp hz
      exact hfits

/-- The lexemes of a new layout are what its text is cut into. -/
theorem Relaid.tiles {l l' : Layout} (h : Relaid l l') (ht : Tiles l.pieces l.trailing) :
    Tiles l'.pieces l'.trailing := by
  have hrespaced := h.pieces.respaced ht (by simp)
  rcases h.trailing with htrailing | ⟨hnil, hblank⟩
  · rw [htrailing]
    exact hrespaced.tiles ht
  · have hnone : l'.pieces = [] := by simpa [hnil] using h.pieces.map_lexeme
    rw [hnone]
    exact hblank

end Layout

namespace Document

/-- The tokens of a text are the lexemes of its layout. -/
theorem map_toLexeme_tokens (t : Text) :
    (ofText t).tokens.toList.map (·.toLexeme) = (Layout.ofText t).pieces.map (·.lexeme) := by
  rw [← Token.map_piece_place 0 Place.origin (Layout.ofText t).pieces, List.map_map]
  rfl

/-- The faults of unterminated tokens depend on the lexemes only. -/
theorem map_fault_unclosed (d : Document) :
    d.unclosed.map (·.fault) = (d.tokens.toList.map (·.toLexeme)).filterMap fun x =>
      if x.closed then none else Fault.ofUnclosed? x.kind := by
  rw [unclosed, List.map_filterMap, List.filterMap_map]
  congr 1
  funext x
  simp only [Option.map_map, Function.comp_def, Token.fault?, Option.map_id']

/-- **Layout does not matter.** However a text is laid out anew, it is cut into the same lexemes, with
    the new white space between them, and the same ones lack their terminators. -/
theorem lexemes_of_relaid (t : Text) (l : Layout) (h : (Layout.ofText t).Relaid l) :
    Layout.ofText l.toText = l ∧
      (ofText l.toText).tokens.toList.map (fun x => (x.kind, x.text)) =
        (ofText t).tokens.toList.map (fun x => (x.kind, x.text)) ∧
      (ofText l.toText).unclosed.map (·.fault) = (ofText t).unclosed.map (·.fault) := by
  have hlayout : Layout.ofText l.toText = l := Layout.ofText_toText (h.tiles (Layout.tiles_ofText t))
  have hlexemes : (ofText l.toText).tokens.toList.map (·.toLexeme) =
      (ofText t).tokens.toList.map (·.toLexeme) := by
    rw [map_toLexeme_tokens, map_toLexeme_tokens, hlayout, h.pieces.map_lexeme]
  refine ⟨hlayout, ?_, ?_⟩
  · have := congrArg (List.map fun x : Lexeme => (x.kind, x.text)) hlexemes
    rwa [List.map_map, List.map_map] at this
  · rw [map_fault_unclosed, map_fault_unclosed, hlexemes]

/-- A text in which lexemes touch, with a line comment and a string that is not closed. In the new
    layout the comma touches its neighbours instead. -/
theorem lexemes_of_relaid_touching :
    let t := ['a', ' ', ',', ' ', '1', '.', 'b', '/', '/', 'c', '\n', '\'', 'd', '\n', 'e', ' ']
    let l : Layout :=
      ⟨[⟨['\t'], ⟨.name, ['a'], true⟩⟩, ⟨[], ⟨.comma, [','], true⟩⟩, ⟨[], ⟨.number, ['1'], true⟩⟩,
        ⟨[' '], ⟨.dot, ['.'], true⟩⟩, ⟨['\n'], ⟨.name, ['b'], true⟩⟩,
        ⟨[' '], ⟨.lineComment, ['/', '/', 'c'], true⟩⟩, ⟨['\n', '\n'], ⟨.string, ['\'', 'd'], false⟩⟩,
        ⟨['\n', ' '], ⟨.name, ['e'], true⟩⟩], [' ']⟩
    (Layout.ofText t).Relaid l ∧ Layout.ofText l.toText = l ∧
      (ofText l.toText).unclosed.map (·.fault) = [.unterminatedString] := by
  intro t l
  have h : (Layout.ofText t).Relaid l := by
    refine ⟨?_, .inl (by decide)⟩
    have hpieces : (Layout.ofText t).pieces =
        [⟨[], ⟨.name, ['a'], true⟩⟩, ⟨[' '], ⟨.comma, [','], true⟩⟩,
          ⟨[' '], ⟨.number, ['1'], true⟩⟩, ⟨[], ⟨.dot, ['.'], true⟩⟩, ⟨[], ⟨.name, ['b'], true⟩⟩,
          ⟨[], ⟨.lineComment, ['/', '/', 'c'], true⟩⟩, ⟨['\n'], ⟨.string, ['\'', 'd'], false⟩⟩,
          ⟨['\n'], ⟨.name, ['e'], true⟩⟩] := by decide
    rw [hpieces]
    iterate 8 refine .cons (by decide) (by decide) ?_
    exact .nil
  obtain ⟨hlayout, -, hfaults⟩ := lexemes_of_relaid t l h
  exact ⟨h, hlayout, hfaults.trans (by decide)⟩

end Document

end CommaStyle
