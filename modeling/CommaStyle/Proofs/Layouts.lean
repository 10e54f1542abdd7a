import CommaStyle.Proofs.Scanning.Fits
import CommaStyle.Token
import Mathlib.Data.List.TakeWhile

namespace CommaStyle

open Text

/-!
# Layouts and their texts

A text is cut into pieces in one way only, and the white space between the pieces can be exchanged.

* `Layout.Tiles` says that pieces are what their text is cut into; `tiles_ofText` and
  `toText_ofText` say it of the layout of a text, and `ofText_toText` that nothing else is;
* `Layout.Respaced` exchanges white space between lexemes: where some is left, and next to a comma
  also where none is;
* `Layout.Respaced.tiles` — the lexemes are still what the new text is cut into.
-/

/-- A text of nothing but white space. -/
def Text.AllBlank (t : Text) : Prop := ∀ c ∈ t, isBlank c = true

namespace Layout

/-! ### A text and its layout -/

@[simp] theorem toText_nil (trailing : Text) : toText ⟨[], trailing⟩ = trailing := rfl

/-- A layout is written piece by piece. -/
@[simp] theorem toText_cons (p : Piece) (pieces : List Piece) (trailing : Text) :
    toText ⟨p :: pieces, trailing⟩ = p.blanks ++ (p.lexeme.text ++ toText ⟨pieces, trailing⟩) := by
  simp [toText]

theorem toText_layoutCons (p : Piece) (l : Layout) :
    (l.cons p).toText = p.blanks ++ (p.lexeme.text ++ l.toText) := toText_cons p l.pieces l.trailing

/-- Whether pieces, with some white space behind them, are what their text is cut into. -/
def Tiles : List Piece → Text → Prop
  | [], trailing => trailing.AllBlank
  | p :: pieces, trailing =>
    p.blanks.AllBlank ∧ p.lexeme.Fits (toText ⟨pieces, trailing⟩) ∧ Tiles pieces trailing

/-- What a piece and the next one have behind them. -/
theorem Tiles.next {pieces : List Piece} {trailing : Text} (h : Tiles pieces trailing) {i : Nat}
    {p q : Piece} (hp : pieces[i]? = some p) (hq : pieces[i + 1]? = some q) :
    ∃ rest, p.lexeme.Fits (q.blanks ++ (q.lexeme.text ++ rest)) ∧ q.blanks.AllBlank ∧
      q.lexeme.Fits rest := by
  induction pieces generalizing i with
  | nil => simp at hp
  | cons p' pieces ih =>
    obtain ⟨-, hfits, htiles⟩ := h
    cases i with
    | succ i => exact ih htiles hp hq
    | zero =>
      cases pieces with
      | nil => simp at hq
      | cons q' pieces =>
        obtain ⟨rfl, rfl⟩ : p' = p ∧ q' = q := by simpa using And.intro hp hq
        rw [toText_cons] at hfits
        exact ⟨_, hfits, htiles.1, htiles.2.1⟩

/-- No piece of a tiling is without characters. -/
theorem Tiles.text_ne_nil {pieces : List Piece} {trailing : Text} (h : Tiles pieces trailing)
    {p : Piece} (hp : p ∈ pieces) : p.lexeme.text ≠ [] := by
  induction pieces with
  | nil => simp at hp
  | cons q pieces ih =>
    obtain ⟨-, ⟨c, t, htext, -⟩, htiles⟩ := h
    rcases List.mem_cons.mp hp with rfl | hp
    · simp [htext]
    · exact ih htiles hp

/-- Only white space is taken in front of a token. -/
theorem allBlank_takeWhile (t : Text) : AllBlank (t.takeWhile isBlank) :=
  List.all_eq_true.mp List.all_takeWhile

/-- The layout of a text, with a bound that is long enough, tiles the text. -/
theorem ofTextWithin_spec (bound t : Text) (h : t.length ≤ bound.length) :
    Tiles (ofTextWithin bound t).pieces (ofTextWithin bound t).trailing ∧
      (ofTextWithin bound t).toText = t := by
  induction bound generalizing t with
  | nil =>
    obtain rfl : t = [] := by simpa using h
    exact ⟨by simp [ofTextWithin, Tiles, AllBlank], rfl⟩
  | cons b bound ih =>
    rw [ofTextWithin]
    have hsplit := List.takeWhile_append_dropWhile (p := isBlank) (l := t)
    split
    · next hdrop =>
      rw [hdrop, List.append_nil] at hsplit
      exact ⟨by simpa [Tiles, hsplit] using allBlank_takeWhile t, rfl⟩
    · next c rest hdrop =>
      have hc : isBlank c = false := by
        have := List.head?_dropWhile_not isBlank t
        simpa [hdrop] using this
      have hscan := Lexeme.fits_scan hc rest
      rcases hx : Lexeme.scan c rest with ⟨x, rest'⟩
      simp only [hx] at hscan
      obtain ⟨hfits, hwhole⟩ := hscan
      -- The token takes a character of the text, so that the bound is enough for the rest.
      have hshort : rest'.length ≤ bound.length := by
        obtain ⟨a, u, htext, -⟩ := hfits
        have htotal := congrArg List.length hsplit
        have hpart := congrArg List.length hwhole
        simp only [hdrop, htext, List.length_append, List.length_cons] at htotal hpart h
        omega
      obtain ⟨htiles, htext⟩ := ih rest' hshort
      refine ⟨⟨allBlank_takeWhile t, ?_, htiles⟩, ?_⟩
      · exact htext.symm ▸ hfits
      · rw [toText_layoutCons, htext]
        change _ ++ (x.text ++ rest') = t
        rw [hwhole, ← hdrop, hsplit]

/-- The pieces of a text are what it is cut into. -/
theorem tiles_ofText (t : Text) : Tiles (ofText t).pieces (ofText t).trailing :=
  (ofTextWithin_spec t t (Nat.le_refl _)).1

/-- Nothing of a text is lost. -/
theorem toText_ofText (t : Text) : (ofText t).toText = t :=
  (ofTextWithin_spec t t (Nat.le_refl _)).2

/-- **Tilings are unique.** A text that is tiled by some pieces is cut into just these. -/
theorem ofTextWithin_toText (bound : Text) (pieces : List Piece) (trailing : Text)
    (h : Tiles pieces trailing) (hbound : (toText ⟨pieces, trailing⟩).length ≤ bound.length) :
    ofTextWithin bound (toText ⟨pieces, trailing⟩) = ⟨pieces, trailing⟩ := by
  induction pieces generalizing bound with
  | nil =>
    have hdrop : trailing.dropWhile isBlank = [] := List.dropWhile_eq_nil_iff.mpr h
    cases bound with
    | nil => rfl
    | cons b bound => simp [ofTextWithin, hdrop]
  | cons p pieces ih =>
    obtain ⟨hblanks, ⟨c, t, htext, hc, hscan⟩, htiles⟩ := h
    rw [toText_cons, htext] at hbound ⊢
    cases bound with
    | nil => simp at hbound
    | cons b bound =>
      -- The token starts with a graphic character, so that the white space ends in front of it.
      have hhead : ∀ u : Text, (c :: u).dropWhile isBlank = c :: u ∧
          (c :: u).takeWhile isBlank = [] := by
        simp [hc]
      rw [ofTextWithin, List.dropWhile_append_of_pos hblanks, List.takeWhile_append_of_pos hblanks,
        List.cons_append, (hhead _).1, (hhead _).2, List.append_nil]
      simp only [hscan]
      rw [ih bound htiles]
      · rfl
      · simp only [List.length_append, List.length_cons] at hbound
        omega

/-- **One layout.** Pieces that fit are what their text is cut into. -/
theorem ofText_toText {pieces : List Piece} {trailing : Text} (h : Tiles pieces trailing) :
    ofText (toText ⟨pieces, trailing⟩) = ⟨pieces, trailing⟩ :=
  ofTextWithin_toText _ pieces trailing h (Nat.le_refl _)

/-! ### Other white space -/

/-- Whether `new` may stand for the white space `old` between a lexeme and the next one, `y`. In
    front of the first lexeme any white space will do. Behind a lexeme there must be some, starting
    with a line feed if the lexeme runs on; next to a comma there may be none. -/
def NewGap : Option Lexeme → (old new : Text) → (y : Lexeme) → Prop
  | none, _, new, _ => AllBlank new
  | some x, old, new, y => AllBlank new ∧
    (new = old ∨ (new ≠ [] ∧ (x.runsOn → new.head? = some '\n')) ∨
      (new = [] ∧ ¬x.runsOn ∧ (x.kind = .comma ∨ y.kind = .comma)))

/-- Whether pieces differ in their white space only, and only as far as `NewGap` allows; `x` is the
    lexeme in front of them. -/
inductive Respaced : (x : Option Lexeme) → List Piece → List Piece → Prop where
  | nil {x} : Respaced x [] []
  | cons {x old new y pieces pieces'} (hgap : NewGap x old new y)
    (hrest : Respaced (some y) pieces pieces') :
    Respaced x (⟨old, y⟩ :: pieces) (⟨new, y⟩ :: pieces')

/-- New white space in a gap is white space. -/
theorem NewGap.allBlank {x : Option Lexeme} {old new : Text} {y : Lexeme}
    (h : NewGap x old new y) : AllBlank new := by
  cases x with
  | none => exact h
  | some x => exact h.1

/-- What starts with white space starts softly. -/
theorem startsSoft_of_allBlank {t : Text} (h : AllBlank t) (hne : t ≠ []) (u : Text) :
    StartsSoft (t ++ u) := by
  obtain ⟨c, t, rfl⟩ := List.exists_cons_of_ne_nil hne
  intro d hd
  obtain rfl : c = d := by simpa using hd
  simp [isSoft, h c List.mem_cons_self]

/-- What starts with a comma starts softly. -/
theorem startsSoft_comma (t : Text) : StartsSoft (',' :: t) := by
  intro c hc
  obtain rfl : ',' = c := by simpa using hc
  decide

theorem replacedBy_refl (t : Text) : ReplacedBy t t :=
  ⟨fun h _ => ⟨_, h⟩, fun h _ _ => ⟨_, h⟩, fun _ _ h => h⟩

/-- What follows the first two characters is out of sight. -/
theorem replacedBy_cons_cons (c d : Char) (t u : Text) :
    ReplacedBy (c :: d :: t) (c :: d :: u) := by
  refine ⟨?_, ?_, ?_⟩
  · rintro a u' h -
    exact ⟨_, by rw [(List.cons.inj h).1]⟩
  · rintro a b u' h - -
    simp only [List.cons.injEq] at h
    exact ⟨t, by rw [h.1, h.2.1]⟩
  · intro a u' _ _ h
    exact (Lexeme.startsComment_append u t).trans h

/-- Behind a character that starts no comment, something soft can stand in the place of anything. -/
theorem replacedBy_cons_of_startsSoft {c : Char} {t u : Text}
    (ht : Lexeme.startsComment (c :: t) = false) (hu : StartsSoft u) :
    ReplacedBy (c :: t) (c :: u) := by
  refine ⟨?_, ?_, ?_⟩
  · rintro a u' h -
    exact ⟨t, by rw [(List.cons.inj h).1]⟩
  · rintro a b u' h - hb
    obtain ⟨-, rfl⟩ := List.cons.inj h
    have := hu b rfl
    rw [hb] at this
    exact absurd this (by decide)
  · intro a u' _ _ h
    rw [ht] at h
    exact absurd h (by decide)

/-- Behind a character, only the next one is in sight. -/
theorem replacedBy_cons_of_head?_eq (c : Char) {t u : Text} (h : u.head? = t.head?) :
    ReplacedBy (c :: t) (c :: u) := by
  match t, u, h with
  | [], [], _ => exact replacedBy_refl _
  | d :: t, e :: u, h =>
    obtain rfl : e = d := by simpa using h
    exact replacedBy_cons_cons c e t u

/-- How the text of exchanged pieces starts: with white space or a comma, or as before. The lexeme in
    front of them is no comma. -/
theorem Respaced.startsSoft_or {x : Lexeme} {pieces pieces' : List Piece} {trailing : Text}
    (h : Respaced (some x) pieces pieces') (ht : Tiles pieces trailing) (hx : x.kind ≠ .comma) :
    StartsSoft (toText ⟨pieces', trailing⟩) ∨
      (toText ⟨pieces', trailing⟩).head? = (toText ⟨pieces, trailing⟩).head? := by
  cases h with
  | nil => exact .inr rfl
  | @cons _ old new y pieces pieces' hgap hrest =>
    obtain ⟨-, hfits, -⟩ := ht
    obtain ⟨hblank, hgap⟩ := hgap
    rw [toText_cons, toText_cons]
    by_cases hnew : new = []
    · subst hnew
      rcases hgap with rfl | ⟨hne, -⟩ | ⟨-, -, hcomma⟩
      · obtain ⟨c, t, (htext : y.text = c :: t), -⟩ := hfits
        exact .inr (by simp [htext])
      · exact absurd rfl hne
      · have hy := hcomma.resolve_left hx
        have htext : y = ⟨.comma, [','], true⟩ := (Lexeme.fits_comma hfits hy).1
        exact .inl (by simpa [htext] using startsSoft_comma _)
    · exact .inl (startsSoft_of_allBlank hblank hnew _)

/-- A lexeme of one character does not start a comment together with the next one. -/
theorem startsComment_of_fits {x : Lexeme} {c : Char} {rest : Text} (h : x.Fits rest)
    (hx : x.text = [c]) : Lexeme.startsComment (c :: rest) = false := by
  obtain ⟨a, t, htext, -, hscan⟩ := h
  obtain ⟨rfl, rfl⟩ : c = a ∧ t = [] := by simpa [hx, eq_comm] using htext
  rw [Bool.eq_false_iff, Ne, Lexeme.startsComment_iff]
  rintro ⟨d, u, hdu, hd⟩
  obtain ⟨rfl, rfl⟩ := List.cons.inj hdu
  have hlength : (Lexeme.scan '/' (d :: u)).1.text.length = 1 := by
    rw [List.nil_append] at hscan
    simp [hscan, hx]
  rcases hd with rfl | rfl <;> exact absurd hlength (by simp [Lexeme.scan, Kind.ofPunctuation?,
    Lexeme.ofDivision, Division.prepend])

/-- What follows a lexeme can be replaced if the lexeme is a comma, or the new text starts softly or
    in the same way. -/
theorem replacedBy_lexeme {x : Lexeme} {rest rest' : Text} (hfits : x.Fits rest)
    (h : x.kind = .comma ∨ StartsSoft rest' ∨ rest'.head? = rest.head?) :
    ReplacedBy (x.text ++ rest) (x.text ++ rest') := by
  by_cases hcomma : x.kind = .comma
  · rw [(Lexeme.fits_comma hfits hcomma).1]
    exact replacedBy_of_startsSoft (startsSoft_comma _)
  obtain ⟨c, t, htext, -⟩ := id hfits
  cases t with
  -- Two characters of the lexeme are as many as can be seen.
  | cons d t =>
    rw [htext]
    exact replacedBy_cons_cons c d _ _
  | nil =>
    rw [htext]
    rcases h.resolve_left hcomma with h | h
    · exact replacedBy_cons_of_startsSoft (startsComment_of_fits hfits htext) h
    · exact replacedBy_cons_of_head?_eq c h

/-- Exchanged pieces may stand behind a lexeme that ends by itself. -/
theorem Respaced.replacedBy {x : Lexeme} {pieces pieces' : List Piece} {trailing : Text}
    (h : Respaced (some x) pieces pieces') (ht : Tiles pieces trailing) (hx : x.kind ≠ .comma) :
    ReplacedBy (toText ⟨pieces, trailing⟩) (toText ⟨pieces', trailing⟩) := by
  cases h with
  | nil => exact replacedBy_refl _
  | @cons _ old new y pieces pieces' hgap hrest =>
    obtain ⟨-, hfits, htiles⟩ := ht
    obtain ⟨hblank, hgap⟩ := hgap
    rw [toText_cons, toText_cons]
    -- Without white space there was none before, or the next lexeme is a comma.
    by_cases hnew : new = []
    · subst hnew
      rcases hgap with rfl | ⟨hne, -⟩ | ⟨-, -, hcomma⟩
      · by_cases hy : y.kind = .comma
        · exact replacedBy_lexeme hfits (.inl hy)
        · exact replacedBy_lexeme hfits (.inr (hrest.startsSoft_or htiles hy))
      · exact absurd rfl hne
      · have htext : y = ⟨.comma, [','], true⟩ :=
          (Lexeme.fits_comma hfits (hcomma.resolve_left hx)).1
        exact replacedBy_of_startsSoft (by simpa [htext] using startsSoft_comma _)
    · exact replacedBy_of_startsSoft (startsSoft_of_allBlank hblank hnew _)

/-- Exchanged pieces start with a line feed, or not at all, behind a lexeme that runs on. -/
theorem Respaced.head?_eq {x : Lexeme} {pieces pieces' : List Piece} {trailing : Text}
    (h : Respaced (some x) pieces pieces') (ht : Tiles pieces trailing)
    (hfits : x.Fits (toText ⟨pieces, trailing⟩)) (hx : x.runsOn) :
    (toText ⟨pieces', trailing⟩).head? = (toText ⟨pieces, trailing⟩).head? := by
  cases h with
  | nil => rfl
  | @cons _ old new y pieces pieces' hgap hrest =>
    obtain ⟨-, ⟨c, t, (htext : y.text = c :: t), hc, -⟩, -⟩ := ht
    obtain ⟨hblank, hgap⟩ := hgap
    have hline := Lexeme.head?_of_runsOn hfits hx
    rw [toText_cons, toText_cons] at *
    simp only [htext] at hline ⊢
    cases old with
    | nil =>
      -- The next lexeme would start with the line feed.
      obtain rfl : c = '\n' := hline c rfl
      exact absurd hc (by decide)
    | cons a old =>
      obtain rfl : a = '\n' := hline a rfl
      rcases hgap with rfl | ⟨hne, hnew⟩ | ⟨-, hno, -⟩
      · rfl
      · obtain ⟨b, new, rfl⟩ := List.exists_cons_of_ne_nil hne
        simpa using hnew hx
      · exact absurd hx hno

/-- A lexeme still fits if the white space behind it is changed as in a respaced text. -/
theorem Respaced.fits {x : Lexeme} {pieces pieces' : List Piece} {trailing : Text}
    (h : Respaced (some x) pieces pieces') (ht : Tiles pieces trailing)
    (hfits : x.Fits (toText ⟨pieces, trailing⟩)) : x.Fits (toText ⟨pieces', trailing⟩) := by
  -- A comma never looks ahead; a lexeme that runs on looks for a line feed only.
  by_cases hcomma : x.kind = .comma
  · exact (Lexeme.fits_comma hfits hcomma).2 _
  by_cases hruns : x.runsOn
  · exact Lexeme.fits_of_head?_eq hfits hruns (h.head?_eq ht hfits hruns)
  · exact Lexeme.fits_of_replacedBy hfits hruns (h.replacedBy ht hcomma)

/-- **Layouts can be respaced.** With other white space between them, the lexemes are still what the
    text is cut into. -/
theorem Respaced.tiles {x : Option Lexeme} {pieces pieces' : List Piece} {trailing : Text}
    (h : Respaced x pieces pieces') (ht : Tiles pieces trailing) : Tiles pieces' trailing := by
  induction h with
  | nil => exact ht
  | cons hgap hrest ih =>
    obtain ⟨-, hfits, htiles⟩ := ht
    exact ⟨hgap.allBlank, hrest.fits htiles hfits, ih htiles⟩

end Layout

end CommaStyle
