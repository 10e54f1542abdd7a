import CommaStyle.Proofs.Enclosing

namespace CommaStyle

open Text

/-!
# Where fragments start

The two characters that open a fragment are operator characters as well, so that an operator in front
of them takes them in.

* `Document.Shields` says that a token keeps what is inside it from being checked, and
  `Document.shields_of_ne_comma` that every token other than a comma does;
* `Document.fragment_tokens` — the opening of a fragment is in an opaque token, which may be the
  fragment itself, unless it continues an operator;
* `Document.fragment_in_operator` is a text in which it does.
-/

namespace Lexeme

/-- An opaque token that starts with an angle bracket is a fragment, which ends in its closing
    delimiter or with the text. -/
theorem Delimited.of_fragment {x : Lexeme} {rest u : Text} (h : x.Delimited rest)
    (htext : x.text = '<' :: u) :
    x.kind = .markup ∧ ∃ inside, x.text = '<' :: '>' :: inside ∧
      (['<', '/', '>'] <:+ inside ∨ rest = []) := by
  have hquote : isQuote '<' = false := by decide
  cases h with
  | lineComment | lastLineComment => cases htext
  | @enclosed k opening closing inside rest hk =>
    rcases Kind.delimiters?_cases hk with ⟨-, rfl, -⟩ | ⟨rfl, rfl, rfl⟩
    · cases htext
    · exact ⟨rfl, inside ++ ['<', '/', '>'], rfl, .inl (List.suffix_append _ _)⟩
  | @unenclosed k opening closing inside hk =>
    rcases Kind.delimiters?_cases hk with ⟨-, rfl, -⟩ | ⟨rfl, rfl, rfl⟩
    · cases htext
    · exact ⟨rfl, inside, rfl, .inr rfl⟩
  | string hq | brokenString hq | openString hq =>
    rw [(List.cons.inj htext).1, hquote] at hq
    cases hq

end Lexeme

namespace Document

variable {t : Text} {x : Token} {i offset : Nat}

/-- Whether a token keeps what stands at an offset from being checked: no other token holds it, no
    violation is about it, and no edit gets into the token. -/
structure Shields (t : Text) (x : Token) (offset : Nat) : Prop where
  holds : x.Holds offset
  alone : ∀ j y, (ofText t).token? j = some y → y.Holds offset → y = x
  unreported : ∀ s exempt, ∀ v ∈ (ofText t).violations s exempt,
    ∀ y, (ofText t).token? v.comma = some y → ¬y.Holds offset
  unedited : ∀ s exempt, ∀ v ∈ (ofText t).violations s exempt,
    ∀ e, v.edit? (ofText t) s = some e →
      e.span.stop ≤ x.span.start ∨ x.span.stop ≤ e.span.start

/-- A token that is no comma shields what it holds. -/
theorem shields_of_ne_comma (hx : (ofText t).token? i = some x) (hkind : x.kind ≠ .comma)
    (hholds : x.Holds offset) : Shields t x offset := by
  have halone : ∀ j y, (ofText t).token? j = some y → y.Holds offset → y = x := by
    intro j y hy hoffset
    obtain rfl := eq_of_holds hx hy hholds hoffset
    exact Option.some.inj (hy.symm.trans hx)
  refine ⟨hholds, halone, ?_, ?_⟩
  · intro s exempt v hv y hy hoffset
    have hcomma := (mem_violations.mp hv).1
    obtain rfl := halone v.comma y hy hoffset
    exact hkind (by simpa [isComma, kind?, hy] using hcomma)
  · intro s exempt v hv e he
    exact clear_of_tokens hv he hx

/-- A fragment holds every comma in front of the first closing delimiter. -/
theorem holds_of_fragment {before rest start u behind inside : Text}
    (h : x.Includes before '<' ('>' :: rest) start [] u behind) (hseal : x.kind.isOpaque = true)
    (hrest : ∃ v, rest = inside ++ ',' :: v) (hclosing : ¬['<', '/', '>'] <:+: inside) :
    x.Holds (Text.width (before ++ '<' :: '>' :: inside)) := by
  obtain ⟨-, contents, htext, hend⟩ := (h.stands.fits.delimited hseal).of_fragment h.text
  obtain ⟨v, rfl⟩ := hrest
  have hu : u = '>' :: contents := (List.cons.inj (h.text.symm.trans htext)).2
  have hcontents : inside ++ ',' :: v = contents ++ behind := by
    have hrest := h.rest_eq
    rw [hu] at hrest
    exact (List.cons.inj hrest).2
  have hlt : Text.width inside < Text.width contents := by
    rcases List.append_cases hcontents with ⟨w, hw, rfl, -⟩ | ⟨w, rfl, hbehind⟩
    · have hpos := width_pos hw
      rw [Text.width_append]
      omega
    · -- The fragment would have ended before the comma.
      exfalso
      rcases hend with hsuffix | rfl
      · exact hclosing (hsuffix.isInfix.trans (List.prefix_append contents w).isInfix)
      · exact absurd hbehind (by simp)
  have hstart := h.start_eq
  have hstop : x.span.stop = x.span.start + Text.width x.text := rfl
  rw [htext] at hstop
  simp only [Token.Holds, Text.width_append, Text.width_cons, Text.width_nil] at hstart hstop ⊢
  omega

/-- **Fragments.** The opening of a fragment is in an opaque token that has started before it, or it
    continues an operator, or a fragment starts there. Then no comma up to the closing delimiter is
    checked. -/
theorem fragment_tokens (before rest : Text) :
    let t := before ++ '<' :: '>' :: rest
    ∃ i x, (ofText t).token? i = some x ∧ x.Holds (Text.width before) ∧
      ((x.kind.isOpaque = true ∧ x.span.start < Text.width before) ∨
        (x.kind = .operator ∧ ∃ front run, before = front ++ run ∧ run ≠ [] ∧
          x.span.start = Text.width front ∧ ∀ c ∈ run, Lexeme.isOperator c = true) ∨
        (x.kind = .markup ∧ x.span.start = Text.width before ∧
          ∀ inside behind, rest = inside ++ ',' :: behind → ¬['<', '/', '>'] <:+: inside →
            Shields t x (Text.width (before ++ '<' :: '>' :: inside)))) := by
  intro t
  obtain ⟨i, x, hx, start, u, v, behind, hincludes⟩ :=
    exists_includes (c := '<') before ('>' :: rest) (by decide)
  have hfits := hincludes.stands.fits
  have hstart := hincludes.start_eq
  refine ⟨i, x, hx, hincludes.holds, ?_⟩
  by_cases hseal : x.kind.isOpaque = true
  · by_cases hu : u = []
    · subst hu
      have hkind := ((hfits.delimited hseal).of_fragment hincludes.text).1
      refine .inr (.inr ⟨hkind, hstart, ?_⟩)
      intro inside behind hrest hclosing
      apply shields_of_ne_comma hx
      · rw [hkind]
        decide
      · exact holds_of_fragment hincludes hseal ⟨behind, hrest⟩ hclosing
    · have hpos := width_pos hu
      exact .inl ⟨hseal, by omega⟩
  · have hplain := hfits.plain (by simpa using hseal)
    obtain ⟨hkind, hu, hall⟩ := hplain.operator_of_fragment hincludes.text hincludes.rest_eq.symm
    refine .inr (.inl ⟨hkind, start ++ x.blanks, u, ?_, hu, hincludes.stands.offset, ?_⟩)
    · rw [List.append_assoc]
      exact hincludes.before_eq
    · intro c hc
      exact hall c (by simp [hincludes.text, hc])

/-- Behind a bracket, the opening of a fragment starts one. -/
example :
    (ofText ['[', '<', '>', 'a', ',', 'b', '<', '/', '>', ',', 'c', ']']).tokens.toList.map
        (fun x => (x.kind, x.span)) =
      [(.leftBracket, ⟨0, 1⟩), (.markup, ⟨1, 8⟩), (.comma, ⟨9, 1⟩), (.name, ⟨10, 1⟩),
        (.rightBracket, ⟨11, 1⟩)] := by
  decide

/-- An assignment takes in the opening of the fragment behind it. Nothing in the text is opaque then,
    and the comma in the fragment is reported and gets a space. -/
theorem fragment_in_operator :
    let t := ['x', '=', '<', '>', 'a', ',', 'b', '<', '/', '>']
    (ofText t).tokens.toList.map (fun x => (x.kind, x.text)) =
        [(.name, ['x']), (.operator, ['=', '<', '>']), (.name, ['a']), (.comma, [',']),
          (.name, ['b']), (.operator, ['<', '/', '>'])] ∧
      ¬(∀ before rest, t = before ++ '<' :: '>' :: rest →
        ∃ i x, (ofText t).token? i = some x ∧ x.kind.isOpaque = true ∧
          x.Holds (Text.width before)) ∧
      (ofText t).violations .standard ((ofText t).exempt (ofText t).outline.lists) =
        [⟨3, .after, 4⟩] ∧
      Lint.mend .standard t = (['x', '=', '<', '>', 'a', ',', ' ', 'b', '<', '/', '>'], 1) := by
  intro t
  have hplain : ∀ x ∈ (ofText t).tokens.toList, x.kind.isOpaque = false := by decide
  refine ⟨by decide, ?_, by decide, by decide⟩
  intro hshielded
  obtain ⟨i, x, hx, hseal, -⟩ := hshielded ['x', '='] ['a', ',', 'b', '<', '/', '>'] rfl
  have hmem := Array.mem_toList_iff.mpr (Array.mem_of_getElem? hx)
  rw [hplain x hmem] at hseal
  cases hseal

end Document

end CommaStyle
