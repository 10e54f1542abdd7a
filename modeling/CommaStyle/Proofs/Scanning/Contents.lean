import CommaStyle.Proofs.Scanning.Terminators

namespace CommaStyle.Lexeme

open Text

/-!
# What plain tokens are made of

A token that is not opaque is a single character, a word or an operator, and this leaves little room
for what an opaque token may have inside.

* `Lexeme.Plain` has a rule for each form, and `Fits.plain` says that every token that is not opaque
  has one of them;
* `Plain.startsComment_eq_false` — no comment starts in a plain token;
* `Plain.eq_comma` — a plain token with a comma in it is that comma;
* `Plain.operator_of_fragment` — a plain token in which a fragment could start is an operator that
  has begun before it.
-/

/-- Whether a token is an operator in front of a text: a run of operator characters in which no
    comment starts, and which does not open a fragment. -/
structure OperatorRun (x : Lexeme) (rest : Text) : Prop where
  kind : x.kind = operatorKind x.text
  closed : x.closed = true
  characters : ∀ c ∈ x.text, isOperator c = true
  comment : ∀ u v, x.text = u ++ v → v ≠ [] → startsComment (v ++ rest) = false
  fragment : ¬['<', '>'] <+: x.text ++ rest

/-- The forms that a token can have which is not opaque. -/
inductive Plain : Lexeme → Text → Prop where
  | punctuation {k c rest} (hc : Kind.ofPunctuation? c = some k) : Plain ⟨k, [c], true⟩ rest
  | number {text rest} (h : ∀ c ∈ text, isNumeral c = true) : Plain ⟨.number, text, true⟩ rest
  | name {text rest} (h : ∀ c ∈ text, continuesName c = true) : Plain ⟨.name, text, true⟩ rest
  | operator {x rest} (h : OperatorRun x rest) : Plain x rest
  | unknown {c rest} (hpunctuation : Kind.ofPunctuation? c = none) (hoperator : isOperator c = false) :
    Plain ⟨.unknown, [c], true⟩ rest

/-! ### Operators -/

/-- An operator stops in front of a comment. -/
theorem startsComment_operatorBody (t : Text) :
    ∀ u v, (operatorBody t).taken = u ++ v → v ≠ [] →
      startsComment (v ++ (operatorBody t).rest) = false := by
  fun_induction operatorBody t with
  | case1 =>
    intro u v huv hv
    exact absurd (List.append_eq_nil_iff.mp huv.symm).2 hv
  | case2 c t hc ih =>
    intro u v huv hv
    rw [Bool.and_eq_true, Bool.not_eq_true'] at hc
    cases u with
    | nil =>
      obtain rfl : c :: (operatorBody t).taken = v := huv
      have hwhole : c :: (operatorBody t).taken ++ (operatorBody t).rest = c :: t :=
        congrArg (c :: ·) (whole_operatorBody t)
      show startsComment (c :: (operatorBody t).taken ++ (operatorBody t).rest) = false
      rw [hwhole]
      exact hc.2
    | cons b u => exact ih u v (List.cons.inj huv).2 hv
  | case3 c t =>
    intro u v huv hv
    exact absurd (List.append_eq_nil_iff.mp huv.symm).2 hv

/-- What opens no pair starts no comment. -/
theorem startsComment_of_opensPair {c : Char} {t : Text} (h : opensPair c t = false) :
    startsComment (c :: t) = false := by
  rw [Bool.eq_false_iff, Ne, startsComment_iff]
  rintro ⟨d, u, hdu, hd⟩
  obtain ⟨rfl, rfl⟩ := List.cons.inj hdu
  rcases hd with rfl | rfl <;> exact absurd h (by simp [opensPair])

/-- The first character of an operator and what is taken behind it are an operator run. -/
theorem operatorRun_operatorBody {c : Char} {t : Text} (hc : isOperator c = true)
    (hpair : opensPair c t = false) :
    OperatorRun ⟨operatorKind (c :: (operatorBody t).taken), c :: (operatorBody t).taken, true⟩
      (operatorBody t).rest := by
  have hwhole : c :: (operatorBody t).taken ++ (operatorBody t).rest = c :: t :=
    congrArg (c :: ·) (whole_operatorBody t)
  constructor
  case kind => rfl
  case closed => rfl
  case characters =>
    intro a ha
    rcases List.mem_cons.mp ha with rfl | ha
    · exact hc
    · exact takes_operatorBody t a ha
  case comment =>
    intro u v huv hv
    cases u with
    | nil =>
      obtain rfl : c :: (operatorBody t).taken = v := huv
      rw [hwhole]
      exact startsComment_of_opensPair hpair
    | cons b u => exact startsComment_operatorBody t u v (List.cons.inj huv).2 hv
  case fragment =>
    show ¬['<', '>'] <+: c :: (operatorBody t).taken ++ (operatorBody t).rest
    rw [hwhole]
    rintro ⟨w, hw⟩
    obtain ⟨rfl, rfl⟩ := List.cons.inj hw
    exact absurd hpair (by simp [opensPair])

/-! ### Plain tokens -/

/-- **Plain tokens.** Every token that is not opaque has one of these forms. -/
theorem Cuts.plain {c : Char} {t : Text} {k : Kind} {d : Division} (h : Cuts c t k d)
    (hk : k.isOpaque = false) : Plain ⟨k, d.taken, d.closed⟩ d.rest := by
  cases h with
  | punctuation hc => exact .punctuation hc
  | lineComment => exact absurd hk (by decide)
  | blockComment => exact absurd hk (by decide)
  | markup => exact absurd hk (by decide)
  | string => exact absurd hk (by decide)
  | number hc =>
    have hclosed : ((numberBody c t).prepend [c]).closed = true := closed_exponentBody _
    have hfirst : isNumeral c = true := isNumeral_of_isDecimal c (by simp [isDecimal, hc])
    rw [hclosed]
    exact .number ((takes_numberBody c t).prepend (by simpa using hfirst))
  | name hc =>
    have hfirst : continuesName c = true := by simp [continuesName, hc]
    exact .name ((Division.takes_run (fun _ h => h) t).prepend (by simpa using hfirst))
  | operator hc hpair =>
    have hclosed : ((operatorBody t).prepend [c]).closed = true := closed_operatorBody t
    rw [hclosed]
    exact .operator (operatorRun_operatorBody hc hpair)
  | unknown hp hq hd hn ho => exact .unknown hp ho

/-- A token that is not opaque has one of the plain forms. -/
theorem Fits.plain {x : Lexeme} {rest : Text} (h : x.Fits rest) (hx : x.kind.isOpaque = false) :
    x.Plain rest := by
  obtain ⟨c, t, htext, -, hcuts⟩ := fits_iff_cuts.mp h
  have hplain := hcuts.plain hx
  rwa [← htext] at hplain

namespace Plain

variable {x : Lexeme} {rest u v : Text} {c : Char}

/-- A token that is not opaque needs no terminator. -/
theorem closed (h : x.Plain rest) : x.closed = true := by
  cases h with
  | operator h => exact h.closed
  | _ => rfl

/-- Of the plain tokens, only operators have slashes and angle brackets in them. -/
theorem operatorRun (h : x.Plain rest) (hmem : c ∈ x.text) (hc : c = '/' ∨ c = '<') :
    x.OperatorRun rest := by
  cases h with
  | punctuation hp =>
    obtain rfl := List.mem_singleton.mp hmem
    rcases hc with rfl | rfl <;> cases hp
  | number h =>
    have hnumeral := h c hmem
    rcases hc with rfl | rfl <;> exact absurd hnumeral (by decide)
  | name h =>
    have hname := h c hmem
    rcases hc with rfl | rfl <;> exact absurd hname (by decide)
  | operator h => exact h
  | unknown hp ho =>
    obtain rfl := List.mem_singleton.mp hmem
    rcases hc with rfl | rfl <;> exact absurd ho (by decide)

/-- No comment starts in a plain token. -/
theorem startsComment_eq_false (h : x.Plain rest) (htext : x.text = u ++ c :: v) :
    startsComment (c :: (v ++ rest)) = false := by
  by_cases hc : c = '/'
  · have hrun := h.operatorRun (c := c) (by simp [htext]) (.inl hc)
    exact hrun.comment u (c :: v) htext (by simp)
  · rw [Bool.eq_false_iff, Ne, startsComment_iff]
    rintro ⟨d, w, hdw, -⟩
    exact hc (List.cons.inj hdw).1

/-- A plain token with a comma in it is that comma. -/
theorem eq_comma (h : x.Plain rest) (hmem : ',' ∈ x.text) : x = ⟨.comma, [','], true⟩ := by
  cases h with
  | punctuation hp =>
    obtain rfl := List.mem_singleton.mp hmem
    obtain rfl := Option.some.inj hp
    rfl
  | number h => exact absurd (h ',' hmem) (by decide)
  | name h => exact absurd (h ',' hmem) (by decide)
  | operator h => exact absurd (h.characters ',' hmem) (by decide)
  | unknown hp ho =>
    obtain rfl := List.mem_singleton.mp hmem
    cases hp

/-- A plain token in which a fragment could start is an operator that has begun before it. -/
theorem operator_of_fragment (h : x.Plain rest) (htext : x.text = u ++ '<' :: v) {w : Text}
    (hpair : v ++ rest = '>' :: w) :
    x.kind = .operator ∧ u ≠ [] ∧ ∀ a ∈ x.text, isOperator a = true := by
  have hrun := h.operatorRun (c := '<') (by simp [htext]) (.inr rfl)
  have hu : u ≠ [] := by
    rintro rfl
    refine hrun.fragment ⟨w, ?_⟩
    rw [htext]
    exact congrArg ('<' :: ·) hpair.symm
  refine ⟨?_, hu, hrun.characters⟩
  rw [hrun.kind, htext]
  obtain ⟨b, u, rfl⟩ := List.exists_cons_of_ne_nil hu
  unfold operatorKind
  split
  · next heq => simp at heq
  · next heq => simp at heq
  · rfl

end Plain

end CommaStyle.Lexeme
