import CommaStyle.Proofs.Scanning.Cuts

namespace CommaStyle.Lexeme

open Text

/-!
# Names, numbers and operators look at what stops them

Each of these tokens ends where a class of characters ends (`EndsBy`). There are two exceptions, and
both look one character further: a fraction needs a digit behind its point, and an operator stops in
front of a comment. So the text behind a number (`numberBody_local`) or an operator
(`operatorBody_local`) can be exchanged for one that a glance does not tell apart from it.
-/

/-- A run takes a text just if all of its characters are in the class and the next one is not. -/
theorem run_eq_iff {p : Char → Bool} {t rest : Text} :
    Division.run p (t ++ rest) = ⟨t, rest, true⟩ ↔ (∀ c ∈ t, p c = true) ∧ Stops p rest := by
  induction t with
  | nil =>
    cases rest with
    | nil => simp [Division.run]
    | cons c rest => by_cases h : p c <;> simp [Division.run, h]
  | cons c t ih =>
    by_cases h : p c
    · have hstep : Division.run p (c :: t ++ rest) = (Division.run p (t ++ rest)).prepend [c] := by
        simp [Division.run, Division.prepend, h]
      rw [hstep, List.forall_mem_cons]
      simp only [h, true_and]
      exact Division.prepend_eq_iff.trans ih
    · simp [Division.run, h]

/-- A scanner takes a text because a class of graphic characters ends with it: it takes the text in
    front of everything that starts with no character of this class. -/
def EndsBy (scan : Text → Division) (t rest : Text) : Prop :=
  ∃ p : Char → Bool, (∀ c, p c = true → Graphic c) ∧ Stops p rest ∧
    ∀ rest', Stops p rest' → scan (t ++ rest') = ⟨t, rest', true⟩

/-- What follows can be replaced where a class of graphic characters ends. -/
theorem EndsBy.replace {scan : Text → Division} {t rest rest' : Text} (h : EndsBy scan t rest)
    (hr : ReplacedBy rest rest') : scan (t ++ rest') = ⟨t, rest', true⟩ := by
  obtain ⟨p, hp, hrest, hscan⟩ := h
  exact hscan rest' (hr.stops hp hrest)

/-- The same where a part of what follows stays. -/
theorem EndsBy.replace_append {scan : Text → Division} {t front rest rest' : Text}
    (h : EndsBy scan t (front ++ rest)) (hr : ReplacedBy rest rest') :
    scan (t ++ (front ++ rest')) = ⟨t, front ++ rest', true⟩ := by
  obtain ⟨p, hp, hrest, hscan⟩ := h
  exact hscan _ (hr.stops_append hp front hrest)

/-- Runs end by their class. -/
theorem endsBy_run {p : Char → Bool} (hp : ∀ c, p c = true → Graphic c) {t rest : Text}
    (h : Division.run p (t ++ rest) = ⟨t, rest, true⟩) : EndsBy (Division.run p) t rest := by
  obtain ⟨hall, hstop⟩ := run_eq_iff.mp h
  exact ⟨p, hp, hstop, fun _ hr => run_eq_iff.mpr ⟨hall, hr⟩⟩

/-- Characters in front that are taken whatever follows. -/
theorem EndsBy.prepend {scan scan' : Text → Division} {t rest : Text} (front : Text)
    (hstep : ∀ r, scan (front ++ (t ++ r)) = (scan' (t ++ r)).prepend front)
    (h : EndsBy scan' t rest) : EndsBy scan (front ++ t) rest := by
  obtain ⟨p, hp, hrest, hscan⟩ := h
  refine ⟨p, hp, hrest, fun rest' hr => ?_⟩
  rw [List.append_assoc, hstep, hscan rest' hr]
  rfl

/-- Nothing is taken in front of a character outside of a class. -/
theorem endsBy_nil {scan : Text → Division} {p : Char → Bool} (hp : ∀ c, p c = true → Graphic c)
    (hscan : ∀ r, scan r = ⟨[], r, true⟩ ↔ Stops p r) {rest : Text}
    (h : scan ([] ++ rest) = ⟨[], rest, true⟩) : EndsBy scan [] rest :=
  ⟨p, hp, (hscan rest).mp h, fun rest' hr => (hscan rest').mpr hr⟩

/-- Whether a character continues a number behind its first digit. -/
def continuesInteger (first c : Char) : Bool :=
  isDecimal c || (first = '0' && (c = 'b' || c = 'o' || c = 'x'))

/-- What continues a number behind its first digit is graphic. -/
theorem graphic_of_continuesInteger {first c : Char} (h : continuesInteger first c = true) :
    Graphic c := by
  simp only [continuesInteger, Bool.or_eq_true, Bool.and_eq_true, decide_eq_true_eq] at h
  rcases h with h | ⟨-, (rfl | rfl) | rfl⟩
  · exact graphic_of_isDecimal h
  all_goals simp [Graphic]

/-- A number has a single digit just if nothing behind it continues it. -/
theorem integerBody_eq_nil_iff {first : Char} {t : Text} :
    integerBody first t = ⟨[], t, true⟩ ↔ Stops (continuesInteger first) t := by
  cases t with
  | nil => simp [integerBody, Division.none]
  | cons c t =>
    rw [stops_cons, integerBody]
    split
    · next hb =>
      simp only [Bool.and_eq_true, Bool.or_eq_true, decide_eq_true_eq] at hb
      obtain ⟨rfl, rfl | rfl⟩ := hb <;> simp [Division.prepend, continuesInteger]
    · next hb =>
      split
      · next hx =>
        simp only [Bool.and_eq_true, decide_eq_true_eq] at hx
        obtain ⟨rfl, rfl⟩ := hx
        simp [Division.prepend, continuesInteger]
      · next hx =>
        have hrun : Division.run isDecimal (c :: t) = ⟨[], c :: t, true⟩ ↔ isDecimal c = false := by
          simpa using @run_eq_iff isDecimal [] (c :: t)
        rw [hrun]
        simp only [Bool.and_eq_true, Bool.or_eq_true, decide_eq_true_eq, not_and, not_or] at hb hx
        simp only [continuesInteger, Bool.or_eq_false_iff, Bool.and_eq_false_imp, decide_eq_true_eq,
          decide_eq_false_iff_not]
        exact ⟨fun h => ⟨h, fun h0 => ⟨hb h0, hx h0⟩⟩, fun h => h.1⟩

/-- The digits of a number end by what continues a number. -/
theorem endsBy_integerBody {first : Char} {t rest : Text}
    (h : integerBody first (t ++ rest) = ⟨t, rest, true⟩) :
    EndsBy (integerBody first) t rest := by
  cases t with
  | nil => exact endsBy_nil (fun _ => graphic_of_continuesInteger) (fun _ => integerBody_eq_nil_iff) h
  | cons c t =>
    -- The character behind a zero may choose a base, and with it the class of the digits.
    by_cases hb : (first = '0' && (c = 'b' || c = 'o')) = true
    · have hstep : ∀ u, integerBody first (c :: u) = (Division.run isDecimal u).prepend [c] := by
        intro u
        simp [integerBody, hb]
      rw [List.cons_append, hstep] at h
      exact (endsBy_run (fun _ => graphic_of_isDecimal) (Division.prepend_eq_iff.mp h)).prepend [c]
        fun r => hstep _
    by_cases hx : (first = '0' && c = 'x') = true
    · have hstep : ∀ u, integerBody first (c :: u) = (Division.run isHexadecimal u).prepend [c] := by
        intro u
        simp [integerBody, hb, hx]
      rw [List.cons_append, hstep] at h
      exact (endsBy_run (fun _ => graphic_of_isHexadecimal) (Division.prepend_eq_iff.mp h)).prepend [c]
        fun r => hstep _
    · have hstep : ∀ u, integerBody first (c :: u) = Division.run isDecimal (c :: u) := by
        intro u
        simp [integerBody, hb, hx]
      rw [List.cons_append, hstep] at h
      exact (endsBy_run (fun _ => graphic_of_isDecimal) h).prepend []
        fun r => (hstep (t ++ r)).trans rfl

/-- Whether a fraction of a number starts here. -/
def StartsFraction (t : Text) : Prop := ∃ d u, t = '.' :: d :: u ∧ d.isDigit = true

/-- A point with a digit behind it is taken, with the digits that follow. -/
theorem fractionBody_of_digit {d : Char} (hd : d.isDigit = true) (t : Text) :
    fractionBody ('.' :: d :: t) = (Division.run isDecimal (d :: t)).prepend ['.'] := by
  simp [fractionBody, hd]

/-- There is no fraction just if none starts. -/
theorem fractionBody_eq_nil_iff {t : Text} :
    fractionBody t = ⟨[], t, true⟩ ↔ ¬StartsFraction t := by
  constructor
  · rintro h ⟨d, u, rfl, hd⟩
    rw [fractionBody_of_digit hd] at h
    exact absurd h (by simp [Division.prepend])
  · intro h
    fun_cases fractionBody t with
    | case1 d t hd => exact absurd ⟨d, t, rfl, hd⟩ h
    | case2 d t hd => rfl
    | case3 t => rfl

/-- No fraction starts where the text is replaced. -/
theorem not_startsFraction_of_replacedBy {t u : Text} (h : ReplacedBy t u)
    (ht : ¬StartsFraction t) : ¬StartsFraction u := by
  rintro ⟨d, u, rfl, hd⟩
  obtain ⟨t', rfl⟩ := h.cons_cons (by simp [Graphic]) (graphic_of_isDigit hd)
  exact ht ⟨d, t', rfl, hd⟩

/-- A fraction ends by its digits. -/
theorem endsBy_fractionBody {c : Char} {t rest : Text}
    (h : fractionBody (c :: t ++ rest) = ⟨c :: t, rest, true⟩) :
    EndsBy fractionBody (c :: t) rest := by
  by_cases hs : StartsFraction (c :: t ++ rest)
  · obtain ⟨d, u, hdu, hd⟩ := hs
    obtain ⟨rfl, htail⟩ : c = '.' ∧ t ++ rest = d :: u := by simpa using hdu
    rw [List.cons_append, htail, fractionBody_of_digit hd, ← htail] at h
    have hrun : Division.run isDecimal (t ++ rest) = ⟨t, rest, true⟩ := Division.prepend_eq_iff.mp h
    cases t with
    | nil =>
      -- The digit behind the point is taken.
      obtain rfl : rest = d :: u := htail
      have hstop := (run_eq_iff.mp hrun).2
      simp [isDecimal, hd] at hstop
    | cons e t =>
      obtain ⟨rfl, -⟩ : e = d ∧ t ++ rest = u := by simpa using htail
      exact (endsBy_run (fun _ => graphic_of_isDecimal) hrun).prepend ['.']
        fun r => fractionBody_of_digit hd (t ++ r)
  · rw [fractionBody_eq_nil_iff.mpr hs] at h
    exact absurd h (by simp)

/-- Whether a character is the letter of an exponent. -/
def isExponentLetter (c : Char) : Bool := c = 'e' || c = 'E'

/-- The letter of an exponent is graphic. -/
theorem graphic_of_isExponentLetter {c : Char} (h : isExponentLetter c = true) : Graphic c := by
  simp only [isExponentLetter, Bool.or_eq_true, decide_eq_true_eq] at h
  rcases h with rfl | rfl <;> simp [Graphic]

/-- Whether a character is the sign of an exponent. -/
def isSign (c : Char) : Bool := c = '+' || c = '-'

/-- Whether a character continues an exponent behind its letter. -/
def continuesExponent (c : Char) : Bool := isDecimal c || isSign c

/-- What continues an exponent is graphic. -/
theorem graphic_of_continuesExponent {c : Char} (h : continuesExponent c = true) : Graphic c := by
  simp only [continuesExponent, isSign, Bool.or_eq_true, decide_eq_true_eq] at h
  rcases h with h | rfl | rfl
  · exact graphic_of_isDecimal h
  all_goals simp [Graphic]

/-- The digits of an exponent behind its letter, with the sign in front of them. -/
def signedDigits : Text → Division
  | [] => .none []
  | s :: t =>
    if isSign s then (Division.run isDecimal t).prepend [s] else .run isDecimal (s :: t)

/-- An exponent is its letter and signed digits. -/
theorem exponentBody_cons (e : Char) (t : Text) :
    exponentBody (e :: t) =
      if isExponentLetter e then (signedDigits t).prepend [e] else ⟨[], e :: t, true⟩ := by
  have hletter : ∀ c, (decide (c = 'e') || decide (c = 'E')) = isExponentLetter c := fun _ => rfl
  match t with
  | [] => simp only [exponentBody, hletter]; rfl
  | s :: t =>
    by_cases hplus : s = '+'
    · subst hplus
      simp only [exponentBody, hletter]
      rfl
    by_cases hminus : s = '-'
    · subst hminus
      simp only [exponentBody, hletter]
      rfl
    · have hsign : isSign s = false := by simp [isSign, hplus, hminus]
      rw [exponentBody, hletter, signedDigits, hsign]
      · rfl
      · intro u hu
        exact hplus (List.cons.inj hu).1
      · intro u hu
        exact hminus (List.cons.inj hu).1

/-- There are no signed digits just if nothing continues an exponent. -/
theorem signedDigits_eq_nil_iff {t : Text} :
    signedDigits t = ⟨[], t, true⟩ ↔ Stops continuesExponent t := by
  cases t with
  | nil => simp [signedDigits, Division.none]
  | cons s t =>
    rw [signedDigits, stops_cons, continuesExponent]
    split
    · next hs => simp [Division.prepend, hs]
    · next hs => simpa [hs] using @run_eq_iff isDecimal [] (s :: t)

/-- Signed digits end by what continues an exponent. -/
theorem endsBy_signedDigits {t rest : Text} (h : signedDigits (t ++ rest) = ⟨t, rest, true⟩) :
    EndsBy signedDigits t rest := by
  cases t with
  | nil =>
    exact endsBy_nil (fun _ => graphic_of_continuesExponent) (fun _ => signedDigits_eq_nil_iff) h
  | cons s t =>
    by_cases hs : isSign s = true
    · have hstep : ∀ u, signedDigits (s :: u) = (Division.run isDecimal u).prepend [s] :=
        fun u => if_pos hs
      rw [List.cons_append, hstep] at h
      exact (endsBy_run (fun _ => graphic_of_isDecimal) (Division.prepend_eq_iff.mp h)).prepend [s]
        fun r => hstep _
    · have hstep : ∀ u, signedDigits (s :: u) = Division.run isDecimal (s :: u) :=
        fun u => if_neg hs
      rw [List.cons_append, hstep] at h
      exact (endsBy_run (fun _ => graphic_of_isDecimal) h).prepend []
        fun r => (hstep (t ++ r)).trans rfl

/-- There is no exponent just if its letter is missing. -/
theorem exponentBody_eq_nil_iff {t : Text} :
    exponentBody t = ⟨[], t, true⟩ ↔ Stops isExponentLetter t := by
  cases t with
  | nil => simp [exponentBody, Division.none]
  | cons e t =>
    rw [exponentBody_cons, stops_cons]
    split
    · next he => simp [Division.prepend, he]
    · next he => simpa using he

/-- An exponent ends by its letter, or by what continues it. -/
theorem endsBy_exponentBody {t rest : Text} (h : exponentBody (t ++ rest) = ⟨t, rest, true⟩) :
    EndsBy exponentBody t rest := by
  cases t with
  | nil =>
    exact endsBy_nil (fun _ => graphic_of_isExponentLetter) (fun _ => exponentBody_eq_nil_iff) h
  | cons e t =>
    rw [List.cons_append, exponentBody_cons] at h
    split at h
    · next he =>
      have hstep : ∀ u, exponentBody (e :: u) = (signedDigits u).prepend [e] :=
        fun u => (exponentBody_cons e u).trans (if_pos he)
      exact (endsBy_signedDigits (Division.prepend_eq_iff.mp h)).prepend [e] fun r => hstep _
    · exact absurd h (by simp)

/-- What the exponent takes starts with its letter, so no fraction starts there. -/
theorem not_startsFraction_exponent {e : Char} {t rest : Text}
    (h : exponentBody (e :: t ++ rest) = ⟨e :: t, rest, true⟩) (rest' : Text) :
    ¬StartsFraction (e :: t ++ rest') := by
  rintro ⟨d, u, hdu, -⟩
  obtain rfl : e = '.' := (List.cons.inj hdu).1
  rw [List.cons_append, exponentBody_cons, if_neg (by decide)] at h
  exact absurd h (by simp)

theorem closed_integerBody (first : Char) (t : Text) : (integerBody first t).closed = true := by
  fun_cases integerBody first t <;> rfl

theorem closed_fractionBody (t : Text) : (fractionBody t).closed = true := by
  fun_cases fractionBody t <;> rfl

/-- A number is divided into its digits, its fraction and its exponent. -/
theorem numberBody_eq_iff {first : Char} {t rest : Text} :
    numberBody first (t ++ rest) = ⟨t, rest, true⟩ ↔
      ∃ a b c, t = a ++ (b ++ c) ∧
        integerBody first (a ++ (b ++ (c ++ rest))) = ⟨a, b ++ (c ++ rest), true⟩ ∧
        fractionBody (b ++ (c ++ rest)) = ⟨b, c ++ rest, true⟩ ∧
        exponentBody (c ++ rest) = ⟨c, rest, true⟩ := by
  constructor
  · intro h
    rcases hi : integerBody first (t ++ rest) with ⟨a, u, x⟩
    obtain rfl : x = true := by simpa [hi] using closed_integerBody first (t ++ rest)
    have hwhole : a ++ u = t ++ rest := by
      simpa [hi, Division.whole] using whole_integerBody first (t ++ rest)
    rcases hf : fractionBody u with ⟨b, v, y⟩
    obtain rfl : y = true := by simpa [hf] using closed_fractionBody u
    obtain rfl : b ++ v = u := by simpa [hf, Division.whole] using whole_fractionBody u
    rcases he : exponentBody v with ⟨c, w, z⟩
    obtain rfl : c ++ w = v := by simpa [he, Division.whole] using whole_exponentBody v
    simp only [numberBody, Division.thenTake, Division.prepend, hi, hf, he, Division.mk.injEq] at h
    obtain ⟨rfl, rfl, rfl⟩ := h
    exact ⟨a, b, c, by simp, by rw [hwhole, hi], hf, he⟩
  · rintro ⟨a, b, c, rfl, ha, hb, hc⟩
    simp only [List.append_assoc, numberBody, Division.thenTake, ha, hb, hc, Division.prepend]

/-- **Numbers are local.** A number stays what it is when the text behind it is replaced. -/
theorem numberBody_local {first : Char} {t rest rest' : Text}
    (h : numberBody first (t ++ rest) = ⟨t, rest, true⟩) (hr : ReplacedBy rest rest') :
    numberBody first (t ++ rest') = ⟨t, rest', true⟩ := by
  obtain ⟨a, b, c, rfl, ha, hb, hc⟩ := numberBody_eq_iff.mp h
  refine numberBody_eq_iff.mpr ⟨a, b, c, rfl, ?_, ?_, (endsBy_exponentBody hc).replace hr⟩
  · have ha := endsBy_integerBody ha
    rw [← List.append_assoc b] at ha ⊢
    exact ha.replace_append hr
  · cases b with
    | cons d b => exact (endsBy_fractionBody hb).replace_append hr
    -- A fraction could start behind the digits only where there is no exponent either.
    | nil =>
      refine fractionBody_eq_nil_iff.mpr ?_
      cases c with
      | cons e c => exact not_startsFraction_exponent hc rest'
      | nil => exact not_startsFraction_of_replacedBy hr (fractionBody_eq_nil_iff.mp hb)

/-- A comment starts with a slash and another one or a star. -/
theorem startsComment_iff {t : Text} :
    startsComment t = true ↔ ∃ d u, t = '/' :: d :: u ∧ (d = '/' ∨ d = '*') := by
  constructor
  · intro h
    fun_cases startsComment t with
    | case1 u => exact ⟨'/', u, rfl, .inl rfl⟩
    | case2 u => exact ⟨'*', u, rfl, .inr rfl⟩
    | case3 => exact absurd h (by simp [startsComment])
  · rintro ⟨d, u, rfl, rfl | rfl⟩ <;> rfl

/-- Whether a comment starts is seen from two characters. -/
theorem startsComment_append {c d : Char} (t u : Text) :
    startsComment (c :: d :: t) = startsComment (c :: d :: u) := by
  rw [Bool.eq_iff_iff, startsComment_iff, startsComment_iff]
  simp

/-- Whether an operator goes on here. -/
def continuesOperator (t : Text) : Bool := t.head?.any isOperator && !startsComment t

/-- An operator goes on over a character, or stops in front of it. -/
theorem operatorBody_cons (c : Char) (t : Text) :
    operatorBody (c :: t) =
      if continuesOperator (c :: t) then (operatorBody t).prepend [c] else ⟨[], c :: t, true⟩ := by
  rw [operatorBody]
  rfl

/-- An operator stops at once just if nothing continues it. -/
theorem operatorBody_eq_nil_iff {t : Text} :
    operatorBody t = ⟨[], t, true⟩ ↔ continuesOperator t = false := by
  cases t with
  | nil => simp [operatorBody, continuesOperator, Division.none]
  | cons c t =>
    rw [operatorBody_cons]
    split
    · next hc => simp [Division.prepend, hc]
    · next hc => simpa using hc

/-- No operator goes on where the text is replaced. -/
theorem continuesOperator_of_replacedBy {t u : Text} (h : ReplacedBy t u)
    (ht : continuesOperator t = false) : continuesOperator u = false := by
  cases u with
  | nil => rfl
  | cons c u =>
    by_cases hc : isOperator c = true
    · obtain ⟨t', rfl⟩ := h.cons (graphic_of_isOperator hc)
      -- What stopped the operator is a comment, and it is still there.
      have hcomment : startsComment (c :: t') = true := by simpa [continuesOperator, hc] using ht
      simp [continuesOperator, h.comment rfl (graphic_of_isOperator hc).isSoft hcomment]
    · simp [continuesOperator, hc]

/-- No comment starts across the place where the text is replaced. -/
theorem startsComment_of_replacedBy {c : Char} {t u : Text} (h : ReplacedBy t u)
    (ht : startsComment (c :: t) = false) : startsComment (c :: u) = false := by
  rw [Bool.eq_false_iff, Ne, startsComment_iff] at ht ⊢
  rintro ⟨d, v, hv, hd⟩
  obtain ⟨rfl, rfl⟩ := List.cons.inj hv
  obtain ⟨t', rfl⟩ := h.cons (by rcases hd with rfl | rfl <;> simp [Graphic])
  exact ht ⟨d, t', rfl, hd⟩

/-- **Operators are local.** An operator stays what it is when the text behind it is replaced. -/
theorem operatorBody_local {t rest rest' : Text}
    (h : operatorBody (t ++ rest) = ⟨t, rest, true⟩) (hr : ReplacedBy rest rest') :
    operatorBody (t ++ rest') = ⟨t, rest', true⟩ := by
  induction t with
  | nil =>
    have hstop := operatorBody_eq_nil_iff.mp h
    exact operatorBody_eq_nil_iff.mpr (continuesOperator_of_replacedBy hr hstop)
  | cons c t ih =>
    rw [List.cons_append, operatorBody_cons] at h ⊢
    split at h
    · next hc =>
      simp only [continuesOperator, Bool.and_eq_true, Bool.not_eq_true'] at hc
      -- The last character of the operator must not open a comment with what comes behind it now.
      have hcomment : startsComment (c :: (t ++ rest')) = false := by
        cases t with
        | nil => exact startsComment_of_replacedBy hr hc.2
        | cons d t => exact (startsComment_append _ _).trans hc.2
      have hc' : continuesOperator (c :: (t ++ rest')) = true := by
        simpa only [continuesOperator, Bool.and_eq_true, Bool.not_eq_true'] using ⟨hc.1, hcomment⟩
      rw [if_pos hc']
      exact Division.prepend_eq_iff.mpr (ih (Division.prepend_eq_iff.mp h))
    · exact absurd h (by simp)

end CommaStyle.Lexeme
