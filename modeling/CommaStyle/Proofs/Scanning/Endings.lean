import CommaStyle.Proofs.Collections
import CommaStyle.Proofs.Scanning.Fits

namespace CommaStyle

/-!
# How tokens end

A token that does not run on to the end of its line ends in a character with ink, so that the white
space behind it is all that there is.

* `Text.EndsInInk` says so of a text;
* `Lexeme.Cuts.endsInInk` is the result for what is cut off: opaque tokens end in their terminators,
  and all the characters of the other ones have ink;
* `Lexeme.Fits.endsInInk` — where a token ends in white space, a line feed or the end of the text
  follows.
-/

/-- Whether the last character of a text is no white space. -/
def Text.EndsInInk (t : Text) : Prop := ∃ front c, t = front ++ [c] ∧ isBlank c = false

namespace Text

/-- What ends in ink still does so behind something else. -/
theorem endsInInk_append (front : Text) {t : Text} (h : EndsInInk t) : EndsInInk (front ++ t) := by
  obtain ⟨u, c, rfl, hc⟩ := h
  exact ⟨front ++ u, c, by simp, hc⟩

/-- A text in which every character has ink. -/
theorem endsInInk_of_forall {c : Char} {t : Text} (hc : isBlank c = false)
    (h : ∀ a ∈ t, Graphic a) : EndsInInk (c :: t) := by
  rcases List.eq_nil_or_concat t with rfl | ⟨front, a, rfl⟩
  · exact ⟨[], c, rfl, hc⟩
  · exact ⟨c :: front, a, by simp, (h a (by simp)).isBlank⟩

end Text

namespace Lexeme

open Text

/-! ### Terminators -/

/-- What ends with its terminator is taken together with it. -/
theorem exists_taken_upTo {terminator t : Text} (h : (upTo terminator t).closed = true) :
    ∃ front, (upTo terminator t).taken = front ++ terminator := by
  fun_induction upTo terminator t with
  | case1 => exact absurd h (by simp)
  | case2 c t _ => exact ⟨[], rfl⟩
  | case3 c t _ ih =>
    obtain ⟨front, hfront⟩ := ih h
    exact ⟨c :: front, by simp [Division.prepend, hfront]⟩

/-- A string that is closed ends in its quote. -/
theorem exists_taken_stringBody {quote : Char} {t : Text}
    (h : (stringBody quote t).closed = true) :
    ∃ front, (stringBody quote t).taken = front ++ [quote] := by
  fun_induction stringBody quote t with
  | case1 => exact absurd h (by simp)
  | case2 c t ih =>
    obtain ⟨front, hfront⟩ := ih h
    exact ⟨'\\' :: c :: front, by simp [Division.prepend, hfront]⟩
  | case3 c t => exact absurd h (by simp)
  | case4 t => exact ⟨[], rfl⟩
  | case5 c t _ _ _ ih =>
    obtain ⟨front, hfront⟩ := ih h
    exact ⟨c :: front, by simp [Division.prepend, hfront]⟩

end Lexeme

/-! ### Runs of characters -/

namespace Division

/-- Whether every character that a division takes is in a class. -/
def Takes (p : Char → Bool) (d : Division) : Prop := ∀ c ∈ d.taken, p c = true

variable {p : Char → Bool}

theorem takes_none (p : Char → Bool) (t : Text) : (none t).Takes p := by simp [Takes, none]

/-- A run takes only characters of its class. -/
theorem takes_run {q : Char → Bool} (h : ∀ c, q c = true → p c = true) (t : Text) :
    (run q t).Takes p := fun c hc => h c (List.all_eq_true.mp List.all_takeWhile c hc)

/-- Characters of a class in front of a division leave it within the class. -/
theorem Takes.prepend {front : Text} (hfront : ∀ c ∈ front, p c = true) {d : Division}
    (h : d.Takes p) : (d.prepend front).Takes p := by
  intro c hc
  rcases List.mem_append.mp hc with hc | hc
  · exact hfront c hc
  · exact h c hc

/-- Two divisions within a class take only characters of the class together. -/
theorem Takes.thenTake {d : Division} (h : d.Takes p) {next : Text → Division}
    (hnext : ∀ t, (next t).Takes p) : (d.thenTake next).Takes p :=
  (hnext d.rest).prepend h

end Division

namespace Lexeme

open Text

/-- Whether a character can stand in a number. -/
def isNumeral (c : Char) : Bool := isHexadecimal c || ['o', 'x', '.', '+', '-'].contains c

theorem isNumeral_of_isDecimal (c : Char) (h : isDecimal c = true) : isNumeral c = true := by
  simp [isNumeral, isHexadecimal, h]

theorem isNumeral_of_isHexadecimal (c : Char) (h : isHexadecimal c = true) : isNumeral c = true := by
  simp [isNumeral, h]

/-- What can stand in a number has ink. -/
theorem graphic_of_isNumeral {c : Char} (h : isNumeral c = true) : Graphic c := by
  simp only [isNumeral, Bool.or_eq_true, List.contains_iff_mem, List.mem_cons, List.not_mem_nil,
    or_false] at h
  rcases h with h | rfl | rfl | rfl | rfl | rfl
  · exact graphic_of_isHexadecimal h
  all_goals simp [Graphic]

theorem takes_digits (t : Text) : (Division.run isDecimal t).Takes isNumeral :=
  Division.takes_run isNumeral_of_isDecimal t

/-- The digits of a number, with the letter of its base, can stand in a number. -/
theorem takes_integerBody (first : Char) (t : Text) : (integerBody first t).Takes isNumeral := by
  fun_cases integerBody first t with
  | case1 => exact Division.takes_none _ []
  | case2 c t hc =>
    simp only [Bool.and_eq_true, Bool.or_eq_true, decide_eq_true_eq] at hc
    refine (takes_digits t).prepend (List.forall_mem_singleton.mpr ?_)
    rcases hc.2 with rfl | rfl <;> decide
  | case3 c t _ hc =>
    simp only [Bool.and_eq_true, decide_eq_true_eq] at hc
    have hletter : isNumeral c = true := by
      rw [hc.2]
      decide
    exact (Division.takes_run isNumeral_of_isHexadecimal t).prepend
      (List.forall_mem_singleton.mpr hletter)
  | case4 c t => exact takes_digits (c :: t)

/-- A fraction can stand in a number. -/
theorem takes_fractionBody (t : Text) : (fractionBody t).Takes isNumeral := by
  fun_cases fractionBody t with
  | case1 d t hd =>
    exact (takes_digits (d :: t)).prepend (List.forall_mem_singleton.mpr (by decide))
  | case2 d t => exact Division.takes_none _ _
  | case3 t => exact Division.takes_none _ t

/-- An exponent can stand in a number. -/
theorem takes_exponentBody (t : Text) : (exponentBody t).Takes isNumeral := by
  have hletter : ∀ e : Char, (e = 'e' || e = 'E') = true → isNumeral e = true := by
    intro e he
    simp only [Bool.or_eq_true, decide_eq_true_eq] at he
    rcases he with rfl | rfl <;> decide
  have hplus : isNumeral '+' = true := by decide
  have hminus : isNumeral '-' = true := by decide
  fun_cases exponentBody t with
  | case1 => exact Division.takes_none _ []
  | case2 e he t => exact (takes_digits t).prepend (by simp [hletter e he, hplus])
  | case3 e he t => exact (takes_digits t).prepend (by simp [hletter e he, hminus])
  | case4 e he t => exact (takes_digits t).prepend (by simp [hletter e he])
  | case5 e t => exact Division.takes_none _ _

/-- Everything behind the first digit of a number can stand in a number. -/
theorem takes_numberBody (first : Char) (t : Text) : (numberBody first t).Takes isNumeral :=
  ((takes_integerBody first t).thenTake takes_fractionBody).thenTake takes_exponentBody

/-- An operator takes only characters that can stand in one. -/
theorem takes_operatorBody (t : Text) : (operatorBody t).Takes isOperator := by
  fun_induction operatorBody t with
  | case1 => exact Division.takes_none _ []
  | case2 c t hc ih =>
    rw [Bool.and_eq_true] at hc
    exact ih.prepend (by simp [hc.1])
  | case3 c t => exact Division.takes_none _ _

/-! ### Tokens -/

/-- A token with its terminator, or without a need for one, ends in a character with ink. -/
theorem Cuts.endsInInk {c : Char} {t : Text} {k : Kind} {d : Division} (h : Cuts c t k d)
    (hc : isBlank c = false) (hk : ¬RunsOn k d.closed) : EndsInInk d.taken := by
  simp only [RunsOn, not_or, Bool.not_eq_false] at hk
  obtain ⟨hclosed, hk⟩ := hk
  cases h with
  | punctuation => exact ⟨[], c, rfl, hc⟩
  | lineComment => exact absurd rfl hk
  | @blockComment t =>
    rw [commentBody_eq_upTo] at hclosed ⊢
    obtain ⟨front, hfront⟩ := exists_taken_upTo hclosed
    refine endsInInk_append ['/', '*'] ?_
    rw [hfront]
    exact endsInInk_append front ⟨['*'], '/', rfl, by decide⟩
  | @markup t =>
    rw [markupBody_eq_upTo] at hclosed ⊢
    obtain ⟨front, hfront⟩ := exists_taken_upTo hclosed
    refine endsInInk_append ['<', '>'] ?_
    rw [hfront]
    exact endsInInk_append front ⟨['<', '/'], '>', rfl, by decide⟩
  | string =>
    -- A string in quotes ends in the quote that it starts with.
    obtain ⟨front, hfront⟩ := exists_taken_stringBody hclosed
    refine endsInInk_append [c] ?_
    rw [hfront]
    exact ⟨front, c, rfl, hc⟩
  | number =>
    exact endsInInk_of_forall hc fun a ha => graphic_of_isNumeral (takes_numberBody c t a ha)
  | name =>
    have htakes : (Division.run continuesName t).Takes continuesName :=
      Division.takes_run (fun _ h => h) t
    exact endsInInk_of_forall hc fun a ha => graphic_of_continuesName (htakes a ha)
  | operator =>
    exact endsInInk_of_forall hc fun a ha => graphic_of_isOperator (takes_operatorBody t a ha)
  | unknown => exact ⟨[], c, rfl, hc⟩

/-- Where a token ends in white space, a line feed follows, or nothing at all. -/
theorem Fits.endsInInk {x : Lexeme} {rest : Text} (h : x.Fits rest) :
    EndsInInk x.text ∨ ∀ a ∈ rest.head?, a = '\n' := by
  by_cases hx : x.runsOn
  · exact .inr (head?_of_runsOn h hx)
  · obtain ⟨c, t, htext, hc, hcuts⟩ := fits_iff_cuts.mp h
    rw [htext]
    exact .inl (hcuts.endsInInk hc hx)

end Lexeme

end CommaStyle
