import CommaStyle.Proofs.Scanning.Lookahead

namespace CommaStyle

/-!
# How tokens are cut off

Two facts about every scanner: it loses nothing (`Division.whole` puts the text together again), and
`Lexeme.scan` chooses it by the first one or two characters. The choice is stated as a relation,
`Lexeme.Cuts`, with one rule for each kind of token; `exists_cuts_scan` and `scan_of_cuts` tie it to
the function.
-/

/-! ### Nothing is lost -/

namespace Division

/-- The text that is divided. -/
def whole (d : Division) : Text := d.taken ++ d.rest

@[simp] theorem whole_prepend (front : Text) (d : Division) :
    (d.prepend front).whole = front ++ d.whole := by
  simp [whole, prepend]

@[simp] theorem whole_run (p : Char → Bool) (t : Text) : (run p t).whole = t := by
  simp [whole, run]

@[simp] theorem whole_none (t : Text) : (none t).whole = t := rfl

/-- Dividing the rest once more leaves the text as it is. -/
theorem whole_thenTake {next : Text → Division} (hnext : ∀ t, (next t).whole = t) (d : Division) :
    (d.thenTake next).whole = d.whole := by
  rw [thenTake, whole_prepend, hnext, whole]

/-- Characters in front can be taken off both sides. -/
theorem prepend_eq_iff {front t rest : Text} {b : Bool} {d : Division} :
    d.prepend front = ⟨front ++ t, rest, b⟩ ↔ d = ⟨t, rest, b⟩ := by
  obtain ⟨taken, rest', closed⟩ := d
  simp [prepend]

end Division

namespace Lexeme

/-- A block comment is a part of the text. -/
@[simp] theorem whole_commentBody (t : Text) : (commentBody t).whole = t := by
  fun_induction commentBody t with
  | case1 => rfl
  | case2 t => rfl
  | case3 c t _ ih => simp [ih]

/-- A fragment is a part of the text. -/
@[simp] theorem whole_markupBody (t : Text) : (markupBody t).whole = t := by
  fun_induction markupBody t with
  | case1 => rfl
  | case2 t => rfl
  | case3 c t _ ih => simp [ih]

/-- A string is a part of the text. -/
@[simp] theorem whole_stringBody (quote : Char) (t : Text) : (stringBody quote t).whole = t := by
  fun_induction stringBody quote t with
  | case1 => rfl
  | case2 c t ih => simp [ih]
  | case3 c t => rfl
  | case4 c t => rfl
  | case5 c t _ _ _ ih => simp [ih]

/-- The digits of a number are a part of the text. -/
@[simp] theorem whole_integerBody (first : Char) (t : Text) : (integerBody first t).whole = t := by
  fun_cases integerBody first t <;> simp

@[simp] theorem whole_fractionBody (t : Text) : (fractionBody t).whole = t := by
  fun_cases fractionBody t <;> simp

@[simp] theorem whole_exponentBody (t : Text) : (exponentBody t).whole = t := by
  fun_cases exponentBody t <;> simp

/-- A number is a part of the text. -/
@[simp] theorem whole_numberBody (first : Char) (t : Text) : (numberBody first t).whole = t := by
  rw [numberBody, Division.whole_thenTake whole_exponentBody,
    Division.whole_thenTake whole_fractionBody, whole_integerBody]

/-- An operator is a part of the text. -/
@[simp] theorem whole_operatorBody (t : Text) : (operatorBody t).whole = t := by
  fun_induction operatorBody t with
  | case1 => rfl
  | case2 c t _ ih => simp [ih]
  | case3 c t => rfl

/-! ### The choice of the scanner as a relation -/

/-- Whether a character and the one behind it open a comment or a fragment together. -/
def opensPair : Char → Text → Bool
  | '/', '/' :: _ => true
  | '/', '*' :: _ => true
  | '<', '>' :: _ => true
  | _, _ => false

/-- How the characters from `c` on are divided into a token of some kind and the rest. -/
inductive Cuts (c : Char) : Text → Kind → Division → Prop where
  | punctuation {k t} (hc : Kind.ofPunctuation? c = some k) : Cuts c t k ⟨[c], t, true⟩
  | lineComment {t} (hc : c = '/') :
    Cuts c ('/' :: t) .lineComment ((Division.run (· != '\n') t).prepend ['/', '/'])
  | blockComment {t} (hc : c = '/') :
    Cuts c ('*' :: t) .blockComment ((commentBody t).prepend ['/', '*'])
  | markup {t} (hc : c = '<') : Cuts c ('>' :: t) .markup ((markupBody t).prepend ['<', '>'])
  | string {t} (hc : isQuote c = true) : Cuts c t .string ((stringBody c t).prepend [c])
  | number {t} (hc : c.isDigit = true) : Cuts c t .number ((numberBody c t).prepend [c])
  | name {t} (hc : startsName c = true) :
    Cuts c t .name ((Division.run continuesName t).prepend [c])
  | operator {t} (hc : isOperator c = true) (hpair : opensPair c t = false) :
    Cuts c t (operatorKind (c :: (operatorBody t).taken)) ((operatorBody t).prepend [c])
  | unknown {t} (hpunctuation : Kind.ofPunctuation? c = none) (hquote : isQuote c = false)
    (hdigit : c.isDigit = false) (hname : startsName c = false)
    (hoperator : isOperator c = false) : Cuts c t .unknown ⟨[c], t, true⟩

/-- Every token is cut off in one of the ways of `Cuts`. -/
theorem exists_cuts_scan (c : Char) (t : Text) :
    ∃ k d, Cuts c t k d ∧ scan c t = ofDivision k d := by
  unfold scan
  split
  case h_1 k hk => exact ⟨k, _, .punctuation hk, rfl⟩
  case h_2 u _ => exact ⟨_, _, .lineComment rfl, rfl⟩
  case h_3 u _ => exact ⟨_, _, .blockComment rfl, rfl⟩
  case h_4 u _ => exact ⟨_, _, .markup rfl, rfl⟩
  case h_5 c t _ _ _ hslash hstar hangle hnone =>
    -- No two characters open anything together here, so that the first one decides.
    have hpair : opensPair c t = false := by
      unfold opensPair
      split
      · exact (hslash _ rfl rfl).elim
      · exact (hstar _ rfl rfl).elim
      · exact (hangle _ rfl rfl).elim
      · rfl
    by_cases hq : isQuote c = true
    · rw [if_pos hq]
      exact ⟨_, _, .string hq, rfl⟩
    by_cases hd : c.isDigit = true
    · rw [if_neg hq, if_pos hd]
      exact ⟨_, _, .number hd, rfl⟩
    by_cases hn : startsName c = true
    · rw [if_neg hq, if_neg hd, if_pos hn]
      exact ⟨_, _, .name hn, rfl⟩
    by_cases ho : isOperator c = true
    · rw [if_neg hq, if_neg hd, if_neg hn, if_pos ho]
      exact ⟨_, _, .operator ho hpair, rfl⟩
    · rw [if_neg hq, if_neg hd, if_neg hn, if_neg ho]
      simp only [Bool.not_eq_true] at hq hd hn ho
      exact ⟨_, _, .unknown hnone hq hd hn ho, rfl⟩

/-- The classes of first characters do not overlap. -/
theorem class_of_ofPunctuation? {c : Char} {k : Kind} (h : Kind.ofPunctuation? c = some k) :
    isQuote c = false ∧ c.isDigit = false ∧ startsName c = false ∧ isOperator c = false := by
  unfold Kind.ofPunctuation? at h
  split at h
  all_goals first | decide | exact absurd h (by simp)

/-- There are three quotes. -/
theorem isQuote_cases {c : Char} (h : isQuote c = true) : c = '"' ∨ c = '\'' ∨ c = '\x60' := by
  simpa [isQuote, or_assoc] using h

/-- A digit can be taken for nothing but the start of a number. -/
theorem class_of_isDigit {c : Char} (h : c.isDigit = true) :
    Kind.ofPunctuation? c = none ∧ isQuote c = false ∧ c ≠ '/' ∧ c ≠ '<' := by
  refine ⟨?_, ?_, ?_, ?_⟩
  · by_contra hp
    obtain ⟨k, hk⟩ := Option.ne_none_iff_exists'.mp hp
    rw [(class_of_ofPunctuation? hk).2.1] at h
    exact absurd h (by decide)
  · rw [Bool.eq_false_iff]
    intro hq
    rcases isQuote_cases hq with rfl | rfl | rfl <;> exact absurd h (by decide)
  · rintro rfl
    exact absurd h (by decide)
  · rintro rfl
    exact absurd h (by decide)

/-- The start of a name can be taken for nothing else. -/
theorem class_of_startsName {c : Char} (h : startsName c = true) :
    Kind.ofPunctuation? c = none ∧ isQuote c = false ∧ c.isDigit = false ∧ c ≠ '/' ∧ c ≠ '<' := by
  refine ⟨?_, ?_, ?_, ?_, ?_⟩
  · by_contra hp
    obtain ⟨k, hk⟩ := Option.ne_none_iff_exists'.mp hp
    rw [(class_of_ofPunctuation? hk).2.2.1] at h
    exact absurd h (by decide)
  · rw [Bool.eq_false_iff]
    intro hq
    rcases isQuote_cases hq with rfl | rfl | rfl <;> exact absurd h (by decide)
  · rw [Bool.eq_false_iff]
    intro hd
    have hdigit : 48 ≤ c.toNat ∧ c.toNat ≤ 57 := Char.isDigit_iff_toNat.mp hd
    simp only [startsName, Bool.or_eq_true, decide_eq_true_eq] at h
    rcases h with (halpha | rfl) | rfl
    · have := Char.toNat_of_isAlpha halpha
      omega
    · exact absurd hd (by decide)
    · exact absurd hd (by decide)
  · rintro rfl
    exact absurd h (by decide)
  · rintro rfl
    exact absurd h (by decide)

/-- The characters of operators. -/
theorem isOperator_cases {c : Char} (h : isOperator c = true) :
    c ∈ ['/', '=', '-', '+', '*', '%', '<', '>', '!', '&', '|', '^', '~', '.', '?'] := by
  simpa [isOperator] using h

/-- A character of an operator is no punctuation, quote, digit or start of a name. -/
theorem class_of_isOperator {c : Char} (h : isOperator c = true) :
    Kind.ofPunctuation? c = none ∧ isQuote c = false ∧ c.isDigit = false ∧
      startsName c = false := by
  have hcases := isOperator_cases h
  simp only [List.mem_cons, List.not_mem_nil, or_false] at hcases
  rcases hcases with rfl | rfl | rfl | rfl | rfl | rfl | rfl | rfl | rfl | rfl | rfl | rfl | rfl |
    rfl | rfl <;> decide

/-- Away from a slash and an angle bracket, no pair of characters matters. -/
theorem scan_of_ne {c : Char} (t : Text) (hp : Kind.ofPunctuation? c = none)
    (hpair : opensPair c t = false) :
    scan c t =
      if isQuote c then ofDivision .string ((stringBody c t).prepend [c])
      else if c.isDigit then ofDivision .number ((numberBody c t).prepend [c])
      else if startsName c then ofDivision .name ((Division.run continuesName t).prepend [c])
      else if isOperator c then
        ofDivision (operatorKind (c :: (operatorBody t).taken)) ((operatorBody t).prepend [c])
      else ofDivision .unknown ((Division.none t).prepend [c]) := by
  unfold scan
  split
  case h_1 k hk => rw [hk] at hp; exact absurd hp (by simp)
  case h_2 => exact absurd hpair (by simp [opensPair])
  case h_3 => exact absurd hpair (by simp [opensPair])
  case h_4 => exact absurd hpair (by simp [opensPair])
  case h_5 => rfl

/-- Only a slash and an angle bracket can open a pair. -/
theorem opensPair_of_ne {c : Char} (t : Text) (hslash : c ≠ '/') (hangle : c ≠ '<') :
    opensPair c t = false := by
  unfold opensPair
  split <;> simp_all

/-- **One way to cut.** What can be cut off in some way is what the scanner takes. -/
theorem scan_of_cuts {c : Char} {t : Text} {k : Kind} {d : Division} (h : Cuts c t k d) :
    scan c t = ofDivision k d := by
  cases h with
  | punctuation hc =>
    unfold scan
    split <;> simp_all [ofDivision, Division.prepend, Division.none]
  | lineComment hc => subst hc; rfl
  | blockComment hc => subst hc; rfl
  | markup hc => subst hc; rfl
  | string hc => rcases isQuote_cases hc with rfl | rfl | rfl <;> rfl
  -- The other kinds are told apart by the classes of their first characters.
  | number hc =>
    obtain ⟨hp, hq, hslash, hangle⟩ := class_of_isDigit hc
    rw [scan_of_ne t hp (opensPair_of_ne t hslash hangle)]
    simp [hq, hc]
  | name hc =>
    obtain ⟨hp, hq, hd, hslash, hangle⟩ := class_of_startsName hc
    rw [scan_of_ne t hp (opensPair_of_ne t hslash hangle)]
    simp [hq, hd, hc]
  | operator hc hpair =>
    obtain ⟨hp, hq, hd, hn⟩ := class_of_isOperator hc
    rw [scan_of_ne t hp hpair]
    simp [hq, hd, hn, hc]
  | unknown hp hq hd hn ho =>
    have hslash : c ≠ '/' := by rintro rfl; exact absurd ho (by decide)
    have hangle : c ≠ '<' := by rintro rfl; exact absurd ho (by decide)
    rw [scan_of_ne t hp (opensPair_of_ne t hslash hangle)]
    simp [hq, hd, hn, ho, ofDivision, Division.prepend, Division.none]

/-- A token and what follows it make up the text again. -/
theorem Cuts.whole {c : Char} {t : Text} {k : Kind} {d : Division} (h : Cuts c t k d) :
    d.whole = c :: t := by
  cases h with
  | punctuation => rfl
  | lineComment hc => simp [hc]
  | blockComment hc => simp [hc]
  | markup hc => simp [hc]
  | string => simp
  | number => simp
  | name => simp
  | operator => simp
  | unknown => rfl

end Lexeme

end CommaStyle
