import CommaStyle.Proofs.Scanning.Runs
import CommaStyle.Proofs.Standing
import Mathlib.Computability.Language
import Mathlib.Tactic.IntervalCases

namespace CommaStyle

open Text Lexeme
open scoped Computability

/-!
# Numbers are the longest numerals

The language of numerals, with integers in four bases, underscores between the digits, fractions and
exponents, and the proof that the scanner of numbers takes the longest numeral that a text starts
with.

* `Numeral.numeral` is the language, put together from classes of characters;
* `Division.Greedy` says that a division takes a word of a language and that every shorter word in
  the same place is followed by a character of a class. So two greedy divisions can be made one
  after the other, if no word of the second language starts with a character of the class of the
  first (`Division.Greedy.thenTake`);
* `Numeral.greedy_integerBody`, `Numeral.greedy_fractionBody`, `Numeral.greedy_exponentBody` — the
  parts of a number are greedy;
* `Document.numbers_are_longest` — hence so are the numbers of every text.
-/

/-! ### The language of numerals -/

namespace Numeral

/-- The words of one character of a class. -/
def letter (p : Char → Bool) : Language Char := {w | ∃ c, p c = true ∧ w = [c]}

/-- One decimal digit. -/
def digit : Language Char := letter Char.isDigit

/-- Decimal digits and underscores. -/
def decimals : Language Char := (letter fun c => c.isDigit || c = '_')∗

/-- Hexadecimal digits and underscores. -/
def hexadecimals : Language Char :=
  (letter fun c => c.isDigit || c = '_' ||
    ['a', 'b', 'c', 'd', 'e', 'f', 'A', 'B', 'C', 'D', 'E', 'F'].contains c)∗

/-- A point with a digit behind it, and more digits. -/
def fraction : Language Char := letter (· = '.') * digit * decimals

/-- The letter of an exponent, with or without a sign and digits behind it. -/
def exponent : Language Char := letter isExponentLetter * (1 + letter isSign) * decimals

/-- A binary, octal or decimal integer. -/
def integer : Language Char :=
  letter (· = '0') * letter (fun c => c = 'b' || c = 'o') * decimals + digit * decimals

/-- A numeral: a binary, octal or decimal integer, a fraction or none, an exponent or none; or a
    hexadecimal integer with or without a fraction, which an exponent may follow. -/
def numeral : Language Char :=
  integer * (1 + fraction) * (1 + exponent) +
    letter (· = '0') * letter (· = 'x') * hexadecimals * (1 + fraction * (1 + exponent))

/-- A word that starts with a character of a class. -/
theorem mem_letter_mul {p : Char → Bool} {l : Language Char} {w : Text} :
    w ∈ letter p * l ↔ ∃ c v, p c = true ∧ v ∈ l ∧ w = c :: v := by
  rw [Language.mem_mul]
  constructor
  · rintro ⟨_, ⟨c, hc, rfl⟩, v, hv, rfl⟩
    exact ⟨c, v, hc, hv, rfl⟩
  · rintro ⟨c, v, hc, hv, rfl⟩
    exact ⟨[c], ⟨c, hc, rfl⟩, v, hv, rfl⟩

/-- Words of any length over a class of characters. -/
theorem mem_kstar_letter {p : Char → Bool} {w : Text} :
    w ∈ (letter p)∗ ↔ ∀ c ∈ w, p c = true := by
  rw [Language.mem_kstar]
  constructor
  · rintro ⟨words, rfl, hwords⟩ c hc
    obtain ⟨word, hword, hc⟩ := List.mem_flatten.mp hc
    obtain ⟨d, hd, rfl⟩ := hwords word hword
    obtain rfl := List.mem_singleton.mp hc
    exact hd
  · intro h
    refine ⟨w.map ([·]), by rw [← List.flatMap_def, List.flatMap_singleton'], ?_⟩
    intro word hword
    obtain ⟨c, hc, rfl⟩ := List.mem_map.mp hword
    exact ⟨c, h c hc, rfl⟩

end Numeral

/-! ### Greedy divisions -/

namespace Division

open Numeral

/-- How a word in front of `u` compares with what a division takes: it is the same, or it is shorter
    and a character of a class follows it. -/
def Reaches (d : Division) (p : Char → Bool) (v u : Text) : Prop :=
  v = d.taken ∨ v.length < d.taken.length ∧ ∃ c ∈ u.head?, p c = true

/-- Whether a division takes a word of a language, and every other word of the language that its text
    starts with is shorter, with a character of a class behind it. -/
structure Greedy (d : Division) (l : Language Char) (p : Char → Bool) : Prop where
  mem : d.taken ∈ l
  reaches : ∀ {v u : Text}, v ++ u = d.whole → v ∈ l → d.Reaches p v u

/-- No word of the language that the text starts with is longer than what is taken. -/
theorem Greedy.length_le {d : Division} {l : Language Char} {p : Char → Bool} (h : d.Greedy l p)
    {v u : Text} (hwhole : v ++ u = d.whole) (hv : v ∈ l) : v.length ≤ d.taken.length := by
  rcases h.reaches hwhole hv with rfl | ⟨hlt, -⟩
  · exact Nat.le_refl _
  · exact Nat.le_of_lt hlt

/-- The characters that show that a word is too short may be more. -/
theorem Greedy.mono {d : Division} {l : Language Char} {p q : Char → Bool} (h : d.Greedy l p)
    (hpq : ∀ c, p c = true → q c = true) : d.Greedy l q where
  mem := h.mem
  reaches hwhole hv := by
    rcases h.reaches hwhole hv with rfl | ⟨hlt, c, hc, hp⟩
    · exact .inl rfl
    · exact .inr ⟨hlt, c, hc, hpq c hp⟩

/-- **One after the other.** What follows a word that is too short starts no word of the second
    language, so that the second word can only be empty. -/
theorem Greedy.thenTake {d : Division} {next : Text → Division} {l m : Language Char}
    {p q : Char → Bool} (h : d.Greedy l p) (hnext : (next d.rest).Greedy m q)
    (hwhole : ∀ t, (next t).whole = t) (hstarts : ∀ c w, c :: w ∈ m → p c = false) :
    (d.thenTake next).Greedy (l * m) fun c => p c || q c where
  mem := Language.append_mem_mul h.mem hnext.mem
  reaches {v u} htext hv := by
    rw [whole_thenTake hwhole] at htext
    obtain ⟨a, ha, b, hb, rfl⟩ := Language.mem_mul.mp hv
    rw [List.append_assoc] at htext
    rcases h.reaches htext ha with rfl | ⟨hlt, c, hc, hp⟩
    · have hrest : b ++ u = (next d.rest).whole := by
        rw [hwhole]
        exact List.append_cancel_left htext
      rcases hnext.reaches hrest hb with rfl | ⟨hlt, c, hc, hq⟩
      · exact .inl rfl
      · refine .inr ⟨?_, c, hc, by simp [hq]⟩
        simpa [Division.thenTake, prepend] using hlt
    · cases b with
      | cons e b =>
        obtain rfl : e = c := by simpa using hc
        rw [hstarts e b hb] at hp
        cases hp
      | nil =>
        refine .inr ⟨?_, c, hc, by simp [hp]⟩
        simp only [Division.thenTake, prepend, List.append_nil, List.length_append]
        omega

/-- A run takes the longest word over its class. -/
theorem greedy_run (p : Char → Bool) (t : Text) : (run p t).Greedy (letter p)∗ p where
  mem := mem_kstar_letter.mpr (List.all_eq_true.mp List.all_takeWhile)
  reaches {v u} htext hv := by
    rw [whole_run] at htext
    subst htext
    have hall := mem_kstar_letter.mp hv
    by_cases hstop : Stops p u
    · left
      rw [run_eq_iff.mpr ⟨hall, hstop⟩]
    · right
      obtain ⟨c, hc, hp⟩ : ∃ c ∈ u.head?, p c = true := by
        simpa [Stops] using hstop
      refine ⟨?_, c, hc, hp⟩
      obtain ⟨w, rfl⟩ : ∃ w, u = c :: w := List.head?_eq_some_iff.mp hc
      show v.length < ((v ++ c :: w).takeWhile p).length
      rw [List.takeWhile_append_of_pos hall, List.takeWhile_cons_of_pos hp]
      simp

/-- A character in front of what is taken. -/
theorem Greedy.prepend {d : Division} {l : Language Char} {p q : Char → Bool} {c : Char}
    (h : d.Greedy l p) (hc : q c = true) : (d.prepend [c]).Greedy (letter q * l) p where
  mem := mem_letter_mul.mpr ⟨c, d.taken, hc, h.mem, rfl⟩
  reaches {v u} htext hv := by
    obtain ⟨e, w, -, hw, rfl⟩ := mem_letter_mul.mp hv
    rw [whole_prepend] at htext
    obtain ⟨rfl, hrest⟩ : e = c ∧ w ++ u = d.whole := by simpa using htext
    rcases h.reaches hrest hw with rfl | ⟨hlt, hfollows⟩
    · exact .inl rfl
    · exact .inr ⟨by simpa [Division.prepend] using hlt, hfollows⟩

/-- Words of another language that are no longer than what is taken. -/
theorem Greedy.add {d : Division} {l m : Language Char} {p : Char → Bool} (h : d.Greedy m p)
    (hl : ∀ {v u : Text}, v ++ u = d.whole → v ∈ l → d.Reaches p v u) : d.Greedy (l + m) p where
  mem := .inr h.mem
  reaches htext hv := hv.elim (hl htext) (h.reaches htext)

/-- A part that may be missing: without it, its first character comes next. -/
theorem Greedy.optional {d : Division} {l : Language Char} {p : Char → Bool} {c : Char} {w : Text}
    (h : d.Greedy l p) (hstart : d.taken = c :: w) (hp : p c = true) : d.Greedy (1 + l) p := by
  refine h.add ?_
  rintro v u htext rfl
  obtain rfl : u = c :: w ++ d.rest := by
    rw [← hstart]
    exact htext
  exact .inr ⟨by simp [hstart], c, rfl, hp⟩

/-- A part that is missing because no word of it starts here. -/
theorem greedy_none {t : Text} {l : Language Char} {p : Char → Bool}
    (h : ∀ {v u : Text}, v ++ u = t → v ∉ l) : (none t).Greedy (1 + l) p where
  mem := .inl rfl
  reaches htext hv := by
    rcases hv with rfl | hv
    · exact .inl rfl
    · exact absurd hv (h htext)

/-- Characters in front of a first division are in front of both together. -/
theorem prepend_thenTake (front : Text) (d : Division) (next : Text → Division) :
    (d.prepend front).thenTake next = (d.thenTake next).prepend front := by
  simp [thenTake, prepend]

/-- Divisions can be grouped in either way. -/
theorem thenTake_thenTake (d : Division) (next last : Text → Division) :
    (d.thenTake next).thenTake last = d.thenTake fun r => (next r).thenTake last := by
  simp [thenTake, prepend]

end Division

/-! ### The parts of a number -/

namespace Numeral

open Division

/-- A character of the class is taken with the run behind it. -/
theorem run_cons_of_pos {p : Char → Bool} {c : Char} (hc : p c = true) (t : Text) :
    run p (c :: t) = (run p t).prepend [c] := by
  simp [run, Division.prepend, hc]

/-- A fraction starts with a point and a digit. -/
theorem exists_of_mem_fraction {w : Text} (h : w ∈ fraction) :
    ∃ d v, d.isDigit = true ∧ v ∈ decimals ∧ w = '.' :: d :: v := by
  rw [fraction, mul_assoc] at h
  obtain ⟨c, v, hc, hv, rfl⟩ := mem_letter_mul.mp h
  obtain ⟨d, u, hd, hu, rfl⟩ := mem_letter_mul.mp hv
  obtain rfl : c = '.' := by simpa using hc
  exact ⟨d, u, hd, hu, rfl⟩

/-- Where the text starts with a fraction, a fraction starts. -/
theorem startsFraction_of_mem {v u t : Text} (htext : v ++ u = t) (hv : v ∈ fraction) :
    StartsFraction t := by
  obtain ⟨d, w, hd, -, rfl⟩ := exists_of_mem_fraction hv
  exact ⟨d, w ++ u, htext.symm, hd⟩

/-- A fraction is greedy where one starts. -/
theorem greedy_fraction {t : Text} (h : StartsFraction t) :
    (fractionBody t).Greedy fraction isDecimal ∧ ∃ w, (fractionBody t).taken = '.' :: w := by
  obtain ⟨d, u, rfl, hd⟩ := h
  have hdecimal : isDecimal d = true := by simp [isDecimal, hd]
  rw [fractionBody_of_digit hd, run_cons_of_pos hdecimal, fraction, mul_assoc]
  exact ⟨((greedy_run isDecimal u).prepend hd).prepend (by simp), _, rfl⟩

/-- Fractions are greedy. -/
theorem greedy_fractionBody (t : Text) :
    (fractionBody t).Greedy (1 + fraction) fun c => isDecimal c || c = '.' := by
  by_cases h : StartsFraction t
  · obtain ⟨hgreedy, w, hw⟩ := greedy_fraction h
    exact (hgreedy.mono fun c hc => by simp [hc]).optional hw (by simp)
  · rw [fractionBody_eq_nil_iff.mpr h]
    exact greedy_none fun htext hv => h (startsFraction_of_mem htext hv)

/-- Where there is no sign, the digits of an exponent are a run. -/
theorem signedDigits_of_stops {t : Text} (h : Stops isSign t) : signedDigits t = run isDecimal t := by
  cases t with
  | nil => rfl
  | cons s t =>
    rw [stops_cons] at h
    simp [signedDigits, h]

/-- A word of digits has none where the text starts with something else. -/
theorem eq_nil_of_mem_decimals {c : Char} {t v u : Text} (hv : v ∈ decimals)
    (htext : v ++ u = c :: t) (hc : isDecimal c = false) : v = [] := by
  cases v with
  | nil => rfl
  | cons d v =>
    obtain rfl : d = c := (List.cons.inj htext).1
    have hd : isDecimal d = true := mem_kstar_letter.mp hv d List.mem_cons_self
    rw [hc] at hd
    cases hd

/-- The sign and the digits of an exponent are greedy. -/
theorem greedy_signedDigits (t : Text) :
    (signedDigits t).Greedy ((1 + letter isSign) * decimals) continuesExponent := by
  have hclass : ∀ c, isDecimal c = true → continuesExponent c = true := fun c hc => by
    simp [continuesExponent, hc]
  rw [add_mul, one_mul]
  by_cases hstop : Stops isSign t
  · rw [signedDigits_of_stops hstop, add_comm]
    refine ((greedy_run isDecimal t).mono hclass).add ?_
    intro v u htext hv
    obtain ⟨s, w, hs, -, rfl⟩ := mem_letter_mul.mp hv
    rw [whole_run] at htext
    subst htext
    rw [List.cons_append, stops_cons, hs] at hstop
    cases hstop
  · obtain ⟨s, w, rfl, hs⟩ : ∃ s w, t = s :: w ∧ isSign s = true := by
      cases t with
      | nil => exact absurd (stops_nil _) hstop
      | cons s w => exact ⟨s, w, rfl, by simpa using hstop⟩
    have hsigned : signedDigits (s :: w) = (run isDecimal w).prepend [s] := if_pos hs
    rw [hsigned]
    refine (((greedy_run isDecimal w).mono hclass).prepend hs).add ?_
    intro v u htext hv
    -- A sign is no digit, so that no digits stand in front of it.
    have hdecimal : isDecimal s = false := by
      simp only [isSign, Bool.or_eq_true, decide_eq_true_eq] at hs
      rcases hs with rfl | rfl <;> decide
    rw [whole_prepend, whole_run] at htext
    obtain rfl := eq_nil_of_mem_decimals hv htext hdecimal
    obtain rfl : u = s :: w := htext
    exact .inr ⟨by simp [Division.prepend], s, rfl, by simp [continuesExponent, hs]⟩

/-- An exponent starts with its letter. -/
theorem exists_of_mem_exponent {w : Text} (h : w ∈ exponent) :
    ∃ e v, isExponentLetter e = true ∧ w = e :: v := by
  rw [exponent, mul_assoc] at h
  obtain ⟨e, v, he, -, rfl⟩ := mem_letter_mul.mp h
  exact ⟨e, v, he, rfl⟩

/-- Exponents are greedy. -/
theorem greedy_exponentBody (t : Text) :
    (exponentBody t).Greedy (1 + exponent) fun c => isExponentLetter c || continuesExponent c := by
  by_cases hstop : Stops isExponentLetter t
  · rw [exponentBody_eq_nil_iff.mpr hstop]
    refine greedy_none fun htext hv => ?_
    obtain ⟨e, v, he, rfl⟩ := exists_of_mem_exponent hv
    subst htext
    rw [List.cons_append, stops_cons, he] at hstop
    cases hstop
  · obtain ⟨e, w, rfl, he⟩ : ∃ e w, t = e :: w ∧ isExponentLetter e = true := by
      cases t with
      | nil => exact absurd (stops_nil _) hstop
      | cons e w => exact ⟨e, w, rfl, by simpa using hstop⟩
    rw [exponentBody_cons, if_pos he, exponent, mul_assoc]
    have hgreedy := (greedy_signedDigits w).prepend he
    exact (hgreedy.mono fun c hc => by simp [hc]).optional rfl (by simp [he])

/-- Whether a character continues a binary, octal or decimal integer. -/
def continuesDecimal (c : Char) : Bool := isDecimal c || (c = 'b' || c = 'o')

/-- Integers are greedy, unless they are hexadecimal. -/
theorem greedy_integerBody {c : Char} {t : Text} (hc : c.isDigit = true)
    (hbase : ¬(c = '0' ∧ t.head? = some 'x')) :
    ((integerBody c t).prepend [c]).Greedy integer continuesDecimal := by
  have hclass : ∀ c, isDecimal c = true → continuesDecimal c = true := fun c hc => by
    simp [continuesDecimal, hc]
  by_cases hletter : c = '0' ∧ ∃ b u, t = b :: u ∧ (b = 'b' || b = 'o') = true
  · obtain ⟨rfl, b, u, rfl, hb⟩ := hletter
    have hbody : integerBody '0' (b :: u) = (run isDecimal u).prepend [b] := by
      simp [integerBody, hb]
    rw [hbody, integer, add_comm, mul_assoc]
    refine ((((greedy_run isDecimal u).mono hclass).prepend hb).prepend (by simp)).add ?_
    intro v w htext hv
    obtain ⟨d, digits, hd, hdigits, rfl⟩ := mem_letter_mul.mp hv
    rw [whole_prepend, whole_prepend, whole_run] at htext
    -- The letter of the base is no digit, so that a decimal integer ends in front of it.
    have hdecimal : isDecimal b = false := by
      simp only [Bool.or_eq_true, decide_eq_true_eq] at hb
      rcases hb with rfl | rfl <;> decide
    obtain rfl := eq_nil_of_mem_decimals hdigits (List.cons.inj htext).2 hdecimal
    obtain rfl : w = b :: u := (List.cons.inj htext).2
    exact .inr ⟨by simp [Division.prepend], b, rfl, by simp [continuesDecimal, hb]⟩
  · have hbody : integerBody c t = run isDecimal t := by
      cases t with
      | nil => rfl
      | cons b u =>
        have hb : (c = '0' && (b = 'b' || b = 'o')) = false := by
          simpa [not_and] using hletter
        have hx : (c = '0' && b = 'x') = false := by
          simpa using hbase
        simp [integerBody, hb, hx]
    rw [hbody, integer]
    refine (((greedy_run isDecimal t).mono hclass).prepend hc).add ?_
    intro v w htext hv
    rw [mul_assoc] at hv
    obtain ⟨z, more, hz, hmore, rfl⟩ := mem_letter_mul.mp hv
    obtain ⟨b, digits, hb, -, rfl⟩ := mem_letter_mul.mp hmore
    rw [whole_prepend, whole_run] at htext
    obtain ⟨rfl, hrest⟩ := List.cons.inj htext
    exact absurd ⟨by simpa using hz, b, digits ++ w, hrest.symm, hb⟩ hletter

/-! ### Whole numbers -/

/-- A fraction that is not empty starts with a point. -/
theorem starts_fraction {c : Char} {w : Text} (h : c :: w ∈ 1 + fraction) : c = '.' := by
  rcases h with h | h
  · cases h
  · obtain ⟨d, v, -, -, heq⟩ := exists_of_mem_fraction h
    exact (List.cons.inj heq).1

/-- An exponent that is not empty starts with its letter. -/
theorem starts_exponent {c : Char} {w : Text} (h : c :: w ∈ 1 + exponent) :
    isExponentLetter c = true := by
  rcases h with h | h
  · cases h
  · obtain ⟨e, v, he, heq⟩ := exists_of_mem_exponent h
    rw [(List.cons.inj heq).1]
    exact he

/-- A fraction and an exponent behind it start with a point, unless both are empty. -/
theorem starts_fraction_exponent {c : Char} {w : Text} (h : c :: w ∈ 1 + fraction * (1 + exponent)) :
    c = '.' := by
  rcases h with h | h
  · cases h
  · obtain ⟨v, hv, u, -, heq⟩ := Language.mem_mul.mp h
    obtain ⟨d, v, -, -, rfl⟩ := exists_of_mem_fraction hv
    exact (List.cons.inj heq).1.symm

/-- Numbers are greedy, unless they are hexadecimal. -/
theorem exists_greedy_numberBody {c : Char} {t : Text} (hc : c.isDigit = true)
    (hbase : ¬(c = '0' ∧ t.head? = some 'x')) :
    ∃ p, ((numberBody c t).prepend [c]).Greedy (integer * (1 + fraction) * (1 + exponent)) p := by
  rw [numberBody, ← prepend_thenTake, ← prepend_thenTake]
  refine ⟨_, ((greedy_integerBody hc hbase).thenTake (greedy_fractionBody _) whole_fractionBody
    ?_).thenTake (greedy_exponentBody _) whole_exponentBody ?_⟩
  · intro d w h
    rw [starts_fraction h]
    decide
  · intro d w h
    have hd := starts_exponent h
    simp only [isExponentLetter, Bool.or_eq_true, decide_eq_true_eq] at hd
    rcases hd with rfl | rfl <;> decide

/-- Behind hexadecimal digits, an exponent needs a fraction in front of it: its letter would be one of
    the digits. -/
theorem exists_greedy_fraction_exponent {t : Text} (h : Stops isExponentLetter t) :
    ∃ p, ((fractionBody t).thenTake exponentBody).Greedy (1 + fraction * (1 + exponent)) p := by
  by_cases hfraction : StartsFraction t
  · obtain ⟨hgreedy, w, hw⟩ := greedy_fraction hfraction
    have hboth := hgreedy.thenTake (greedy_exponentBody (fractionBody t).rest) whole_exponentBody (by
      intro d w h
      have hd := starts_exponent h
      simp only [isExponentLetter, Bool.or_eq_true, decide_eq_true_eq] at hd
      rcases hd with rfl | rfl <;> decide)
    have htaken : ((fractionBody t).thenTake exponentBody).taken =
        '.' :: (w ++ (exponentBody (fractionBody t).rest).taken) := by
      simp [Division.thenTake, Division.prepend, hw]
    exact ⟨fun _ => true, (hboth.mono fun _ _ => rfl).optional htaken rfl⟩
  · have hnone : (fractionBody t).thenTake exponentBody = none t := by
      rw [fractionBody_eq_nil_iff.mpr hfraction, Division.thenTake, exponentBody_eq_nil_iff.mpr h]
      rfl
    rw [hnone]
    refine ⟨fun _ => true, greedy_none fun htext hv => ?_⟩
    obtain ⟨a, ha, b, -, rfl⟩ := Language.mem_mul.mp hv
    rw [List.append_assoc] at htext
    exact hfraction (startsFraction_of_mem htext ha)

/-- The hexadecimal digits, one by one. -/
theorem isHexadecimal_eq (c : Char) :
    isHexadecimal c = (c.isDigit || c = '_' ||
      ['a', 'b', 'c', 'd', 'e', 'f', 'A', 'B', 'C', 'D', 'E', 'F'].contains c) := by
  have hletters : (('a' ≤ c && c ≤ 'f') || ('A' ≤ c && c ≤ 'F')) =
      ['a', 'b', 'c', 'd', 'e', 'f', 'A', 'B', 'C', 'D', 'E', 'F'].contains c := by
    rw [Bool.eq_iff_iff]
    constructor
    · intro h
      simp only [Bool.or_eq_true, Bool.and_eq_true, decide_eq_true_eq, Char.le_def,
        UInt32.le_iff_toNat_le] at h
      have hrange : (97 ≤ c.toNat ∧ c.toNat ≤ 102) ∨ (65 ≤ c.toNat ∧ c.toNat ≤ 70) := h
      rw [← Char.ofNat_toNat c]
      rcases hrange with ⟨hlow, hhigh⟩ | ⟨hlow, hhigh⟩ <;> interval_cases c.toNat <;> decide
    · intro h
      simp only [List.contains_eq_mem, List.mem_cons, List.not_mem_nil, or_false,
        decide_eq_true_eq] at h
      rcases h with rfl | rfl | rfl | rfl | rfl | rfl | rfl | rfl | rfl | rfl | rfl | rfl <;> decide
  rw [isHexadecimal, Bool.or_assoc, hletters]
  rfl

/-- Hexadecimal digits and underscores, as the scanner tells them. -/
theorem hexadecimals_eq : hexadecimals = (letter isHexadecimal)∗ := by
  rw [hexadecimals, funext isHexadecimal_eq]

/-- Hexadecimal numbers are greedy. -/
theorem exists_greedy_hexadecimal (t : Text) :
    ∃ p, ((numberBody '0' ('x' :: t)).prepend ['0']).Greedy
      (letter (· = '0') * letter (· = 'x') * hexadecimals * (1 + fraction * (1 + exponent))) p := by
  -- The letters of exponents are hexadecimal digits.
  have hstop : Stops isExponentLetter (run isHexadecimal t).rest := by
    intro c hc
    have hhead : (t.dropWhile isHexadecimal).head? = some c := hc
    have hrest := List.head?_dropWhile_not isHexadecimal t
    rw [hhead] at hrest
    rw [Bool.eq_false_iff]
    intro he
    simp only [isExponentLetter, Bool.or_eq_true, decide_eq_true_eq] at he
    rcases he with rfl | rfl <;> exact absurd hrest (by decide)
  have hdigits : (((run isHexadecimal t).prepend ['x']).prepend ['0']).Greedy
      (letter (· = '0') * letter (· = 'x') * hexadecimals) isHexadecimal := by
    rw [mul_assoc, hexadecimals_eq]
    exact ((greedy_run isHexadecimal t).prepend (by simp)).prepend (by simp)
  obtain ⟨p, hmore⟩ := exists_greedy_fraction_exponent hstop
  have hnumber : (numberBody '0' ('x' :: t)).prepend ['0'] =
      (((run isHexadecimal t).prepend ['x']).prepend ['0']).thenTake fun r =>
        (fractionBody r).thenTake exponentBody := by
    rw [prepend_thenTake, ← thenTake_thenTake]
    rfl
  rw [hnumber]
  refine ⟨_, hdigits.thenTake hmore ?_ ?_⟩
  · intro r
    rw [whole_thenTake whole_exponentBody, whole_fractionBody]
  · intro c w h
    rw [starts_fraction_exponent h]
    decide

/-- Whether a word is the longest one of a language that a text starts with. -/
structure IsLongest (l : Language Char) (t w : Text) : Prop where
  isPrefix : w <+: t
  mem : w ∈ l
  length_le : ∀ v, v <+: t → v ∈ l → v.length ≤ w.length

/-- Where a hexadecimal numeral could start, any other numeral is the zero alone. -/
theorem length_le_one {v u t : Text} (htext : v ++ u = '0' :: 'x' :: t)
    (hv : v ∈ integer * (1 + fraction) * (1 + exponent)) : v.length ≤ 1 := by
  obtain ⟨w, hw, e, he, rfl⟩ := Language.mem_mul.mp hv
  obtain ⟨i, hi, f, hf, rfl⟩ := Language.mem_mul.mp hw
  simp only [List.append_assoc] at htext ⊢
  rcases hi with hi | hi
  · rw [mul_assoc] at hi
    obtain ⟨z, more, -, hmore, rfl⟩ := mem_letter_mul.mp hi
    obtain ⟨b, digits, hb, -, rfl⟩ := mem_letter_mul.mp hmore
    obtain rfl : b = 'x' := (List.cons.inj (List.cons.inj htext).2).1
    exact absurd hb (by decide)
  · obtain ⟨d, digits, -, hdigits, rfl⟩ := mem_letter_mul.mp hi
    have hrest := (List.cons.inj htext).2
    obtain rfl := eq_nil_of_mem_decimals hdigits hrest (by decide)
    -- Neither a fraction nor an exponent starts with the letter behind the zero.
    cases f with
    | cons c f =>
      have hc := starts_fraction hf
      obtain rfl : c = 'x' := (List.cons.inj hrest).1
      exact absurd hc (by decide)
    | nil =>
      cases e with
      | cons c e =>
        have hc := starts_exponent he
        obtain rfl : c = 'x' := (List.cons.inj hrest).1
        exact absurd hc (by decide)
      | nil => exact Nat.le_refl 1

/-- **The longest numeral.** The scanner of numbers takes it. -/
theorem isLongest_numberBody {c : Char} (hc : c.isDigit = true) (t : Text) :
    IsLongest numeral (c :: t) ((numberBody c t).prepend [c]).taken := by
  have hwhole : ((numberBody c t).prepend [c]).whole = c :: t := by simp
  have hfront : ((numberBody c t).prepend [c]).taken <+: c :: t := ⟨_, hwhole⟩
  by_cases hbase : c = '0' ∧ t.head? = some 'x'
  · obtain ⟨rfl, hx⟩ := hbase
    obtain ⟨t, rfl⟩ := List.head?_eq_some_iff.mp hx
    obtain ⟨p, hgreedy⟩ := exists_greedy_hexadecimal t
    refine ⟨hfront, .inr hgreedy.mem, ?_⟩
    rintro v ⟨u, htext⟩ (hv | hv)
    · refine Nat.le_trans (length_le_one htext hv) ?_
      simp [Division.prepend]
    · exact hgreedy.length_le (htext.trans hwhole.symm) hv
  · obtain ⟨p, hgreedy⟩ := exists_greedy_numberBody hc hbase
    refine ⟨hfront, .inl hgreedy.mem, ?_⟩
    rintro v ⟨u, htext⟩ (hv | hv)
    · exact hgreedy.length_le (htext.trans hwhole.symm) hv
    · -- A hexadecimal numeral would start with its letter behind the zero.
      rw [mul_assoc, mul_assoc] at hv
      obtain ⟨z, more, hz, hmore, rfl⟩ := mem_letter_mul.mp hv
      obtain ⟨x, digits, hx, -, rfl⟩ := mem_letter_mul.mp hmore
      obtain ⟨rfl, hrest⟩ := List.cons.inj htext
      refine absurd ⟨by simpa using hz, ?_⟩ hbase
      rw [← hrest]
      simpa using hx

/-- A numeral starts with a digit. -/
theorem starts_numeral {w : Text} (h : w ∈ numeral) : ∃ c t, w = c :: t ∧ c.isDigit = true := by
  have hzero : ∀ c : Char, decide (c = '0') = true → c.isDigit = true := by
    intro c hc
    obtain rfl : c = '0' := by simpa using hc
    decide
  rcases h with h | h
  · obtain ⟨v, hv, e, -, rfl⟩ := Language.mem_mul.mp h
    obtain ⟨i, hi, f, -, rfl⟩ := Language.mem_mul.mp hv
    rcases hi with hi | hi
    · rw [mul_assoc] at hi
      obtain ⟨z, more, hz, -, rfl⟩ := mem_letter_mul.mp hi
      exact ⟨z, _, rfl, hzero z hz⟩
    · obtain ⟨d, digits, hd, -, rfl⟩ := mem_letter_mul.mp hi
      exact ⟨d, _, rfl, hd⟩
  · rw [mul_assoc, mul_assoc] at h
    obtain ⟨z, more, hz, -, rfl⟩ := mem_letter_mul.mp h
    exact ⟨z, more, rfl, hzero z hz⟩

end Numeral

namespace Lexeme

/-- A token that starts with a digit is a number, and the longest numeral there. -/
theorem Fits.number {x : Lexeme} {rest : Text} (h : x.Fits rest) {c : Char}
    (hc : c ∈ x.text.head?) (hdigit : c.isDigit = true) :
    x.kind = .number ∧ Numeral.IsLongest Numeral.numeral (x.text ++ rest) x.text := by
  obtain ⟨d, t, htext, -, hscan⟩ := h
  obtain rfl : d = c := by simpa [htext] using hc
  rw [scan_of_cuts (.number hdigit)] at hscan
  obtain ⟨rfl, -⟩ := Prod.mk.inj hscan
  have hlongest := Numeral.isLongest_numberBody hdigit (t ++ rest)
  rw [← List.cons_append, ← htext] at hlongest
  exact ⟨rfl, hlongest⟩

/-- A numeral is cut off as a whole where nothing follows it. -/
theorem fits_numeral {t : Text} (h : t ∈ Numeral.numeral) :
    (⟨.number, t, true⟩ : Lexeme).Fits [] := by
  obtain ⟨c, t, rfl, hc⟩ := Numeral.starts_numeral h
  have hlongest := Numeral.isLongest_numberBody hc t
  have htaken : ((numberBody c t).prepend [c]).taken = c :: t :=
    hlongest.isPrefix.eq_of_length_le (hlongest.length_le _ (List.prefix_refl _) h)
  have hrest : ((numberBody c t).prepend [c]).rest = [] := by
    have hwhole : ((numberBody c t).prepend [c]).whole = c :: t := by simp
    rw [Division.whole, htaken] at hwhole
    simpa using hwhole
  have hclosed : ((numberBody c t).prepend [c]).closed = true := closed_exponentBody _
  refine ⟨c, t, rfl, (graphic_of_isDigit hc).isBlank, ?_⟩
  rw [List.append_nil, scan_of_cuts (.number hc), ofDivision, htaken, hrest, hclosed]

end Lexeme

namespace Document

open Numeral

/-- **Numbers.** A token that starts with a digit is a number, and it is the longest numeral that the
    text has from there on. A text that is a numeral is a single number. -/
theorem numbers_are_longest (t : Text) :
    (∀ x ∈ (ofText t).tokens.toList, ∀ c ∈ x.text.head?, c.isDigit = true → x.kind = .number ∧
      ∃ before remaining, Text.cut? x.span.start t = some (before, remaining) ∧
        IsLongest numeral remaining x.text) ∧
    (t ∈ numeral → ∃ x, (ofText t).tokens.toList = [x] ∧ x.kind = .number ∧ x.text = t) := by
  constructor
  · intro x hx c hc hdigit
    obtain ⟨i, hi⟩ := List.getElem?_of_mem hx
    obtain ⟨before, rest, hstands⟩ := exists_stands (i := i) (by simpa [token?] using hi)
    obtain ⟨hkind, hlongest⟩ := hstands.fits.number hc hdigit
    refine ⟨hkind, before ++ x.blanks, x.text ++ rest, ?_, hlongest⟩
    show Text.cut? x.offset t = _
    rw [hstands.offset, hstands.text, ← List.append_assoc]
    exact cut?_width_append _ _
  · intro h
    have htiles : Layout.Tiles [⟨[], ⟨.number, t, true⟩⟩] [] :=
      ⟨by simp [AllBlank], fits_numeral h, by simp [Layout.Tiles, AllBlank]⟩
    have hlayout := Layout.ofText_toText htiles
    have htext : Layout.toText ⟨[⟨[], ⟨.number, t, true⟩⟩], []⟩ = t := by simp
    rw [htext] at hlayout
    refine ⟨⟨⟨.number, t, true⟩, [], 0, Place.origin, Place.origin.after t⟩, ?_, rfl, rfl⟩
    simp [ofText, hlayout, Token.place, Place.after]

/-- A sign behind a hexadecimal numeral, and a point that no digit follows. -/
theorem numbers_are_longest_hexadecimal :
    let t := ['0', 'x', '1', 'e', '+', '5', '.', '_']
    (ofText t).tokens.toList.map (fun x => (x.kind, x.text)) =
        [(.number, ['0', 'x', '1', 'e']), (.operator, ['+']), (.number, ['5']), (.dot, ['.']),
          (.name, ['_'])] ∧
      IsLongest numeral t ['0', 'x', '1', 'e'] ∧ IsLongest numeral ['5', '.', '_'] ['5'] ∧
      ∃ x, (ofText ['0', 'x', '1', 'e']).tokens.toList = [x] ∧ x.kind = .number ∧
        x.text = ['0', 'x', '1', 'e'] := by
  intro t
  obtain ⟨htokens, -⟩ := numbers_are_longest t
  obtain ⟨-, _, _, hcut, hfirst⟩ := htokens
    ⟨⟨.number, ['0', 'x', '1', 'e'], true⟩, [], 0, ⟨0, 0⟩, ⟨0, 4⟩⟩ (by decide) '0' rfl rfl
  obtain ⟨-, _, _, hcut', hsecond⟩ := htokens
    ⟨⟨.number, ['5'], true⟩, [], 5, ⟨0, 5⟩, ⟨0, 6⟩⟩ (by decide) '5' rfl rfl
  have hcuts : Text.cut? 0 t = some ([], t) ∧
      Text.cut? 5 t = some (['0', 'x', '1', 'e', '+'], ['5', '.', '_']) := by decide
  obtain ⟨-, rfl⟩ := Prod.mk.inj (Option.some.inj (hcuts.1.symm.trans hcut))
  obtain ⟨-, rfl⟩ := Prod.mk.inj (Option.some.inj (hcuts.2.symm.trans hcut'))
  exact ⟨by decide, hfirst, hsecond, (numbers_are_longest _).2 hfirst.mem⟩

end Document

end CommaStyle
