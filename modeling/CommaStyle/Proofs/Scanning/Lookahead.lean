import CommaStyle.Proofs.Collections
import CommaStyle.Text
import CommaStyle.Token
import Mathlib.Data.List.Basic

namespace CommaStyle

/-!
# What a scanner can see behind a token

A scanner that has taken a token has looked at no more than the first two characters behind it, and
white space and commas are all the same to it.

* `isSoft` are the characters that end every token which needs no terminator, and `Graphic` those
  that a token can be made of without being opaque;
* `Text.ReplacedBy` allows a text behind a token to be exchanged for another one;
* `Text.ReplacedBy.stops` — a class of graphic characters that ends in front of the old text ends in
  front of the new one.
-/

/-! ### White space and commas -/

/-- Whether a character ends every token that needs no terminator. -/
def isSoft (c : Char) : Bool := isBlank c || c == ','

/-- A character that is printed with ink and is no comma. -/
def Graphic (c : Char) : Prop := 33 ≤ c.toNat ∧ c.toNat ≤ 126 ∧ c.toNat ≠ 44

/-- White space lies below or above the codes of characters with ink. -/
theorem toNat_of_isBlank {c : Char} (h : isBlank c = true) : c.toNat ≤ 32 ∨ 133 ≤ c.toNat := by
  simp only [isBlank, blankRanges, List.any_cons, List.any_nil, Bool.or_eq_true, Bool.and_eq_true,
    decide_eq_true_eq, Bool.or_false] at h
  omega

/-- A graphic character is no white space. -/
theorem Graphic.isBlank {c : Char} (h : Graphic c) : isBlank c = false := by
  by_contra hb
  have := toNat_of_isBlank (Bool.of_not_eq_false hb)
  have := h.1
  have := h.2.1
  omega

/-- A graphic character does not end a token. -/
theorem Graphic.isSoft {c : Char} (h : Graphic c) : isSoft c = false := by
  have hcomma : c ≠ ',' := by
    rintro rfl
    exact h.2.2 rfl
  simp [CommaStyle.isSoft, h.isBlank, hcomma]

theorem graphic_of_isDigit {c : Char} (h : c.isDigit = true) : Graphic c := by
  have hcode : 48 ≤ c.toNat ∧ c.toNat ≤ 57 := Char.isDigit_iff_toNat.mp h
  exact ⟨by omega, by omega, by omega⟩

theorem graphic_of_isAlpha {c : Char} (h : c.isAlpha = true) : Graphic c := by
  have := Char.toNat_of_isAlpha h
  exact ⟨by omega, by omega, by omega⟩

namespace Lexeme

/-- The characters of names are graphic. -/
theorem graphic_of_continuesName {c : Char} (h : continuesName c = true) : Graphic c := by
  simp only [continuesName, startsName, Bool.or_eq_true, decide_eq_true_eq] at h
  rcases h with ((h | rfl) | rfl) | h
  · exact graphic_of_isAlpha h
  · simp [Graphic]
  · simp [Graphic]
  · exact graphic_of_isDigit h

/-- The characters of decimal digits are graphic. -/
theorem graphic_of_isDecimal {c : Char} (h : isDecimal c = true) : Graphic c := by
  simp only [isDecimal, Bool.or_eq_true, decide_eq_true_eq] at h
  rcases h with h | rfl
  · exact graphic_of_isDigit h
  · simp [Graphic]

/-- The characters of hexadecimal digits are graphic. -/
theorem graphic_of_isHexadecimal {c : Char} (h : isHexadecimal c = true) : Graphic c := by
  simp only [isHexadecimal, Bool.or_eq_true, Bool.and_eq_true, decide_eq_true_eq, Char.le_def,
    UInt32.le_iff_toNat_le] at h
  rcases h with (h | ⟨hlow, hhigh⟩) | ⟨hlow, hhigh⟩
  · exact graphic_of_isDecimal h
  · change 97 ≤ c.toNat at hlow
    change c.toNat ≤ 102 at hhigh
    exact ⟨by omega, by omega, by omega⟩
  · change 65 ≤ c.toNat at hlow
    change c.toNat ≤ 70 at hhigh
    exact ⟨by omega, by omega, by omega⟩

/-- The characters of operators are graphic. -/
theorem graphic_of_isOperator {c : Char} (h : isOperator c = true) : Graphic c := by
  simp only [isOperator, List.contains_eq_mem, List.mem_cons, List.not_mem_nil, or_false,
    decide_eq_true_eq] at h
  rcases h with rfl | rfl | rfl | rfl | rfl | rfl | rfl | rfl | rfl | rfl | rfl | rfl | rfl | rfl |
    rfl <;> simp [Graphic]

end Lexeme

/-! ### What a scanner can tell about the text behind a token -/

namespace Text

/-- Whether `u` may stand in the place of `t` behind a token. A scanner looks at no more than two
    characters, and only as far as neither white space nor a comma comes before: those that it can
    see in front of `u` were in front of `t`, and a comment that was there still is, unless the
    token has visibly ended. -/
structure ReplacedBy (t u : Text) : Prop where
  one : ∀ {c u'}, u = c :: u' → isSoft c = false → ∃ t', t = c :: t'
  two : ∀ {c d u'}, u = c :: d :: u' → isSoft c = false → isSoft d = false → ∃ t', t = c :: d :: t'
  comment : ∀ {c u'}, u = c :: u' → isSoft c = false → Lexeme.startsComment t = true →
    Lexeme.startsComment u = true

/-- A text that is empty or starts with white space or a comma. -/
def StartsSoft (t : Text) : Prop := ∀ c ∈ t.head?, isSoft c = true

/-- White space, a comma or the end of the text may stand behind any token. -/
theorem replacedBy_of_startsSoft {t u : Text} (h : StartsSoft u) : ReplacedBy t u := by
  have hsoft : ∀ {c u'}, u = c :: u' → isSoft c = false → False := by
    rintro c u' rfl hc
    have := h c rfl
    rw [hc] at this
    exact absurd this (by decide)
  exact ⟨fun hu hc => (hsoft hu hc).elim, fun hu hc => (hsoft hu hc).elim,
    fun hu hc => (hsoft hu hc).elim⟩

/-- A graphic character at the start is the same in the text that is replaced. -/
theorem ReplacedBy.cons {t u : Text} {c : Char} (h : ReplacedBy t (c :: u)) (hc : Graphic c) :
    ∃ t', t = c :: t' := h.one rfl hc.isSoft

/-- So are two of them. -/
theorem ReplacedBy.cons_cons {t u : Text} {c d : Char} (h : ReplacedBy t (c :: d :: u))
    (hc : Graphic c) (hd : Graphic d) : ∃ t', t = c :: d :: t' := h.two rfl hc.isSoft hd.isSoft

/-- A text that starts with no character of a class. -/
def Stops (p : Char → Bool) (t : Text) : Prop := ∀ c ∈ t.head?, p c = false

@[simp] theorem stops_nil (p : Char → Bool) : Stops p [] := by simp [Stops]

@[simp] theorem stops_cons {p : Char → Bool} {c : Char} {t : Text} :
    Stops p (c :: t) ↔ p c = false := by simp [Stops]

/-- A class of graphic characters that ends in front of the old text ends in front of the new. -/
theorem ReplacedBy.stops {p : Char → Bool} (hp : ∀ c, p c = true → Graphic c) {t u : Text}
    (h : ReplacedBy t u) (ht : Stops p t) : Stops p u := by
  cases u with
  | nil => simp
  | cons c u =>
    rw [stops_cons]
    -- A character of the class would have been in front of the old text, too, since it is graphic.
    by_contra hpc
    have hpc : p c = true := Bool.of_not_eq_false hpc
    obtain ⟨t', rfl⟩ := h.cons (hp c hpc)
    rw [stops_cons, hpc] at ht
    exact absurd ht (by decide)

/-- The same behind a text that stays. -/
theorem ReplacedBy.stops_append {p : Char → Bool} (hp : ∀ c, p c = true → Graphic c) {t u : Text}
    (h : ReplacedBy t u) (front : Text) (ht : Stops p (front ++ t)) : Stops p (front ++ u) := by
  cases front with
  | nil => exact h.stops hp ht
  | cons c front => simpa using ht

end Text

end CommaStyle
