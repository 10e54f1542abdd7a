import CommaStyle.Proofs.Scanning.Numerals

namespace CommaStyle

open Numeral

/-!
# JSON

The grammar of JSON, as relations between values and the texts that write them. White space stands in
front of any piece; a text as a whole may have some behind it, too.

* `Json.WritesString` — strings, in which a character stands for itself or is written as an escape
  sequence;
* `Json.Writes` — values, with their elements and members;
* `Json.WrittenIn` — a text that holds a value and nothing else;
* `Json.Writes.head` — the first character of a value tells what it is.
-/

/-- A JSON value. A number is kept as it is written. -/
inductive Json where
  | null
  | boolean (value : Bool)
  | number (numeral : Text)
  | string (value : Text)
  | array (elements : List Json)
  | object (members : List (Text × Json))

namespace Json

/-- A text of nothing but JSON white space. -/
def Blank (w : Text) : Prop := ∀ c ∈ w, c = ' ' ∨ c = '\t' ∨ c = '\n' ∨ c = '\r'

theorem blank_nil : Blank [] := by simp [Blank]

/-- White space behind white space is white space. -/
theorem Blank.append {v w : Text} (hv : Blank v) (hw : Blank w) : Blank (v ++ w) := by
  intro c hc
  rcases List.mem_append.mp hc with hc | hc
  · exact hv c hc
  · exact hw c hc

/-! ### Strings -/

/-- Whether a character is the hexadecimal digit for a number. -/
def HexDigit (c : Char) (n : Nat) : Prop :=
  ['0', '1', '2', '3', '4', '5', '6', '7', '8', '9', 'a', 'b', 'c', 'd', 'e', 'f'][n]? = some c ∨
    ['0', '1', '2', '3', '4', '5', '6', '7', '8', '9', 'A', 'B', 'C', 'D', 'E', 'F'][n]? = some c

/-- Whether a text is four hexadecimal digits for a number. -/
inductive FourDigits : Text → Nat → Prop where
  | mk {a b c d k l m n} (ha : HexDigit a k) (hb : HexDigit b l) (hc : HexDigit c m)
    (hd : HexDigit d n) : FourDigits [a, b, c, d] (((k * 16 + l) * 16 + m) * 16 + n)

/-- The letters behind a backslash, and the characters that they stand for. -/
def escapes : List (Char × Char) :=
  [('"', '"'), ('\\', '\\'), ('/', '/'), ('b', '\x08'), ('f', '\x0c'), ('n', '\n'), ('r', '\r'),
    ('t', '\t')]

/-- How a character can be written in a string: as itself, by a letter, by its code, or by the two
    halves of a surrogate pair. -/
inductive WritesChar : Char → Text → Prop where
  | plain {c} (hcode : 0x20 ≤ c.toNat) (hquote : c ≠ '"') (hbackslash : c ≠ '\\') : WritesChar c [c]
  | letter {c l} (h : (l, c) ∈ escapes) : WritesChar c ['\\', l]
  | code {c digits} (h : FourDigits digits c.toNat) : WritesChar c ('\\' :: 'u' :: digits)
  | pair {c high low m n} (hhigh : FourDigits high m) (hlow : FourDigits low n)
    (hm : 0xd800 ≤ m ∧ m < 0xdc00) (hn : 0xdc00 ≤ n ∧ n < 0xe000)
    (hc : c.toNat = 0x10000 + (m - 0xd800) * 0x400 + (n - 0xdc00)) :
    WritesChar c ('\\' :: 'u' :: (high ++ '\\' :: 'u' :: low))

/-- How a text can be written between quotes. -/
inductive WritesText : Text → Text → Prop where
  | nil : WritesText [] []
  | cons {c t w u} (hc : WritesChar c w) (ht : WritesText t u) : WritesText (c :: t) (w ++ u)

/-- A text with nothing to escape can be written as it is. -/
theorem writesText_self {t : Text} (h : t.all (fun c => 0x20 ≤ c.toNat && c ≠ '"' && c ≠ '\\') = true) :
    WritesText t t := by
  induction t with
  | nil => exact .nil
  | cons c t ih =>
    simp only [List.all_cons, Bool.and_eq_true, decide_eq_true_eq] at h
    obtain ⟨⟨⟨hcode, hquote⟩, hbackslash⟩, ht⟩ := h
    exact .cons (.plain hcode hquote hbackslash) (ih (by simpa using ht))

/-- How a text can be written as a string. -/
def WritesString (t w : Text) : Prop := ∃ u, WritesText t u ∧ w = '"' :: (u ++ ['"'])

/-! ### Values -/

/-- Any number of decimal digits. -/
def digits : Language Char := KStar.kstar digit

/-- The numbers: a sign or none, an integer without a leading zero, a fraction or none, and an exponent
    or none. -/
def numbers : Language Char :=
  (1 + letter (· = '-')) * (letter (· = '0') + letter (fun c => c.isDigit && c ≠ '0') * digits) *
    (1 + letter (· = '.') * digit * digits) *
      (1 + letter Lexeme.isExponentLetter * (1 + letter Lexeme.isSign) * digit * digits)

/-- The word for a boolean. -/
def word : Bool → Text
  | true => ['t', 'r', 'u', 'e']
  | false => ['f', 'a', 'l', 's', 'e']

mutual

/-- How a value can be written. -/
inductive Writes : Json → Text → Prop where
  | null : Writes .null ['n', 'u', 'l', 'l']
  | boolean {b} : Writes (.boolean b) (word b)
  | number {w} (h : w ∈ numbers) : Writes (.number w) w
  | string {t w} (h : WritesString t w) : Writes (.string t) w
  | emptyArray {a} (ha : Blank a) : Writes (.array []) ('[' :: (a ++ [']']))
  | array {vs w a} (h : WritesElements vs w) (ha : Blank a) :
    Writes (.array vs) ('[' :: (w ++ (a ++ [']'])))
  | emptyObject {a} (ha : Blank a) : Writes (.object []) ('\x7b' :: (a ++ ['\x7d']))
  | object {ms w a} (h : WritesMembers ms w) (ha : Blank a) :
    Writes (.object ms) ('\x7b' :: (w ++ (a ++ ['\x7d'])))

/-- How values can be written with commas between them. -/
inductive WritesElements : List Json → Text → Prop where
  | one {v w a} (ha : Blank a) (hv : Writes v w) : WritesElements [v] (a ++ w)
  | more {v vs w u a b} (ha : Blank a) (hv : Writes v w) (hb : Blank b) (hvs : WritesElements vs u) :
    WritesElements (v :: vs) (a ++ (w ++ (b ++ ',' :: u)))

/-- How members can be written with commas between them: each is a name, a colon and a value. -/
inductive WritesMembers : List (Text × Json) → Text → Prop where
  | one {k v name w a b c} (ha : Blank a) (hk : WritesString k name) (hb : Blank b) (hc : Blank c)
    (hv : Writes v w) : WritesMembers [(k, v)] (a ++ (name ++ (b ++ ':' :: (c ++ w))))
  | more {k v ms name w u a b c d} (ha : Blank a) (hk : WritesString k name) (hb : Blank b)
    (hc : Blank c) (hv : Writes v w) (hd : Blank d) (hms : WritesMembers ms u) :
    WritesMembers ((k, v) :: ms) (a ++ (name ++ (b ++ ':' :: (c ++ (w ++ (d ++ ',' :: u))))))

end

/-- Whether a text holds a value and nothing else but white space around it. -/
def WrittenIn (v : Json) (t : Text) : Prop :=
  ∃ a w b, Blank a ∧ Writes v w ∧ Blank b ∧ t = a ++ (w ++ b)

/-! ### First characters -/

/-- A number starts with a sign or a digit. -/
theorem head_of_mem_numbers {w : Text} (h : w ∈ numbers) :
    ∃ c u, w = c :: u ∧ (c = '-' ∨ c.isDigit = true) := by
  rw [numbers, mul_assoc, mul_assoc] at h
  obtain ⟨sign, hsign, rest, hrest, rfl⟩ := Language.mem_mul.mp h
  obtain ⟨integer, hinteger, more, -, rfl⟩ := Language.mem_mul.mp hrest
  rcases hsign with rfl | ⟨c, hc, rfl⟩
  · rcases hinteger with ⟨c, hc, rfl⟩ | hinteger
    · obtain rfl : c = '0' := by simpa using hc
      exact ⟨'0', more, rfl, .inr rfl⟩
    · obtain ⟨c, u, hc, -, rfl⟩ := mem_letter_mul.mp hinteger
      exact ⟨c, _, rfl, .inr (Bool.and_eq_true_iff.mp hc).1⟩
  · obtain rfl : c = '-' := by simpa using hc
    exact ⟨'-', _, rfl, .inl rfl⟩

/-- The characters that a value of some sort starts with. -/
def startsWith : Json → Char → Prop
  | .null, c => c = 'n'
  | .boolean b, c => c = if b then 't' else 'f'
  | .number _, c => c = '-' ∨ c.isDigit = true
  | .string _, c => c = '"'
  | .array _, c => c = '['
  | .object _, c => c = '\x7b'

/-- A value starts with a character that shows its sort. -/
theorem Writes.head {v : Json} {w : Text} (h : Writes v w) : ∃ c u, w = c :: u ∧ v.startsWith c := by
  cases h with
  | null => exact ⟨_, _, rfl, rfl⟩
  | @boolean b => cases b <;> exact ⟨_, _, rfl, rfl⟩
  | number h => exact head_of_mem_numbers h
  | string h =>
    obtain ⟨u, -, rfl⟩ := h
    exact ⟨_, _, rfl, rfl⟩
  | emptyArray | array | emptyObject | object => exact ⟨_, _, rfl, rfl⟩

end Json

end CommaStyle
