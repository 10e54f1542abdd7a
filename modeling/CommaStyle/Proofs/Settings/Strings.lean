import CommaStyle.Proofs.Collections
import CommaStyle.Proofs.Lexers
import CommaStyle.Proofs.Settings.Json
import CommaStyle.Settings.Written
import Mathlib

namespace CommaStyle

open Json

/-!
# Reading blanks, words and strings

What is read from an input depends on its text alone, and not on its place. Each of the small readers
is compared with the grammar in both directions: what it takes is written as the grammar says
(`of_eq_ok`), and what is written so is taken as a whole, whatever follows it (`exists_…`).
-/

namespace Json

/-- A hexadecimal digit stands for a number below sixteen. -/
theorem HexDigit.lt {c : Char} {n : Nat} (h : HexDigit c n) : n < 16 := by
  rcases h with h | h <;> exact (List.getElem?_eq_some_iff.mp h).1

/-- A hexadecimal digit is one byte. -/
theorem HexDigit.utf8Size {c : Char} {n : Nat} (h : HexDigit c n) : c.utf8Size = 1 := by
  have hn := h.lt
  rcases h with h | h <;>
  · interval_cases n <;> (obtain rfl := Option.some.inj h; rfl)

/-- Four digits stand for a number of sixteen bits. -/
theorem FourDigits.lt {w : Text} {n : Nat} (h : FourDigits w n) : n < 0x10000 := by
  cases h with
  | mk ha hb hc hd =>
    have := ha.lt
    have := hb.lt
    have := hc.lt
    have := hd.lt
    omega

end Json

namespace Input

@[simp] theorem fail_ne_ok {α : Type} (i : Input) (fault : SettingsFault) (a : α) :
    i.fail fault ≠ .ok a := by simp [fail]

@[simp] theorem failBehind_ne_ok {α : Type} (i : Input) (count : Nat) (fault : SettingsFault) (a : α) :
    i.failBehind count fault ≠ .ok a := by simp [failBehind]

@[simp] theorem failAhead_ne_ok {α : Type} (i : Input) (fault : SettingsFault) (a : α) :
    i.failAhead fault ≠ .ok a := failBehind_ne_ok i 1 fault a

/-! ### Steps and blanks -/

theorem peek?_of_rest {i : Input} {c : Char} {t : Text} (h : i.rest = c :: t) :
    i.peek? = some c := by rw [peek?, h]; rfl

theorem rest_step {i : Input} {c : Char} {t : Text} (h : i.rest = c :: t) : i.step.rest = t := by
  simp [step, pass, h]

/-- The character ahead is the first of the rest. -/
theorem rest_of_peek? {i : Input} {c : Char} (h : i.peek? = some c) : i.rest = c :: i.step.rest := by
  obtain ⟨t, ht⟩ := List.head?_eq_some_iff.mp h
  rw [rest_step ht, ht]

/-- Passing over a front part leaves what follows it. -/
theorem rest_pass_append {i : Input} {w r : Text} (h : i.rest = w ++ r) : (i.pass w).rest = r := by
  simp [pass, h]

/-- The white space of JSON. -/
theorem isSeparator_iff {c : Char} :
    isSeparator c = true ↔ c = ' ' ∨ c = '\t' ∨ c = '\n' ∨ c = '\r' := by
  simp [isSeparator, or_assoc]

/-- Passing over white space drops all of it. -/
theorem rest_skipBlanks (i : Input) : i.skipBlanks.rest = i.rest.dropWhile isSeparator := by
  have hsplit := List.takeWhile_append_dropWhile (p := isSeparator) (l := i.rest)
  exact rest_pass_append hsplit.symm

/-- What is skipped is blank. -/
theorem exists_blank (i : Input) : ∃ a, Blank a ∧ i.rest = a ++ i.skipBlanks.rest := by
  refine ⟨i.rest.takeWhile isSeparator, ?_, ?_⟩
  · intro c hc
    exact isSeparator_iff.mp (List.all_eq_true.mp List.all_takeWhile c hc)
  · rw [rest_skipBlanks, List.takeWhile_append_dropWhile]

/-- Blanks are skipped up to the next piece. -/
theorem rest_skipBlanks_of_blank {i : Input} {a r : Text} (h : i.rest = a ++ r) (ha : Blank a)
    (hr : ∀ c ∈ r.head?, isSeparator c = false) : i.skipBlanks.rest = r := by
  rw [rest_skipBlanks, h, List.dropWhile_append_of_pos fun c hc => isSeparator_iff.mpr (ha c hc)]
  cases r with
  | nil => rfl
  | cons c r => simp [hr c rfl]

/-- Passing over white space stops at the first other character. -/
theorem rest_skipBlanks_cons {i : Input} {a r : Text} {c : Char} (h : i.rest = a ++ c :: r)
    (ha : Blank a) (hc : isSeparator c = false) : i.skipBlanks.rest = c :: r := by
  refine rest_skipBlanks_of_blank h ha ?_
  intro d hd
  obtain rfl : c = d := by simpa using hd
  exact hc

/-! ### Words -/

/-- A word that is read stands at the front of the input. -/
theorem word_of_eq_ok {i j : Input} {w : Text} (h : i.word w = .ok j) : i.rest = w ++ j.rest := by
  induction w generalizing i with
  | nil =>
    obtain rfl := Except.ok.inj h
    rfl
  | cons c w ih =>
    rw [word] at h
    split at h
    · simp at h
    · next d hd =>
      split at h
      · next hdc =>
        subst hdc
        rw [rest_of_peek? hd, ih h]
        rfl
      · simp at h

/-- A word at the front of the input is read. -/
theorem exists_word {i : Input} {w r : Text} (h : i.rest = w ++ r) :
    ∃ j, i.word w = .ok j ∧ j.rest = r := by
  induction w generalizing i with
  | nil => exact ⟨i, rfl, h⟩
  | cons c w ih =>
    obtain ⟨j, hj, hrest⟩ := ih (rest_step h)
    refine ⟨j, ?_, hrest⟩
    rw [word, peek?_of_rest h]
    simpa using hj

/-! ### Escape sequences -/

/-- The letters and figures for hexadecimal digits come one after the other. -/
theorem hexValue?_eq_some_iff {c : Char} {n : Nat} : hexValue? c = some n ↔ HexDigit c n := by
  constructor
  · intro h
    rw [← Char.ofNat_toNat c]
    unfold hexValue? at h
    split at h
    · next hdigit =>
      have hrange : 48 ≤ c.toNat ∧ c.toNat ≤ 57 := Char.isDigit_iff_toNat.mp hdigit
      obtain rfl : c.toNat - 48 = n := Option.some.inj h
      generalize c.toNat = m at hrange
      obtain ⟨hlow, hhigh⟩ := hrange
      interval_cases m <;> exact .inl rfl
    split at h
    · next hlower =>
      simp only [Bool.and_eq_true, decide_eq_true_eq, Char.le_def, UInt32.le_iff_toNat_le] at hlower
      have hrange : 97 ≤ c.toNat ∧ c.toNat ≤ 102 := hlower
      obtain rfl : c.toNat - 97 + 10 = n := Option.some.inj h
      generalize c.toNat = m at hrange
      obtain ⟨hlow, hhigh⟩ := hrange
      interval_cases m <;> exact .inl rfl
    split at h
    · next hupper =>
      simp only [Bool.and_eq_true, decide_eq_true_eq, Char.le_def, UInt32.le_iff_toNat_le] at hupper
      have hrange : 65 ≤ c.toNat ∧ c.toNat ≤ 70 := hupper
      obtain rfl : c.toNat - 65 + 10 = n := Option.some.inj h
      generalize c.toNat = m at hrange
      obtain ⟨hlow, hhigh⟩ := hrange
      interval_cases m <;> exact .inr rfl
    · cases h
  · rintro (h | h) <;>
    · have hn : n < 16 := (List.getElem?_eq_some_iff.mp h).1
      interval_cases n <;> (obtain rfl := Option.some.inj h; rfl)

/-- Four digits are added up from the first to the last. -/
theorem hexNumber?_four {a b c d : Char} {n : Nat} :
    hexNumber? [a, b, c, d] = some n ↔ FourDigits [a, b, c, d] n := by
  simp only [hexNumber?, List.foldlM_cons, List.foldlM_nil, Option.bind_eq_bind, Option.pure_def,
    Option.bind_eq_some_iff, Option.map_eq_some_iff, hexValue?_eq_some_iff, Option.some.injEq]
  constructor
  · rintro ⟨_, ⟨k, hk, rfl⟩, _, ⟨l, hl, rfl⟩, _, ⟨m, hm, rfl⟩, _, ⟨o, ho, rfl⟩, rfl⟩
    have hfour := FourDigits.mk hk hl hm ho
    rwa [Nat.zero_mul, Nat.zero_add]
  · rintro ⟨hk, hl, hm, ho⟩
    exact ⟨_, ⟨_, hk, rfl⟩, _, ⟨_, hl, rfl⟩, _, ⟨_, hm, rfl⟩, _, ⟨_, ho, rfl⟩, by simp⟩

/-- Hexadecimal digits are one byte each. -/
theorem width_of_hexNumber? {w : Text} {n : Nat} (h : hexNumber? w = some n) :
    Text.width w = w.length := by
  have hfold : ∀ (value : Nat), w.foldlM (fun value c => (hexValue? c).map (value * 16 + ·)) value =
      some n → Text.width w = w.length := by
    clear h
    induction w with
    | nil => exact fun _ _ => rfl
    | cons c w ih =>
      intro value h
      rw [List.foldlM_cons, Option.bind_eq_bind, Option.bind_eq_some_iff] at h
      obtain ⟨_, hc, hw⟩ := h
      obtain ⟨m, hm, -⟩ := Option.map_eq_some_iff.mp hc
      rw [Text.width_cons, (hexValue?_eq_some_iff.mp hm).utf8Size, ih _ hw, List.length_cons,
        Nat.add_comm]
  exact hfold 0 h

/-- The four digits that are read stand at the front of the input. -/
theorem fourDigits_of_eq_ok {i j : Input} {n : Nat} (h : i.fourDigits = .ok (n, j)) :
    ∃ w, FourDigits w n ∧ i.rest = w ++ j.rest := by
  simp only [fourDigits] at h
  split at h
  · simp at h
  next hwidth =>
  split at h
  · next m hm =>
    obtain ⟨rfl, rfl⟩ := Prod.mk.inj (Except.ok.inj h)
    have hsplit := (List.take_append_drop 4 i.rest).symm
    -- With fewer than four characters, they would be fewer than four bytes.
    have hlength : (i.rest.take 4).length = 4 := by
      by_contra hne
      have hshort : i.rest.take 4 = i.rest := by
        rw [List.length_take] at hne
        exact List.take_of_length_le (by omega)
      have hbytes := width_of_hexNumber? hm
      have hfew : (i.rest.take 4).length ≤ 4 := List.length_take_le 4 i.rest
      rw [hshort] at hbytes hne hfew
      omega
    refine ⟨i.rest.take 4, ?_, by rw [rest_pass_append hsplit]; exact hsplit⟩
    obtain ⟨a, b, c, d, hw⟩ := List.length_eq_four.mp hlength
    rw [hw] at hm ⊢
    exact hexNumber?_four.mp hm
  · simp at h

/-- Four digits at the front of the input are read. -/
theorem exists_fourDigits {i : Input} {w r : Text} {n : Nat} (hw : FourDigits w n)
    (h : i.rest = w ++ r) : ∃ j, i.fourDigits = .ok (n, j) ∧ j.rest = r := by
  cases hw with
  | @mk a b c d k l m o ha hb hc hd =>
    have hwidth : ¬Text.width i.rest < 4 := by
      have hle := Text.length_le_width i.rest
      have hlength : i.rest.length = 4 + r.length := by
        rw [h, List.length_append]
        rfl
      omega
    have htake : i.rest.take 4 = [a, b, c, d] := by rw [h]; rfl
    have hnumber := hexNumber?_four.mpr (.mk ha hb hc hd)
    refine ⟨i.pass [a, b, c, d], ?_, rest_pass_append h⟩
    rw [fourDigits, htake, if_neg hwidth, hnumber]

/-- A part of a surrogate pair that is read stands at the front of the input. -/
theorem pairPart_of_eq_ok {i j : Input} {c : Char} (h : i.pairPart c = .ok j) :
    i.rest = c :: j.rest := by
  rw [pairPart] at h
  split at h
  · simp at h
  · next d hd =>
    split at h
    · next hdc =>
      obtain rfl := Except.ok.inj h
      exact hdc ▸ rest_of_peek? hd
    · simp at h

/-- A part of a surrogate pair at the front of the input is read. -/
theorem exists_pairPart {i : Input} {c : Char} {r : Text} (h : i.rest = c :: r) :
    ∃ j, i.pairPart c = .ok j ∧ j.rest = r := by
  refine ⟨i.step, ?_, rest_step h⟩
  rw [pairPart, peek?_of_rest h]
  simp

/-- A numeric escape that is read writes the character that it gives. -/
theorem numericEscape_of_eq_ok {i j : Input} {c : Char} (h : i.numericEscape = .ok (c, j)) :
    ∃ w, i.rest = w ++ j.rest ∧ WritesChar c ('\\' :: 'u' :: w) := by
  rw [numericEscape, Except.bind_eq_ok_iff] at h
  obtain ⟨⟨n, k⟩, hn, h⟩ := h
  obtain ⟨high, hhigh, hrest⟩ := fourDigits_of_eq_ok hn
  dsimp only at h
  split at h
  · simp at h
  next hends =>
  split at h
  · next hleads =>
    obtain ⟨k', hbackslash, h⟩ := Except.bind_eq_ok_iff.mp h
    obtain ⟨k'', hletter, h⟩ := Except.bind_eq_ok_iff.mp h
    obtain ⟨⟨m, l⟩, hm, h⟩ := Except.bind_eq_ok_iff.mp h
    obtain ⟨low, hlow, hrest'⟩ := fourDigits_of_eq_ok hm
    dsimp only at h
    split at h
    · next hpair =>
      obtain ⟨rfl, rfl⟩ := Prod.mk.inj (Except.ok.inj h)
      simp only [leadsPair, endsPair, Bool.and_eq_true, decide_eq_true_eq] at hleads hpair
      refine ⟨high ++ '\\' :: 'u' :: low, ?_, ?_⟩
      · rw [hrest, pairPart_of_eq_ok hbackslash, pairPart_of_eq_ok hletter, hrest']
        simp
      · refine .pair hhigh hlow (by omega) (by omega) ?_
        rw [Char.toNat_ofNat, if_pos (by simp only [Nat.isValidChar]; omega)]
        omega
    · simp at h
  · next hleads =>
    obtain ⟨rfl, rfl⟩ := Prod.mk.inj (Except.ok.inj h)
    simp only [leadsPair, endsPair, Bool.and_eq_true, decide_eq_true_eq] at hleads hends
    refine ⟨high, hrest, .code ?_⟩
    have hlt := hhigh.lt
    rwa [Char.toNat_ofNat, if_pos (by simp only [Nat.isValidChar]; omega)]

/-- The code of a character is no half of a pair. -/
theorem exists_numericEscape_code {i : Input} {c : Char} {digits r : Text}
    (hdigits : FourDigits digits c.toNat) (h : i.rest = digits ++ r) :
    ∃ j, i.numericEscape = .ok (c, j) ∧ j.rest = r := by
  obtain ⟨j, hj, hrest⟩ := exists_fourDigits hdigits h
  refine ⟨j, ?_, hrest⟩
  have hvalid : c.toNat.isValidChar := c.valid
  simp only [Nat.isValidChar] at hvalid
  have hends : endsPair c.toNat = false := by
    simp only [endsPair, Bool.and_eq_false_imp, decide_eq_true_eq, decide_eq_false_iff_not]
    omega
  have hleads : leadsPair c.toNat = false := by
    simp only [leadsPair, Bool.and_eq_false_imp, decide_eq_true_eq, decide_eq_false_iff_not]
    omega
  rw [numericEscape, Except.bind_eq_of_eq_ok hj]
  simp [hends, hleads, pure, Except.pure]

/-- The two halves of a surrogate pair are read as the character that they stand for. -/
theorem exists_numericEscape_pair {i : Input} {c : Char} {high low r : Text} {m n : Nat}
    (hhigh : FourDigits high m) (hlow : FourDigits low n) (hm : 0xd800 ≤ m ∧ m < 0xdc00)
    (hn : 0xdc00 ≤ n ∧ n < 0xe000) (hc : c.toNat = 0x10000 + (m - 0xd800) * 0x400 + (n - 0xdc00))
    (h : i.rest = high ++ ('\\' :: 'u' :: low) ++ r) :
    ∃ j, i.numericEscape = .ok (c, j) ∧ j.rest = r := by
  rw [List.append_assoc] at h
  obtain ⟨j, hj, hrest⟩ := exists_fourDigits hhigh h
  obtain ⟨k, hk, hrest'⟩ := exists_pairPart hrest
  obtain ⟨l, hl, hrest''⟩ := exists_pairPart hrest'
  obtain ⟨o, ho, hlast⟩ := exists_fourDigits hlow hrest''
  refine ⟨o, ?_, hlast⟩
  have hends : endsPair m = false := by
    simp only [endsPair, Bool.and_eq_false_imp, decide_eq_true_eq, decide_eq_false_iff_not]
    omega
  have hleads : leadsPair m = true := by
    simp only [leadsPair, Bool.and_eq_true, decide_eq_true_eq]
    omega
  have hpair : endsPair n = true := by
    simp only [endsPair, Bool.and_eq_true, decide_eq_true_eq]
    omega
  have hchar : Char.ofNat ((m - 0xd800) * 0x400 + (n - 0xdc00) + 0x10000) = c := by
    have hcode : (m - 0xd800) * 0x400 + (n - 0xdc00) + 0x10000 = c.toNat := by omega
    rw [hcode, Char.ofNat_toNat]
  rw [numericEscape, Except.bind_eq_of_eq_ok hj]
  dsimp only
  rw [if_neg (by simp [hends]), if_pos hleads, Except.bind_eq_of_eq_ok hk, Except.bind_eq_of_eq_ok hl,
    Except.bind_eq_of_eq_ok ho]
  dsimp only
  rw [if_pos hpair, hchar]
  rfl

/-- The letters behind a backslash are those of the grammar. -/
theorem simpleEscape?_eq_some_iff {l c : Char} : simpleEscape? l = some c ↔ (l, c) ∈ escapes := by
  simp only [escapes, List.mem_cons, Prod.mk.injEq, List.not_mem_nil, or_false]
  constructor
  · intro h
    unfold simpleEscape? at h
    split at h <;> simp_all [eq_comm]
  · rintro (⟨rfl, rfl⟩ | ⟨rfl, rfl⟩ | ⟨rfl, rfl⟩ | ⟨rfl, rfl⟩ | ⟨rfl, rfl⟩ | ⟨rfl, rfl⟩ |
      ⟨rfl, rfl⟩ | ⟨rfl, rfl⟩) <;> rfl

/-- An escape that is read writes the character that it gives. -/
theorem escape_of_eq_ok {i j : Input} {c : Char} (h : i.escape = .ok (c, j)) :
    ∃ w, i.rest = w ++ j.rest ∧ WritesChar c ('\\' :: w) := by
  rw [escape] at h
  split at h
  · simp at h
  · next hu =>
    obtain ⟨w, hrest, hw⟩ := numericEscape_of_eq_ok h
    exact ⟨'u' :: w, by rw [rest_of_peek? hu, hrest]; rfl, hw⟩
  · next l _ hl =>
    split at h
    · next d hd =>
      obtain ⟨rfl, rfl⟩ := Prod.mk.inj (Except.ok.inj h)
      exact ⟨[l], rest_of_peek? hl, .letter (simpleEscape?_eq_some_iff.mp hd)⟩
    · simp at h

/-- An escape sequence is read as a whole. -/
theorem exists_escape {i : Input} {c : Char} {w r : Text} (hw : WritesChar c ('\\' :: w))
    (h : i.rest = w ++ r) : ∃ j, i.escape = .ok (c, j) ∧ j.rest = r := by
  -- The forms of a character are told apart by what they have behind the backslash.
  generalize hv : '\\' :: w = v at hw
  cases hw with
  | plain _ _ hbackslash => exact absurd (List.cons.inj hv).1.symm hbackslash
  | @letter l hl =>
    obtain rfl : w = [l] := (List.cons.inj hv).2
    have hne : l ≠ 'u' := by
      rintro rfl
      exact absurd hl (by simp [escapes])
    refine ⟨i.step, ?_, rest_step h⟩
    rw [escape, peek?_of_rest h]
    simp [simpleEscape?_eq_some_iff.mpr hl]
  | @code digits hdigits =>
    obtain rfl : w = 'u' :: digits := (List.cons.inj hv).2
    obtain ⟨j, hj, hrest⟩ := exists_numericEscape_code hdigits (rest_step h)
    refine ⟨j, ?_, hrest⟩
    rw [escape, peek?_of_rest h]
    exact hj
  | @pair high low m n hhigh hlow hm hn hc =>
    obtain rfl : w = 'u' :: (high ++ '\\' :: 'u' :: low) := (List.cons.inj hv).2
    obtain ⟨j, hj, hrest⟩ := exists_numericEscape_pair hhigh hlow hm hn hc (rest_step h)
    refine ⟨j, ?_, hrest⟩
    rw [escape, peek?_of_rest h]
    exact hj

/-! ### Strings -/

/-- A string that is read writes the text that it gives, up to the closing quote. -/
theorem stringWithin_of_eq_ok {bound : Text} {i j : Input} {t : Text}
    (h : stringWithin bound i = .ok (t, j)) : ∃ w, WritesText t w ∧ i.rest = w ++ '"' :: j.rest := by
  induction bound generalizing i t with
  | nil => simp [stringWithin] at h
  | cons b bound ih =>
    rw [stringWithin] at h
    split at h
    · simp at h
    · next hquote =>
      obtain ⟨rfl, rfl⟩ := Prod.mk.inj (Except.ok.inj h)
      exact ⟨[], .nil, rest_of_peek? hquote⟩
    · next hbackslash =>
      obtain ⟨⟨c, k⟩, hc, h⟩ := Except.bind_eq_ok_iff.mp h
      obtain ⟨⟨u, l⟩, hu, h⟩ := Except.bind_eq_ok_iff.mp h
      obtain ⟨rfl, rfl⟩ := Prod.mk.inj (Except.ok.inj h)
      obtain ⟨v, hrest, hv⟩ := escape_of_eq_ok hc
      obtain ⟨w, hw, hrest'⟩ := ih hu
      refine ⟨'\\' :: v ++ w, .cons hv hw, ?_⟩
      rw [rest_of_peek? hbackslash, hrest, hrest']
      simp
    · next c hquote hbackslash hc =>
      split at h
      · simp at h
      · next hcode =>
        obtain ⟨⟨u, l⟩, hu, h⟩ := Except.bind_eq_ok_iff.mp h
        obtain ⟨rfl, rfl⟩ := Prod.mk.inj (Except.ok.inj h)
        obtain ⟨w, hw, hrest⟩ := ih hu
        refine ⟨[c] ++ w, .cons (.plain (Nat.not_lt.mp hcode) ?_ ?_) hw, ?_⟩
        · rintro rfl
          exact hquote rfl
        · rintro rfl
          exact hbackslash rfl
        · rw [rest_of_peek? hc, hrest]
          rfl

/-- A character is written as itself, or with a backslash in front. -/
theorem writesChar_cases {c : Char} {w : Text} (h : WritesChar c w) :
    (w = [c] ∧ 0x20 ≤ c.toNat ∧ c ≠ '"' ∧ c ≠ '\\') ∨ ∃ v, w = '\\' :: v := by
  cases h with
  | plain hcode hquote hbackslash => exact .inl ⟨rfl, hcode, hquote, hbackslash⟩
  | letter | code | pair => exact .inr ⟨_, rfl⟩

/-- A string is read up to its closing quote. -/
theorem exists_stringWithin {t w : Text} (hw : WritesText t w) {bound : Text} {i : Input} {r : Text}
    (h : i.rest = w ++ '"' :: r) (hbound : w.length < bound.length) :
    ∃ j, stringWithin bound i = .ok (t, j) ∧ j.rest = r := by
  induction hw generalizing bound i with
  | nil =>
    cases bound with
    | nil => simp at hbound
    | cons b bound =>
      refine ⟨i.step, ?_, rest_step h⟩
      rw [stringWithin, peek?_of_rest h]
      rfl
  | @cons c t w u hc ht ih =>
    cases bound with
    | nil => simp at hbound
    | cons b bound =>
      rw [List.append_assoc] at h
      simp only [List.length_append, List.length_cons] at hbound
      rcases writesChar_cases hc with ⟨rfl, hcode, hquote, hbackslash⟩ | ⟨v, rfl⟩
      · have hshort : u.length < bound.length := by simp at hbound; omega
        obtain ⟨j, hj, hrest⟩ := ih (rest_step h) hshort
        refine ⟨j, ?_, hrest⟩
        rw [stringWithin, peek?_of_rest h]
        simp only [Nat.not_lt.mpr hcode, if_false, Except.bind_eq_of_eq_ok hj]
        rfl
      · have hshort : u.length < bound.length := by simp at hbound; omega
        obtain ⟨k, hk, hrest⟩ := exists_escape hc (rest_step h)
        obtain ⟨j, hj, hrest'⟩ := ih hrest hshort
        refine ⟨j, ?_, hrest'⟩
        rw [stringWithin, peek?_of_rest h]
        show (i.step.escape >>= _) = _
        rw [Except.bind_eq_of_eq_ok hk]
        show (stringWithin bound k >>= _) = _
        rw [Except.bind_eq_of_eq_ok hj]
        rfl

/-- The same, with the text itself as the bound. -/
theorem string_of_eq_ok {i j : Input} {t : Text} (h : i.string = .ok (t, j)) :
    ∃ w, WritesText t w ∧ i.rest = w ++ '"' :: j.rest := stringWithin_of_eq_ok h

/-- A string at the front of the input is read up to its closing quote. -/
theorem exists_string {i : Input} {t w r : Text} (hw : WritesText t w) (h : i.rest = w ++ '"' :: r) :
    ∃ j, i.string = .ok (t, j) ∧ j.rest = r := by
  refine exists_stringWithin hw h ?_
  rw [h, List.length_append, List.length_cons]
  omega

end Input

end CommaStyle
