import CommaStyle.Settings.Fault

namespace CommaStyle

/-!
# Reading words, strings and numbers

The pieces of written settings. Everything is read from an `Input`, a text with the place where it
starts. A cause is placed either behind what has been read or behind the byte ahead.
-/

/-- The text that is still to be read, and its place. -/
structure Input where
  place : Place
  rest : Text
deriving DecidableEq, Repr

namespace Input

/-- A text at its start. -/
def ofText (t : Text) : Input := ⟨Place.origin, t⟩

/-- The input behind some characters at its front. -/
def pass (i : Input) (front : Text) : Input := ⟨i.place.after front, i.rest.drop front.length⟩

/-- The input behind the character ahead. -/
def step (i : Input) : Input := i.pass (i.rest.take 1)

/-- Whether a character may stand between the pieces. -/
def isSeparator (c : Char) : Bool := c = ' ' || c = '\t' || c = '\n' || c = '\r'

/-- The input behind the separating characters ahead. -/
def skipBlanks (i : Input) : Input := i.pass (i.rest.takeWhile isSeparator)

/-- The character ahead. -/
def peek? (i : Input) : Option Char := i.rest.head?

/-- Refuses the input behind what has been read. -/
def fail {α : Type} (i : Input) (fault : SettingsFault) : Except SettingsError α :=
  .error ⟨fault, i.place⟩

/-- Refuses the input behind so many of the bytes ahead. -/
def failBehind {α : Type} (i : Input) (count : Nat) (fault : SettingsFault) :
    Except SettingsError α :=
  .error ⟨fault, i.place.afterBytes count i.rest⟩

/-- Refuses the input at the byte ahead. -/
def failAhead {α : Type} (i : Input) (fault : SettingsFault) : Except SettingsError α :=
  i.failBehind 1 fault

/-! ### Words -/

/-- Reads the characters of a word one by one. -/
def word (i : Input) : Text → Except SettingsError Input
  | [] => .ok i
  | c :: more =>
    match i.peek? with
    | none => i.fail .endInValue
    | some d => if d = c then i.step.word more else i.failAhead .expectedWord

/-! ### Strings -/

/-- The value of a hexadecimal digit. -/
def hexValue? (c : Char) : Option Nat :=
  if c.isDigit then some (c.toNat - '0'.toNat)
  else if 'a' ≤ c && c ≤ 'f' then some (c.toNat - 'a'.toNat + 10)
  else if 'A' ≤ c && c ≤ 'F' then some (c.toNat - 'A'.toNat + 10)
  else none

/-- The value of hexadecimal digits. -/
def hexNumber? (digits : Text) : Option Nat :=
  digits.foldlM (fun value c => (hexValue? c).map (value * 16 + ·)) 0

/-- Reads four hexadecimal digits. The next four bytes are taken for them, whatever they are. -/
def fourDigits (i : Input) : Except SettingsError (Nat × Input) :=
  let digits := i.rest.take 4
  if Text.width i.rest < 4 then i.failBehind 4 .endInString
  else
    match hexNumber? digits with
    | some n => .ok (n, i.pass digits)
    | none => i.failBehind 4 .invalidEscape

/-- Reads one given character of an escape sequence for the second half of a surrogate pair. -/
def pairPart (i : Input) (c : Char) : Except SettingsError Input :=
  match i.peek? with
  | none => i.fail .endInString
  | some d => if d = c then .ok i.step else i.failAhead .unfinishedSurrogatePair

/-- Whether a code is the first half of a surrogate pair. -/
def leadsPair (n : Nat) : Bool := 0xd800 ≤ n && n ≤ 0xdbff

/-- Whether a code is the second half of a surrogate pair. -/
def endsPair (n : Nat) : Bool := 0xdc00 ≤ n && n ≤ 0xdfff

/-- Reads the digits of a numeric escape sequence, or of two that stand for one character. -/
def numericEscape (i : Input) : Except SettingsError (Char × Input) := do
  let (n, i) ← i.fourDigits
  if endsPair n then i.fail .unpairedSurrogate
  else if leadsPair n then do
    let i ← i.pairPart '\\'
    let i ← i.pairPart 'u'
    let (m, i) ← i.fourDigits
    if endsPair m then
      return (Char.ofNat ((n - 0xd800) * 0x400 + (m - 0xdc00) + 0x10000), i)
    else i.fail .unpairedSurrogate
  else return (Char.ofNat n, i)

/-- The character that a letter behind a backslash stands for. -/
def simpleEscape? : Char → Option Char
  | '"' => some '"'
  | '\\' => some '\\'
  | '/' => some '/'
  | 'b' => some '\x08'
  | 'f' => some '\x0c'
  | 'n' => some '\n'
  | 'r' => some '\r'
  | 't' => some '\t'
  | _ => none

/-- Reads an escape sequence behind its backslash. -/
def escape (i : Input) : Except SettingsError (Char × Input) :=
  match i.peek? with
  | none => i.fail .endInString
  | some 'u' => i.step.numericEscape
  | some c =>
    match simpleEscape? c with
    | some d => .ok (d, i.step)
    | none => i.failAhead .invalidEscape

/-- Reads a string behind its opening quote, with at most as many steps as `bound` has characters.
    Every step reads one, so a bound that is used up has left nothing to read. -/
def stringWithin : (bound : Text) → Input → Except SettingsError (Text × Input)
  | [], i => i.fail .endInString
  | _ :: bound, i =>
    match i.peek? with
    | none => i.fail .endInString
    | some '"' => .ok ([], i.step)
    | some '\\' => do
      let (c, i) ← i.step.escape
      let (t, i) ← stringWithin bound i
      return (c :: t, i)
    | some c =>
      if c.toNat < 0x20 then i.failAhead .controlCharacter
      else do
        let (t, i) ← stringWithin bound i.step
        return (c :: t, i)

/-- Reads a string behind its opening quote. -/
def string (i : Input) : Except SettingsError (Text × Input) := stringWithin i.rest i

/-! ### Numbers -/

/-- The greatest significand that is kept. Digits beyond it only move the point. -/
def maxSignificand : Nat := Nat.pow 2 64 - 1

/-- The value of a decimal digit. -/
def digitValue (c : Char) : Nat := c.toNat - '0'.toNat

/-- Appends digits to a significand for as long as it can be kept; with the number of those left. -/
def appendDigits (significand : Nat) : Text → Nat × Nat
  | [] => (significand, 0)
  | c :: digits =>
    let longer := significand * 10 + digitValue c
    if maxSignificand < longer then (significand, digits.length + 1)
    else appendDigits longer digits

/-- The double nearest to a power of ten. -/
def powerOfTen (n : Nat) : Float := OfScientific.ofScientific 1 false n

/-- A double divided by powers of ten until the rest of the exponent is in range, in at most
    `bound` steps, and then scaled by the rest. The greatest power of ten below the range of doubles
    is the three hundred and eighth. -/
def scale? : (bound : Nat) → Float → Int → Option Float
  | bound, x, exponent =>
    if 308 < exponent then if x == 0 then some x else none
    else if 0 ≤ exponent then
      let y := x * powerOfTen exponent.toNat
      if y.isInf then none else some y
    else if -308 ≤ exponent then some (x / powerOfTen (-exponent).toNat)
    else
      match bound with
      | 0 => some x
      | bound + 1 => if x == 0 then some x else scale? bound (x / powerOfTen 308) (exponent + 308)

/-- The double that a significand and an exponent of ten stand for. Two divisions take any
    significand below the range of doubles. -/
def toFloat? (negative : Bool) (significand : Nat) (exponent : Int) : Option Float :=
  (scale? 3 significand.toUInt64.toFloat exponent).map fun x => if negative then -x else x

/-- A number with a fraction or an exponent, once its last character is read. -/
def real (i : Input) (negative : Bool) (significand : Nat) (exponent : Int) :
    Except SettingsError (Found × Input) :=
  match toFloat? negative significand exponent with
  | some x => .ok (.real (Decimal.ofFloat x), i)
  | none => i.fail .numberOutOfRange

/-- The greatest exponent that is kept. -/
def maxExponent : Nat := Nat.pow 2 31 - 1

/-- The value of the digits of an exponent, or the number of digits, from the first on, that take it
    beyond what is kept. -/
def exponentValue (value read : Nat) : Text → Nat ⊕ Nat
  | [] => .inl value
  | c :: digits =>
    let longer := value * 10 + digitValue c
    if maxExponent < longer then .inr (read + 1) else exponentValue longer (read + 1) digits

/-- Reads the exponent of a number behind its letter. -/
def exponent (i : Input) (negative : Bool) (significand : Nat) (shift : Int) :
    Except SettingsError (Found × Input) :=
  let down := i.peek? == some '-'
  let i := if down || i.peek? == some '+' then i.step else i
  let digits := i.rest.takeWhile Char.isDigit
  match i.peek?, exponentValue 0 0 digits with
  | none, _ => i.fail .endInValue
  | some c, value =>
    if !c.isDigit then i.failAhead .invalidNumber
    else
      match value with
      | .inl value =>
        (i.pass digits).real negative significand (if down then shift - value else shift + value)
      | .inr read =>
        if significand != 0 && !down then (i.pass (digits.take read)).fail .numberOutOfRange
        else (i.pass digits).real negative 0 0

/-- Whether the letter of an exponent is ahead. -/
def atExponent (i : Input) : Bool := i.peek? == some 'e' || i.peek? == some 'E'

/-- Reads the fraction of a number behind its point. -/
def fraction (i : Input) (negative : Bool) (significand : Nat) (shift : Int) :
    Except SettingsError (Found × Input) :=
  let digits := i.rest.takeWhile Char.isDigit
  if digits.isEmpty then i.failAhead (if i.rest.isEmpty then .endInValue else .invalidNumber)
  else
    let (significand, left) := appendDigits significand digits
    let shift := shift - (digits.length - left : Nat)
    let i := i.pass digits
    if i.atExponent then i.step.exponent negative significand shift
    else i.real negative significand shift

/-- The number that an integer stands for once its last digit is read. A negative one that does not
    fit into sixty-four bits with its sign, and a negative zero, are no integers. -/
def integer (i : Input) (negative : Bool) (significand : Nat) :
    Except SettingsError (Found × Input) :=
  if !negative then .ok (.integer significand, i)
  else if significand != 0 && significand ≤ Nat.pow 2 63 then .ok (.integer (-significand), i)
  else i.real true significand 0

/-- Reads a number behind its sign. -/
def number (i : Input) (negative : Bool) : Except SettingsError (Found × Input) :=
  match i.peek? with
  | none => i.fail .endInValue
  | some c =>
    if !c.isDigit then i.failAhead .invalidNumber
    else if c = '0' && i.step.peek?.any Char.isDigit then i.step.failAhead .invalidNumber
    else
      let digits := i.rest.takeWhile Char.isDigit
      let (significand, left) := appendDigits 0 digits
      let i := i.pass digits
      if i.peek? == some '.' then i.step.fraction negative significand left
      else if i.atExponent then i.step.exponent negative significand left
      else if left = 0 then i.integer negative significand
      else i.real negative significand left

end Input

end CommaStyle
