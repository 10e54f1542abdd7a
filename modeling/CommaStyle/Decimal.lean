namespace CommaStyle

/-!
# Decimals

`Decimal.shortest` finds the decimal that stands for a double, and `Decimal.toText` writes it.
-/

/-!
## The fewest digits that read back

A positive double is a product of a whole number and a power of two, and all reals in an interval
around it are rounded to it. `Decimal.shortest` is the decimal with the fewest digits in this
interval; of two decimals with as few digits the nearer one is taken, and of two equally near ones
the even one. The search is in whole numbers throughout.
-/

/-- The number of a sign, a digit string as a whole number, and a power of ten. -/
structure Decimal where
  negative : Bool
  digits : Nat
  exponent : Int
deriving DecidableEq, Repr

/-- A positive fraction of whole numbers. -/
structure Ratio where
  num : Nat
  den : Nat
deriving DecidableEq, Repr

namespace Ratio

/-- The product of a whole number and a power of two. -/
def ofBinary (m : Nat) (q : Int) : Ratio :=
  if 0 ≤ q then ⟨m * Nat.pow 2 q.toNat, 1⟩ else ⟨m, Nat.pow 2 (-q).toNat⟩

/-- The product of a whole number and a power of ten. -/
def ofDecimal (n : Nat) (e : Int) : Ratio :=
  if 0 ≤ e then ⟨n * Nat.pow 10 e.toNat, 1⟩ else ⟨n, Nat.pow 10 (-e).toNat⟩

/-- Whether a fraction is less than another. -/
def lt (a b : Ratio) : Bool := a.num * b.den < b.num * a.den

/-- Whether a fraction is at most another. -/
def le (a b : Ratio) : Bool := a.num * b.den ≤ b.num * a.den

/-- The difference of a fraction and one that is not greater. -/
def sub (a b : Ratio) : Ratio := ⟨a.num * b.den - b.num * a.den, a.den * b.den⟩

/-- The whole part of a fraction divided by a power of ten. -/
def floorScaled (a : Ratio) (e : Int) : Nat :=
  if 0 ≤ e then a.num / (a.den * Nat.pow 10 e.toNat) else a.num * Nat.pow 10 (-e).toNat / a.den

end Ratio

namespace Decimal

/-- The least number of places, up to a bound, by which the point moves to the right until the
    fraction is at least one. -/
def leadingPlaces (r : Ratio) : (bound places : Nat) → Nat
  | 0, places => places
  | bound + 1, places =>
    if r.den ≤ r.num * Nat.pow 10 places then places else leadingPlaces r bound (places + 1)

/-- The exponent of the power of ten just above a fraction. -/
def magnitude (r : Ratio) : Int :=
  if r.den ≤ r.num then ((Nat.toDigits 10 (r.num / r.den)).length : Int)
  else 1 - (leadingPlaces r 400 1 : Int)

/-- The interval of the reals that are rounded to a double, and whether its ends belong to it. -/
structure Neighbourhood where
  value : Ratio
  low : Ratio
  high : Ratio
  closed : Bool

/-- Whether a fraction lies in an interval. -/
def Neighbourhood.holds (n : Neighbourhood) (r : Ratio) : Bool :=
  if n.closed then n.low.le r && r.le n.high else n.low.lt r && r.lt n.high

/-- The nearest multiple of a power of ten in an interval. -/
def onGrid? (n : Neighbourhood) (e : Int) : Option Nat :=
  let below := n.value.floorScaled e
  let lower := Ratio.ofDecimal below e
  let upper := Ratio.ofDecimal (below + 1) e
  match n.holds lower, n.holds upper with
  | false, false => none
  | true, false => some below
  | false, true => some (below + 1)
  | true, true =>
    let down := n.value.sub lower
    let up := upper.sub n.value
    if down.lt up then some below
    else if up.lt down then some (below + 1)
    else if below % 2 = 0 then some below
    else some (below + 1)

/-- The first grid with a point in the interval, from `count` digits on, for at most `bound`
    counts. -/
def search (n : Neighbourhood) (top : Int) : (bound count : Nat) → Nat × Int
  | 0, count => (n.value.floorScaled (top - count), top - count)
  | bound + 1, count =>
    match onGrid? n (top - count) with
    | some digits => (digits, top - count)
    | none => search n top bound (count + 1)

/-- Moves the zeros at the end of a digit string into the exponent. -/
def trim : (bound digits : Nat) → (exponent : Int) → Nat × Int
  | 0, digits, exponent => (digits, exponent)
  | bound + 1, digits, exponent =>
    if digits % 10 = 0 && digits != 0 then trim bound (digits / 10) (exponent + 1)
    else (digits, exponent)

/-- The interval around the double `m · 2 ^ q`. Below a power of two the doubles lie twice as
    close, unless they are as close as doubles get. -/
def neighbourhood (m : Nat) (q : Int) : Neighbourhood :=
  let below := if m = Nat.pow 2 52 && q ≠ -1074 then 1 else 2
  { value := .ofBinary (4 * m) (q - 2)
    low := .ofBinary (4 * m - below) (q - 2)
    high := .ofBinary (4 * m + 2) (q - 2)
    closed := m % 2 = 0 }

/-- The shortest decimal of the double `m · 2 ^ q`: digits and exponent. -/
def shortest (m : Nat) (q : Int) : Nat × Int :=
  let n := neighbourhood m q
  let (digits, exponent) := search n (magnitude n.value) 17 1
  trim 20 digits exponent

/-- The shortest decimal that reads back as a finite double. -/
def ofFloat (x : Float) : Decimal :=
  let bits : Nat := x.toBits.toNat
  let negative : Bool := Nat.pow 2 63 ≤ bits
  let biased : Nat := bits / Nat.pow 2 52 % Nat.pow 2 11
  let fraction : Nat := bits % Nat.pow 2 52
  let (m, q) : Nat × Int :=
    if biased = 0 then (fraction, -1074) else (Nat.pow 2 52 + fraction, (biased : Int) - 1075)
  if m = 0 then ⟨negative, 0, 0⟩
  else
    let (digits, exponent) := shortest m q
    ⟨negative, digits, exponent⟩

end Decimal

/-!
## Decimals as text

A decimal is written with a point where that takes few zeros, and with an exponent otherwise.
-/

namespace Decimal

/-- The exponents of the leading digit, plus one, for which a decimal is written without an
    exponent: more than the first and at most the second. -/
def positionalRange : Int × Int := (-5, 16)

/-- The text of an exponent: always with a sign, and with as few digits as it has. -/
def exponentText (e : Int) : List Char :=
  ['e', if e < 0 then '-' else '+'] ++ Nat.toDigits 10 e.natAbs

/-- The text of a decimal. Without an exponent it always has a digit on both sides of the point. -/
def toText (d : Decimal) : String :=
  let sign := if d.negative then "-" else ""
  let digits := Nat.toDigits 10 d.digits
  let top : Int := digits.length + d.exponent
  let zeros (n : Int) : List Char := List.replicate n.toNat '0'
  let body : List Char :=
    if d.digits = 0 then ['0', '.', '0']
    else if positionalRange.1 < top ∧ top ≤ positionalRange.2 then
      if 0 ≤ d.exponent then digits ++ zeros d.exponent ++ ['.', '0']
      else if 0 < top then digits.take top.toNat ++ ['.'] ++ digits.drop top.toNat
      else ['0', '.'] ++ zeros (-top) ++ digits
    else
      let point := if digits.length = 1 then [] else ['.']
      digits.take 1 ++ point ++ digits.drop 1 ++ exponentText (top - 1)
  sign ++ String.ofList body

end Decimal

end CommaStyle
