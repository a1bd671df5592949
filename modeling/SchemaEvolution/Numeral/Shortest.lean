import SchemaEvolution.Numeral.Binary64

/-!
# Shortest decimal digits

A finite number is written with the fewest digits that still denote it: among the
decimals with one, two, … digits the first grid that has a point in the interval of reals
rounding to the number wins, and of two such points the nearer one.  How the digits are
laid out on the page is the business of a `Layout`.
-/

namespace SchemaEvolution.Numeral

/-- The decimal `digits · 10 ^ power`. -/
structure Decimal where
  digits : Nat
  power : Int
  deriving DecidableEq, Repr

/-- The ends of the interval of reals that round to a number, and the number itself, as
numerators over one denominator. -/
structure Interval where
  low : Nat
  value : Nat
  high : Nat
  den : Nat
  closed : Bool

/-- The gap below a power of two is half as wide as the gap above it. -/
def Interval.of (x : Binary64) : Interval :=
  let narrow := x.significand == Binary64.leastSignificand && x.exponent != Binary64.leastExponent
  let shift := x.exponent - 2
  let (up, den) := if 0 ≤ shift then (Nat.pow 2 shift.toNat, 1) else (1, Nat.pow 2 (-shift).toNat)
  { low := (4 * x.significand - if narrow then 1 else 2) * up
    value := 4 * x.significand * up
    high := (4 * x.significand + 2) * up
    den
    closed := x.significand % 2 == 0 }

def Interval.contains (i : Interval) (num den : Nat) : Bool :=
  let point := num * i.den
  if i.closed then i.low * den ≤ point && point ≤ i.high * den
  else i.low * den < point && point < i.high * den

/-- Numerator and denominator of a decimal. -/
def Decimal.ratio (d : Decimal) : Nat × Nat :=
  if 0 ≤ d.power then (d.digits * Nat.pow 10 d.power.toNat, 1)
  else (d.digits, Nat.pow 10 (-d.power).toNat)

/-- Whether `10 ^ power ≤ num / den`. -/
def tenPowerLe (power : Int) (num den : Nat) : Bool :=
  if 0 ≤ power then Nat.pow 10 power.toNat * den ≤ num
  else den ≤ num * Nat.pow 10 (-power).toNat

/-- The greatest power of ten that is at most the positive ratio `num / den`. -/
def leadingPower (num den : Nat) : Int :=
  let guess := (((num.log2 : Int) - (den.log2 : Int)) * 1233).fdiv 4096 - 2
  let reached := (List.range 5).takeWhile fun (step : Nat) =>
    tenPowerLe (guess + (step : Int) + 1) num den
  guess + reached.length

/-- The digits of `num / den` on the grid of multiples of `10 ^ power`, rounded down. -/
def gridFloor (num den : Nat) (power : Int) : Nat :=
  if 0 ≤ power then num / (den * Nat.pow 10 power.toNat)
  else num * Nat.pow 10 (-power).toNat / den

/-- The point of one grid that denotes the number, if there is one. -/
def onGrid (i : Interval) (power : Int) : Option Decimal :=
  let below : Decimal := ⟨gridFloor i.value i.den power, power⟩
  let above : Decimal := ⟨below.digits + 1, power⟩
  let holds (d : Decimal) : Bool := d.digits != 0 && i.contains d.ratio.1 d.ratio.2
  match holds below, holds above with
  | true, true =>
    let toBelow := i.value * below.ratio.2 - below.ratio.1 * i.den
    let toAbove := above.ratio.1 * i.den - i.value * above.ratio.2
    if toBelow < toAbove then some below
    else if toAbove < toBelow then some above
    else if below.digits % 2 == 0 then some below else some above
  | true, false => some below
  | false, true => some above
  | false, false => none

/-- The shortest decimal that denotes the magnitude of a number that is not zero.  The coarsest
grid has the next power of ten as its one candidate; seventeen digits always suffice. -/
def shortest (x : Binary64) : Decimal :=
  let i := Interval.of x
  let leading := leadingPower i.value i.den
  ((List.range 18).findSome? fun (count : Nat) => onGrid i (leading + 1 - (count : Int))).getD
    ⟨gridFloor i.value i.den (leading - 16), leading - 16⟩

/-- Which decimals are written positionally: those whose point falls after at most `most` digits
and before at most `leadingZeros` zeros. -/
structure Layout where
  most : Int
  leadingZeros : Int

/-- The text of a decimal: positional with at least one digit on either side of the point, or
one digit, the others after a point, and the exponent with its sign. -/
def Layout.text (layout : Layout) (d : Decimal) : String :=
  let digits := (Nat.repr d.digits).toList
  let point : Int := digits.length + d.power
  if 0 ≤ d.power && point ≤ layout.most then
    String.ofList (digits ++ List.replicate d.power.toNat '0' ++ ['.', '0'])
  else if 0 < point && point ≤ layout.most then
    String.ofList (digits.take point.toNat ++ ['.'] ++ digits.drop point.toNat)
  else if -layout.leadingZeros ≤ point && point ≤ 0 then
    String.ofList (['0', '.'] ++ List.replicate (-point).toNat '0' ++ digits)
  else
    let fraction := if digits.length ≤ 1 then [] else '.' :: digits.drop 1
    let mark := if 0 < point then ['e', '+'] else ['e', '-']
    String.ofList (digits.take 1 ++ fraction ++ mark) ++ Nat.repr (point - 1).natAbs

/-- Up to sixteen digits before the point and up to four zeros after it. -/
def Layout.standard : Layout := ⟨16, 4⟩

/-- The text of a finite number; both zeros keep their sign. -/
def text (x : Binary64) : String :=
  let magnitude := if x.isZero then "0.0" else Layout.standard.text (shortest x)
  if x.negative then "-" ++ magnitude else magnitude

end SchemaEvolution.Numeral
