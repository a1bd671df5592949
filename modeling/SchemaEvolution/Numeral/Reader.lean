import SchemaEvolution.Numeral.Binary64

/-!
# Reading decimal numerals

The two numeral readers of plain text: signed integers of 64 bits, and decimals with an
optional point and exponent, rounded to the nearest representable number.
-/

namespace SchemaEvolution.Numeral

def digitValue (c : Char) : Nat := c.toNat - '0'.toNat

/-- The number that a run of decimal digits denotes. -/
def digitsValue (digits : List Char) : Nat :=
  digits.foldl (fun total c => total * 10 + digitValue c) 0

/-- Splits off a leading sign. -/
def splitSign : List Char → Bool × List Char
  | '-' :: rest => (true, rest)
  | '+' :: rest => (false, rest)
  | cs => (false, cs)

def leastInt64 : Int := Int64.minValue.toInt

def greatestInt64 : Int := Int64.maxValue.toInt

/-- Reads an optional sign and one or more digits within 64 bits. -/
def readInt64? (text : String) : Option Int :=
  let (negative, digits) := splitSign text.toList
  if digits.isEmpty || !digits.all Char.isDigit then none
  else
    let value : Int := if negative then -(digitsValue digits : Int) else digitsValue digits
    if leastInt64 ≤ value && value ≤ greatestInt64 then some value else none

/-- Reads an unsigned number below a bound; a leading plus sign is allowed. -/
def readUnsigned? (bound : Nat) (text : String) : Option Nat :=
  let digits := match text.toList with
    | '+' :: rest => rest
    | cs => cs
  if digits.isEmpty || !digits.all Char.isDigit then none
  else
    let value := digitsValue digits
    if value < bound then some value else none

/-- The exponent after the mantissa: nothing, or a mark, an optional sign and digits. -/
def readExponent? : List Char → Option Int
  | [] => some 0
  | c :: rest =>
    if c = 'e' || c = 'E' then
      let (negative, digits) := splitSign rest
      if digits.isEmpty || !digits.all Char.isDigit then none
      else some (if negative then -(digitsValue digits : Int) else digitsValue digits)
    else none

/-- Reads a decimal numeral with an optional sign, point and exponent.  Either side of the point
may be empty, not both.  `none` for any other text and for a number beyond the finite range. -/
def readBinary64? (text : String) : Option Binary64 :=
  let (negative, rest) := splitSign text.toList
  let whole := rest.takeWhile Char.isDigit
  let afterWhole := rest.dropWhile Char.isDigit
  let (fraction, afterFraction) := match afterWhole with
    | '.' :: more => (more.takeWhile Char.isDigit, more.dropWhile Char.isDigit)
    | more => ([], more)
  if whole.isEmpty && fraction.isEmpty then none
  else do
    let exponent ← readExponent? afterFraction
    Binary64.ofDecimal negative (digitsValue (whole ++ fraction)) (exponent - fraction.length)

end SchemaEvolution.Numeral
