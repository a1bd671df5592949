import SchemaEvolution.Json.Cursor
import SchemaEvolution.Numeral.Reader

/-!
# Except ReadFault (JSON × Cursor)

Values are read one after the other from a cursor.  Nesting is limited; a number keeps the
leading digits that fit 64 bits and scales them by a power of ten, one rounding each; a
string pairs up its surrogate escapes.
-/

namespace SchemaEvolution.Json

open Numeral (digitValue digitsValue)

/-- Reads the remaining letters of a word whose first letter is already known. -/
def readIdent : List Char → Cursor → Except ReadFault Cursor
  | [], c => .ok c
  | letter :: more, c =>
    match c.rest with
    | [] => .error (c.failHere .eofInValue)
    | next :: _ =>
      if next = letter then readIdent more c.advance else .error (c.failNext .expectedIdent)

def greatestWord : Nat := UInt64.size - 1

/-- Takes digits into a significand of 64 bits for as long as they fit. -/
def accumulate (significand : Nat) : List Char → Nat × List Char
  | [] => (significand, [])
  | digit :: rest =>
    let next := significand * 10 + digitValue digit
    if greatestWord < next then (significand, digit :: rest) else accumulate next rest

/-- Scales by a power of ten: at most `10 ^ 308` at a time, with one rounding each. -/
def scaleBy : Nat → Binary64 → Int → Option Binary64
  | 0, x, _ => some x
  | steps + 1, x, power =>
    if power.natAbs ≤ 308 then do
      let factor ← Binary64.tenPower power.natAbs
      if 0 ≤ power then x.mul factor else x.div factor
    else if x.isZero then some x
    else if 0 ≤ power then none
    else do
      let factor ← Binary64.tenPower 308
      scaleBy steps (← x.div factor) (power + 308)

/-- The double of a significand and a decimal power, if it is finite. -/
def doubleOf (negative : Bool) (significand : Nat) (power : Int) : Option Binary64 := do
  let x ← Binary64.ofNat? significand
  let x ← scaleBy 8 x power
  return if negative then x.neg else x

def finishDouble (negative : Bool) (significand : Nat) (power : Int) (c : Cursor) :
    Except ReadFault (Number × Cursor) :=
  match doubleOf negative significand power with
  | some x => .ok (.double x, c)
  | none => .error (c.failHere .numberOutOfRange)

def greatestPower : Int := 2147483647

def leastPower : Int := -2147483648

/-- The exponent digits for as long as the exponent fits 32 bits, and those that no longer do. -/
def accumulatePower (power : Nat) : List Char → Nat × List Char
  | [] => (power, [])
  | digit :: rest =>
    let next := power * 10 + digitValue digit
    if greatestPower < next then (power, digit :: rest) else accumulatePower next rest

/-- Reads an exponent; the cursor stands at its mark. -/
def readPower (negative : Bool) (significand : Nat) (start : Int) (c : Cursor) :
    Except ReadFault (Number × Cursor) :=
  let c := c.advance
  let (down, c) := match c.rest with
    | '+' :: _ => (false, c.advance)
    | '-' :: _ => (true, c.advance)
    | _ => (false, c)
  match c.rest with
  | [] => .error (c.failHere .eofInValue)
  | first :: _ =>
    if !first.isDigit then .error (c.failNext .invalidNumber)
    else
      let (run, after) := c.digits
      match accumulatePower 0 run with
      | (power, []) =>
        let total := if down then start - power else start + power
        finishDouble negative significand (max leastPower (min greatestPower total)) after
      | (_, excess) =>
        if significand != 0 && !down then
          .error ((c.skip (run.length - excess.length + 1)).failHere .numberOutOfRange)
        else .ok (.double (.zero negative), after)

/-- Reads what follows the whole digits of a number that is not an integer. -/
def readFraction (negative : Bool) (significand : Nat) (start : Int) (c : Cursor) :
    Except ReadFault (Number × Cursor) :=
  let c := c.advance
  let (run, after) := c.digits
  let (significand, excess) := accumulate significand run
  let power := start - ((run.length - excess.length : Nat) : Int)
  if run.isEmpty then
    .error (if c.rest.isEmpty then c.failNext .eofInValue else c.failNext .invalidNumber)
  else
    match after.rest with
    | 'e' :: _ | 'E' :: _ => readPower negative significand power after
    | _ => finishDouble negative significand power after

/-- An integer of 64 bits; the negative zero and negative integers beyond that are doubles. -/
def wholeNumber (negative : Bool) (significand : Nat) : Number :=
  if !negative then .integer significand
  else if significand = 0 || 9223372036854775808 < significand then
    .double (((Binary64.ofNat? significand).getD (.zero false)).neg)
  else .integer (-significand)

def readNumber (negative : Bool) (c : Cursor) : Except ReadFault (Number × Cursor) :=
  match c.rest with
  | [] => .error (c.failHere .eofInValue)
  | first :: _ =>
    if !first.isDigit then .error (c.failNext .invalidNumber)
    else
      let (run, after) := if first = '0' then (['0'], c.advance) else c.digits
      if first = '0' && (after.rest.head?.any Char.isDigit) then
        .error (after.failNext .invalidNumber)
      else
        let (significand, excess) := accumulate 0 run
        match after.rest with
        | '.' :: _ => readFraction negative significand excess.length after
        | 'e' :: _ | 'E' :: _ => readPower negative significand excess.length after
        | _ =>
          if excess.isEmpty then .ok (wholeNumber negative significand, after)
          else finishDouble negative significand excess.length after

def hexValue? (c : Char) : Option Nat :=
  if c.isDigit then some (c.toNat - 48)
  else if 'a' ≤ c && c ≤ 'f' then some (c.toNat - 87)
  else if 'A' ≤ c && c ≤ 'F' then some (c.toNat - 55)
  else none

def readUnit (c : Cursor) : Except ReadFault (Nat × Cursor) :=
  match c.rest with
  | a :: b :: d :: e :: _ =>
    match hexValue? a, hexValue? b, hexValue? d, hexValue? e with
    | some a, some b, some d, some e => .ok (((a * 16 + b) * 16 + d) * 16 + e, c.skip 4)
    | _, _, _, _ =>
      .error (.located (.malformed .invalidEscape) (Cursor.bytesAfter 4 c.here c.rest))
  | few =>
    let left := few.foldl (fun total char => total + char.utf8Size) 0
    let cause := if left < 4 then Malformed.eofInString else .invalidEscape
    .error (.located (.malformed cause) (Cursor.bytesAfter 4 c.here c.rest))

def isHighSurrogate (unit : Nat) : Bool := 0xD800 ≤ unit && unit ≤ 0xDBFF

def isLowSurrogate (unit : Nat) : Bool := 0xDC00 ≤ unit && unit ≤ 0xDFFF

/-- Reads one expected character between the two halves of a surrogate pair. -/
def readPairMark (mark : Char) (c : Cursor) : Except ReadFault Cursor :=
  match c.rest with
  | [] => .error (c.failHere .eofInString)
  | next :: _ => if next = mark then .ok c.advance else .error (c.failNext .unfinishedSurrogate)

/-- Reads the code units of an escape and joins a surrogate pair. -/
def readUnitEscape (c : Cursor) : Except ReadFault (Char × Cursor) := do
  let (unit, after) ← readUnit c
  if isLowSurrogate unit then .error (after.failHere .loneSurrogate)
  else if isHighSurrogate unit then
    let second ← readPairMark 'u' (← readPairMark '\\' after)
    let (low, last) ← readUnit second
    if isLowSurrogate low then
      .ok (Char.ofNat (0x10000 + (unit - 0xD800) * 0x400 + (low - 0xDC00)), last)
    else .error (last.failHere .loneSurrogate)
  else .ok (Char.ofNat unit, after)

/-- The character that a one-letter escape stands for. -/
def shortEscape? : Char → Option Char
  | '"' => some '"'
  | '\\' => some '\\'
  | '/' => some '/'
  | 'b' => some '\x08'
  | 'f' => some '\x0c'
  | 'n' => some '\n'
  | 'r' => some '\r'
  | 't' => some '\t'
  | _ => none

/-- Reads the next character of a string; `none` for the closing quote. -/
def readStringChar (c : Cursor) : Except ReadFault (Option Char × Cursor) :=
  match c.rest with
  | [] => .error (c.failHere .eofInString)
  | '"' :: _ => .ok (none, c.advance)
  | '\\' :: _ =>
    let c := c.advance
    match c.rest with
    | [] => .error (c.failHere .eofInString)
    | 'u' :: _ => do
      let (char, after) ← readUnitEscape c.advance
      .ok (some char, after)
    | letter :: _ =>
      match shortEscape? letter with
      | some char => .ok (some char, c.advance)
      | none => .error (c.failNext .invalidEscape)
  | char :: _ =>
    if char.toNat < 32 then .error (c.failNext .controlCharacter) else .ok (some char, c.advance)

/-- Reads at most `fuel` characters of a string and its closing quote. -/
def readStringFrom : Nat → List Char → Cursor → Except ReadFault (String × Cursor)
  | 0, _, c => .error (c.failHere .eofInString)
  | fuel + 1, done, c => do
    let (next, after) ← readStringChar c
    match next with
    | none => .ok (String.ofList done.reverse, after)
    | some char => readStringFrom fuel (char :: done) after

/-- Reads a string after its opening quote. -/
def readString (c : Cursor) : Except ReadFault (String × Cursor) :=
  readStringFrom (c.rest.length + 1) [] c

/-- Reads the items of a list up to its closing bracket, which is left to `closeList`. -/
def readItems {σ : Type} (item : σ → Cursor → Except ReadFault (σ × Cursor)) :
    Nat → Bool → σ → Cursor → Except ReadFault (σ × Cursor)
  | 0, _, _, c => .error (c.failNext .eofInList)
  | fuel + 1, first, done, c => do
    let c := c.skipGap
    match c.rest with
    | [] => .error (c.failNext .eofInList)
    | ']' :: _ => .ok (done, c)
    | next :: _ =>
      if first then
        let (done, c) ← item done c
        readItems item fuel false done c
      else if next = ',' then
        let c := c.advance.skipGap
        match c.rest with
        | [] => .error (c.failNext .eofInValue)
        | ']' :: _ => .error (c.failNext .trailingComma)
        | _ =>
          let (done, c) ← item done c
          readItems item fuel false done c
      else .error (c.failNext .expectedListCommaOrEnd)

def readColon (c : Cursor) : Except ReadFault Cursor :=
  let c := c.skipGap
  match c.rest with
  | ':' :: _ => .ok c.advance
  | [] => .error (c.failNext .eofInObject)
  | _ => .error (c.failNext .expectedColon)

/-- Reads the members of an object up to its closing brace, which is left to `closeObject`.
`member` is given a name and the cursor before the colon. -/
def readMembers {σ : Type} (member : σ → String → Cursor → Except ReadFault (σ × Cursor)) :
    Nat → Bool → σ → Cursor → Except ReadFault (σ × Cursor)
  | 0, _, _, c => .error (c.failNext .eofInObject)
  | fuel + 1, first, done, c => do
    let c := c.skipGap
    match c.rest with
    | [] => .error (c.failNext .eofInObject)
    | '\x7d' :: _ => .ok (done, c)
    | next :: _ =>
      if first then
        if next = '"' then
          let (name, c) ← readString c.advance
          let (done, c) ← member done name c
          readMembers member fuel false done c
        else .error (c.failNext .keyNotString)
      else if next = ',' then
        let c := c.advance.skipGap
        match c.rest with
        | [] => .error (c.failNext .eofInValue)
        | '"' :: _ =>
          let (name, c) ← readString c.advance
          let (done, c) ← member done name c
          readMembers member fuel false done c
        | '\x7d' :: _ => .error (c.failNext .trailingComma)
        | _ => .error (c.failNext .keyNotString)
      else .error (c.failNext .expectedObjectCommaOrEnd)

/-- Reads the end of a list: what is wrong with it, if anything, and the cursor after it. -/
def closeList (c : Cursor) : Option ReadFault × Cursor :=
  let c := c.skipGap
  match c.rest with
  | [] => (some (c.failNext .eofInList), c)
  | ']' :: _ => (none, c.advance)
  | ',' :: _ =>
    let c := c.advance.skipGap
    match c.rest with
    | ']' :: _ => (some (c.failNext .trailingComma), c)
    | _ => (some (c.failNext .trailingCharacters), c)
  | _ => (some (c.failNext .trailingCharacters), c)

/-- Reads the end of an object: what is wrong with it, if anything, and the cursor after it. -/
def closeObject (c : Cursor) : Option ReadFault × Cursor :=
  let c := c.skipGap
  match c.rest with
  | [] => (some (c.failNext .eofInObject), c)
  | '\x7d' :: _ => (none, c.advance)
  | ',' :: _ => (some (c.failNext .trailingComma), c)
  | _ => (some (c.failNext .trailingCharacters), c)

/-- Completes what was read between brackets.  A fault without a place gets the place after the
closing bracket, as far as that can be read. -/
def enclosed {α : Type} (close : Cursor → Option ReadFault × Cursor) :
    Except ReadFault (α × Cursor) → Except ReadFault (α × Cursor)
  | .ok (value, c) =>
    match close c with
    | (none, after) => .ok (value, after)
    | (some fault, _) => .error fault
  | .error (.pending fault c) => .error (.located fault (close c).2.here)
  | .error fault => .error fault

/-! ## Values -/

/-- How many levels of brackets a text may open, and one more. -/
def depthLimit : Nat := 128

/-- Reads any value within `depth` levels of brackets. -/
def readAny : Nat → Cursor → Except ReadFault (Json × Cursor)
  | 0, c => .error (c.failNext .tooDeep)
  | depth + 1, c =>
    let c := c.skipGap
    match c.rest with
    | [] => .error (c.failNext .eofInValue)
    | 'n' :: _ => do return (.null, ← readIdent ['u', 'l', 'l'] c.advance)
    | 't' :: _ => do return (.bool true, ← readIdent ['r', 'u', 'e'] c.advance)
    | 'f' :: _ => do return (.bool false, ← readIdent ['a', 'l', 's', 'e'] c.advance)
    | '-' :: _ => do
      let (value, after) ← readNumber true c.advance
      return (.number value, after)
    | '"' :: _ => do
      let (value, after) ← readString c.advance
      return (.string value, after)
    | '[' :: _ =>
      if depth = 0 then .error (c.failNext .tooDeep)
      else do
        let (items, after) ← enclosed closeList <|
          readItems (fun done c => do
            let (value, c) ← readAny depth c
            return (value :: done, c)) (c.rest.length + 1) true [] c.advance
        return (.array items.reverse, after)
    | '\x7b' :: _ =>
      if depth = 0 then .error (c.failNext .tooDeep)
      else do
        let (members, after) ← enclosed closeObject <|
          readMembers (fun done name c => do
            let (value, c) ← readAny depth (← readColon c)
            return ((name, value) :: done, c)) (c.rest.length + 1) true [] c.advance
        return (.object members.reverse, after)
    | first :: _ =>
      if first.isDigit then do
        let (value, after) ← readNumber false c
        return (.number value, after)
      else .error (c.failNext .expectedValue)

/-- Runs a reader over a whole text, which it must use up except for white space. -/
def readText {α : Type} (reader : Cursor → Except ReadFault (α × Cursor)) (text : String) :
    Except ReadFault α := do
  let (value, c) ← reader (Cursor.start text)
  let c := c.skipGap
  if c.rest.isEmpty then .ok value else .error (c.failNext .trailingCharacters)

/-- Reads a whole text as one value with distinct names. -/
def parse (text : String) : Except ReadFault Json :=
  (readText (readAny depthLimit) text).map distinct

end SchemaEvolution.Json
