import SchemaEvolution.Json.Reader

/-!
# Passing over a value

A member that nobody asked for is passed over without being read: its brackets may nest to
any depth, its numbers may have any size, and its escapes need not pair up.
-/

namespace SchemaEvolution.Json

/-- Passes over an exponent; the cursor stands at its mark. -/
def skipPower (c : Cursor) : Except ReadFault Cursor :=
  let c := c.advance
  let c := match c.rest with
    | '+' :: _ | '-' :: _ => c.advance
    | _ => c
  let (run, after) := c.digits
  if run.isEmpty then .error (c.failNext .invalidNumber) else .ok after

/-- Passes over a number after its sign. -/
def skipNumber (c : Cursor) : Except ReadFault Cursor :=
  let (run, after) := if c.rest.head? = some '0' then (['0'], c.advance) else c.digits
  if run.isEmpty then .error (c.failNext .invalidNumber)
  else if c.rest.head? = some '0' && after.rest.head?.any Char.isDigit then
    .error (after.failNext .invalidNumber)
  else
    match after.rest with
    | '.' :: _ =>
      let point := after.advance
      let (fraction, last) := point.digits
      if fraction.isEmpty then .error (point.failNext .invalidNumber)
      else
        match last.rest with
        | 'e' :: _ | 'E' :: _ => skipPower last
        | _ => .ok last
    | 'e' :: _ | 'E' :: _ => skipPower after
    | _ => .ok after

/-- Passes over at most `fuel` characters of a string and its closing quote. -/
def skipStringFrom : Nat → Cursor → Except ReadFault Cursor
  | 0, c => .error (c.failHere .eofInString)
  | fuel + 1, c =>
    match c.rest with
    | [] => .error (c.failHere .eofInString)
    | '"' :: _ => .ok c.advance
    | '\\' :: _ =>
      let c := c.advance
      match c.rest with
      | [] => .error (c.failHere .eofInString)
      | 'u' :: _ => do skipStringFrom fuel (← readUnit c.advance).2
      | letter :: _ =>
        if (shortEscape? letter).isSome then skipStringFrom fuel c.advance
        else .error (c.failNext .invalidEscape)
    | char :: _ =>
      if char.toNat < 32 then .error (c.failHere .controlCharacter)
      else skipStringFrom fuel c.advance

/-- Passes over a string after its opening quote. -/
def skipString (c : Cursor) : Except ReadFault Cursor := skipStringFrom (c.rest.length + 1) c

inductive Bracket where
  | list
  | object
  deriving DecidableEq

/-- What comes next while passing over a value: a value, the inside of a bracket just opened, or
what may follow a complete value. -/
inductive Expecting where
  | value
  | inside
  | next

/-- Passes over a name and its colon if the innermost bracket is a brace. -/
def skipName (bracket : Bracket) (c : Cursor) : Except ReadFault Cursor :=
  match bracket with
  | .list => .ok c
  | .object => do
    let c := c.skipGap
    match c.rest with
    | [] => .error (c.failNext .eofInObject)
    | '"' :: _ =>
      let c := (← skipString c.advance).skipGap
      match c.rest with
      | [] => .error (c.failNext .eofInObject)
      | ':' :: _ => .ok c.advance
      | _ => .error (c.failNext .expectedColon)
    | _ => .error (c.failNext .keyNotString)

def Bracket.isEnd : Bracket → Char → Bool
  | .list, c => c == ']'
  | .object, c => c == '\x7d'

def Bracket.unclosed : Bracket → Malformed
  | .list => .eofInList
  | .object => .eofInObject

def Bracket.noSeparator : Bracket → Malformed
  | .list => .expectedListCommaOrEnd
  | .object => .expectedObjectCommaOrEnd

/-- Passes over what is expected and all that encloses it, in at most `fuel` steps. -/
def skipFrom : Nat → Expecting → List Bracket → Cursor → Except ReadFault Cursor
  | 0, _, _, c => .error (c.failNext .eofInValue)
  | _ + 1, .next, [], c => .ok c
  | fuel + 1, .next, bracket :: outer, c => do
    let c := c.skipGap
    match c.rest with
    | [] => .error (c.failNext bracket.unclosed)
    | char :: _ =>
      if char = ',' then skipFrom fuel .value (bracket :: outer) (← skipName bracket c.advance)
      else if bracket.isEnd char then skipFrom fuel .next outer c.advance
      else .error (c.failNext bracket.noSeparator)
  | fuel + 1, .inside, [], c => skipFrom fuel .next [] c
  | fuel + 1, .inside, bracket :: outer, c => do
    let c := c.skipGap
    match c.rest with
    | [] => .error (c.failNext bracket.unclosed)
    | char :: _ =>
      if bracket.isEnd char then skipFrom fuel .next outer c.advance
      else skipFrom fuel .value (bracket :: outer) (← skipName bracket c)
  | fuel + 1, .value, brackets, c => do
    let c := c.skipGap
    match c.rest with
    | [] => .error (c.failNext .eofInValue)
    | 'n' :: _ => skipFrom fuel .next brackets (← readIdent ['u', 'l', 'l'] c.advance)
    | 't' :: _ => skipFrom fuel .next brackets (← readIdent ['r', 'u', 'e'] c.advance)
    | 'f' :: _ => skipFrom fuel .next brackets (← readIdent ['a', 'l', 's', 'e'] c.advance)
    | '-' :: _ => skipFrom fuel .next brackets (← skipNumber c.advance)
    | '"' :: _ => skipFrom fuel .next brackets (← skipString c.advance)
    | '[' :: _ => skipFrom fuel .inside (.list :: brackets) c.advance
    | '\x7b' :: _ => skipFrom fuel .inside (.object :: brackets) c.advance
    | first :: _ =>
      if first.isDigit then skipFrom fuel .next brackets (← skipNumber c)
      else .error (c.failNext .expectedValue)

def skipValue (c : Cursor) : Except ReadFault Cursor :=
  skipFrom (2 * c.rest.length + 2) .value [] c

end SchemaEvolution.Json
