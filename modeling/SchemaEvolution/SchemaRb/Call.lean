import SchemaEvolution.Repeated
import SchemaEvolution.SchemaRb.Lexeme

/-!
# Method calls in schema files

A call has arguments and options, whose values are literals; anything else is a value of which
nothing is known.  A call ends with its line, or before the block that is given to it.
-/

namespace SchemaEvolution.SchemaRb

inductive Value where
  | string (value : String)
  | symbol (name : String)
  | number (digits : String)
  | boolean (value : Bool)
  | nil
  | array (items : List Value)
  /-- The last string in the body of a function. -/
  | expression (text : String)
  | hash (entries : List (String × Value))
  | unknown

namespace Value

def text? : Value → Option String
  | .string value => some value
  | .symbol name => some name
  | _ => none

def texts : Value → List String
  | .array items => items.filterMap text?
  | value => value.text?.toList

/-- Everything but `false` and `nil` holds. -/
def holds : Value → Bool
  | .boolean false | .nil => false
  | _ => true

def isFalse : Value → Bool
  | .boolean false => true
  | _ => false

end Value

def wordValue : String → Value
  | "true" => .boolean true
  | "false" => .boolean false
  | "nil" => .nil
  | _ => .unknown

def lastString (lexemes : List Lexeme) : String :=
  lexemes.foldl (fun last lexeme =>
    match lexeme.token with
    | .string value => value
    | _ => last) ""

/-- The body of a function up to its closing brace or the end of the line. -/
def readBody (lexemes : List Lexeme) : String × List Lexeme :=
  if next lexemes = .leftBrace then
    let inside := lexemes.tail
    let ends (lexeme : Lexeme) : Bool := [.rightBrace, .eof, .newline].contains lexeme.token
    (lastString (inside.takeWhile (!ends ·)), skip .rightBrace (inside.dropWhile (!ends ·)))
  else ("", lexemes)

mutual

def readValue (lexemes : List Lexeme) : Value × List Lexeme :=
  match lexemes with
  | [] => (.unknown, [])
  | lexeme :: rest =>
    match lexeme.token with
    | .string value => (.string value, rest)
    | .symbol name => (.symbol name, rest)
    | .number digits => (.number digits, rest)
    | .word name => (wordValue name, rest)
    | .leftBracket =>
      let (items, after) := readItems rest
      (.array items, after)
    | .leftBrace =>
      let (entries, after) := readEntries rest
      (.hash entries, after)
    | .arrow =>
      let (text, after) := readBody rest
      (.expression text, after)
    | _ => (.unknown, rest)
termination_by (lexemes.length, 0)

/-- Reads the items of a list up to its closing bracket. -/
def readItems (lexemes : List Lexeme) : List Value × List Lexeme :=
  match lexemes with
  | [] => ([], [])
  | lexeme :: rest =>
    match lexeme.token with
    | .rightBracket => ([], rest)
    | .eof => ([], lexeme :: rest)
    | .comma | .newline => readItems rest
    | _ =>
      let (item, after) := readValue (lexeme :: rest)
      if after.length < (lexeme :: rest).length then
        let (items, after) := readItems after
        (item :: items, after)
      else ([item], after)
termination_by (lexemes.length, 1)

/-- Reads the entries of a hash up to its closing brace; values without a key are dropped. -/
def readEntries (lexemes : List Lexeme) : List (String × Value) × List Lexeme :=
  match lexemes with
  | [] => ([], [])
  | lexeme :: rest =>
    match lexeme.token with
    | .rightBrace => ([], rest)
    | .eof => ([], lexeme :: rest)
    | .comma | .newline => readEntries rest
    | .label key =>
      let (value, after) := readValue rest
      if after.length < (lexeme :: rest).length then
        let (entries, after) := readEntries after
        ((key, value) :: entries, after)
      else ([(key, value)], after)
    | _ =>
      let (_, after) := readValue (lexeme :: rest)
      if after.length < (lexeme :: rest).length then readEntries after else ([], after)
termination_by (lexemes.length, 1)

end

/-! ## Calls -/

structure Call where
  name : String
  arguments : List Value
  options : List (String × Value)
  line : Nat

namespace Call

def option? (call : Call) (key : String) : Option Value :=
  (call.options.find? fun entry => entry.1 == key).map Prod.snd

def optionText? (call : Call) (key : String) : Option String :=
  (call.option? key).bind Value.text?

def optionHolds (call : Call) (key : String) : Bool :=
  ((call.option? key).map Value.holds).getD false

def optionIsFalse (call : Call) (key : String) : Bool :=
  ((call.option? key).map Value.isFalse).getD false

def argumentText? (call : Call) (position : Nat) : Option String :=
  call.arguments[position]?.bind Value.text?

def argumentTexts (call : Call) (position : Nat) : List String :=
  (call.arguments[position]?.map Value.texts).getD []

def step (parenthesized : Bool) (call : Call) (lexemes : List Lexeme) :
    Except Empty (Turn Call × List Lexeme) :=
  let rest := lexemes.tail
  let other :=
    let (value, after) := readValue lexemes
    if next after = .rocket then
      let (target, after) := readValue after.tail
      let options := call.options ++ [(value.text?.getD "", target)]
      (Turn.again { call with options := options }, after)
    else (Turn.again { call with arguments := call.arguments ++ [value] }, after)
  match next lexemes with
  | .newline => .ok (if parenthesized then .again call else .done call,
      if parenthesized then rest else lexemes)
  | .eof => .ok (.done call, lexemes)
  | .rightParen => .ok (if parenthesized then (.done call, rest) else other)
  | .comma => .ok (.again call, rest)
  | .label key =>
    let (value, after) := readValue rest
    .ok (.again { call with options := call.options ++ [(key, value)] }, after)
  | .word "do" => .ok (.done call, lexemes)
  | _ => .ok other

def read (lexemes : List Lexeme) : Call × List Lexeme :=
  let name := match next lexemes with
    | .word name => name
    | _ => ""
  let rest := lexemes.tail
  let parenthesized := next rest = .leftParen
  match repeatedly (step parenthesized) ⟨name, [], [], lineOf lexemes⟩
    (skip .leftParen rest) with
  | .ok result => result

end Call

end SchemaEvolution.SchemaRb
