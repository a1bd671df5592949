import SchemaEvolution.Text.Blank
import SchemaEvolution.Text.Letter

/-!
# Lexemes of Drizzle schemas

A Drizzle schema is a module of declarations.  White space and comments only separate tokens.
-/

namespace SchemaEvolution.Drizzle

inductive Token where
  | word (name : String)
  | string (value : String)
  /-- A text between back quotes; the expressions in it are kept as they are written. -/
  | template (text : String)
  | number (digits : String)
  | leftParen
  | rightParen
  | leftBrace
  | rightBrace
  | leftBracket
  | rightBracket
  | comma
  | colon
  | semicolon
  | dot
  | spread
  | arrow
  | equals
  | less
  | greater
  | question
  | bang
  | operator (spelling : String)
  | eof
  deriving DecidableEq, Repr

/-- A token, its line, and whether a declaration may start with it: not after a dot or `as`. -/
structure Lexeme where
  token : Token
  line : Nat
  mayDeclare : Bool
  deriving DecidableEq, Repr

namespace Lexeme

/-- Where in a gap a character stands. -/
inductive GapPlace where
  | between
  | lineComment
  | blockComment

/-- The white space and comments at the front of a text. -/
def gapOf : GapPlace → List Char → List Char
  | _, [] => []
  | .between, '/' :: '/' :: rest => '/' :: '/' :: gapOf .lineComment rest
  | .between, '/' :: '*' :: rest => '/' :: '*' :: gapOf .blockComment rest
  | .between, c :: rest => if Text.isBlank c then c :: gapOf .between rest else []
  | .lineComment, '\n' :: rest => '\n' :: gapOf .between rest
  | .lineComment, c :: rest => c :: gapOf .lineComment rest
  | .blockComment, '*' :: '/' :: rest => '*' :: '/' :: gapOf .between rest
  | .blockComment, c :: rest => c :: gapOf .blockComment rest

/-! ## Token texts -/

/-- The character that a backslash and a character stand for. -/
def unescaped : Char → Char
  | 'n' => '\n'
  | 't' => '\t'
  | c => c

/-- The value up to a quote, and the length up to and with that quote. -/
def untilQuote (quote : Char) : List Char → List Char × Nat
  | [] => ([], 0)
  | [c] => if c = quote || c = '\\' then ([], 1) else ([c], 1)
  | c :: d :: rest =>
    if c = quote then ([], 1)
    else if c = '\\' then
      let (value, length) := untilQuote quote rest
      (unescaped d :: value, length + 2)
    else
      let (value, length) := untilQuote quote (d :: rest)
      (c :: value, length + 1)

/-- As `untilQuote` for a template.  Within the braces of an expression, at a depth above zero, a
back quote is a character as any other. -/
def untilBackQuote (depth : Nat) : List Char → List Char × Nat
  | [] => ([], 0)
  | [c] => if (c = '\x60' && depth == 0) || c = '\\' then ([], 1) else ([c], 1)
  | c :: d :: rest =>
    if c = '\x60' && depth == 0 then ([], 1)
    else if c = '$' && d = '\x7b' then
      let (value, length) := untilBackQuote (depth + 1) rest
      (c :: d :: value, length + 2)
    else if c = '\\' then
      let (value, length) := untilBackQuote depth rest
      (d :: value, length + 2)
    else
      let (value, length) := untilBackQuote (if c = '\x7d' then depth - 1 else depth) (d :: rest)
      (c :: value, length + 1)

def isNameStart (c : Char) : Bool := Text.isAlphabetic c || c == '_' || c == '$'

def isNameChar (c : Char) : Bool := Text.isAlphanumeric c || c == '_' || c == '$'

/-- The characters that go on with a number; underscores among them do not count. -/
def isNumberChar (c : Char) : Bool := c.isDigit || c == '.' || c == '_'

def symbolOf? : Char → Option Token
  | '(' => some .leftParen
  | ')' => some .rightParen
  | '\x7b' => some .leftBrace
  | '\x7d' => some .rightBrace
  | '[' => some .leftBracket
  | ']' => some .rightBracket
  | ',' => some .comma
  | ':' => some .colon
  | ';' => some .semicolon
  | '<' => some .less
  | '>' => some .greater
  | '?' => some .question
  | _ => none

/-- A sign with equals signs after it, or the token for the sign alone. -/
def scanEquals (c : Char) (alone : Token) (rest : List Char) : Token × Nat :=
  match rest.takeWhile (· == '=') with
  | [] => (alone, 0)
  | more => (.operator (String.ofList (c :: more)), more.length)

/-- The token that starts with `c`, which is not white space and starts no comment, and the number
of its characters after `c`. -/
def scan (c : Char) (rest : List Char) : Token × Nat :=
  match symbolOf? c with
  | some token => (token, 0)
  | none =>
    if c = '.' then if ['.', '.'].isPrefixOf rest then (.spread, 2) else (.dot, 0)
    else if c = '=' then
      if rest.head? == some '>' then (.arrow, 1) else scanEquals c .equals rest
    else if c = '!' then scanEquals c .bang rest
    else if c = '"' || c = '\'' then
      let (value, length) := untilQuote c rest
      (.string (String.ofList value), length)
    else if c = '\x60' then
      let (text, length) := untilBackQuote 0 rest
      (.template (String.ofList text), length)
    else if c.isDigit then
      let more := rest.takeWhile isNumberChar
      (.number (String.ofList (c :: more.filter (· != '_'))), more.length)
    else if isNameStart c then
      let more := rest.takeWhile isNameChar
      (.word (String.ofList (c :: more)), more.length)
    else (.operator (String.singleton c), 0)

/-- Whether a declaration may start after a token. -/
def allowsDeclaration (token : Token) : Bool := !(token == .dot || token == .word "as")

/-- The lexemes of a text that starts on a given line; the last one is the end. -/
def lexemes (line : Nat) (mayDeclare : Bool) (cs : List Char) : List Lexeme :=
  let gap := gapOf .between cs
  let line := line + gap.count '\n'
  match _h : cs.drop gap.length with
  | [] => [⟨.eof, line, mayDeclare⟩]
  | c :: rest =>
    let (token, length) := scan c rest
    let newlines := (c :: rest.take length).count '\n'
    ⟨token, line, mayDeclare⟩ ::
      lexemes (line + newlines) (allowsDeclaration token) (rest.drop length)
termination_by cs.length
decreasing_by
  have hlength := congrArg List.length _h
  simp only [List.length_drop, List.length_cons] at hlength ⊢
  omega

def ofText (text : String) : List Lexeme := lexemes 1 true text.toList

theorem ofText_ofList (chars : List Char) : ofText (String.ofList chars) = lexemes 1 true chars :=
  congrArg (lexemes 1 true) String.toList_ofList

end Lexeme

/-- The next token; the end when nothing is left. -/
def next : List Lexeme → Token
  | [] => .eof
  | lexeme :: _ => lexeme.token

def skip (token : Token) (lexemes : List Lexeme) : List Lexeme :=
  if next lexemes = token then lexemes.tail else lexemes

end SchemaEvolution.Drizzle
