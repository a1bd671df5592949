import SchemaEvolution.Text.Blank
import SchemaEvolution.Text.Letter

/-!
# Lexemes of schema files

A schema file is a list of method calls, one a line.  Its tokens keep their line, and whether
they are the first of it.
-/

namespace SchemaEvolution.SchemaRb

inductive Token where
  | word (name : String)
  /-- A name with a colon after it: the key of an option. -/
  | label (name : String)
  /-- A name with a colon before it. -/
  | symbol (name : String)
  | string (value : String)
  | number (digits : String)
  /-- The sign `=>`. -/
  | rocket
  /-- The sign `->`. -/
  | arrow
  | leftParen
  | rightParen
  | leftBracket
  | rightBracket
  | leftBrace
  | rightBrace
  | comma
  | dot
  | pipe
  | newline
  | operator (spelling : String)
  | eof
  deriving DecidableEq, Repr

structure Lexeme where
  token : Token
  line : Nat
  startsLine : Bool
  deriving DecidableEq, Repr

namespace Lexeme

/-- The blanks and comments at the front of a text, up to the end of the line.  `inComment` tells
that a comment has begun. -/
def gapOf (inComment : Bool) : List Char → List Char
  | [] => []
  | c :: rest =>
    if c = '\n' then []
    else if inComment || c = '#' then c :: gapOf true rest
    else if Text.isBlank c then c :: gapOf false rest
    else []

def isNameChar (c : Char) : Bool := Text.isAlphanumeric c || c == '_'

/-- A name: word characters, and a question or exclamation mark that no equals sign follows. -/
def nameOf (cs : List Char) : List Char :=
  let name := cs.takeWhile isNameChar
  match cs.drop name.length with
  | mark :: rest =>
    if (mark == '?' || mark == '!') && rest.head? != some '=' then name ++ [mark] else name
  | [] => name

/-- What a backslash and a character stand for between quotes. -/
def unescaped (quote c : Char) : List Char :=
  if quote = '"' then
    if c = 'n' then ['\n'] else if c = 't' then ['\t'] else [c]
  else if c = '\'' || c = '\\' then [c]
  else ['\\', c]

/-- The value up to a quote, and the length up to and with that quote. -/
def untilQuote (quote : Char) : List Char → List Char × Nat
  | [] => ([], 0)
  | [c] => if c = quote || c = '\\' then ([], 1) else ([c], 1)
  | c :: d :: rest =>
    if c = quote then ([], 1)
    else if c = '\\' then
      let (value, length) := untilQuote quote rest
      (unescaped quote d ++ value, length + 2)
    else
      let (value, length) := untilQuote quote (d :: rest)
      (c :: value, length + 1)

/-- The characters that go on with a number; underscores among them do not count. -/
def isNumberChar (c : Char) : Bool := c.isDigit || c == '.' || c == '_'

def scanNumber (c : Char) (rest : List Char) : Token × Nat :=
  let more := rest.takeWhile isNumberChar
  (.number (String.ofList (c :: more.filter (· != '_'))), more.length)

def scanString (quote : Char) (rest : List Char) : String × Nat :=
  let (value, length) := untilQuote quote rest
  (String.ofList value, length)

def scanColon (rest : List Char) : Token × Nat :=
  match rest with
  | ':' :: _ => (.operator "::", 1)
  | '"' :: inside =>
    let (value, length) := scanString '"' inside
    (.symbol value, length + 1)
  | _ =>
    if (rest.head?.map isNameChar).getD false then
      let name := nameOf rest
      (.symbol (String.ofList name), name.length)
    else (.operator ":", 0)

/-- A word, or a label where a single colon follows. -/
def scanWord (c : Char) (rest : List Char) : Token × Nat :=
  let name := nameOf (c :: rest)
  let spelling := String.ofList name
  match (c :: rest).drop name.length with
  | ':' :: ':' :: _ => (.word spelling, name.length - 1)
  | ':' :: _ => (.label spelling, name.length)
  | _ => (.word spelling, name.length - 1)

def symbolOf? : Char → Option Token
  | '\n' => some .newline
  | '(' => some .leftParen
  | ')' => some .rightParen
  | '[' => some .leftBracket
  | ']' => some .rightBracket
  | '\x7b' => some .leftBrace
  | '\x7d' => some .rightBrace
  | ',' => some .comma
  | '.' => some .dot
  | '|' => some .pipe
  | _ => none

/-- The token that starts with `c`, and the number of its characters after `c`. -/
def scan (c : Char) (rest : List Char) : Token × Nat :=
  match symbolOf? c with
  | some token => (token, 0)
  | none =>
    if c = '"' || c = '\'' then
      let (value, length) := scanString c rest
      (.string value, length)
    else if c = ':' then scanColon rest
    else if c = '=' && rest.head? == some '>' then (.rocket, 1)
    else if c = '-' && rest.head? == some '>' then (.arrow, 1)
    else if c = '-' && (rest.head?.map Char.isDigit).getD false then scanNumber c rest
    else if c.isDigit then scanNumber c rest
    else if Text.isAlphabetic c || c = '_' then scanWord c rest
    else (.operator (String.singleton c), 0)

/-- The lexemes of a text that starts on a given line; the last one is the end. -/
def lexemes (line : Nat) (startsLine : Bool) (cs : List Char) : List Lexeme :=
  match _h : cs.drop (gapOf false cs).length with
  | [] => [⟨.eof, line, startsLine⟩]
  | c :: rest =>
    let (token, length) := scan c rest
    let newlines := (c :: rest.take length).count '\n'
    ⟨token, line, startsLine⟩ ::
      lexemes (line + newlines) (token == .newline) (rest.drop length)
termination_by cs.length
decreasing_by
  have hlength := congrArg List.length _h
  simp only [List.length_drop, List.length_cons] at hlength ⊢
  omega

def ofText (text : String) : List Lexeme := lexemes 1 true text.toList

end Lexeme

/-- The next token; the end when nothing is left. -/
def next : List Lexeme → Token
  | [] => .eof
  | lexeme :: _ => lexeme.token

/-- The line of the next token; zero when nothing is left. -/
def lineOf (lexemes : List Lexeme) : Nat := (lexemes.head?.map Lexeme.line).getD 0

def skip (token : Token) (lexemes : List Lexeme) : List Lexeme :=
  if next lexemes = token then lexemes.tail else lexemes

end SchemaEvolution.SchemaRb
