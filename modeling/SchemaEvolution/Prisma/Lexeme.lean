import SchemaEvolution.Text.Blank
import SchemaEvolution.Text.Letter

/-!
# Lexemes of Prisma schemas

Lines count, and so do documentation comments; other comments, blanks and characters that start
no token are skipped.
-/

namespace SchemaEvolution.Prisma

inductive Token where
  | word (name : String)
  | string (value : String)
  | number (digits : String)
  /-- A comment after three slashes, without white space around it. -/
  | doc (text : String)
  | at
  | atAt
  | leftBrace
  | rightBrace
  | leftParen
  | rightParen
  | leftBracket
  | rightBracket
  | comma
  | colon
  | equals
  | question
  | dot
  | newline
  | eof
  deriving DecidableEq, Repr

/-- A token, its line, and whether the end of a line stands before it. -/
structure Lexeme where
  token : Token
  line : Nat
  startsLine : Bool
  deriving DecidableEq, Repr

namespace Lexeme

def symbolOf? : Char → Option Token
  | '\x7b' => some .leftBrace
  | '\x7d' => some .rightBrace
  | '(' => some .leftParen
  | ')' => some .rightParen
  | '[' => some .leftBracket
  | ']' => some .rightBracket
  | ',' => some .comma
  | ':' => some .colon
  | '=' => some .equals
  | '?' => some .question
  | '.' => some .dot
  | '\n' => some .newline
  | _ => none

def startsWithDigit (cs : List Char) : Bool := (cs.head?.map Char.isDigit).getD false

def isNameStart (c : Char) : Bool := Text.isAlphabetic c || c == '_'

def isNameChar (c : Char) : Bool := Text.isAlphanumeric c || c == '_'

def isNumberChar (c : Char) : Bool := c.isDigit || c == '.'

def startsToken (c : Char) (rest : List Char) : Bool :=
  (symbolOf? c).isSome || c == '@' || c == '"' || c.isDigit || isNameStart c ||
    (c == '-' && startsWithDigit rest) || (c == '/' && ['/', '/'].isPrefixOf rest)

/-- What is skipped before a token or the end of the line.  `inComment` tells that a comment has
begun. -/
def gapOf (inComment : Bool) : List Char → List Char
  | [] => []
  | c :: rest =>
    if c = '\n' then []
    else if inComment then c :: gapOf true rest
    else if startsToken c rest then []
    else c :: gapOf (c == '/' && rest.head? == some '/') rest

/-- The character that a backslash and a character stand for. -/
def unescaped : Char → Char
  | 'n' => '\n'
  | 't' => '\t'
  | c => c

/-- The value up to a quote or the end of the line, and the length up to and with that quote. -/
def untilQuote : List Char → List Char × Nat
  | [] => ([], 0)
  | [c] => if c = '"' || c = '\\' then ([], 1) else if c = '\n' then ([], 0) else ([c], 1)
  | c :: d :: rest =>
    if c = '"' then ([], 1)
    else if c = '\n' then ([], 0)
    else if c = '\\' then
      let (value, length) := untilQuote rest
      (unescaped d :: value, length + 2)
    else
      let (value, length) := untilQuote (d :: rest)
      (c :: value, length + 1)

/-- The token that starts with `c`, and the number of its characters after `c`. -/
def scan (c : Char) (rest : List Char) : Token × Nat :=
  match symbolOf? c with
  | some token => (token, 0)
  | none =>
    if c = '/' then
      let text := (rest.drop 2).takeWhile (· != '\n')
      (.doc (String.ofList (Text.trim text)), text.length + 2)
    else if c = '@' then if rest.head? == some '@' then (.atAt, 1) else (.at, 0)
    else if c = '"' then
      let (value, length) := untilQuote rest
      (.string (String.ofList value), length)
    else if c = '-' || c.isDigit then
      let more := rest.takeWhile isNumberChar
      (.number (String.ofList (c :: more)), more.length)
    else
      let more := rest.takeWhile isNameChar
      (.word (String.ofList (c :: more)), more.length)

/-- The lexemes of a text that starts on a given line; the last one is the end. -/
def lexemes (line : Nat) (startsLine : Bool) (cs : List Char) : List Lexeme :=
  match _h : cs.drop (gapOf false cs).length with
  | [] => [⟨.eof, line, startsLine⟩]
  | c :: rest =>
    let (token, length) := scan c rest
    let newlines := (c :: rest.take length).count '\n'
    ⟨token, line, startsLine⟩ ::
      lexemes (line + newlines) (token == .newline) (rest.drop length)
termination_by cs.length
decreasing_by
  have hlength := congrArg List.length _h
  simp only [List.length_drop, List.length_cons] at hlength ⊢
  omega

def ofText (text : String) : List Lexeme := lexemes 1 false text.toList


end Lexeme

/-- The next token; the end when nothing is left. -/
def next : List Lexeme → Token
  | [] => .eof
  | lexeme :: _ => lexeme.token

/-- The line of the next token; zero when nothing is left. -/
def lineOf (lexemes : List Lexeme) : Nat := (lexemes.head?.map Lexeme.line).getD 0

/-- What is left after a token, if that is the next one. -/
def eat? (token : Token) : List Lexeme → Option (List Lexeme)
  | [] => none
  | lexeme :: rest => if lexeme.token = token then some rest else none

/-- The next token if it is a word, and what follows it. -/
def word? : List Lexeme → Option (String × List Lexeme)
  | ⟨.word name, _, _⟩ :: rest => some (name, rest)
  | _ => none

def skipLine (lexemes : List Lexeme) : List Lexeme :=
  lexemes.dropWhile fun lexeme => !(lexeme.token == .newline || lexeme.token == .eof)

/-- The lines of the documentation comments that come next; the ends of lines do not count. -/
def docLines : List Lexeme → List String × List Lexeme
  | [] => ([], [])
  | lexeme :: rest =>
    match lexeme.token with
    | .doc text =>
      let (lines, after) := docLines rest
      (text :: lines, after)
    | .newline => docLines rest
    | _ => ([], lexeme :: rest)

def documentation (lexemes : List Lexeme) : Option String × List Lexeme :=
  let (lines, rest) := docLines lexemes
  (if lines.isEmpty then none else some ("\n".intercalate lines), rest)

end SchemaEvolution.Prisma
