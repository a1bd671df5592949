import SchemaEvolution.Sql.Token
import SchemaEvolution.Text.Blank
import SchemaEvolution.Text.Letter
import SchemaEvolution.Text.Search

/-!
# SQL lexemes

A script is cut into lexemes: a gap of white space and comments, the text of a token, and the
token itself.  Nothing is lost: gaps and texts in their order are the script.  The last lexeme
is the end of the script; no other lexeme has an empty text.
-/

namespace SchemaEvolution.Sql

/-- A token with its text, the gap before it, and the line on which the text starts. -/
structure Lexeme where
  gap : List Char
  text : List Char
  token : Token
  line : Nat
  deriving DecidableEq, Repr

namespace Lexeme

/-- Where in a gap a character stands. -/
inductive GapPlace where
  | between
  | lineComment
  | blockComment

/-- The white space and comments at the front of a text.  A comment that is not closed takes the
rest of the text. -/
def gapOf : GapPlace → List Char → List Char
  | _, [] => []
  | .between, '-' :: '-' :: rest => '-' :: '-' :: gapOf .lineComment rest
  | .between, '/' :: '*' :: rest => '/' :: '*' :: gapOf .blockComment rest
  | .between, c :: rest => if Text.isBlank c then c :: gapOf .between rest else []
  | .lineComment, '\n' :: rest => '\n' :: gapOf .between rest
  | .lineComment, c :: rest => c :: gapOf .lineComment rest
  | .blockComment, '*' :: '/' :: rest => '*' :: '/' :: gapOf .between rest
  | .blockComment, c :: rest => c :: gapOf .blockComment rest

/-! ## Token texts

Each of these functions reads the characters after the first one of a token and tells how many
of them belong to it. -/

/-- The value up to a quote that is not written twice, and the length up to and with that quote. -/
def untilQuote (quote : Char) : List Char → List Char × Nat
  | [] => ([], 0)
  | [c] => if c = quote then ([], 1) else ([c], 1)
  | c :: d :: rest =>
    if c = quote then
      if d = quote then
        let (value, length) := untilQuote quote rest
        (quote :: value, length + 2)
      else ([], 1)
    else
      let (value, length) := untilQuote quote (d :: rest)
      (c :: value, length + 1)

/-- The character that a backslash and a character stand for. -/
def unescaped : Char → Char
  | 'n' => '\n'
  | 't' => '\t'
  | 'r' => '\r'
  | c => c

/-- As `untilQuote` for a single quote, where a backslash takes the next character with it. -/
def untilQuoteEscaped : List Char → List Char × Nat
  | [] => ([], 0)
  | [c] => if c = '\'' then ([], 1) else if c = '\\' then ([], 1) else ([c], 1)
  | c :: d :: rest =>
    if c = '\'' then
      if d = '\'' then
        let (value, length) := untilQuoteEscaped rest
        ('\'' :: value, length + 2)
      else ([], 1)
    else if c = '\\' then
      let (value, length) := untilQuoteEscaped rest
      (unescaped d :: value, length + 2)
    else
      let (value, length) := untilQuoteEscaped (d :: rest)
      (c :: value, length + 1)

/-- The value up to a closing tag, and the length up to and with that tag.  Without one, all the
text is the value. -/
def untilTag (tag : List Char) : List Char → List Char × Nat
  | [] => ([], 0)
  | c :: rest =>
    if tag.isPrefixOf (c :: rest) then ([], tag.length)
    else
      let (value, length) := untilTag tag rest
      (c :: value, length + 1)

def isTagChar (c : Char) : Bool := Text.isAlphanumeric c || c == '_'

/-- The length of a number after its first character, in which a point stands at most once. -/
def numberLength (hasPoint : Bool) : List Char → Nat
  | [] => 0
  | c :: rest =>
    if c.isDigit then numberLength hasPoint rest + 1
    else if c == '.' && !hasPoint then numberLength true rest + 1
    else 0

def isWordChar (c : Char) : Bool := Text.isAlphanumeric c || c == '_' || c == '$'

def isOperatorChar (c : Char) : Bool :=
  [':', '=', '<', '>', '!', '|', '&', '~', '+', '*', '%', '^', '@'].contains c

/-- A string between tags such as `$body$`; a sign that opens no tag is an operator. -/
def scanTagged (rest : List Char) : Token × Nat :=
  let tag := rest.takeWhile isTagChar
  let after := rest.drop tag.length
  if (tag.head?.map Char.isDigit).getD false then (.operator "$", 0)
  else
    match after with
    | [] => (.string "", tag.length)
    | '$' :: body =>
      let (value, length) := untilTag ('$' :: tag ++ ['$']) body
      (.string (String.ofList value), tag.length + 1 + length)
    | _ => (.operator "$", tag.length)

/-- An operator with a given first character. -/
def scanOperator (c : Char) (rest : List Char) : Token × Nat :=
  if c == '[' || c == ']' then (.operator (String.singleton c), 0)
  else
    let more := rest.takeWhile isOperatorChar
    (.operator (String.ofList (c :: more)), more.length)

def scanNumber (lead : List Char) (hasPoint : Bool) (rest : List Char) : Token × Nat :=
  let length := numberLength hasPoint rest
  (.number (String.ofList (lead ++ rest.take length)), length)

def startsWithDigit (cs : List Char) : Bool := (cs.head?.map Char.isDigit).getD false

/-- The token that starts with `c`, which is neither white space nor the start of a comment, and
the number of its characters after `c`. -/
def scan (c : Char) (rest : List Char) : Token × Nat :=
  if c = '-' then
    if startsWithDigit rest then scanNumber ['-'] false rest else scanOperator c rest
  else if c = '(' then (.leftParen, 0)
  else if c = ')' then (.rightParen, 0)
  else if c = ',' then (.comma, 0)
  else if c = ';' then (.semicolon, 0)
  else if c = '.' then
    if startsWithDigit rest then scanNumber ['0', '.'] true rest else (.dot, 0)
  else if c = '"' then
    let (value, length) := untilQuote '"' rest
    (.quotedName (String.ofList value), length)
  else if c = '\'' then
    let (value, length) := untilQuote '\'' rest
    (.string (String.ofList value), length)
  else if c = '$' then scanTagged rest
  else if c.isDigit then scanNumber [c] false rest
  else if (c = 'E' || c = 'e') && rest.head? == some '\'' then
    let (value, length) := untilQuoteEscaped rest.tail
    (.string (String.ofList value), length + 1)
  else if Text.isAlphabetic c || c == '_' then
    let more := rest.takeWhile isWordChar
    (.ofWord (String.ofList (c :: more)), more.length)
  else scanOperator c rest

def newlines (cs : List Char) : Nat := cs.count '\n'

/-- The lexemes of a text that starts on a given line. -/
def lexemes (line : Nat) (cs : List Char) : List Lexeme :=
  let gap := gapOf .between cs
  let line := line + newlines gap
  match _h : cs.drop gap.length with
  | [] => [⟨gap, [], .eof, line⟩]
  | c :: rest =>
    let (token, length) := scan c rest
    let text := c :: rest.take length
    ⟨gap, text, token, line⟩ :: lexemes (line + newlines text) (rest.drop length)
termination_by cs.length
decreasing_by
  have hlength := congrArg List.length _h
  simp only [List.length_drop, List.length_cons] at hlength ⊢
  omega

def ofText (text : String) : List Lexeme := lexemes 1 text.toList

theorem ofText_ofList (chars : List Char) : ofText (String.ofList chars) = lexemes 1 chars :=
  congrArg (lexemes 1) String.toList_ofList

end Lexeme

/-- The next token; the end when nothing is left. -/
def next : List Lexeme → Token
  | [] => .eof
  | lexeme :: _ => lexeme.token

def line? (lexemes : List Lexeme) : Option Nat := lexemes.head?.map Lexeme.line

/-- The text from the first to the last of some lexemes, without white space around it. -/
def textOf : List Lexeme → String
  | [] => ""
  | first :: more =>
    String.ofList (Text.trim (first.text ++ more.flatMap fun lexeme => lexeme.gap ++ lexeme.text))

/-- What is left after a token, if that is the next one. -/
def eat? (token : Token) : List Lexeme → Option (List Lexeme)
  | [] => none
  | lexeme :: rest => if lexeme.token = token then some rest else none

def skip (token : Token) (lexemes : List Lexeme) : List Lexeme :=
  (eat? token lexemes).getD lexemes

def skipWord (word : String) (lexemes : List Lexeme) : List Lexeme :=
  if (next lexemes).isWord word then lexemes.tail else lexemes

def depthAfter (depth : Nat) : Token → Nat
  | .leftParen => depth + 1
  | .rightParen => depth - 1
  | _ => depth

/-- Cuts before the first token at which to stop, in view of the depth of parentheses there. -/
def cut (stop : Nat → Token → Bool) (depth : Nat) :
    List Lexeme → List Lexeme × List Lexeme
  | [] => ([], [])
  | lexeme :: rest =>
    if stop depth lexeme.token then ([], lexeme :: rest)
    else
      let (taken, after) := cut stop (depthAfter depth lexeme.token) rest
      (lexeme :: taken, after)

/-- Cuts before the first token outside parentheses at which to stop, or before the end. -/
def cutOutside (stop : Token → Bool) (lexemes : List Lexeme) : List Lexeme × List Lexeme :=
  cut (fun depth token => token = .eof || (depth == 0 && stop token)) 0 lexemes

/-- Skips a group in parentheses, or else a single token. -/
def skipGroup : List Lexeme → List Lexeme
  | [] => []
  | lexeme :: rest =>
    if lexeme.token = .leftParen then
      (cut (fun depth token => depth == 0 || token = .eof) 1 rest).2
    else rest

/-- Skips the rest of a statement and the semicolon after it. -/
def skipStatement (lexemes : List Lexeme) : List Lexeme :=
  skip .semicolon <| lexemes.dropWhile fun lexeme =>
    !(lexeme.token = .semicolon || lexeme.token = .eof)

/-- After a fault: as `skipStatement`, but never past the start of the next definition. -/
def recover (lexemes : List Lexeme) : List Lexeme :=
  skip .semicolon <| lexemes.dropWhile fun lexeme =>
    !(lexeme.token = .semicolon || lexeme.token = .eof || lexeme.token = .keyword .create)

end SchemaEvolution.Sql
