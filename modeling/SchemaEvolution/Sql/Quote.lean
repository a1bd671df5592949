import SchemaEvolution.Schema.Document
import SchemaEvolution.Text.Search
import SchemaEvolution.Text.LetterCase

/-!
# Quoting in SQL

Identifiers stand between double quotes and literals between single quotes; the quote
itself is written twice.  A default that is an expression is written as it is.
-/

namespace SchemaEvolution.Sql

/-- Writes every occurrence of a quote twice. -/
def doubled (quote : Char) : List Char → List Char
  | [] => []
  | c :: rest => if c = quote then quote :: quote :: doubled quote rest else c :: doubled quote rest

def between (quote : Char) (text : String) : String :=
  String.ofList (quote :: doubled quote text.toList ++ [quote])

def quoteIdent (name : String) : String := between '"' name

def quoteLiteral (value : String) : String := between '\'' value

def isPlainStart (c : Char) : Bool := c.isLower || c == '_'

def isPlainChar (c : Char) : Bool := c.isLower || c.isDigit || c == '_'

/-- Whether a name is the same identifier without quotes. -/
def isPlainIdent (name : String) : Bool :=
  match name.toList with
  | [] => false
  | c :: rest => isPlainStart c && rest.all isPlainChar

/-- The name as it is when it is plain, between quotes otherwise. -/
def quoteIdentIfNeeded (name : String) : String :=
  if isPlainIdent name then name else quoteIdent name

def isCallStart (c : Char) : Bool := c.isAlpha || c == '_'

def isCallChar (c : Char) : Bool := c.isAlphanum || c == '_' || c == '.'

/-- Whether a text is one line of the form `name(…)`, the name possibly qualified. -/
def isFunctionCall (text : String) : Bool :=
  match text.toList with
  | [] => false
  | c :: rest =>
    isCallStart c &&
      match rest.dropWhile isCallChar with
      | '(' :: inner => inner.getLast? == some ')' && !inner.contains '\n'
      | _ => false

/-- Defaults that are key words and not literals. -/
def keywordDefaults : List String :=
  ["CURRENT_TIMESTAMP", "CURRENT_DATE", "CURRENT_TIME", "CURRENT_USER", "LOCALTIME",
    "LOCALTIMESTAMP", "NULL"]

/-- Whether a text is written as an expression: a call, a cast or a key word. -/
def isRawExpression (text : String) : Bool :=
  isFunctionCall text || Text.contains text.toList [':', ':'] ||
    keywordDefaults.contains (Text.upper text)

def renderDefault : DefaultValue → String
  | .boolean true => "TRUE"
  | .boolean false => "FALSE"
  | .number value => value.text
  | .text value => if isRawExpression value then value else quoteLiteral value

end SchemaEvolution.Sql
