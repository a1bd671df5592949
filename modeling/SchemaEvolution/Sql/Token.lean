import SchemaEvolution.Text.LetterCase

/-!
# SQL tokens

The words, literals and symbols that a script is made of.  Key words are told apart whatever
their case; some of them are names wherever a name is asked for.
-/

namespace SchemaEvolution.Sql

inductive Keyword where
  | create
  | alter
  | add
  | table
  | only
  | primary
  | key
  | foreign
  | references
  | not
  | null
  | unique
  | default
  | on
  | delete
  | update
  | cascade
  | restrict
  | constraint
  | index
  | if
  | exists
  | check
  | comment
  | is
  | type
  | as
  | extension
  | using
  | column
  deriving DecidableEq, Repr

namespace Keyword

def all : List Keyword :=
  [.create, .alter, .add, .table, .only, .primary, .key, .foreign, .references, .not, .null,
    .unique, .default, .on, .delete, .update, .cascade, .restrict, .constraint, .index, .if,
    .exists, .check, .comment, .is, .type, .as, .extension, .using, .column]

def spelling : Keyword → String
  | .create => "CREATE"
  | .alter => "ALTER"
  | .add => "ADD"
  | .table => "TABLE"
  | .only => "ONLY"
  | .primary => "PRIMARY"
  | .key => "KEY"
  | .foreign => "FOREIGN"
  | .references => "REFERENCES"
  | .not => "NOT"
  | .null => "NULL"
  | .unique => "UNIQUE"
  | .default => "DEFAULT"
  | .on => "ON"
  | .delete => "DELETE"
  | .update => "UPDATE"
  | .cascade => "CASCADE"
  | .restrict => "RESTRICT"
  | .constraint => "CONSTRAINT"
  | .index => "INDEX"
  | .if => "IF"
  | .exists => "EXISTS"
  | .check => "CHECK"
  | .comment => "COMMENT"
  | .is => "IS"
  | .type => "TYPE"
  | .as => "AS"
  | .extension => "EXTENSION"
  | .using => "USING"
  | .column => "COLUMN"

def ofWord? (word : String) : Option Keyword :=
  let capitals := Text.upper word
  all.find? fun keyword => keyword.spelling == capitals

/-- The name that a key word is where a name is asked for; the others are reserved. -/
def name? : Keyword → Option String
  | .key => some "key"
  | .index => some "index"
  | .comment => some "comment"
  | .type => some "type"
  | .column => some "column"
  | .add => some "add"
  | .delete => some "delete"
  | .update => some "update"
  | .cascade => some "cascade"
  | .restrict => some "restrict"
  | .if => some "if"
  | .exists => some "exists"
  | .extension => some "extension"
  | .is => some "is"
  | .alter => some "alter"
  | _ => none

end Keyword

inductive Token where
  | keyword (keyword : Keyword)
  | word (spelling : String)
  | quotedName (name : String)
  | string (value : String)
  | number (digits : String)
  | leftParen
  | rightParen
  | comma
  | semicolon
  | dot
  | operator (spelling : String)
  | eof
  deriving DecidableEq, Repr

namespace Token

def ofWord (word : String) : Token :=
  match Keyword.ofWord? word with
  | some known => .keyword known
  | none => .word word

/-- The name that a token is: words fold to lower case, names between quotes stay as they are. -/
def name? : Token → Option String
  | .word spelling => some (Text.lower spelling)
  | .quotedName name => some name
  | .keyword known => known.name?
  | _ => none

/-- Whether a token is a word, given in lower case, that is no key word. -/
def isWord (word : String) : Token → Bool
  | .word spelling => spelling.toLower == word
  | _ => false

def isOneOf (words : List String) (token : Token) : Bool := words.any fun word => token.isWord word

def isBracket : Token → Bool
  | .operator spelling => spelling == "[" || spelling == "]"
  | _ => false

end Token

end SchemaEvolution.Sql
