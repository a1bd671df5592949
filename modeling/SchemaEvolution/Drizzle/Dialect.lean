import SchemaEvolution.Text.Blank
import SchemaEvolution.Text.Search

/-!
# Dialects of Drizzle schemas

A schema is for one of two databases.  Its imports tell which; where they do not, the functions it
calls do.
-/

namespace SchemaEvolution.Drizzle

inductive Dialect where
  | postgres
  | mysql
  deriving DecidableEq, Repr

namespace Dialect

def label : Dialect → String
  | .postgres => "postgres"
  | .mysql => "mysql"

def isQuote (c : Char) : Bool := c == '"' || c == '\''

/-- The name of the module after `from` at the front of a text, and the length of the clause. -/
def importClause? (cs : List Char) : Option (String × Nat) := do
  guard ("from".toList.isPrefixOf cs)
  let rest := cs.drop 4
  let blanks := rest.takeWhile Text.isBlank
  guard !blanks.isEmpty
  match rest.drop blanks.length with
  | [] => none
  | quote :: inside =>
    guard (isQuote quote)
    let name := inside.takeWhile fun c => !isQuote c
    guard (!name.isEmpty && name.length < inside.length)
    return (String.ofList name, 4 + blanks.length + 1 + name.length + 1)

/-- The modules that a text imports, from left to right, after a number of characters to skip. -/
def importsAfter : Nat → List Char → List String
  | _, [] => []
  | skipped + 1, _ :: rest => importsAfter skipped rest
  | 0, c :: rest =>
    match importClause? (c :: rest) with
    | some (name, length) => name :: importsAfter (length - 1) rest
    | none => importsAfter 0 rest

def detect (source : String) : Dialect :=
  let chars := source.toList
  let modules := importsAfter 0 chars
  let calls (function : String) : Bool := Text.contains chars function.toList
  match modules.contains "drizzle-orm/mysql-core", modules.contains "drizzle-orm/pg-core" with
  | true, false => .mysql
  | false, true => .postgres
  | _, _ => if calls "mysqlTable(" && !calls "pgTable(" then .mysql else .postgres

end Dialect

end SchemaEvolution.Drizzle
