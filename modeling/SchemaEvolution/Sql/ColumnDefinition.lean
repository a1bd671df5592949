import SchemaEvolution.Sql.Clause
import SchemaEvolution.Text.Blank
import SchemaEvolution.Text.LetterCase
import SchemaEvolution.Text.Search

/-!
# Definitions of columns

A column has a name, a type and then attributes in any order.  The type keeps its own spelling apart
from case, white space and a few long forms.  Attributes that are constraints are given to the
table, under the name that stands before them or under the usual one.
-/

namespace SchemaEvolution.Sql.TypeName

def shortName : String → String
  | "character varying" => "varchar"
  | "timestamp without time zone" => "timestamp"
  | "time without time zone" => "time"
  | other => other

/-- The words before the arguments of a type, and the arguments with everything after them. -/
def cutArguments (cs : List Char) : List Char × List Char :=
  let opening := if cs.contains '(' then '(' else '['
  (Text.trimEnd (cs.takeWhile (· != opening)), cs.dropWhile (· != opening))

/-- The normal spelling of a type. -/
def normalize (raw : String) : String :=
  let spaced := [' '].intercalate (Text.words (Text.lower raw).toList)
  let (base, arguments) := cutArguments spaced
  let arguments := Text.replace ") without time zone".toList [')'] arguments
  let arguments := Text.replace [',', ' '] [','] arguments
  shortName (String.ofList base) ++ String.ofList arguments

/-- Types that count rows: their columns are never null. -/
def isSerial (type : String) : Bool :=
  ["serial", "serial4", "bigserial", "serial8", "smallserial", "serial2"].contains type

end SchemaEvolution.Sql.TypeName

namespace SchemaEvolution.Sql

/-- A column and the constraints declared with it, each with its name if it has one.  Of keys,
unique constraints and checks the last one counts. -/
structure ColumnDefinition where
  column : Column
  primaryKey : Option (Option String)
  unique : Option (Option String)
  references : List (Option String × Reference)
  check : Option (Option String × String)
  deriving DecidableEq

/-- Whether a token ends a type, in view of the depth of parentheses before it. -/
def endsType (depth : Nat) : Token → Bool
  | .word spelling => endsExpression (.word spelling)
  | .number _ | .dot | .quotedName _ | .leftParen => false
  | .rightParen | .comma => depth == 0
  | .operator spelling => !(Token.operator spelling).isBracket
  | _ => true

namespace ColumnDefinition

/-- A definition without attributes; columns that count rows are never null. -/
def plain (name type : String) : ColumnDefinition :=
  ⟨{ Column.plain name type with notNull := TypeName.isSerial type }, none, none, [], none⟩

def requireValue (d : ColumnDefinition) : ColumnDefinition :=
  { d with column := { d.column with notNull := true } }

/-- One attribute of a column; the state also holds the name for the next constraint. -/
def attributeStep (state : ColumnDefinition × Option String) (lexemes : List Lexeme) :
    Except Halt (Turn (ColumnDefinition × Option String) × List Lexeme) :=
  let (d, label) := state
  let rest := lexemes.tail
  match next lexemes with
  | .keyword .constraint =>
    let (label, after) := optionalName rest
    .ok (.again (d, label), after)
  | .keyword .primary =>
    .ok (.again ({ d.requireValue with primaryKey := some label }, none),
      skip (.keyword .key) rest)
  | .keyword .not =>
    match eat? (.keyword .null) rest with
    | some after => .ok (.again (d.requireValue, label), after)
    | none => .ok (.again (d, label), rest)
  | .keyword .null => .ok (.again (d, label), rest)
  | .keyword .unique => .ok (.again ({ d with unique := some label }, none), rest)
  | .keyword .default =>
    let (value, after) := readDefault rest
    .ok (.again ({ d with column := { d.column with default := value } }, label), after)
  | .keyword .references => do
    let (reference, after) ← readReference rest
    return (.again ({ d with references := d.references ++ [(label, reference)] }, none), after)
  | .keyword .check =>
    let (condition, after) := parenthesized rest
    .ok (.again ({ d with
      column := { d.column with check := some condition }
      check := some (label, condition) }, none), after)
  | token =>
    if token.isWord "collate" then .ok (.again (d, label), (optionalQualifiedName rest).2)
    else if token.isWord "generated" then
      let (taken, after) :=
        cutOutside (fun token => token = .comma || token = .rightParen) lexemes
      let isIdentity :=
        Text.contains (Text.lower (textOf taken)).toList "identity".toList
      .ok (.again (if isIdentity then d.requireValue else d, label), after)
    else if endsDefinition token then .ok (.done (d, label), lexemes)
    else .ok (.again (d, label), skipGroup lexemes)

/-- Reads the definition of a column, from its name to the end of its attributes. -/
def read (lexemes : List Lexeme) : Except Halt (ColumnDefinition × List Lexeme) := do
  let name := (next lexemes).name?.getD ""
  let (typeLexemes, rest) := cut endsType 0 lexemes.tail
  let raw := textOf typeLexemes
  if raw.isEmpty then
    halt ("column " ++ name ++ " has no type") (line? lexemes) rest
  else
    let ((d, _), rest) ← repeatedly attributeStep (plain name (TypeName.normalize raw), none) rest
    return (d, rest)

/-- The constraints that a definition gives to a table, in the order in which they are added. -/
def constraints (d : ColumnDefinition) (table : String) : List Constraint :=
  let column := d.column.name
  (d.primaryKey.map fun label =>
    Constraint.primaryKey (label.getD (Naming.primaryKey table)) [column]).toList ++
  (d.unique.map fun label =>
    Constraint.unique (label.getD (Naming.unique table [column])) [column]).toList ++
  (d.references.map fun (label, reference) =>
    Constraint.foreignKey (label.getD (Naming.foreignKey table [column]))
      (reference.key [column])) ++
  (d.check.map fun (label, condition) =>
    Constraint.check (label.getD (Naming.check table column)) condition).toList

def addTo (d : ColumnDefinition) (table : Table) : Table :=
  ((d.constraints table.name).foldl Table.addConstraint table).addColumn d.column

end ColumnDefinition

end SchemaEvolution.Sql
