import SchemaEvolution.Schema.Naming
import SchemaEvolution.Sql.Quote

/-!
# SQL statements

A key or check of a single column that has its default name is written with the column and not as a
statement of its own.  The rest of an exported script is made of statements; here is what it
consists of, and the text of each statement.
-/

namespace SchemaEvolution.Table

/-- Whether the column alone is the primary key, under the default name. -/
def hasInlinePrimaryKey (table : Table) (column : String) : Bool :=
  table.isSinglePrimaryKey column &&
    table.primaryKey?.any fun (name, _) => name == Naming.primaryKey table.name

def columnKey? (table : Table) (column : String) : Option String :=
  if table.columns.contains column then some column else none

/-- The column whose definition carries the constraint, if one does. -/
def inlineColumn? (table : Table) (constraint : Constraint) : Option String :=
  match constraint.rule with
  | .primaryKey [column] =>
    if constraint.name == Naming.primaryKey table.name then table.columnKey? column else none
  | .unique [column] =>
    let implied := constraint.name == Naming.unique table.name [column]
    if implied && !table.hasInlinePrimaryKey column then
      table.columnKey? column
    else none
  | .check condition =>
    (table.columns.values.find? fun column =>
      column.check == some condition && constraint.name == Naming.check table.name column.name).map
      Column.name
  | _ => none

def isInline (table : Table) (constraint : Constraint) : Bool :=
  (table.inlineColumn? constraint).isSome

/-- The constraints that the definition of a column carries. -/
def inlineConstraints (table : Table) (column : String) : List Constraint :=
  table.constraints.values.filter fun constraint => table.inlineColumn? constraint == some column

end SchemaEvolution.Table

namespace SchemaEvolution.Sql

/-- A change of one table. -/
inductive Alteration where
  | rename (name : String)
  | addColumn (column : Column)
  | dropColumn (name : String)
  | renameColumn (name target : String)
  | setType (column type : String)
  | setNotNull (column : String)
  | dropNotNull (column : String)
  | setDefault (column : String) (default : DefaultValue)
  | dropDefault (column : String)
  | addConstraint (constraint : Constraint)
  | dropConstraint (name : String)
  | renameConstraint (name target : String)
  deriving DecidableEq

/-- What a comment is about. -/
inductive Subject where
  | table (name : String)
  | column (table name : String)
  | enumType (name : String)
  | extension (name : String)
  deriving DecidableEq

inductive Statement where
  | createExtension (extension : Extension)
  | dropExtension (name : String)
  | updateExtension (name version : String)
  | moveExtension (name schema : String)
  | createEnum (type : EnumType)
  | dropType (name : String)
  | renameType (name target : String)
  | addEnumValue (name value : String)
  | createTable (table : Table)
  | dropTable (name : String)
  | alterTable (table : String) (alteration : Alteration)
  | createIndex (table : String) (index : Index)
  | dropIndex (name : String)
  | renameIndex (name target : String)
  | comment (subject : Subject) (text : Option String)
  deriving DecidableEq

def columnList (columns : List String) : String := ", ".intercalate (columns.map quoteIdent)

def defaultClause : Option DefaultValue → String
  | some default => " DEFAULT " ++ renderDefault default
  | none => ""

def notNullClause (notNull : Bool) : String := if notNull then " NOT NULL" else ""

def columnHead (column : Column) : String := quoteIdent column.name ++ " " ++ column.type

/-- The definition of a column that is added to a table: its type, nullability and default. -/
def columnDefinition (column : Column) : String :=
  columnHead column ++ notNullClause column.notNull ++ defaultClause column.default

/-- Whether a constraint of its own already demands the check of a column. -/
def hasNamedCheck (table : Table) (column : Column) (check : String) : Bool :=
  table.constraints.values.any fun constraint =>
    constraint.rule == .check check && table.inlineColumn? constraint != some column.name

/-- The definition of a column in a new table, with its inline keys and check.  A primary key
repeats neither uniqueness nor nullability. -/
def columnDefinitionIn (table : Table) (column : Column) : String :=
  let inlined := table.inlineConstraints column.name
  let primary := inlined.any fun constraint => constraint.rule.kind == "PRIMARY KEY"
  let unique := inlined.any fun constraint => constraint.rule.kind == "UNIQUE"
  columnHead column ++ (if primary then " PRIMARY KEY" else "") ++
    (if !primary && unique then " UNIQUE" else "") ++
    notNullClause (column.notNull && !primary) ++ defaultClause column.default ++
    match column.check with
    | some check => if hasNamedCheck table column check then "" else " CHECK (" ++ check ++ ")"
    | none => ""

/-! ## Text -/

def actionClause (event : String) (action : ForeignKeyAction) : String :=
  if action = .noAction then "" else " ON " ++ event ++ " " ++ action.sql

def ruleText : Rule → String
  | .primaryKey columns => "PRIMARY KEY (" ++ columnList columns ++ ")"
  | .unique columns => "UNIQUE (" ++ columnList columns ++ ")"
  | .check condition => "CHECK (" ++ condition ++ ")"
  | .foreignKey key =>
    "FOREIGN KEY (" ++ columnList key.columns ++ ") REFERENCES " ++ quoteIdent key.targetTable ++
      " (" ++ columnList key.targetColumns ++ ")" ++ actionClause "UPDATE" key.onUpdate ++
      actionClause "DELETE" key.onDelete

def Alteration.sql : Alteration → String
  | .rename name => "RENAME TO " ++ quoteIdent name
  | .addColumn column => "ADD COLUMN " ++ columnDefinition column
  | .dropColumn name => "DROP COLUMN " ++ quoteIdent name
  | .renameColumn name target => "RENAME COLUMN " ++ quoteIdent name ++ " TO " ++ quoteIdent target
  | .setType column type => "ALTER COLUMN " ++ quoteIdent column ++ " TYPE " ++ type
  | .setNotNull column => "ALTER COLUMN " ++ quoteIdent column ++ " SET NOT NULL"
  | .dropNotNull column => "ALTER COLUMN " ++ quoteIdent column ++ " DROP NOT NULL"
  | .setDefault column default =>
    "ALTER COLUMN " ++ quoteIdent column ++ " SET DEFAULT " ++ renderDefault default
  | .dropDefault column => "ALTER COLUMN " ++ quoteIdent column ++ " DROP DEFAULT"
  | .addConstraint constraint =>
    "ADD CONSTRAINT " ++ quoteIdent constraint.name ++ " " ++ ruleText constraint.rule
  | .dropConstraint name => "DROP CONSTRAINT " ++ quoteIdent name
  | .renameConstraint name target =>
    "RENAME CONSTRAINT " ++ quoteIdent name ++ " TO " ++ quoteIdent target

def Subject.sql : Subject → String
  | .table name => "TABLE " ++ quoteIdent name
  | .column owner name => "COLUMN " ++ quoteIdent owner ++ "." ++ quoteIdent name
  | .enumType name => "TYPE " ++ quoteIdentIfNeeded name
  | .extension name => "EXTENSION " ++ quoteIdentIfNeeded name

def commentText (subject : Subject) (text : Option String) : String :=
  "COMMENT ON " ++ subject.sql ++ " IS " ++
    (match text with
      | some value => quoteLiteral value
      | none => "NULL") ++ ";"

def createExtensionText (extension : Extension) : String :=
  "CREATE EXTENSION IF NOT EXISTS " ++ quoteIdentIfNeeded extension.name ++
    (match extension.schema with
      | some schema => " WITH SCHEMA " ++ quoteIdentIfNeeded schema
      | none => "") ++
    (match extension.version with
      | some version => " VERSION " ++ quoteLiteral version
      | none => "") ++ ";"

def createEnumText (type : EnumType) : String :=
  "CREATE TYPE " ++ quoteIdentIfNeeded type.name ++ " AS ENUM (" ++
    ", ".intercalate (type.values.map quoteLiteral) ++ ");"

def tableComments (table : Table) : List String :=
  (match table.comment with
    | some text => [commentText (.table table.name) (some text)]
    | none => []) ++
  table.columns.values.filterMap fun column =>
    column.comment.map fun text => commentText (.column table.name column.name) (some text)

/-- The table with its columns, one a line, and then its comments. -/
def createTableText (table : Table) : String :=
  let columns := table.columns.values.map fun column => "  " ++ columnDefinitionIn table column
  let create := "CREATE TABLE " ++ quoteIdent table.name ++ " (\n" ++ ",\n".intercalate columns ++
    "\n);"
  "\n".intercalate (create :: tableComments table)

def createIndexText (table : String) (index : Index) : String :=
  let method := if index.type.isEmpty then "btree" else index.type
  "CREATE " ++ (if index.unique then "UNIQUE " else "") ++ "INDEX " ++ quoteIdent index.name ++
    " ON " ++ quoteIdent table ++ " USING " ++ method ++ " (" ++ columnList index.columns ++ ");"

def Statement.sql : Statement → String
  | .createExtension extension => createExtensionText extension
  | .dropExtension name => "DROP EXTENSION IF EXISTS " ++ quoteIdentIfNeeded name ++ ";"
  | .updateExtension name version =>
    "ALTER EXTENSION " ++ quoteIdentIfNeeded name ++ " UPDATE TO " ++ quoteLiteral version ++ ";"
  | .moveExtension name schema =>
    "ALTER EXTENSION " ++ quoteIdentIfNeeded name ++ " SET SCHEMA " ++ quoteIdentIfNeeded schema ++
      ";"
  | .createEnum type => createEnumText type
  | .dropType name => "DROP TYPE " ++ quoteIdentIfNeeded name ++ ";"
  | .renameType name target =>
    "ALTER TYPE " ++ quoteIdentIfNeeded name ++ " RENAME TO " ++ quoteIdentIfNeeded target ++ ";"
  | .addEnumValue name value =>
    "ALTER TYPE " ++ quoteIdentIfNeeded name ++ " ADD VALUE " ++ quoteLiteral value ++ ";"
  | .createTable table => createTableText table
  | .dropTable name => "DROP TABLE " ++ quoteIdent name ++ ";"
  | .alterTable table alteration =>
    "ALTER TABLE " ++ quoteIdent table ++ " " ++ alteration.sql ++ ";"
  | .createIndex table index => createIndexText table index
  | .dropIndex name => "DROP INDEX IF EXISTS " ++ quoteIdent name ++ ";"
  | .renameIndex name target =>
    "ALTER INDEX " ++ quoteIdent name ++ " RENAME TO " ++ quoteIdent target ++ ";"
  | .comment subject text => commentText subject text

def addConstraint (table : String) (constraint : Constraint) : Statement :=
  .alterTable table (.addConstraint constraint)

/-- Statements with an empty line between them; nothing for none. -/
def script (statements : List Statement) : String :=
  if statements.isEmpty then "" else "\n\n".intercalate (statements.map Statement.sql) ++ "\n"

end SchemaEvolution.Sql
