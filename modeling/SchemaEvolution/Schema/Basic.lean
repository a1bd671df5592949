import SchemaEvolution.Json.Value
import SchemaEvolution.Numeral.Reader
import SchemaEvolution.Numeral.Shortest
import SchemaEvolution.Schema.ForeignKeyAction

/-!
# Relational schemas

A schema holds tables, enumerated types and extensions under their names; a table holds
columns, indexes and constraints under theirs.  Every collection keeps the order of its
source, and `==` disregards that order.
-/

namespace SchemaEvolution

/-- The default of a column: a boolean, a number, or a text that is a literal or an expression. -/
inductive DefaultValue where
  | boolean (value : Bool)
  | number (value : Json.Number)
  | text (value : String)
  deriving BEq, DecidableEq, Repr

namespace DefaultValue

/-- Reads a numeral; integers within 64 bits stay integers. -/
def ofNumeral? (text : String) : Option DefaultValue :=
  match Numeral.readInt64? text with
  | some value => some (.number (.integer value))
  | none => (Numeral.readBinary64? text).map fun value => .number (.double value)

def text? : DefaultValue → Option String
  | .text value => some value
  | _ => none

end DefaultValue

structure Column where
  name : String
  type : String
  default : Option DefaultValue
  check : Option String
  notNull : Bool
  comment : Option String
  deriving BEq, DecidableEq

namespace Column

/-- A column that may be null and has nothing but a name and a type. -/
def plain (name type : String) : Column := ⟨name, type, none, none, false, none⟩

end Column

/-- An index over columns or expressions; its type is the access method, empty for the usual
one. -/
structure Index where
  name : String
  unique : Bool
  columns : List String
  type : String
  deriving BEq, DecidableEq

structure ForeignKey where
  columns : List String
  targetTable : String
  targetColumns : List String
  onUpdate : ForeignKeyAction
  onDelete : ForeignKeyAction
  deriving BEq, DecidableEq

/-- What a constraint demands of the rows of its table. -/
inductive Rule where
  | primaryKey (columns : List String)
  | foreignKey (key : ForeignKey)
  | unique (columns : List String)
  | check (condition : String)
  deriving BEq, DecidableEq

structure Constraint where
  name : String
  rule : Rule
  deriving BEq, DecidableEq

namespace Rule

def kind : Rule → String
  | .primaryKey _ => "PRIMARY KEY"
  | .foreignKey _ => "FOREIGN KEY"
  | .unique _ => "UNIQUE"
  | .check _ => "CHECK"

/-- The columns of the table that the rule covers; none for a check. -/
def columns : Rule → List String
  | .primaryKey columns => columns
  | .foreignKey key => key.columns
  | .unique columns => columns
  | .check _ => []

end Rule

namespace Constraint

def primaryKey (name : String) (columns : List String) : Constraint := ⟨name, .primaryKey columns⟩

def foreignKey (name : String) (key : ForeignKey) : Constraint := ⟨name, .foreignKey key⟩

def unique (name : String) (columns : List String) : Constraint := ⟨name, .unique columns⟩

def check (name condition : String) : Constraint := ⟨name, .check condition⟩

end Constraint

structure Table where
  name : String
  comment : Option String
  columns : Keyed Column
  indexes : Keyed Index
  constraints : Keyed Constraint
  deriving BEq, DecidableEq

structure EnumType where
  name : String
  values : List String
  comment : Option String
  deriving BEq, DecidableEq

structure Extension where
  name : String
  schema : Option String
  version : Option String
  comment : Option String
  deriving BEq, DecidableEq

structure Schema where
  tables : Keyed Table
  enums : Keyed EnumType
  extensions : Keyed Extension
  deriving BEq, DecidableEq

namespace Table

def empty (name : String) : Table := ⟨name, none, ∅, ∅, ∅⟩

/-- Stores a column under its own name. -/
def addColumn (table : Table) (column : Column) : Table :=
  { table with columns := table.columns.insert column.name column }

/-- Stores an index under its own name. -/
def addIndex (table : Table) (index : Index) : Table :=
  { table with indexes := table.indexes.insert index.name index }

/-- Stores a constraint under its own name. -/
def addConstraint (table : Table) (constraint : Constraint) : Table :=
  { table with constraints := table.constraints.insert constraint.name constraint }

/-- The first primary key: its name and columns. -/
def primaryKey? (table : Table) : Option (String × List String) :=
  table.constraints.values.findSome? fun constraint =>
    match constraint.rule with
    | .primaryKey columns => some (constraint.name, columns)
    | _ => none

def isSinglePrimaryKey (table : Table) (column : String) : Bool :=
  match table.primaryKey? with
  | some (_, columns) => columns == [column]
  | none => false

/-- Whether some unique constraint covers the column alone. -/
def hasSingleUnique (table : Table) (column : String) : Bool :=
  table.constraints.values.any fun constraint =>
    match constraint.rule with
    | .unique columns => columns == [column]
    | _ => false

/-- Whether a key or a unique index makes the column alone unique. -/
def isUniqueColumn (table : Table) (column : String) : Bool :=
  table.hasSingleUnique column || table.isSinglePrimaryKey column ||
    table.indexes.values.any fun index => index.unique && index.columns == [column]

end Table

namespace Schema

def empty : Schema := ⟨∅, ∅, ∅⟩

instance : Inhabited Schema := ⟨empty⟩

def isEmpty (schema : Schema) : Bool :=
  schema.tables.isEmpty && schema.enums.isEmpty && schema.extensions.isEmpty

/-- Stores a table under its own name. -/
def addTable (schema : Schema) (table : Table) : Schema :=
  { schema with tables := schema.tables.insert table.name table }

/-- Stores an enumerated type under its own name. -/
def addEnum (schema : Schema) (type : EnumType) : Schema :=
  { schema with enums := schema.enums.insert type.name type }

/-- Stores an extension under its own name. -/
def addExtension (schema : Schema) (extension : Extension) : Schema :=
  { schema with extensions := schema.extensions.insert extension.name extension }

end Schema

end SchemaEvolution
