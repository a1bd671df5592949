import SchemaEvolution.Schema.Basic

/-!
# Relationships

Every pair of columns that a foreign key joins is a relationship between two tables.
-/

namespace SchemaEvolution

inductive Cardinality where
  | oneToOne
  | oneToMany
  deriving DecidableEq, Repr

def Cardinality.label : Cardinality → String
  | .oneToOne => "ONE_TO_ONE"
  | .oneToMany => "ONE_TO_MANY"

/-- A foreign column that refers to a primary column. -/
structure Relationship where
  name : String
  primaryTable : String
  primaryColumn : String
  foreignTable : String
  foreignColumn : String
  cardinality : Cardinality
  deriving DecidableEq

/-- The relationships of one constraint; it is one to one where the foreign column is unique. -/
def Table.relationshipsOf (table : Table) (constraint : Constraint) : List Relationship :=
  match constraint.rule with
  | .foreignKey key =>
    (key.columns.zip key.targetColumns).map fun (column, target) =>
      { name := constraint.name
        primaryTable := key.targetTable
        primaryColumn := target
        foreignTable := table.name
        foreignColumn := column
        cardinality := if table.isUniqueColumn column then .oneToOne else .oneToMany }
  | _ => []

def Schema.relationships (schema : Schema) : List Relationship :=
  schema.tables.values.flatMap fun table => table.constraints.values.flatMap table.relationshipsOf

end SchemaEvolution
