import SchemaEvolution.Sql.Statement

/-!
# Exporting a whole schema

Extensions and enumerated types come first, then the tables with those that others refer to
before those that refer to them, then the indexes, then every constraint that is not inline.
-/

namespace SchemaEvolution.Sql

def parents (schema : Schema) (name : String) (table : Table) : List String :=
  table.constraints.values.filterMap fun constraint =>
    match constraint.rule with
    | .foreignKey key =>
      if key.targetTable != name && schema.tables.contains key.targetTable then
        some key.targetTable
      else none
    | _ => none

def parentsOf (schema : Schema) (name : String) : List String :=
  match schema.tables.get? name with
  | some table => parents schema name table
  | none => []

def sortNames (names : List String) : List String := names.mergeSort fun a b => !(b < a)

/-- The tables left in layers: first those whose parents are all done, then those whose parents
are done with them, and so on; tables on which a cycle keeps its hold form the last layer. -/
def layersFrom (schema : Schema) : Nat → List String → List String → List (List String)
  | 0, _, left => [sortNames left]
  | fuel + 1, done, left =>
    let (ready, blocked) := left.partition fun name => (parentsOf schema name).all done.contains
    if ready.isEmpty then [sortNames blocked]
    else sortNames ready :: layersFrom schema fuel (done ++ ready) blocked

/-- The names of all tables, a table after those that it refers to, as far as no cycle forbids
it. -/
def dependencyOrder (schema : Schema) : List String :=
  (layersFrom schema schema.tables.size [] schema.tables.keys).flatten

def orderedTables (schema : Schema) : List Table :=
  (dependencyOrder schema).filterMap schema.tables.get?

def exportStatements (schema : Schema) : List Statement :=
  let tables := orderedTables schema
  schema.extensions.values.map .createExtension ++ schema.enums.values.map .createEnum ++
    tables.map .createTable ++
    (tables.flatMap fun table => table.indexes.values.map (.createIndex table.name)) ++
    tables.flatMap fun table =>
      (table.constraints.values.filter fun constraint => !table.isInline constraint).map
        (addConstraint table.name)

def exportScript (schema : Schema) : String := script (exportStatements schema)

end SchemaEvolution.Sql
