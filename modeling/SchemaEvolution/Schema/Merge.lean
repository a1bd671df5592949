import SchemaEvolution.Schema.Basic

/-!
# Merged schemas

The union of an older and a newer schema, which shows what was removed next to what there
is: the newer one wins wherever both have an entry.
-/

namespace SchemaEvolution

/-- Appends the entries of `older` whose names `newer` does not have. -/
def Keyed.backfill {α : Type} (newer older : Keyed α) : Keyed α :=
  older.toList.foldl (fun done (name, value) =>
    if done.contains name then done else done.insert name value) newer

/-- The newer table with the columns, indexes and constraints that only the older one has. -/
def Table.backfill (newer older : Table) : Table :=
  { newer with
    columns := newer.columns.backfill older.columns
    indexes := newer.indexes.backfill older.indexes
    constraints := newer.constraints.backfill older.constraints }

/-- The union of two schemas; tables of both are merged, of other entries the newer is taken. -/
def Schema.merge (older newer : Schema) : Schema where
  tables := older.tables.toList.foldl (fun done (name, table) =>
    match done.get? name with
    | none => done.insert name table
    | some current => done.insert name (current.backfill table)) newer.tables
  enums := newer.enums.backfill older.enums
  extensions := newer.extensions.backfill older.extensions

end SchemaEvolution
