import SchemaEvolution.Patch.Operation
import SchemaEvolution.Schema.Document

/-!
# Differences between schemas

The operations that turn one schema into another: what is gone is removed first, what is
new is added next, and what both have is brought up to date last, field by field.
-/

namespace SchemaEvolution.Patch

def goneNames {α β : Type} (old : Keyed α) (new : Keyed β) : List String :=
  old.keys.filter fun name => !new.contains name

/-- Constraints that are gone or have become constraints of another kind. -/
def goneConstraints (old new : Keyed Constraint) : List String :=
  (old.toList.filter fun (name, constraint) =>
    match new.get? name with
    | some other => other.rule.kind != constraint.rule.kind
    | none => true).map Prod.fst

/-- Removes what a table of both schemas has lost. -/
def tableRemovals (name : String) (old new : Table) : List Operation :=
  (goneConstraints old.constraints new.constraints).map (fun constraint =>
    .remove (.table name (.constraint constraint .whole))) ++
  (goneNames old.indexes new.indexes).map (fun index =>
    .remove (.table name (.index index .whole))) ++
  (goneNames old.columns new.columns).map fun column =>
    .remove (.table name (.column column .whole))

/-- Removes what the schema has lost, the inside of kept tables first. -/
def removals (old new : Schema) : List Operation :=
  (old.tables.toList.flatMap fun (name, table) =>
    match new.tables.get? name with
    | some other => tableRemovals name table other
    | none => []) ++
  (goneNames old.tables new.tables).map (fun name => .remove (.table name .whole)) ++
  (goneNames old.enums new.enums).map (fun name => .remove (.enumType name .whole)) ++
  (goneNames old.extensions new.extensions).map fun name => .remove (.extension name .whole)

def replaceField {α : Type} [BEq α] (path : Path) (view : α → Json) (old new : α) :
    List Operation :=
  if old == new then [] else [.replace path (view new)]

/-- The changes of every entry of `new`: `added` for those that `old` does not have. -/
def entryChanges {α : Type} (old new : Keyed α) (added : String → α → List Operation)
    (changed : String → α → α → List Operation) : List Operation :=
  new.toList.flatMap fun (name, value) =>
    match old.get? name with
    | none => added name value
    | some previous => changed name previous value

def columnChanges (table name : String) (old new : Column) : List Operation :=
  let path (field : ColumnField) : Path := .table table (.column name (.field field))
  replaceField (path .type) .string old.type new.type ++
  replaceField (path .default) optionalDefault old.default new.default ++
  replaceField (path .notNull) .bool old.notNull new.notNull ++
  replaceField (path .check) optionalText old.check new.check ++
  replaceField (path .comment) optionalText old.comment new.comment

def indexChanges (table name : String) (old new : Index) : List Operation :=
  let path (field : IndexField) : Path := .table table (.index name (.field field))
  replaceField (path .unique) .bool old.unique new.unique ++
  replaceField (path .type) .string old.type new.type ++
  replaceField (path .columns) texts old.columns new.columns

/-- A constraint of another kind was removed, so it is added; one of the same kind is kept. -/
def constraintChanges (table name : String) (old new : Constraint) : List Operation :=
  let path (field : ConstraintField) : Path := .table table (.constraint name (.field field))
  match old.rule, new.rule with
  | .primaryKey a, .primaryKey b | .unique a, .unique b => replaceField (path .columns) texts a b
  | .check a, .check b => replaceField (path .condition) .string a b
  | .foreignKey a, .foreignKey b =>
    replaceField (path .columns) texts a.columns b.columns ++
    replaceField (path .targetTable) .string a.targetTable b.targetTable ++
    replaceField (path .targetColumns) texts a.targetColumns b.targetColumns ++
    replaceField (path .onUpdate) ForeignKeyAction.toJson a.onUpdate b.onUpdate ++
    replaceField (path .onDelete) ForeignKeyAction.toJson a.onDelete b.onDelete
  | _, _ => [.add (.table table (.constraint name .whole)) new.toJson]

def tableChanges (name : String) (old new : Table) : List Operation :=
  replaceField (.table name (.field .comment)) optionalText old.comment new.comment ++
  entryChanges old.columns new.columns
    (fun column value => [.add (.table name (.column column .whole)) value.toJson])
    (columnChanges name) ++
  entryChanges old.indexes new.indexes
    (fun index value => [.add (.table name (.index index .whole)) value.toJson])
    (indexChanges name) ++
  entryChanges old.constraints new.constraints
    (fun constraint value => [.add (.table name (.constraint constraint .whole)) value.toJson])
    (constraintChanges name)

def enumChanges (name : String) (old new : EnumType) : List Operation :=
  let path (field : EnumField) : Path := .enumType name (.field field)
  replaceField (path .values) texts old.values new.values ++
  replaceField (path .comment) optionalText old.comment new.comment

def extensionChanges (name : String) (old new : Extension) : List Operation :=
  let path (field : ExtensionField) : Path := .extension name (.field field)
  replaceField (path .schema) optionalText old.schema new.schema ++
  replaceField (path .version) optionalText old.version new.version ++
  replaceField (path .comment) optionalText old.comment new.comment

/-- Adds and replacements, in the order of the new schema. -/
def changes (old new : Schema) : List Operation :=
  entryChanges old.extensions new.extensions
    (fun name value => [.add (.extension name .whole) value.toJson]) extensionChanges ++
  entryChanges old.enums new.enums
    (fun name value => [.add (.enumType name .whole) value.toJson]) enumChanges ++
  entryChanges old.tables new.tables
    (fun name value => [.add (.table name .whole) value.toJson]) tableChanges

/-- The operations that turn `old` into `new`: removals, then adds, then replacements. -/
def diff (old new : Schema) : List Operation :=
  let all := changes old new
  removals old new ++ all.filter (fun op => op.verb == .add) ++
    all.filter fun op => op.verb == .replace

end SchemaEvolution.Patch
