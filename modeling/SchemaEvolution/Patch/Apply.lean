import SchemaEvolution.Patch.Edit

/-!
# Applying patches

An edit either changes the schema or meets an obstacle and changes nothing.  A patch is
applied operation by operation: in the tolerant way those that are refused are reported and
left out, in the strict way the first refusal ends the run.
-/

namespace SchemaEvolution.Patch

def ListEdit.apply (edit : ListEdit) (values : List String) : Except Obstacle (List String) :=
  match edit with
  | .insert .atEnd value => .ok (values ++ [value])
  | .insert (.at index) value =>
    if values.length < index then .error (.missing (.position index values.length))
    else .ok (values.take index ++ value :: values.drop index)
  | .remove index =>
    if values.length ≤ index then .error (.missing (.position index values.length))
    else .ok (values.eraseIdx index)
  | .replace index value =>
    if values.length ≤ index then .error (.missing (.item index))
    else .ok (values.set index value)

/-- Changes the entry under a name. -/
def changeEntry {α : Type} (entries : Keyed α) (name : String) (absent : Missing)
    (change : α → Except Obstacle α) : Except Obstacle (Keyed α) :=
  match entries.get? name with
  | none => .error (.missing absent)
  | some value => return entries.insert name (← change value)

/-- Gives the entry under a name another name, in place.  Its own name is no obstacle. -/
def renameEntry {α : Type} (entries : Keyed α) (source target : String) (absent : Missing)
    (setName : α → α) : Except Obstacle (Keyed α) :=
  if !entries.contains source then .error (.missing absent)
  else if source = target then .ok entries
  else
    match entries.rename? source target setName with
    | some renamed => .ok renamed
    | none => .error (.value (.nameTaken target))

def ColumnEdit.apply (edit : ColumnEdit) (column : Column) : Column :=
  match edit with
  | .rename new => { column with name := new }
  | .type new => { column with type := new }
  | .default new => { column with default := new }
  | .check new => { column with check := new }
  | .notNull new => { column with notNull := new }
  | .comment new => { column with comment := new }

def IndexEdit.apply (edit : IndexEdit) (index : Index) : Except Obstacle Index :=
  match edit with
  | .rename new => .ok { index with name := new }
  | .unique new => .ok { index with unique := new }
  | .type new => .ok { index with type := new }
  | .columns new => .ok { index with columns := new }
  | .item edit => return { index with columns := ← edit.apply index.columns }

/-- The list of a rule, and the rule with another list in its place. -/
def ConstraintList.of (list : ConstraintList) (rule : Rule) :
    Except Obstacle (List String × (List String → Rule)) :=
  match list, rule with
  | .columns, .primaryKey old => .ok (old, .primaryKey)
  | .columns, .unique old => .ok (old, .unique)
  | .columns, .foreignKey key =>
    .ok (key.columns, fun new => .foreignKey { key with columns := new })
  | .targetColumns, .foreignKey key =>
    .ok (key.targetColumns, fun new => .foreignKey { key with targetColumns := new })
  | _, rule => .error (.value (.noSuchList rule.kind))

def ConstraintEdit.applyRule (edit : ConstraintEdit) (rule : Rule) : Except Obstacle Rule :=
  match edit, rule with
  | .onUpdate new, .foreignKey key => .ok (.foreignKey { key with onUpdate := new })
  | .onDelete new, .foreignKey key => .ok (.foreignKey { key with onDelete := new })
  | .targetTable new, .foreignKey key => .ok (.foreignKey { key with targetTable := new })
  | .targetColumns new, .foreignKey key => .ok (.foreignKey { key with targetColumns := new })
  | .condition new, .check _ => .ok (.check new)
  | .columns new, .primaryKey _ => .ok (.primaryKey new)
  | .columns new, .foreignKey key => .ok (.foreignKey { key with columns := new })
  | .columns new, .unique _ => .ok (.unique new)
  | .item list edit, rule => do
    let (old, replace) ← list.of rule
    return replace (← edit.apply old)
  | _, rule => .error (.value (.noSuchField rule.kind))

def ConstraintEdit.apply (edit : ConstraintEdit) (constraint : Constraint) :
    Except Obstacle Constraint :=
  match edit with
  | .rename new => .ok { constraint with name := new }
  | edit => return { constraint with rule := ← edit.applyRule constraint.rule }

def TableEdit.apply (edit : TableEdit) (table : Table) (key : String) : Except Obstacle Table :=
  match edit with
  | .rename new => .ok { table with name := new }
  | .comment new => .ok { table with comment := new }
  | .putColumn name new => .ok { table with columns := table.columns.insert name new }
  | .removeColumn name => .ok { table with columns := table.columns.erase name }
  | .column name (.rename target) => do
    let columns ← renameEntry table.columns name target (.column key name)
      ((ColumnEdit.rename target).apply)
    return { table with columns }
  | .column name edit => do
    let columns ← changeEntry table.columns name (.column key name) fun column =>
      .ok (edit.apply column)
    return { table with columns }
  | .putIndex name new => .ok { table with indexes := table.indexes.insert name new }
  | .removeIndex name => .ok { table with indexes := table.indexes.erase name }
  | .index name (.rename target) => do
    let indexes ← renameEntry table.indexes name target (.index key name)
      fun index => { index with name := target }
    return { table with indexes }
  | .index name edit => do
    let indexes ← changeEntry table.indexes name (.index key name) edit.apply
    return { table with indexes }
  | .putConstraint name new =>
    .ok { table with constraints := table.constraints.insert name new }
  | .removeConstraint name => .ok { table with constraints := table.constraints.erase name }
  | .constraint name (.rename target) => do
    let constraints ← renameEntry table.constraints name target (.constraint key name)
      fun constraint => { constraint with name := target }
    return { table with constraints }
  | .constraint name edit => do
    let constraints ← changeEntry table.constraints name (.constraint key name) edit.apply
    return { table with constraints }

/-- Whether the edit takes an entry away: then an absent table is as good as an absent entry. -/
def TableEdit.removes : TableEdit → Bool
  | .removeColumn _ | .removeIndex _ | .removeConstraint _ => true
  | _ => false

def EnumEdit.apply (edit : EnumEdit) (type : EnumType) : Except Obstacle EnumType :=
  match edit with
  | .rename new => .ok { type with name := new }
  | .values new => .ok { type with values := new }
  | .comment new => .ok { type with comment := new }
  | .item edit => return { type with values := ← edit.apply type.values }

def ExtensionEdit.apply (edit : ExtensionEdit) (extension : Extension) : Extension :=
  match edit with
  | .schema new => { extension with schema := new }
  | .version new => { extension with version := new }
  | .comment new => { extension with comment := new }

def Edit.apply (edit : Edit) (schema : Schema) : Except Obstacle Schema :=
  match edit with
  | .putTable name new => .ok { schema with tables := schema.tables.insert name new }
  | .removeTable name => .ok { schema with tables := schema.tables.erase name }
  | .table name (.rename target) => do
    let tables ← renameEntry schema.tables name target (.table name)
      fun table => { table with name := target }
    return { schema with tables }
  | .table name edit =>
    if edit.removes && !schema.tables.contains name then .ok schema
    else do
      let tables ← changeEntry schema.tables name (.table name) fun table => edit.apply table name
      return { schema with tables }
  | .putEnum name new => .ok { schema with enums := schema.enums.insert name new }
  | .removeEnum name => .ok { schema with enums := schema.enums.erase name }
  | .enumType name (.rename target) => do
    let enums ← renameEntry schema.enums name target (.enumType name)
      fun type => { type with name := target }
    return { schema with enums }
  | .enumType name edit => do
    let enums ← changeEntry schema.enums name (.enumType name) edit.apply
    return { schema with enums }
  | .putExtension name new =>
    .ok { schema with extensions := schema.extensions.insert name new }
  | .removeExtension name => .ok { schema with extensions := schema.extensions.erase name }
  | .extension name edit => do
    let extensions ← changeEntry schema.extensions name (.extension name) fun extension =>
      .ok (edit.apply extension)
    return { schema with extensions }
  | .hint => .ok schema

/-! ## Patches -/

/-- The schema after one operation, or why it was refused. -/
def Operation.apply (op : Operation) (schema : Schema) : Except Refusal Schema :=
  (do (← op.edit).apply schema : Except Obstacle Schema).mapError fun obstacle =>
    ⟨op.path, obstacle⟩

/-- What a tolerant run gives: the schema, and the refusals in order. -/
structure Outcome where
  schema : Schema
  refusals : List Refusal

def Outcome.step (outcome : Outcome) (op : Operation) : Outcome :=
  match op.apply outcome.schema with
  | .ok new => { outcome with schema := new }
  | .error refusal => { outcome with refusals := outcome.refusals ++ [refusal] }

/-- Applies every operation that is not refused, in order. -/
def applyAll (schema : Schema) (ops : List Operation) : Outcome :=
  ops.foldl Outcome.step ⟨schema, []⟩

/-- Applies all operations in order, up to the first refusal. -/
def applyStrictly (schema : Schema) (ops : List Operation) : Except Refusal Schema :=
  ops.foldlM (fun schema op => op.apply schema) schema

end SchemaEvolution.Patch
