import SchemaEvolution.Diagnostic
import SchemaEvolution.Numeral.Reader
import SchemaEvolution.Schema.Naming
import SchemaEvolution.SchemaRb.Call
import SchemaEvolution.Text.Search

/-!
# What calls define

Columns, indexes, constraints and whole tables, as the calls of a schema file define them.
-/

namespace SchemaEvolution.SchemaRb

def singular (table : String) : String :=
  match Text.stripEnd? "ies".toList table.toList with
  | some stem => String.ofList (stem ++ ['y'])
  | none =>
    match Text.stripEnd? ['s'] table.toList with
    | some stem => String.ofList stem
    | none => table

def indexName (table : String) (columns : List String) : String :=
  "index_" ++ table ++ "_on_" ++ "_and_".intercalate columns

def numberOption? (call : Call) (key : String) : Option String :=
  match call.option? key with
  | some (.number digits) => some digits
  | _ => none

/-- The SQL type of a column, for the type by which the call names it. -/
def baseType (type : String) (call : Call) : String :=
  let limit := (numberOption? call "limit").bind (Numeral.readUnsigned? UInt32.size)
  match type with
  | "string" =>
    match limit with
    | some size => "varchar(" ++ toString size ++ ")"
    | none => "varchar"
  | "integer" =>
    match limit with
    | some 8 => "bigint"
    | some 1 | some 2 => "smallint"
    | _ => "integer"
  | "float" => "double precision"
  | "decimal" | "numeric" =>
    match numberOption? call "precision", numberOption? call "scale" with
    | some precision, some scale => "numeric(" ++ precision ++ "," ++ scale ++ ")"
    | some precision, none => "numeric(" ++ precision ++ ")"
    | none, _ => "numeric"
  | "datetime" | "timestamp" => "timestamp"
  | "timestamptz" => "timestamp with time zone"
  | "binary" => "bytea"
  | "enum" => (call.optionText? "enum_type").getD "enum"
  | "primary_key" => "serial"
  | other => other

/-- The SQL type of a column, which may be an array. -/
def columnType (type : String) (call : Call) : String :=
  baseType type call ++ if call.optionHolds "array" then "[]" else ""

def Value.default? : Value → Option DefaultValue
  | .string text | .symbol text | .expression text => some (.text text)
  | .number digits => DefaultValue.ofNumeral? digits
  | .boolean value => some (.boolean value)
  | _ => none

def Call.default? (call : Call) : Option DefaultValue :=
  (call.option? "default").bind Value.default?

def columnOf (name type : String) (call : Call) : Column :=
  { name := name
    type := columnType type call
    default := call.default?
    check := none
    notNull := call.optionIsFalse "null"
    comment := call.optionText? "comment" }

def indexOf (table : String) (columns : List String) (call : Call) : Index :=
  { name := (call.optionText? "name").getD (indexName table columns)
    unique := call.optionHolds "unique"
    columns := columns
    type := (call.optionText? "using").getD "btree" }

/-- A check with the name that a call gives it, or with the first free one. -/
def checkOf (condition : String) (table : Table) (call : Call) : Constraint :=
  .check ((call.optionText? "name").getD (Naming.tableCheck table)) condition

/-- The table to which a reference has a foreign key. -/
def referenceTarget? (reference : String) (call : Call) : Option String :=
  match call.option? "foreign_key" with
  | some (.hash entries) =>
    let entry := entries.find? fun entry => entry.1 == "to_table"
    some ((entry.bind fun entry => entry.2.text?).getD (reference ++ "s"))
  | some value => if value.holds then some (reference ++ "s") else none
  | none => none

/-- Adds the column of a reference, with its index and foreign key. -/
def addReference (reference : String) (call : Call) (table : Table) : Table :=
  let name := reference ++ "_id"
  let type := (((call.option? "type").bind Value.text?).map fun type =>
    columnType type call).getD "bigint"
  let table := table.addColumn { Column.plain name type with notNull := call.optionIsFalse "null" }
  let table :=
    if call.optionIsFalse "index" then table
    else table.addIndex ⟨indexName table.name [name], false, [name], "btree"⟩
  match referenceTarget? reference call with
  | none => table
  | some target =>
    table.addConstraint (.foreignKey (Naming.foreignKey table.name [name])
      ⟨[name], target, ["id"], .noAction, .noAction⟩)

/-- Adds what a call in the block of a table defines.  The error is the warning for a call that is
not recognized. -/
def addToTable (receiver : String) (table : Table) (call : Call) : Except Diagnostic Table :=
  match call.name with
  | "index" => .ok (table.addIndex (indexOf table.name (call.argumentTexts 0) call))
  | "timestamps" =>
    let stamp (name : String) : Column :=
      { Column.plain name (columnType "datetime" call) with notNull := !call.optionHolds "null" }
    .ok ((table.addColumn (stamp "created_at")).addColumn (stamp "updated_at"))
  | "references" | "belongs_to" =>
    .ok ((call.argumentText? 0).elim table fun reference => addReference reference call table)
  | "check_constraint" =>
    .ok ((call.argumentText? 0).elim table fun condition =>
      table.addConstraint (checkOf condition table call))
  | "column" =>
    .ok ((call.argumentText? 0).elim table fun name =>
      table.addColumn (columnOf name ((call.argumentText? 1).getD "string") call))
  | type =>
    let names := call.arguments.filterMap Value.text?
    if names.isEmpty then
      .error (.warning ("unrecognized \x60" ++ receiver ++ "." ++ type ++ "\x60 in table " ++
        table.name) (some call.line))
    else .ok (names.foldl (fun table name => table.addColumn (columnOf name type call)) table)

/-- The column that is the key of a table which declares none; none for a table without a key and
for one with a list of key columns. -/
def implicitKey? (call : Call) : Option Column :=
  let key := call.option? "primary_key"
  let id := call.option? "id"
  match id, key with
  | _, some (.array _) => none
  | some (.boolean false), none => none
  | _, _ =>
    let type := match id.bind Value.text? with
      | some "uuid" => "uuid"
      | some "string" => "varchar"
      | some "integer" | some "serial" => "serial"
      | some "bigint" | some "bigserial" | none => "bigserial"
      | some other => columnType other call
    some { Column.plain ((key.bind Value.text?).getD "id") type with
      notNull := true
      default := call.default? }

def compositeKey? (call : Call) : Option (List String) :=
  match call.option? "primary_key" with
  | some (.array items) => some (Value.array items).texts
  | _ => none

def startTable (name : String) (call : Call) : Table :=
  let table := { Table.empty name with comment := call.optionText? "comment" }
  match implicitKey? call with
  | none => table
  | some column =>
    (table.addColumn column).addConstraint (.primaryKey (Naming.primaryKey name) [column.name])

/-- Adds the composite key, whose columns are never null. -/
def finishTable (call : Call) (table : Table) : Table :=
  match compositeKey? call with
  | none => table
  | some columns =>
    let required := columns.foldl (fun found column =>
      found.update column fun column => { column with notNull := true }) table.columns
    { table with columns := required }.addConstraint
      (.primaryKey (Naming.primaryKey table.name) columns)

/-- The table that a call and the calls of its block define, and the warnings about the latter. -/
def tableOf (name receiver : String) (call : Call) (body : List Call) : Table × List Diagnostic :=
  let (table, warnings) := body.foldl (fun (table, warnings) inner =>
    match addToTable receiver table inner with
    | .ok table => (table, warnings)
    | .error warning => (table, warnings ++ [warning])) (startTable name call, [])
  (finishTable call table, warnings)

/-! ## Schemas -/

/-- Changes a table of a schema, or reports that the schema has no such table. -/
def changeTable (schema : Schema) (name : String) (call : Call) (change : Table → Table) :
    Except Diagnostic Schema :=
  if schema.tables.contains name then
    .ok { schema with tables := schema.tables.update name change }
  else .error (.warning (call.name ++ " on unknown table " ++ name) (some call.line))

def actionOf (value : Option Value) : ForeignKeyAction :=
  ((value.bind Value.text?).bind ForeignKeyAction.parse?).getD .noAction

/-- The foreign key from one table to another one that a call defines. -/
def foreignKeyOf (owner target : String) (call : Call) : Constraint :=
  let column := (call.optionText? "column").getD (singular target ++ "_id")
  .foreignKey ((call.optionText? "name").getD (Naming.foreignKey owner [column]))
    { columns := [column]
      targetTable := target
      targetColumns := [(call.optionText? "primary_key").getD "id"]
      onUpdate := actionOf (call.option? "on_update")
      onDelete := actionOf (call.option? "on_delete") }

/-- Adds what a call outside tables defines. -/
def addToSchema (schema : Schema) (call : Call) : Except Diagnostic Schema :=
  let line := some call.line
  match call.name with
  | "enable_extension" =>
    .ok <| (call.argumentText? 0).elim schema fun name =>
      schema.addExtension ⟨name, none, none, none⟩
  | "create_enum" =>
    match call.argumentText? 0 with
    | none => .error (.error "create_enum without a name" line)
    | some name => .ok (schema.addEnum ⟨name, call.argumentTexts 1, none⟩)
  | "add_index" =>
    match call.argumentText? 0 with
    | none => .error (.error "add_index without a table" line)
    | some table => changeTable schema table call fun found =>
        found.addIndex (indexOf table (call.argumentTexts 1) call)
  | "add_check_constraint" =>
    match call.argumentText? 0, call.argumentText? 1 with
    | some table, some condition => changeTable schema table call fun found =>
        found.addConstraint (checkOf condition found call)
    | _, _ => .error (.error "malformed add_check_constraint" line)
  | "add_foreign_key" =>
    match call.argumentText? 0, call.argumentText? 1 with
    | some owner, some target => changeTable schema owner call fun found =>
        found.addConstraint (foreignKeyOf owner target call)
    | _, _ => .error (.error "add_foreign_key needs two tables" line)
  | _ => .ok schema

end SchemaEvolution.SchemaRb
