import SchemaEvolution.Json.Shape
import SchemaEvolution.Schema.Basic

/-!
# Schemas as JSON documents

The document form of every part of a schema, and the shape that reads it back.
-/

namespace SchemaEvolution

open Json (Shape Fields)

def optionalText : Option String → Json
  | some value => .string value
  | none => .null

def texts (values : List String) : Json := .array (values.map .string)

def keyedJson {α : Type} (view : α → Json) (entries : Keyed α) : Json :=
  .object (entries.toList.map fun entry => (entry.1, view entry.2))

def DefaultValue.toJson : DefaultValue → Json
  | .boolean value => .bool value
  | .number value => .number value
  | .text value => .string value

/-- The text of a default without any quotes. -/
def DefaultValue.display : DefaultValue → String
  | .boolean true => "true"
  | .boolean false => "false"
  | .number value => value.text
  | .text value => value

def optionalDefault : Option DefaultValue → Json
  | some value => value.toJson
  | none => .null

def Column.toJson (column : Column) : Json :=
  .object [("name", .string column.name), ("type", .string column.type),
    ("default", optionalDefault column.default), ("check", optionalText column.check),
    ("notNull", .bool column.notNull), ("comment", optionalText column.comment)]

def Index.toJson (index : Index) : Json :=
  .object [("name", .string index.name), ("unique", .bool index.unique),
    ("columns", texts index.columns), ("type", .string index.type)]

def ForeignKeyAction.toJson (action : ForeignKeyAction) : Json := .string action.label

def Constraint.toJson (constraint : Constraint) : Json :=
  .object <| ("type", .string constraint.rule.kind) :: ("name", .string constraint.name) ::
    match constraint.rule with
    | .primaryKey columns | .unique columns => [("columnNames", texts columns)]
    | .check condition => [("detail", .string condition)]
    | .foreignKey key =>
      [("columnNames", texts key.columns), ("targetTableName", .string key.targetTable),
        ("targetColumnNames", texts key.targetColumns), ("updateConstraint", key.onUpdate.toJson),
        ("deleteConstraint", key.onDelete.toJson)]

def Table.toJson (table : Table) : Json :=
  .object [("name", .string table.name), ("comment", optionalText table.comment),
    ("columns", keyedJson Column.toJson table.columns),
    ("indexes", keyedJson Index.toJson table.indexes),
    ("constraints", keyedJson Constraint.toJson table.constraints)]

def EnumType.toJson (type : EnumType) : Json :=
  .object [("name", .string type.name), ("values", texts type.values),
    ("comment", optionalText type.comment)]

def Extension.toJson (extension : Extension) : Json :=
  .object [("name", .string extension.name), ("schema", optionalText extension.schema),
    ("version", optionalText extension.version), ("comment", optionalText extension.comment)]

def Schema.toJson (schema : Schema) : Json :=
  .object [("tables", keyedJson Table.toJson schema.tables),
    ("enums", keyedJson EnumType.toJson schema.enums),
    ("extensions", keyedJson Extension.toJson schema.extensions)]

def DefaultValue.shape : Shape DefaultValue :=
  .whole fun
    | .bool value => .ok (.boolean value)
    | .number value => .ok (.number value)
    | .string value => .ok (.text value)
    | _ => .error (.noVariant "DefaultValue")

def ForeignKeyAction.shape : Shape ForeignKeyAction :=
  .choice (ForeignKeyAction.all.map fun action => (action.label, action))

/-- A text that may be absent or null. -/
def optionalField {β σ : Type} (name : String) (rest : Fields β σ) :
    Fields (Option String × β) (Option (Option String) × σ) :=
  .cons name (.optional .text) (some none) rest

def textsField {β σ : Type} (name : String) (rest : Fields β σ) :
    Fields (List String × β) (Option (List String) × σ) :=
  .cons name (.list .text) (some []) rest

def textField {β σ : Type} (name : String) (rest : Fields β σ) :
    Fields (String × β) (Option String × σ) :=
  .cons name .text none rest

def Column.shape : Shape Column :=
  .record "struct Column"
    (textField "name" <| textField "type" <|
      .cons "default" (.optional DefaultValue.shape) (some none) <| optionalField "check" <|
      .cons "notNull" .flag (some false) <| optionalField "comment" .nil)
    fun (name, type, default, check, notNull, comment, ()) =>
      ⟨name, type, default, check, notNull, comment⟩

def Index.shape : Shape Index :=
  .record "struct Index"
    (textField "name" <| .cons "unique" .flag (some false) <| textsField "columns" <|
      .cons "type" .text (some "") .nil)
    fun (name, unique, columns, type, ()) => ⟨name, unique, columns, type⟩

def namedColumns (record : String) (make : List String → Rule) : Shape Constraint :=
  .record record (textField "name" <| textsField "columnNames" .nil)
    fun (name, columns, ()) => ⟨name, make columns⟩

def ForeignKey.shape : Shape Constraint :=
  .record "struct ForeignKeyConstraint"
    (textField "name" <| textsField "columnNames" <| textField "targetTableName" <|
      textsField "targetColumnNames" <|
      .cons "updateConstraint" ForeignKeyAction.shape (some .noAction) <|
      .cons "deleteConstraint" ForeignKeyAction.shape (some .noAction) .nil)
    fun (name, columns, targetTable, targetColumns, onUpdate, onDelete, ()) =>
      .foreignKey name ⟨columns, targetTable, targetColumns, onUpdate, onDelete⟩

def Constraint.checkShape : Shape Constraint :=
  .record "struct CheckConstraint" (textField "name" <| textField "detail" .nil)
    fun (name, condition, ()) => .check name condition

def Constraint.shape : Shape Constraint :=
  .tagged "Constraint" "type"
    [("PRIMARY KEY", (namedColumns "struct PrimaryKeyConstraint" .primaryKey).decode .setAside),
      ("FOREIGN KEY", ForeignKey.shape.decode .setAside),
      ("UNIQUE", (namedColumns "struct UniqueConstraint" .unique).decode .setAside),
      ("CHECK", Constraint.checkShape.decode .setAside)]

def Table.shape : Shape Table :=
  .record "struct Table"
    (textField "name" <| optionalField "comment" <|
      .cons "columns" (.keyed Column.shape) (some ∅) <|
      .cons "indexes" (.keyed Index.shape) (some ∅) <|
      .cons "constraints" (.keyed Constraint.shape) (some ∅) .nil)
    fun (name, comment, columns, indexes, constraints, ()) =>
      ⟨name, comment, columns, indexes, constraints⟩

def EnumType.shape : Shape EnumType :=
  .record "struct Enum" (textField "name" <| textsField "values" <| optionalField "comment" .nil)
    fun (name, values, comment, ()) => ⟨name, values, comment⟩

def Extension.shape : Shape Extension :=
  .record "struct Extension"
    (textField "name" <| optionalField "schema" <| optionalField "version" <|
      optionalField "comment" .nil)
    fun (name, schema, version, comment, ()) => ⟨name, schema, version, comment⟩

def Schema.shape : Shape Schema :=
  .record "struct Schema"
    (.cons "tables" (.keyed Table.shape) (some ∅) <|
      .cons "enums" (.keyed EnumType.shape) (some ∅) <|
      .cons "extensions" (.keyed Extension.shape) (some ∅) .nil)
    fun (tables, enums, extensions, ()) => ⟨tables, enums, extensions⟩

end SchemaEvolution
