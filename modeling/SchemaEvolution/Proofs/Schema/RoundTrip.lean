import SchemaEvolution.Proofs.Json.Spelling
import SchemaEvolution.Schema.Document
import SchemaEvolution.Source

/-!
# Schemas are read back from their documents

The document of every part of a schema spells that part, so it is decoded to it and read as it from
any text of the document, with the entries of every collection in their order.  The document of a
schema nests to six levels of brackets, fewer than a reader allows, and holds no numbers but the
defaults of columns.  So it is read as the schema it was printed from, and it is told from every
other format: it starts with a brace, and its tables are an object and not a list.
-/

namespace SchemaEvolution

open Json (Fields Legible Shape)

variable {α : Type}

theorem spells_optionalText (text : Option String) :
    (Shape.optional .text).Spells text (optionalText text) := by
  cases text with
  | none => rfl
  | some text => exact ⟨nofun, rfl⟩

theorem spells_texts (values : List String) : (Shape.list .text).Spells values (texts values) := by
  refine ⟨_, rfl, ?_⟩
  rw [List.forall₂_map_right_iff, List.forall₂_same]
  exact fun _ _ => rfl

theorem spells_default (value : DefaultValue) : DefaultValue.shape.Spells value value.toJson := by
  cases value <;> rfl

theorem spells_optionalDefault (default : Option DefaultValue) :
    (Shape.optional DefaultValue.shape).Spells default (optionalDefault default) := by
  cases default with
  | none => rfl
  | some value => exact ⟨by cases value <;> nofun, spells_default value⟩

theorem spells_action (action : ForeignKeyAction) :
    ForeignKeyAction.shape.Spells action action.toJson := by
  cases action <;> exact ⟨_, rfl, rfl⟩

/-- A collection is spelled entry by entry, in order. -/
theorem spells_keyedJson {shape : Shape α} {view : α → Json} (entries : Keyed α)
    (hentry : ∀ entry : α, shape.Spells entry (view entry)) :
    (Shape.keyed shape).Spells entries (keyedJson view entries) := by
  refine ⟨_, rfl, ?_⟩
  rw [List.forall₂_map_right_iff, List.forall₂_same]
  exact fun entry _ => ⟨rfl, hentry entry.2⟩

theorem Column.spells_toJson (column : Column) : Column.shape.Spells column column.toJson := by
  obtain ⟨name, type, default, check, notNull, comment⟩ := column
  refine ⟨(name, type, default, check, notNull, comment, ()), _, rfl, rfl, by decide, ?_⟩
  exact ⟨_, _, rfl, rfl, _, _, rfl, rfl, _, _, rfl, spells_optionalDefault default,
    _, _, rfl, spells_optionalText check, _, _, rfl, rfl,
    _, _, rfl, spells_optionalText comment, rfl⟩

theorem Index.spells_toJson (index : Index) : Index.shape.Spells index index.toJson := by
  obtain ⟨name, unique, columns, type⟩ := index
  refine ⟨(name, unique, columns, type, ()), _, rfl, rfl, by decide, ?_⟩
  exact ⟨_, _, rfl, rfl, _, _, rfl, rfl, _, _, rfl, spells_texts columns, _, _, rfl, rfl, rfl⟩

theorem EnumType.spells_toJson (type : EnumType) : EnumType.shape.Spells type type.toJson := by
  obtain ⟨name, values, comment⟩ := type
  refine ⟨(name, values, comment, ()), _, rfl, rfl, by decide, ?_⟩
  exact ⟨_, _, rfl, rfl, _, _, rfl, spells_texts values,
    _, _, rfl, spells_optionalText comment, rfl⟩

theorem Extension.spells_toJson (extension : Extension) :
    Extension.shape.Spells extension extension.toJson := by
  obtain ⟨name, schema, version, comment⟩ := extension
  refine ⟨(name, schema, version, comment, ()), _, rfl, rfl, by decide, ?_⟩
  exact ⟨_, _, rfl, rfl, _, _, rfl, spells_optionalText schema,
    _, _, rfl, spells_optionalText version, _, _, rfl, spells_optionalText comment, rfl⟩

/-! ## Constraints

The members after the tag spell the constraint through the shape of its kind. -/

theorem spells_namedColumns (record : String) (make : List String → Rule) (name : String)
    (columns : List String) :
    (namedColumns record make).Spells ⟨name, make columns⟩
      (.object [("name", .string name), ("columnNames", texts columns)]) := by
  refine ⟨(name, columns, ()), _, rfl, rfl, by decide, ?_⟩
  exact ⟨_, _, rfl, rfl, _, _, rfl, spells_texts columns, rfl⟩

theorem spells_check (name condition : String) :
    Constraint.checkShape.Spells (.check name condition)
      (.object [("name", .string name), ("detail", .string condition)]) := by
  refine ⟨(name, condition, ()), _, rfl, rfl, by decide, ?_⟩
  exact ⟨_, _, rfl, rfl, _, _, rfl, rfl, rfl⟩

theorem spells_foreignKey (name : String) (key : ForeignKey) :
    ForeignKey.shape.Spells (.foreignKey name key)
      (.object [("name", .string name), ("columnNames", texts key.columns),
        ("targetTableName", .string key.targetTable),
        ("targetColumnNames", texts key.targetColumns), ("updateConstraint", key.onUpdate.toJson),
        ("deleteConstraint", key.onDelete.toJson)]) := by
  obtain ⟨columns, targetTable, targetColumns, onUpdate, onDelete⟩ := key
  refine ⟨(name, columns, targetTable, targetColumns, onUpdate, onDelete, ()), _, rfl, rfl,
    by decide, ?_⟩
  exact ⟨_, _, rfl, rfl, _, _, rfl, spells_texts columns, _, _, rfl, rfl,
    _, _, rfl, spells_texts targetColumns, _, _, rfl, spells_action onUpdate,
    _, _, rfl, spells_action onDelete, rfl⟩

/-- The document of a constraint spells it, whichever kind it is. -/
theorem Constraint.spells_toJson (constraint : Constraint) :
    Constraint.shape.Spells constraint constraint.toJson := by
  obtain ⟨name, rule⟩ := constraint
  cases rule with
  | primaryKey columns =>
    exact ⟨_, _, _, rfl, by simp, rfl, Shape.decode_of_spells .setAside _
      (spells_namedColumns "struct PrimaryKeyConstraint" .primaryKey name columns)⟩
  | unique columns =>
    exact ⟨_, _, _, rfl, by simp, rfl, Shape.decode_of_spells .setAside _
      (spells_namedColumns "struct UniqueConstraint" .unique name columns)⟩
  | check condition =>
    exact ⟨_, _, _, rfl, by simp, rfl, Shape.decode_of_spells .setAside _
      (spells_check name condition)⟩
  | foreignKey key =>
    exact ⟨_, _, _, rfl, by simp, rfl, Shape.decode_of_spells .setAside _
      (spells_foreignKey name key)⟩

theorem Table.spells_toJson (table : Table) : Table.shape.Spells table table.toJson := by
  obtain ⟨name, comment, columns, indexes, constraints⟩ := table
  refine ⟨(name, comment, columns, indexes, constraints, ()), _, rfl, rfl, by decide, ?_⟩
  exact ⟨_, _, rfl, rfl, _, _, rfl, spells_optionalText comment,
    _, _, rfl, spells_keyedJson columns Column.spells_toJson,
    _, _, rfl, spells_keyedJson indexes Index.spells_toJson,
    _, _, rfl, spells_keyedJson constraints Constraint.spells_toJson, rfl⟩

/-- The document of a schema spells it, with every collection in its order. -/
theorem Schema.spells_toJson (schema : Schema) : Schema.shape.Spells schema schema.toJson := by
  obtain ⟨tables, enums, extensions⟩ := schema
  refine ⟨(tables, enums, extensions, ()), _, rfl, rfl, by decide, ?_⟩
  exact ⟨_, _, rfl, spells_keyedJson tables Table.spells_toJson,
    _, _, rfl, spells_keyedJson enums EnumType.spells_toJson,
    _, _, rfl, spells_keyedJson extensions Extension.spells_toJson, rfl⟩

/-- Every number that is the default of a column is read back from its text. -/
def Schema.NumbersReadBack (schema : Schema) : Prop :=
  ∀ table ∈ schema.tables.toList, ∀ column ∈ table.2.columns.toList,
    ∀ number, column.2.default = some (.number number) → number.ReadsBack

variable {depth : Nat}

theorem legible_optionalText (text : Option String) : Legible depth (optionalText text) := by
  cases text with
  | none => exact .null
  | some text => exact .string text

theorem legible_texts (values : List String) : Legible (depth + 1) (texts values) := by
  refine .array fun item hmem => ?_
  obtain ⟨value, -, rfl⟩ := List.mem_map.1 hmem
  exact .string value

theorem legible_keyedJson {view : α → Json} {entries : Keyed α}
    (hentry : ∀ entry ∈ entries.toList, Legible depth (view entry.2)) :
    Legible (depth + 1) (keyedJson view entries) := by
  refine .object fun member hmem => ?_
  obtain ⟨entry, hentryMem, rfl⟩ := List.mem_map.1 hmem
  exact hentry entry hentryMem

theorem legible_optionalDefault {default : Option DefaultValue}
    (hnumber : ∀ number, default = some (.number number) → number.ReadsBack) :
    Legible depth (optionalDefault default) := by
  match default with
  | none => exact .null
  | some (.boolean value) => exact .bool value
  | some (.number number) => exact .number (hnumber number rfl)
  | some (.text text) => exact .string text

theorem Column.legible_toJson {column : Column}
    (hnumber : ∀ number, column.default = some (.number number) → number.ReadsBack) :
    Legible (depth + 1) column.toJson := by
  refine .object ?_
  simp only [List.forall_mem_cons]
  exact ⟨.string _, .string _, legible_optionalDefault hnumber, legible_optionalText _, .bool _,
    legible_optionalText _, List.forall_mem_nil _⟩

theorem Index.legible_toJson (index : Index) : Legible (depth + 2) index.toJson := by
  refine .object ?_
  simp only [List.forall_mem_cons]
  exact ⟨.string _, .bool _, legible_texts _, .string _, List.forall_mem_nil _⟩

/-- The document of a constraint has two levels of brackets at most. -/
theorem Constraint.legible_toJson (constraint : Constraint) :
    Legible (depth + 2) constraint.toJson := by
  obtain ⟨name, rule⟩ := constraint
  refine .object ?_
  cases rule <;> simp only [List.forall_mem_cons]
  case primaryKey columns => exact ⟨.string _, .string _, legible_texts _, List.forall_mem_nil _⟩
  case unique columns => exact ⟨.string _, .string _, legible_texts _, List.forall_mem_nil _⟩
  case check condition => exact ⟨.string _, .string _, .string _, List.forall_mem_nil _⟩
  case foreignKey key =>
    exact ⟨.string _, .string _, legible_texts _, .string _, legible_texts _, .string _, .string _,
      List.forall_mem_nil _⟩

theorem Table.legible_toJson {table : Table}
    (hnumbers : ∀ column ∈ table.columns.toList, ∀ number,
      column.2.default = some (.number number) → number.ReadsBack) :
    Legible (depth + 4) table.toJson := by
  refine .object ?_
  simp only [List.forall_mem_cons]
  exact ⟨.string _, legible_optionalText _,
    legible_keyedJson fun column hmem => column.2.legible_toJson (hnumbers column hmem),
    legible_keyedJson fun index _ => index.2.legible_toJson,
    legible_keyedJson fun constraint _ => constraint.2.legible_toJson, List.forall_mem_nil _⟩

theorem EnumType.legible_toJson (type : EnumType) : Legible (depth + 2) type.toJson := by
  refine .object ?_
  simp only [List.forall_mem_cons]
  exact ⟨.string _, legible_texts _, legible_optionalText _, List.forall_mem_nil _⟩

theorem Extension.legible_toJson (extension : Extension) :
    Legible (depth + 1) extension.toJson := by
  refine .object ?_
  simp only [List.forall_mem_cons]
  exact ⟨.string _, legible_optionalText _, legible_optionalText _, legible_optionalText _,
    List.forall_mem_nil _⟩

theorem Schema.legible_toJson {schema : Schema} (hnumbers : schema.NumbersReadBack) :
    Legible (depth + 6) schema.toJson := by
  refine .object ?_
  simp only [List.forall_mem_cons]
  exact ⟨legible_keyedJson fun table hmem => table.2.legible_toJson (hnumbers table hmem),
    legible_keyedJson fun type _ => type.2.legible_toJson,
    legible_keyedJson fun extension _ => extension.2.legible_toJson, List.forall_mem_nil _⟩

variable {schema : Schema}

theorem Schema.written_toDocument (hnumbers : schema.NumbersReadBack) :
    Json.Written 127 schema.toJson schema.toDocument.toList := by
  have hlegible : Legible (121 + 6) schema.toJson := schema.legible_toJson hnumbers
  rw [toDocument, Json.indented, String.toList_ofList]
  exact hlegible.written_indented 0

/-- The document of a schema has the shape of a schema, and is that schema. -/
theorem Schema.parse_toDocument (hnumbers : schema.NumbersReadBack) :
    Schema.shape.parse schema.toDocument = .ok schema :=
  Json.readText_of_reads (Schema.shape.reads_of_spells schema.spells_toJson
    (Schema.written_toDocument hnumbers))

theorem Schema.ofDocument_toDocument (hnumbers : schema.NumbersReadBack) :
    Schema.ofDocument schema.toDocument = ⟨schema, []⟩ := by
  rw [ofDocument, parse_toDocument hnumbers]

/-- The tables of a document are an object. -/
theorem Schema.listsTables_toDocument (hnumbers : schema.NumbersReadBack) :
    Format.listsTables schema.toDocument.toList = false := by
  have hread : Json.readText (Json.readAny Json.depthLimit) schema.toDocument =
      .ok schema.toJson := Json.readText_of_reads (Schema.written_toDocument hnumbers).reads
  have hparse : Json.parse schema.toDocument = .ok schema.toJson.distinct := by
    rw [Json.parse, hread]
    rfl
  have htables : schema.toJson.distinct.member? "tables" =
      some (keyedJson Table.toJson schema.tables).distinct := by
    simp [toJson, Json.distinct, Json.distinctMembers, Keyed.put, Json.member?, Keyed.find?]
  rw [Format.listsTables, String.ofList_toList, hparse]
  simp only [htables]
  rfl

/-- A document starts with a brace. -/
theorem Schema.toList_toDocument (schema : Schema) :
    ∃ rest, schema.toDocument.toList = '\x7b' :: rest := by
  rw [toDocument, Json.indented, String.toList_ofList]
  exact ⟨_, rfl⟩

/-- The document of a schema is taken for one, and not for the text of another format. -/
theorem Schema.detect_toDocument (hnumbers : schema.NumbersReadBack) :
    Format.detect schema.toDocument = .native := by
  have hlists := Schema.listsTables_toDocument hnumbers
  obtain ⟨rest, hbrace⟩ := schema.toList_toDocument
  have htrim : Text.trimStart schema.toDocument.toList = schema.toDocument.toList := by
    rw [hbrace]
    rfl
  have hhead : (schema.toDocument.toList.head? == some '\x7b') = true := by
    rw [hbrace]
    rfl
  simp only [Format.detect, htrim]
  rw [if_pos hhead, hlists]
  rfl

/-- The document of a schema is read without diagnostics as that schema, with every collection
in its order, and is never taken for a source in another format. -/
theorem importSource_toDocument (schema : Schema) (hnumbers : schema.NumbersReadBack) :
    importSource .native schema.toDocument = ⟨schema, []⟩ ∧
      importSource .auto schema.toDocument = ⟨schema, []⟩ ∧
      Format.detect schema.toDocument = .native := by
  have hread := Schema.ofDocument_toDocument hnumbers
  have hdetect := Schema.detect_toDocument hnumbers
  refine ⟨hread, ?_, hdetect⟩
  rw [importSource, Format.resolve, hdetect]
  exact hread

def oddTable : Table where
  name := "b"
  comment := some "tab\tand \"quotes\""
  columns := (Keyed.empty.insert "n"
      ⟨"n", "int", some (.number (.integer (-5))), none, false, none⟩).insert "t"
    ⟨"t", "text", some (.text "-5"), none, true, none⟩
  indexes := ∅
  constraints := ∅

/-- A schema with a line break in a key that is not the name of its entry, and with a number and
a text of the same look as defaults. -/
def oddSchema : Schema := ⟨Keyed.empty.insert "a\n\\" oddTable, ∅, ∅⟩

theorem importSource_toDocument_odd :
    importSource .auto oddSchema.toDocument = ⟨oddSchema, []⟩ := by
  refine (importSource_toDocument oddSchema ?_).2.1
  intro table htable column hcolumn number hdefault
  cases List.mem_singleton.1 (show table ∈ [("a\n\\", oddTable)] from htable)
  have hcolumns : column ∈
      [("n", Column.mk "n" "int" (some (.number (.integer (-5)))) none false none),
        ("t", Column.mk "t" "text" (some (.text "-5")) none true none)] := hcolumn
  rcases List.mem_pair.1 hcolumns with rfl | rfl
  · cases hdefault
    rfl
  · cases hdefault

end SchemaEvolution
