import Mathlib.Data.List.Nodup
import SchemaEvolution.Proofs.Keyed.Lookup
import SchemaEvolution.Proofs.Source.WellKeyed

/-!
# Tables of Prisma models

A scalar field gives its table a column under the database name of the field, and nothing else
gives or takes one: keys over several columns only require them, relation fields only add foreign
keys.  Foreign keys in turn come from relation fields only.  A relation field is one whose type is a
model, so its model is there when the field is converted, and nothing is reported of it.
-/

namespace SchemaEvolution.Prisma

variable {d : Declarations} {model target : Model} {field : Field} {table : Table}
  {state : Table × List Diagnostic}

/-- A field that is not ignored and whose type is no model. -/
def Declarations.IsScalar (d : Declarations) (field : Field) : Prop :=
  field.has "ignore" = false ∧ d.model? field.type = none

/-- A field that is not ignored and whose type is a given model. -/
def Declarations.IsRelation (d : Declarations) (field : Field) (target : Model) : Prop :=
  field.has "ignore" = false ∧ d.model? field.type = some target

/-- The foreign key of a field to a given model, where the field lists its own side. -/
def keyTo? (d : Declarations) (model target : Model) (field : Field) : Option Constraint :=
  field.ownSide?.map fun (attr, fields) => foreignKeyTo d model target field attr fields

/-- The model of a field is found again, so no relation is reported. -/
theorem relation?_eq (htarget : d.model? field.type = some target) :
    relation? d model field = .ok (keyTo? d model target field) := by
  rw [relation?, keyTo?, htarget]
  cases field.ownSide? <;> rfl

theorem addField_of_ignored (hignored : field.has "ignore" = true) :
    addField d model state field = state := if_pos hignored

theorem addField_of_scalar (hscalar : d.IsScalar field) :
    addField d model state field = (addColumn d field state.1, state.2) := by
  rw [addField, hscalar.1, hscalar.2]
  rfl

theorem addField_of_relation (hrelation : d.IsRelation field target) :
    addField d model state field =
      ((keyTo? d model target field).elim state.1 state.1.addConstraint, state.2) := by
  rw [addField, hrelation.1, relation?_eq hrelation.2, hrelation.2]
  cases keyTo? d model target field <;> rfl

/-- A field is ignored, a column or a relation. -/
theorem Declarations.cases_field (d : Declarations) (field : Field) :
    field.has "ignore" = true ∨ d.IsScalar field ∨ ∃ target, d.IsRelation field target := by
  cases hignored : field.has "ignore" with
  | true => exact .inl rfl
  | false =>
    cases hmodel : d.model? field.type with
    | none => exact .inr (.inl ⟨hignored, hmodel⟩)
    | some target => exact .inr (.inr ⟨target, hignored, hmodel⟩)

/-- A field is never reported. -/
theorem addField_warnings (d : Declarations) (model : Model) (state : Table × List Diagnostic)
    (field : Field) : (addField d model state field).2 = state.2 := by
  rcases d.cases_field field with hignored | hscalar | ⟨target, hrelation⟩
  · rw [addField_of_ignored hignored]
  · rw [addField_of_scalar hscalar]
  · rw [addField_of_relation hrelation]

theorem tableOf_warnings (d : Declarations) (model : Model) : (tableOf d model).2 = [] := by
  have hfields (fields : List Field) (state : Table × List Diagnostic) :
      (fields.foldl (addField d model) state).2 = state.2 := by
    induction fields generalizing state with
    | nil => rfl
    | cons field more ih => exact (ih _).trans (addField_warnings d model state field)
  exact hfields model.fields _

/-- Blocks are converted without a warning. -/
theorem schemaOf_warnings (blocks : List Block) : (schemaOf blocks).2 = [] := by
  refine List.flatMap_eq_nil_iff.2 fun converted hmem => ?_
  obtain ⟨model, -, rfl⟩ := List.mem_map.1 hmem
  exact tableOf_warnings _ model

/-- A field adds its column under its name in the database. -/
theorem addColumn_columns (d : Declarations) (field : Field) (table : Table) :
    (addColumn d field table).columns =
      table.columns.insert field.databaseName (columnOf d field) := by
  unfold addColumn
  extract_lets column withKey withIndex
  have hkey : withKey.columns = table.columns := by
    simp only [withKey]
    split <;> rfl
  have hindex : withIndex.columns = withKey.columns := by
    simp only [withIndex]
    split <;> rfl
  rw [Table.addColumn, hindex, hkey]
  rfl

/-- After a field the columns are those before it and its own, if it is a scalar. -/
theorem mem_columns_addField (name : String) :
    name ∈ (addField d model state field).1.columns.keys ↔
      name ∈ state.1.columns.keys ∨ d.IsScalar field ∧ field.databaseName = name := by
  rcases d.cases_field field with hignored | hscalar | ⟨target, hrelation⟩
  · rw [addField_of_ignored hignored]
    simp only [Declarations.IsScalar, hignored, Bool.true_eq_false, false_and, or_false]
  · rw [addField_of_scalar hscalar, addColumn_columns, Keyed.mem_keys_iff, Keyed.mem_keys_iff]
    simp only [Keyed.get?_insert, hscalar, true_and]
    split
    · next hname => simp only [hname, Option.some.injEq, exists_eq', or_true]
    · next hname => simp only [hname, or_false]
  · have hcolumns : (addField d model state field).1.columns = state.1.columns := by
      rw [addField_of_relation hrelation]
      cases keyTo? d model target field <;> rfl
    simp only [hcolumns, Declarations.IsScalar, hrelation.2, reduceCtorEq, and_false, false_and,
      or_false]

theorem mem_columns_foldl_addField (fields : List Field) (name : String) :
    name ∈ (fields.foldl (addField d model) state).1.columns.keys ↔
      name ∈ state.1.columns.keys ∨
        ∃ field ∈ fields, d.IsScalar field ∧ field.databaseName = name := by
  induction fields generalizing state with
  | nil => simp only [List.foldl_nil, List.not_mem_nil, false_and, exists_false, or_false]
  | cons field more ih =>
    rw [List.foldl_cons, ih, mem_columns_addField, or_assoc]
    simp only [List.mem_cons, or_and_right, exists_or, exists_eq_left]

/-- A key requires the columns that it covers where they are. -/
theorem columns_addAttribute_keys (attr : Attribute) :
    (addAttribute d model table attr).columns.keys = table.columns.keys := by
  have hrequired (columns : List String) (start : Keyed Column) :
      (columns.foldl (fun found column =>
        found.update column fun column => { column with notNull := true }) start).keys =
        start.keys := by
    induction columns generalizing start with
    | nil => rfl
    | cons column more ih => rw [List.foldl_cons, ih, Keyed.keys_update]
  unfold addAttribute
  extract_lets fields columns label method
  split
  · exact hrequired columns table.columns
  all_goals rfl

/-- The columns of the table of a model are its scalar fields under their database names. -/
theorem mem_columns_tableOf (d : Declarations) (model : Model) (name : String) :
    name ∈ (tableOf d model).1.columns.keys ↔
      ∃ field ∈ model.fields, d.IsScalar field ∧ field.databaseName = name := by
  have hattributes (attributes : List Attribute) (start : Table) :
      (attributes.foldl (addAttribute d model) start).columns.keys = start.columns.keys := by
    induction attributes generalizing start with
    | nil => rfl
    | cons attr more ih => rw [List.foldl_cons, ih, columns_addAttribute_keys]
  refine (Eq.to_iff (congrArg (name ∈ ·) (hattributes model.attributes _))).trans ?_
  rw [mem_columns_foldl_addField]
  exact or_iff_right nofun

/-- A foreign key that a field or an attribute adds to a table is that of a relation field. -/
theorem foreignKey_of_addField {label name : String} {key : ForeignKey}
    (hkey : (addField d model state field).1.constraints.get? name =
      some (.foreignKey label key)) :
    state.1.constraints.get? name = some (.foreignKey label key) ∨
      ∃ target, d.IsRelation field target ∧
        relation? d model field = .ok (some (.foreignKey label key)) := by
  rcases d.cases_field field with hignored | hscalar | ⟨target, hrelation⟩
  · rw [addField_of_ignored hignored] at hkey
    exact .inl hkey
  · rw [addField_of_scalar hscalar] at hkey
    unfold addColumn at hkey
    extract_lets column withKey withIndex at hkey
    have hindex : withIndex.constraints = withKey.constraints := by
      simp only [withIndex]
      split <;> rfl
    change withIndex.constraints.get? name = _ at hkey
    rw [hindex] at hkey
    simp only [withKey] at hkey
    split at hkey
    · rw [Table.addConstraint, Keyed.get?_insert] at hkey
      split at hkey
      · cases hkey
      · exact .inl hkey
    · exact .inl hkey
  · rw [addField_of_relation hrelation] at hkey
    cases hadded : keyTo? d model target field with
    | none =>
      rw [hadded] at hkey
      exact .inl hkey
    | some constraint =>
      rw [hadded, Option.elim_some, Table.addConstraint, Keyed.get?_insert] at hkey
      split at hkey
      · refine .inr ⟨target, hrelation, ?_⟩
        rw [relation?_eq hrelation.2, hadded, hkey]
      · exact .inl hkey

theorem foreignKey_of_addAttribute {attr : Attribute} {label name : String} {key : ForeignKey}
    (hkey : (addAttribute d model table attr).constraints.get? name =
      some (.foreignKey label key)) :
    table.constraints.get? name = some (.foreignKey label key) := by
  unfold addAttribute at hkey
  extract_lets fields columns method at hkey
  split at hkey
  · rw [Table.addConstraint, Keyed.get?_insert] at hkey
    split at hkey
    · cases hkey
    · exact hkey
  all_goals exact hkey

/-- The foreign keys of the table of a model are those of its relation fields. -/
theorem foreignKey_of_tableOf {label name : String} {key : ForeignKey}
    (hkey : (tableOf d model).1.constraints.get? name = some (.foreignKey label key)) :
    ∃ field ∈ model.fields, ∃ target, d.IsRelation field target ∧
      relation? d model field = .ok (some (.foreignKey label key)) := by
  have hattributes (attributes : List Attribute) (start : Table)
      (hkey : (attributes.foldl (addAttribute d model) start).constraints.get? name =
        some (.foreignKey label key)) :
      start.constraints.get? name = some (.foreignKey label key) := by
    induction attributes generalizing start with
    | nil => exact hkey
    | cons attr more ih => exact foreignKey_of_addAttribute (ih _ hkey)
  have hfields (fields : List Field) (start : Table × List Diagnostic)
      (hkey : (fields.foldl (addField d model) start).1.constraints.get? name =
        some (.foreignKey label key)) :
      start.1.constraints.get? name = some (.foreignKey label key) ∨
        ∃ field ∈ fields, ∃ target, d.IsRelation field target ∧
          relation? d model field = .ok (some (.foreignKey label key)) := by
    induction fields generalizing start with
    | nil => exact .inl hkey
    | cons field more ih =>
      rcases ih _ hkey with hstart | ⟨other, hmem, hother⟩
      · exact (foreignKey_of_addField hstart).imp_right fun hadded =>
          ⟨field, List.mem_cons_self, hadded⟩
      · exact .inr ⟨other, List.mem_cons_of_mem _ hmem, hother⟩
  rcases hfields model.fields _ (hattributes model.attributes _ hkey) with hstart | hadded
  · cases hstart
  · exact hadded

/-! ## Tables of the schema -/

theorem tableOf_name (d : Declarations) (model : Model) :
    (tableOf d model).1.name = model.databaseName := (staysKeyed_tableOf d model).name

theorem schemaOf_tables (blocks : List Block) :
    (schemaOf blocks).1.tables = (Declarations.ofBlocks blocks).models.foldl
      (fun found model => found.insert model.databaseName
        (tableOf (Declarations.ofBlocks blocks) model).1) ∅ := by
  rw [schemaOf, Schema.foldl_addTable, Schema.foldl_addEnum]
  dsimp only
  rw [List.foldl_map, List.foldl_map]
  simp only [tableOf_name]
  rfl

/-- Of models with one database name the last one gives the table.  Where no two have the same
one, each model has its table under it. -/
theorem get?_schemaOf_tables {blocks : List Block}
    (hdatabase : ((Declarations.ofBlocks blocks).models.map Model.databaseName).Nodup)
    {model : Model} (hmem : model ∈ (Declarations.ofBlocks blocks).models) :
    (schemaOf blocks).1.tables.get? model.databaseName =
      some (tableOf (Declarations.ofBlocks blocks) model).1 := by
  rw [schemaOf_tables]
  refine Keyed.get?_foldl_insert (fun other hother hname => ?_) ∅ (.inr ⟨model, hmem, rfl⟩)
  rw [List.inj_on_of_nodup_map hdatabase hother hmem hname]

theorem exists_model_of_table {blocks : List Block} {name : String} {table : Table}
    (htable : (schemaOf blocks).1.tables.get? name = some table) :
    ∃ model ∈ (Declarations.ofBlocks blocks).models,
      (tableOf (Declarations.ofBlocks blocks) model).1 = table := by
  have hvalue := Keyed.mem_values_iff.2 ⟨name, htable⟩
  rw [schemaOf_tables] at hvalue
  rcases Keyed.mem_values_foldl_insert hvalue with hnone | hmodel
  · cases hnone
  · exact hmodel

end SchemaEvolution.Prisma
