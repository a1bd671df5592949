import SchemaEvolution.Proofs.Keyed.Lookup
import SchemaEvolution.Schema.Basic

/-!
# Well-keyed schemas

A schema is well keyed when every entry of every collection is stored under its own name.
Equality of schemas is equality of what they hold, whatever the order of their entries.
-/

namespace SchemaEvolution

/-- Every entry is stored under its own name. -/
def Keyed.Named {α : Type} (name : α → String) (entries : Keyed α) : Prop :=
  ∀ entry ∈ entries.toList, name entry.2 = entry.1

instance {α : Type} (name : α → String) (entries : Keyed α) : Decidable (entries.Named name) :=
  inferInstanceAs (Decidable (∀ entry ∈ entries.toList, name entry.2 = entry.1))

theorem Keyed.Named.of_get? {α : Type} {name : α → String} {entries : Keyed α}
    (hnamed : entries.Named name) {key : String} {value : α}
    (hvalue : entries.get? key = some value) : name value = key :=
  hnamed (key, value) (Keyed.get?_eq_some_iff.1 hvalue)

theorem Keyed.Named.get?_of_mem {α : Type} {name : α → String} {entries : Keyed α}
    (hnamed : entries.Named name) {value : α} (hmem : value ∈ entries.values) :
    entries.get? (name value) = some value := by
  obtain ⟨key, hkey⟩ := Keyed.mem_values_iff.1 hmem
  rw [hnamed.of_get? hkey, hkey]

theorem Keyed.Named.eq_of_name_eq {α : Type} {name : α → String} {entries : Keyed α}
    (hnamed : entries.Named name) {left right : α} (hleft : left ∈ entries.values)
    (hright : right ∈ entries.values) (hsame : name left = name right) : left = right := by
  have hfound := hnamed.get?_of_mem hleft
  rw [hsame, hnamed.get?_of_mem hright] at hfound
  exact (Option.some.inj hfound).symm

theorem Keyed.Named.map_name {α : Type} {name : α → String} {entries : Keyed α}
    (hnamed : entries.Named name) : entries.values.map name = entries.keys := by
  rw [values, keys, List.map_map]
  exact List.map_congr_left hnamed

theorem Keyed.Named.nodup_values {α : Type} {name : α → String} {entries : Keyed α}
    (hnamed : entries.Named name) : entries.values.Nodup := by
  have hdistinct : (entries.values.map name).Nodup := hnamed.map_name ▸ entries.distinct
  exact List.Pairwise.of_map name (fun _ _ hne heq => hne (congrArg name heq)) hdistinct

theorem Keyed.Named.flatMap_toList {α β : Type} {name : α → String} {entries : Keyed α}
    (hnamed : entries.Named name) (part : String → α → List β) :
    (entries.toList.flatMap fun entry => part entry.1 entry.2) =
      entries.values.flatMap fun value => part (name value) value := by
  rw [values, List.flatMap_map]
  exact List.flatMap_congr fun entry hmem => by rw [hnamed entry hmem]

/-- A property of every entry, wherever it is stored. -/
def Keyed.All {α : Type} (property : α → Prop) (entries : Keyed α) : Prop :=
  ∀ value ∈ entries.values, property value

instance {α : Type} (property : α → Prop) [DecidablePred property] (entries : Keyed α) :
    Decidable (entries.All property) :=
  inferInstanceAs (Decidable (∀ value ∈ entries.values, property value))

theorem Keyed.All.of_get? {α : Type} {property : α → Prop} {entries : Keyed α}
    (hall : entries.All property) {key : String} {value : α}
    (hvalue : entries.get? key = some value) : property value :=
  hall value (Keyed.mem_values_iff.2 ⟨key, hvalue⟩)

/-- Columns, indexes and constraints are stored under their own names. -/
def Table.WellKeyed (table : Table) : Prop :=
  table.columns.Named Column.name ∧ table.indexes.Named Index.name ∧
    table.constraints.Named Constraint.name

instance (table : Table) : Decidable table.WellKeyed :=
  inferInstanceAs (Decidable (_ ∧ _ ∧ _))

/-- Every entry at every level is stored under its own name. -/
def Schema.WellKeyed (schema : Schema) : Prop :=
  schema.tables.Named Table.name ∧ schema.enums.Named EnumType.name ∧
    schema.extensions.Named Extension.name ∧ schema.tables.All Table.WellKeyed

instance (schema : Schema) : Decidable schema.WellKeyed :=
  inferInstanceAs (Decidable (_ ∧ _ ∧ _ ∧ _))

/-- Nothing in the table is stored under the empty name. -/
def Table.NoEmptyName (table : Table) : Prop :=
  "" ∉ table.columns.keys ∧ "" ∉ table.indexes.keys ∧ "" ∉ table.constraints.keys

instance (table : Table) : Decidable table.NoEmptyName :=
  inferInstanceAs (Decidable (_ ∧ _ ∧ _))

/-- Nothing at any level is stored under the empty name. -/
def Schema.NoEmptyName (schema : Schema) : Prop :=
  "" ∉ schema.tables.keys ∧ "" ∉ schema.enums.keys ∧ "" ∉ schema.extensions.keys ∧
    schema.tables.All Table.NoEmptyName

instance (schema : Schema) : Decidable schema.NoEmptyName :=
  inferInstanceAs (Decidable (_ ∧ _ ∧ _ ∧ _))

theorem Keyed.ne_empty_of_get? {α : Type} {entries : Keyed α} (hempty : "" ∉ entries.keys)
    {key : String} {value : α} (hvalue : entries.get? key = some value) : key ≠ "" := by
  rintro rfl
  exact hempty (Keyed.mem_keys_iff.2 ⟨value, hvalue⟩)

instance : ReflBEq Json.Number where
  rfl {number} := by
    change number.same number = true
    cases number <;> simp [Json.Number.same, Binary64.same]

deriving instance ReflBEq for DefaultValue
deriving instance ReflBEq for Column
deriving instance ReflBEq, LawfulBEq for Index
deriving instance ReflBEq, LawfulBEq for ForeignKey
deriving instance ReflBEq, LawfulBEq for Rule
deriving instance ReflBEq, LawfulBEq for Constraint
deriving instance ReflBEq for Table
deriving instance ReflBEq, LawfulBEq for EnumType
deriving instance ReflBEq, LawfulBEq for Extension
deriving instance ReflBEq for Schema

theorem Column.beq_iff (left right : Column) :
    (left == right) = true ↔ left.name = right.name ∧ left.type = right.type ∧
      (left.default == right.default) = true ∧ left.check = right.check ∧
      left.notNull = right.notNull ∧ left.comment = right.comment := by
  obtain ⟨name, type, default, check, notNull, comment⟩ := left
  obtain ⟨name', type', default', check', notNull', comment'⟩ := right
  change (name == name' && (type == type' && (default == default' && (check == check' &&
    (notNull == notNull' && comment == comment'))))) = true ↔ _
  simp only [Bool.and_eq_true, beq_iff_eq]

theorem Table.beq_iff (left right : Table) :
    (left == right) = true ↔ left.name = right.name ∧ left.comment = right.comment ∧
      (left.columns == right.columns) = true ∧ (left.indexes == right.indexes) = true ∧
      (left.constraints == right.constraints) = true := by
  obtain ⟨name, comment, columns, indexes, constraints⟩ := left
  obtain ⟨name', comment', columns', indexes', constraints'⟩ := right
  change (name == name' && (comment == comment' && (columns == columns' &&
    (indexes == indexes' && constraints == constraints')))) = true ↔ _
  simp only [Bool.and_eq_true, beq_iff_eq]

theorem Schema.beq_iff (left right : Schema) :
    (left == right) = true ↔ (left.tables == right.tables) = true ∧
      (left.enums == right.enums) = true ∧ (left.extensions == right.extensions) = true := by
  obtain ⟨tables, enums, extensions⟩ := left
  obtain ⟨tables', enums', extensions'⟩ := right
  change (tables == tables' && (enums == enums' && extensions == extensions')) = true ↔ _
  simp only [Bool.and_eq_true]

theorem Schema.foldl_addTable (tables : List Table) (schema : Schema) :
    tables.foldl addTable schema = { schema with
      tables := tables.foldl (fun found table => found.insert table.name table) schema.tables } :=
  List.foldl_hom (fun found => { schema with tables := found }) fun _ _ => rfl

theorem Schema.foldl_addEnum (types : List EnumType) (schema : Schema) :
    types.foldl addEnum schema = { schema with
      enums := types.foldl (fun found type => found.insert type.name type) schema.enums } :=
  List.foldl_hom (fun found => { schema with enums := found }) fun _ _ => rfl

theorem Schema.foldl_addExtension (extensions : List Extension) (schema : Schema) :
    extensions.foldl addExtension schema = { schema with
      extensions := extensions.foldl (fun found extension => found.insert extension.name extension)
        schema.extensions } :=
  List.foldl_hom (fun found => { schema with extensions := found }) fun _ _ => rfl

/-- Tables and types with distinct names may be stored in any order. -/
theorem Schema.beq_of_perm {tables tables' : List Table} {types types' : List EnumType}
    (htableNames : (tables.map Table.name).Nodup) (htables : tables.Perm tables')
    (htypeNames : (types.map EnumType.name).Nodup) (htypes : types.Perm types') :
    (tables.foldl addTable (types.foldl addEnum empty) ==
      tables'.foldl addTable (types'.foldl addEnum empty)) = true := by
  rw [foldl_addTable, foldl_addTable, foldl_addEnum, foldl_addEnum, beq_iff]
  exact ⟨Keyed.beq_foldl_insert_perm htableNames htables,
    Keyed.beq_foldl_insert_perm htypeNames htypes, BEq.rfl⟩

/-! ## Parts of equal schemas -/

def Schema.constraint? (schema : Schema) (table name : String) : Option Constraint :=
  (schema.tables.get? table).bind fun owner => owner.constraints.get? name

/-- Equal schemas have the same entries in their tables. -/
theorem Schema.entry?_of_beq {α : Type} [BEq α] [LawfulBEq α] {entries : Table → Keyed α}
    (hentries : ∀ old new : Table, (old == new) = true → (entries old == entries new) = true)
    {left right : Schema} (hsame : (left == right) = true) (table name : String) :
    ((left.tables.get? table).bind fun owner => (entries owner).get? name) =
      (right.tables.get? table).bind fun owner => (entries owner).get? name := by
  rcases Keyed.eq_none_or_of_beq ((Schema.beq_iff left right).1 hsame).1 table with
    ⟨hleft, hright⟩ | ⟨owner, other, hleft, hright, hbeq⟩
  · rw [hleft, hright]
  · rw [hleft, hright]
    exact beq_iff_eq.1 ((Keyed.beq_iff_get? _ _).1 (hentries owner other hbeq) name)

/-- Equal schemas have the same constraints. -/
theorem Schema.constraint?_of_beq {left right : Schema} (hsame : (left == right) = true)
    (table name : String) : left.constraint? table name = right.constraint? table name :=
  entry?_of_beq (fun old new hbeq => ((Table.beq_iff old new).1 hbeq).2.2.2.2) hsame table name

end SchemaEvolution
