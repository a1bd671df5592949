import SchemaEvolution.History.Version
import SchemaEvolution.Proofs.Json.Distinct
import SchemaEvolution.Proofs.Schema.RoundTrip

/-!
# Operations and versions are read back from their documents

The documents of the parts of a schema can be printed and read back as values: they nest to few
levels, and no object has a name twice, since the fields have different names and a collection
has each of its names once.

The document of an operation spells it: the tag says what is done, and the value follows as it
is, whatever it is.  So a list of operations, and a list of versions with their operations, is
read back from any text that was printed for it, as long as the values leave room for the
brackets around them.
-/

namespace SchemaEvolution

open Json (Legible NamesOnce)

/-- A value that can be printed and read back: its brackets nest to at most `depth` levels, its
numbers are read back from their texts, and every object has each of its names once. -/
structure Json.Portable (depth : Nat) (value : Json) : Prop where
  legible : Legible depth value
  once : value.NamesOnce

variable {α : Type} {depth : Nat}

theorem portable_string (text : String) : (Json.string text).Portable depth :=
  ⟨.string text, .string text⟩

theorem portable_bool (value : Bool) : (Json.bool value).Portable depth :=
  ⟨.bool value, .bool value⟩

theorem namesOnce_optionalText (text : Option String) : (optionalText text).NamesOnce := by
  cases text with
  | none => exact .null
  | some text => exact .string text

theorem portable_optionalText (text : Option String) : (optionalText text).Portable depth :=
  ⟨legible_optionalText text, namesOnce_optionalText text⟩

theorem namesOnce_texts (values : List String) : (texts values).NamesOnce := by
  refine .array fun item hmem => ?_
  obtain ⟨value, -, rfl⟩ := List.mem_map.1 hmem
  exact .string value

theorem portable_texts (values : List String) : (texts values).Portable (depth + 1) :=
  ⟨legible_texts values, namesOnce_texts values⟩

theorem namesOnce_optionalDefault (default : Option DefaultValue) :
    (optionalDefault default).NamesOnce := by
  match default with
  | none => exact .null
  | some (.boolean value) => exact .bool value
  | some (.number number) => exact .number number
  | some (.text text) => exact .string text

theorem portable_optionalDefault {default : Option DefaultValue}
    (hnumber : ∀ number, default = some (.number number) → number.ReadsBack) :
    (optionalDefault default).Portable depth :=
  ⟨legible_optionalDefault hnumber, namesOnce_optionalDefault default⟩

theorem namesOnce_keyedJson {view : α → Json} {entries : Keyed α}
    (hentry : ∀ value, (view value).NamesOnce) : (keyedJson view entries).NamesOnce := by
  refine .object ?_ fun member hmem => ?_
  · rw [List.map_map]
    exact entries.distinct
  · obtain ⟨entry, -, rfl⟩ := List.mem_map.1 hmem
    exact hentry entry.2

theorem Column.namesOnce_toJson (column : Column) : column.toJson.NamesOnce := by
  refine .object (by simp) ?_
  simp only [List.forall_mem_cons]
  exact ⟨.string _, .string _, namesOnce_optionalDefault _, namesOnce_optionalText _, .bool _,
    namesOnce_optionalText _, List.forall_mem_nil _⟩

theorem Column.portable_toJson {column : Column}
    (hnumber : ∀ number, column.default = some (.number number) → number.ReadsBack) :
    column.toJson.Portable (depth + 1) :=
  ⟨column.legible_toJson hnumber, column.namesOnce_toJson⟩

theorem Index.namesOnce_toJson (index : Index) : index.toJson.NamesOnce := by
  refine .object (by simp) ?_
  simp only [List.forall_mem_cons]
  exact ⟨.string _, .bool _, namesOnce_texts _, .string _, List.forall_mem_nil _⟩

theorem Index.portable_toJson (index : Index) : index.toJson.Portable (depth + 2) :=
  ⟨index.legible_toJson, index.namesOnce_toJson⟩

/-- The document of a constraint repeats no name. -/
theorem Constraint.namesOnce_toJson (constraint : Constraint) : constraint.toJson.NamesOnce := by
  obtain ⟨name, rule⟩ := constraint
  cases rule <;> refine .object (by simp) ?_ <;> simp only [List.forall_mem_cons]
  case primaryKey columns => exact ⟨.string _, .string _, namesOnce_texts _, List.forall_mem_nil _⟩
  case unique columns => exact ⟨.string _, .string _, namesOnce_texts _, List.forall_mem_nil _⟩
  case check condition => exact ⟨.string _, .string _, .string _, List.forall_mem_nil _⟩
  case foreignKey key =>
    exact ⟨.string _, .string _, namesOnce_texts _, .string _, namesOnce_texts _, .string _,
      .string _, List.forall_mem_nil _⟩

theorem Constraint.portable_toJson (constraint : Constraint) :
    constraint.toJson.Portable (depth + 2) :=
  ⟨constraint.legible_toJson, constraint.namesOnce_toJson⟩

theorem Table.namesOnce_toJson (table : Table) : table.toJson.NamesOnce := by
  refine .object (by simp) ?_
  simp only [List.forall_mem_cons]
  exact ⟨.string _, namesOnce_optionalText _, namesOnce_keyedJson Column.namesOnce_toJson,
    namesOnce_keyedJson Index.namesOnce_toJson, namesOnce_keyedJson Constraint.namesOnce_toJson,
    List.forall_mem_nil _⟩

theorem Table.portable_toJson {table : Table}
    (hnumbers : ∀ column ∈ table.columns.toList, ∀ number,
      column.2.default = some (.number number) → number.ReadsBack) :
    table.toJson.Portable (depth + 4) :=
  ⟨table.legible_toJson hnumbers, table.namesOnce_toJson⟩

theorem EnumType.namesOnce_toJson (type : EnumType) : type.toJson.NamesOnce := by
  refine .object (by simp) ?_
  simp only [List.forall_mem_cons]
  exact ⟨.string _, namesOnce_texts _, namesOnce_optionalText _, List.forall_mem_nil _⟩

theorem EnumType.portable_toJson (type : EnumType) : type.toJson.Portable (depth + 2) :=
  ⟨type.legible_toJson, type.namesOnce_toJson⟩

theorem Extension.namesOnce_toJson (extension : Extension) : extension.toJson.NamesOnce := by
  refine .object (by simp) ?_
  simp only [List.forall_mem_cons]
  exact ⟨.string _, namesOnce_optionalText _, namesOnce_optionalText _, namesOnce_optionalText _,
    List.forall_mem_nil _⟩

theorem Extension.portable_toJson (extension : Extension) :
    extension.toJson.Portable (depth + 1) :=
  ⟨extension.legible_toJson, extension.namesOnce_toJson⟩

open Json (Shape)

namespace Patch

/-- The values of the operations can be printed and read back. -/
def PortableValues (depth : Nat) (ops : List Operation) : Prop :=
  ∀ op ∈ ops, ∀ value ∈ op.value?, value.Portable depth

theorem spells_any {value : Json} (honce : value.NamesOnce) : Shape.any.Spells value value :=
  congrArg Except.ok (Json.distinct_eq_self honce)

theorem spells_withValue (record : String) (make : Json → Action) (path : String) {value : Json}
    (honce : value.NamesOnce) :
    (Operation.withValueShape record make).Spells ⟨path, make value⟩
      (.object [("path", .string path), ("value", value)]) := by
  refine ⟨(path, value, ()), _, rfl, rfl, by decide, ?_⟩
  exact ⟨_, _, rfl, rfl, _, _, rfl, spells_any honce, rfl⟩

theorem spells_withoutValue (record : String) (action : Action) (path : String) :
    (Operation.withoutValueShape record action).Spells ⟨path, action⟩
      (.object [("path", .string path)]) :=
  ⟨(path, ()), _, rfl, rfl, by decide, _, _, rfl, rfl, rfl⟩

/-- The document of an operation spells it, null values and the order of names included. -/
theorem Operation.spells_toJson {op : Operation}
    (honce : ∀ value ∈ op.value?, value.NamesOnce) : Operation.shape.Spells op op.toJson := by
  obtain ⟨path, action⟩ := op
  cases action with
  | add value =>
    exact ⟨_, _, _, rfl, by simp [Operation.value?], rfl, Shape.decode_of_spells .setAside _
      (spells_withValue "struct variant Operation::Add" .add path (honce value rfl))⟩
  | remove =>
    exact ⟨_, _, _, rfl, by simp [Operation.value?], rfl, Shape.decode_of_spells .setAside _
      (spells_withoutValue "struct variant Operation::Remove" .remove path)⟩
  | replace value =>
    exact ⟨_, _, _, rfl, by simp [Operation.value?], rfl, Shape.decode_of_spells .setAside _
      (spells_withValue "struct variant Operation::Replace" .replace path (honce value rfl))⟩

/-- The document of an operation is one level deeper than its value. -/
theorem Operation.legible_toJson {op : Operation} {depth : Nat}
    (hvalue : ∀ value ∈ op.value?, value.Legible depth) : op.toJson.Legible (depth + 1) := by
  refine .object fun member hmem => ?_
  rcases List.mem_append.1 hmem with hmem | hmem
  · rcases List.mem_pair.1 hmem with rfl | rfl <;> exact .string _
  · cases hfound : op.value? with
    | none =>
      rw [hfound] at hmem
      cases hmem
    | some value =>
      rw [hfound] at hmem
      cases List.mem_singleton.1 hmem
      exact hvalue value hfound

theorem PortableValues.spells {depth : Nat} {ops : List Operation}
    (hvalues : PortableValues depth ops) :
    (Shape.list Operation.shape).Spells ops (.array (ops.map Operation.toJson)) := by
  refine ⟨_, rfl, ?_⟩
  rw [List.forall₂_map_right_iff, List.forall₂_same]
  exact fun op hop => Operation.spells_toJson fun value hvalue => (hvalues op hop value hvalue).once

theorem PortableValues.legible {depth : Nat} {ops : List Operation}
    (hvalues : PortableValues depth ops) :
    Legible (depth + 2) (.array (ops.map Operation.toJson)) := by
  refine .array fun item hitem => ?_
  obtain ⟨op, hop, rfl⟩ := List.mem_map.1 hitem
  exact op.legible_toJson fun value hvalue => (hvalues op hop value hvalue).legible

/-- A printed list of operations is read back as it is. -/
theorem Operation.parseAll_of_prints {ops : List Operation} {text : String}
    (hvalues : PortableValues 125 ops)
    (hprints : (Json.array (ops.map Operation.toJson)).Prints text) :
    Operation.parseAll text = .ok ops :=
  hprints.readText hvalues.legible fun _ hwritten =>
    (Shape.list Operation.shape).reads_of_spells hvalues.spells hwritten

end Patch

/-! ## Versions -/

namespace History

open Patch (Operation PortableValues)

theorem Version.spells_toJson {version : Version} {depth : Nat}
    (hvalues : PortableValues depth version.operations) :
    Version.shape.Spells version version.toJson :=
  ⟨(version.number, version.operations, ()), _, rfl, rfl, by decide, _, _, rfl, rfl, _, _, rfl,
    hvalues.spells, rfl⟩

theorem Version.legible_toJson {version : Version} {depth : Nat}
    (hvalues : PortableValues depth version.operations) : version.toJson.Legible (depth + 3) := by
  refine .object fun member hmem => ?_
  rcases List.mem_pair.1 hmem with rfl | rfl
  · refine .number (Json.Number.readsBack_natCast ?_)
    have hbound := version.number.toNat_lt
    exact Nat.le_trans (Nat.le_of_lt hbound) (by decide)
  · exact hvalues.legible

/-- A printed list of versions is read back as it is, with the operations of every version. -/
theorem Version.parseAll_of_prints {versions : List Version} {text : String}
    (hvalues : ∀ version ∈ versions, PortableValues 123 version.operations)
    (hprints : (Json.array (versions.map Version.toJson)).Prints text) :
    Version.parseAll text = .ok versions := by
  have hlegible : Legible 127 (.array (versions.map Version.toJson)) := by
    refine .array fun item hitem => ?_
    obtain ⟨version, hversion, rfl⟩ := List.mem_map.1 hitem
    exact version.legible_toJson (hvalues version hversion)
  have hspells : (Shape.list Version.shape).Spells versions
      (.array (versions.map Version.toJson)) := by
    refine ⟨_, rfl, ?_⟩
    rw [List.forall₂_map_right_iff, List.forall₂_same]
    exact fun version hversion => version.spells_toJson (hvalues version hversion)
  exact hprints.readText hlegible fun _ hwritten =>
    (Shape.list Version.shape).reads_of_spells hspells hwritten

end History

end SchemaEvolution
