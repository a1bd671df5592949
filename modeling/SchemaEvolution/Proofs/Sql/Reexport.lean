import SchemaEvolution.Proofs.Sql.RoundTrip

/-!
# Exporting what was read

A plain schema that is read from its script differs from the schema at most in the order of its
tables and constraints.  The script does not depend on that order, so exporting what was read
gives the script again.
-/

namespace SchemaEvolution

namespace Table

variable {table : Table}

/-- The line of a plain column carries the key exactly if the table has it under its usual name. -/
theorem IsPlain.hasInlinePrimaryKey_iff (hplain : table.IsPlain) {name : String} :
    table.hasInlinePrimaryKey name = true ↔ table.usualKey name ∈ table.constraints.values := by
  refine ⟨fun hinline => ?_, hasInlinePrimaryKey_of_mem hplain.one_key⟩
  rw [hasInlinePrimaryKey, isSinglePrimaryKey] at hinline
  cases hkey : table.primaryKey? with
  | none =>
    rw [hkey] at hinline
    cases hinline
  | some found =>
    obtain ⟨label, columns⟩ := found
    rw [hkey] at hinline
    simp only [Option.any_some, Bool.and_eq_true, beq_iff_eq] at hinline
    obtain ⟨rfl, rfl⟩ := hinline
    exact mem_of_primaryKey? hkey

section Restored

variable (hplain : table.IsPlain) (hkeyed : table.WellKeyed)

include hplain hkeyed

theorem IsPlain.restored_perm :
    table.restored.constraints.values.Perm table.constraints.values :=
  Keyed.values_perm (hplain.get?_restored hkeyed)

/-- What is read back is plain again. -/
theorem IsPlain.restored_isPlain : table.restored.IsPlain := by
  have hperm := hplain.restored_perm hkeyed
  have hmem : ∀ constraint ∈ table.restored.constraints.values,
      constraint ∈ table.constraints.values := fun _ => hperm.mem_iff.1
  refine ⟨hplain.some_column, hplain.columns, hplain.serial, ?_, ?_, ?_, hplain.indexes⟩
  · rw [(hperm.filter _).length_eq]
    exact hplain.one_key
  · exact fun constraint hfound => hplain.key_columns constraint (hmem constraint hfound)
  · exact fun constraint hfound => hplain.constraints constraint (hmem constraint hfound)

theorem IsPlain.hasInlinePrimaryKey_restored (name : String) :
    table.restored.hasInlinePrimaryKey name = table.hasInlinePrimaryKey name := by
  rw [Bool.eq_iff_iff, (hplain.restored_isPlain hkeyed).hasInlinePrimaryKey_iff,
    hplain.hasInlinePrimaryKey_iff]
  exact (hplain.restored_perm hkeyed).mem_iff

theorem IsPlain.inlineColumn?_restored (constraint : Constraint) :
    table.restored.inlineColumn? constraint = table.inlineColumn? constraint := by
  unfold inlineColumn?
  simp only [hplain.hasInlinePrimaryKey_restored hkeyed]
  rfl

theorem IsPlain.attributes_restored (column : Column) :
    table.restored.attributes column = table.attributes column := by
  have hinline : (table.restored.inlineConstraints column.name).Perm
      (table.inlineConstraints column.name) := by
    unfold inlineConstraints
    simp only [hplain.inlineColumn?_restored hkeyed]
    exact (hplain.restored_perm hkeyed).filter _
  unfold attributes
  simp only [hinline.any_eq]

/-- The table is created by the same text. -/
theorem IsPlain.createTableText_restored :
    Sql.createTableText table.restored = Sql.createTableText table := by
  have hcolumns : (table.columns.values.map fun column =>
      "  " ++ Sql.columnDefinitionIn table.restored column) =
        table.columns.values.map fun column => "  " ++ Sql.columnDefinitionIn table column := by
    refine List.map_congr_left fun column hmem => ?_
    have hcheck := (hplain.columns column hmem).check
    rw [Sql.columnDefinitionIn_eq _ hcheck, Sql.columnDefinitionIn_eq _ hcheck,
      hplain.attributes_restored hkeyed]
  exact congrArg (fun columns => "\n".intercalate (("CREATE TABLE " ++ Sql.quoteIdent table.name ++
    " (\n" ++ ",\n".intercalate columns ++ "\n);") :: Sql.tableComments table)) hcolumns

/-- A constraint with a statement of its own has a name that no column uses. -/
theorem IsPlain.disjoint_carried {carried separate : Constraint}
    (hcarried : carried ∈ Sql.carriedConstraints table)
    (hseparate : separate ∈ table.separateConstraints) : carried.name ≠ separate.name := by
  intro hname
  obtain ⟨hvalue, hinline⟩ := (hplain.mem_carriedConstraints_iff hkeyed.1).1 hcarried
  obtain ⟨hother, hnone⟩ := List.mem_filter.1 hseparate
  rw [← hkeyed.2.2.eq_of_name_eq hvalue hother hname, hinline] at hnone
  cases hnone

/-- What is restored of a plain table is what its lines carry, and then what stands on its own. -/
theorem IsPlain.values_restored : table.restored.constraints.values =
    (Sql.insertConstraints (Sql.carriedConstraints table) ∅).values ++
      table.separateConstraints := by
  have hnew : ((Sql.insertConstraints (Sql.carriedConstraints table) ∅).keys ++
      table.separateConstraints.map Constraint.name).Nodup := by
    refine List.nodup_append.2 ⟨Keyed.distinct _, ?_, ?_⟩
    · have hnames := hkeyed.2.2.map_name
      exact (List.filter_sublist.map Constraint.name).nodup (hnames ▸ table.constraints.distinct)
    · rintro key hkey name hname rfl
      obtain ⟨separate, hseparate, rfl⟩ := List.mem_map.1 hname
      refine Keyed.get?_eq_none_iff.1 ?_ hkey
      exact Keyed.get?_foldl_insert_of_ne
        (fun carried hcarried => hplain.disjoint_carried hkeyed hcarried hseparate) _ ∅
  rw [Table.restored, Sql.insertConstraints_append]
  exact Sql.values_insertConstraints hnew

/-- The same constraints have statements of their own, in the same order. -/
theorem IsPlain.separateConstraints_restored :
    table.restored.separateConstraints = table.separateConstraints := by
  have hinline : (fun constraint => !table.restored.isInline constraint) =
      fun constraint => !table.isInline constraint := by
    funext constraint
    rw [isInline, isInline, hplain.inlineColumn?_restored hkeyed]
  have hcarried : (Sql.insertConstraints (Sql.carriedConstraints table) ∅).values.filter
      (fun constraint => !table.isInline constraint) = [] := by
    refine List.filter_eq_nil_iff.2 fun constraint hmem => ?_
    rcases Keyed.mem_values_foldl_insert hmem with hnone | ⟨carried, hcarried, rfl⟩
    · cases hnone
    · simp [((hplain.mem_carriedConstraints_iff hkeyed.1).1 hcarried).2]
  have hseparate : table.separateConstraints.filter (fun constraint =>
      !table.isInline constraint) = table.separateConstraints :=
    List.filter_eq_self.2 fun constraint hmem => (List.mem_filter.1 hmem).2
  -- the carried ones come first and are all inline, the others follow as they were
  rw [separateConstraints, hinline, hplain.values_restored hkeyed, List.filter_append, hcarried,
    hseparate, List.nil_append]

end Restored

end Table

namespace Sql

/-! ## The order of the tables -/

theorem pairwise_sortNames (names : List String) :
    (sortNames names).Pairwise fun first second => (!(second < first)) = true := by
  refine List.pairwise_mergeSort (fun first second third hfirst hsecond => ?_)
    (fun first second => ?_) names
  · rw [Bool.not_eq_true', decide_eq_false_iff_not, String.not_lt] at hfirst hsecond ⊢
    exact String.le_trans hfirst hsecond
  · rw [Bool.or_eq_true, Bool.not_eq_true', Bool.not_eq_true', decide_eq_false_iff_not,
      decide_eq_false_iff_not, String.not_lt, String.not_lt]
    exact String.le_total first second

/-- The order of names does not depend on the one they had. -/
theorem sortNames_eq_of_perm {first second : List String} (hperm : first.Perm second) :
    sortNames first = sortNames second := by
  refine List.Perm.eq_of_pairwise (fun left right _ _ hleft hright => ?_)
    (pairwise_sortNames first) (pairwise_sortNames second)
    ((sortNames_perm first).trans (hperm.trans (sortNames_perm second).symm))
  rw [Bool.not_eq_true', decide_eq_false_iff_not, String.not_lt] at hleft hright
  exact String.le_antisymm hleft hright

/-- Layers depend on which tables refer to which, and not on any order. -/
theorem layersFrom_congr {schema other : Schema}
    (hparents : ∀ name parent, parent ∈ parentsOf schema name ↔ parent ∈ parentsOf other name)
    (fuel : Nat) {done done' left left' : List String} (hdone : ∀ name, name ∈ done ↔ name ∈ done')
    (hleft : left.Perm left') :
    layersFrom schema fuel done left = layersFrom other fuel done' left' := by
  induction fuel generalizing done done' left left' with
  | zero => simp only [layersFrom, sortNames_eq_of_perm hleft]
  | succ fuel ih =>
    have hready : (fun name => (parentsOf schema name).all done.contains) =
        fun name => (parentsOf other name).all done'.contains := by
      funext name
      rw [Bool.eq_iff_iff, List.all_eq_true, List.all_eq_true]
      simp only [hparents, List.contains_iff_mem, hdone]
    -- the two runs stay in step: the same names are ready, in whatever order
    have hchosen := hleft.filter fun name => (parentsOf other name).all done'.contains
    have hblocked := hleft.filter (not ∘ fun name => (parentsOf other name).all done'.contains)
    have hempty := hchosen.isEmpty_eq
    have hmore : ∀ name, name ∈ done ++ left.filter (fun name =>
        (parentsOf other name).all done'.contains) ↔ name ∈ done' ++ left'.filter fun name =>
          (parentsOf other name).all done'.contains := by
      intro name
      rw [List.mem_append, List.mem_append, hdone, hchosen.mem_iff]
    rw [layersFrom, layersFrom, List.partition_eq_filter_filter, List.partition_eq_filter_filter,
      hready]
    dsimp only
    rw [hempty, sortNames_eq_of_perm hchosen, sortNames_eq_of_perm hblocked, ih hmore hblocked]

/-- The tables that a table refers to are those that it did before. -/
theorem mem_parentsOf_imported {schema : Schema} (hplain : schema.IsPlain) (name parent : String) :
    parent ∈ parentsOf (imported schema) name ↔ parent ∈ parentsOf schema name := by
  have hcontains : ∀ key, (imported schema).tables.contains key = schema.tables.contains key := by
    intro key
    rw [Keyed.contains, Keyed.contains, get?_imported hplain, Option.isSome_map]
  rw [parentsOf, parentsOf, get?_imported hplain]
  cases htable : schema.tables.get? name with
  | none => rfl
  | some table =>
    have hperm := (hplain.tables.of_get? htable).restored_perm
      (hplain.wellKeyed.2.2.2.of_get? htable)
    simp only [Option.map_some, parents, hcontains]
    exact (hperm.filterMap _).mem_iff

section Imported

variable {schema : Schema} (hplain : schema.IsPlain)

include hplain

theorem dependencyOrder_imported : dependencyOrder (imported schema) = dependencyOrder schema := by
  have hkeys : (imported schema).tables.keys.Perm schema.tables.keys := by
    refine Keyed.keys_perm fun key => ?_
    rw [Keyed.mem_keys_iff, Keyed.mem_keys_iff]
    simp [get?_imported hplain]
  have hsize : (imported schema).tables.size = schema.tables.size := by
    simpa only [Keyed.keys, Keyed.size, List.length_map] using hkeys.length_eq
  rw [dependencyOrder, dependencyOrder, hsize,
    layersFrom_congr (mem_parentsOf_imported hplain) _ (fun _ => Iff.rfl) hkeys]

/-- The tables are exported in the same order. -/
theorem orderedTables_imported :
    orderedTables (imported schema) = (orderedTables schema).map Table.restored := by
  have hget : (imported schema).tables.get? = fun key =>
      (schema.tables.get? key).map Table.restored := funext (get?_imported hplain)
  rw [orderedTables, orderedTables, dependencyOrder_imported hplain, hget, List.map_filterMap]

/-- Exporting what is read from the script of a schema gives the script. -/
theorem exportScript_imported : exportScript (imported schema) = exportScript schema := by
  have htables : ∀ table ∈ orderedTables schema, table.IsPlain ∧ table.WellKeyed := by
    intro table hmem
    have hvalue := (orderedTables_perm schema).mem_iff.1 hmem
    exact ⟨hplain.tables table hvalue, hplain.wellKeyed.2.2.2 table hvalue⟩
  have hcreate : ((orderedTables schema).map
      (Statement.sql ∘ fun table => .createTable table.restored)) =
        (orderedTables schema).map (Statement.sql ∘ .createTable) :=
    List.map_congr_left fun table hmem =>
      (htables table hmem).1.createTableText_restored (htables table hmem).2
  have hconstrain : ((orderedTables schema).flatMap fun table =>
      table.restored.separateConstraints.map (addConstraint table.name)) =
        (orderedTables schema).flatMap fun table =>
          table.separateConstraints.map (addConstraint table.name) :=
    List.flatMap_congr fun table hmem => by
      rw [(htables table hmem).1.separateConstraints_restored (htables table hmem).2]
  have hstatements : (exportStatements (imported schema)).map Statement.sql =
      (exportStatements schema).map Statement.sql := by
    have hstored : exportStatements (imported schema) =
        schema.extensions.values.map .createExtension ++ schema.enums.values.map .createEnum ++
          ((orderedTables schema).map fun table => .createTable table.restored) ++
          ((orderedTables schema).flatMap fun table =>
            table.indexes.values.map (.createIndex table.name)) ++
          (orderedTables schema).flatMap fun table =>
            table.restored.separateConstraints.map (addConstraint table.name) := by
      rw [exportStatements, orderedTables_imported hplain, enums_imported, extensions_imported,
        List.map_map, List.flatMap_map, List.flatMap_map]
      rfl
    rw [hstored, hconstrain, exportStatements]
    simp only [List.map_append, List.map_map, hcreate]
    rfl
  have hempty := congrArg List.isEmpty hstatements
  rw [List.isEmpty_map, List.isEmpty_map] at hempty
  rw [exportScript, exportScript, script, script, hempty, hstatements]

end Imported

/-- The script of a plain schema is read without a diagnostic as an equal schema, and to export
what was read gives the script again. -/
theorem import_exportScript {schema : Schema} (hplain : schema.IsPlain) :
    (importSource .postgres (exportScript schema)).diagnostics = [] ∧
      ((importSource .postgres (exportScript schema)).schema == schema) = true ∧
      exportScript (importSource .postgres (exportScript schema)).schema = exportScript schema := by
  rw [importSource_exportScript hplain]
  exact ⟨rfl, imported_beq hplain, exportScript_imported hplain⟩

def accountTable : Table where
  name := "account"
  comment := some "one for each customer's \"name\""
  columns := Keyed.ofList [
    ("id", ⟨"id", "bigserial", none, none, true, some "counted; never reused"⟩),
    ("Name", ⟨"Name", "varchar(255)", some (.text "O'Brien"), none, false, none⟩)]
  indexes := ∅
  constraints := Keyed.ofList [
    ("account_Name_key", .unique "account_Name_key" ["Name"]),
    ("account_pkey", .primaryKey "account_pkey" ["id"])]

def entryTable : Table where
  name := "entry"
  comment := none
  columns := Keyed.ofList [
    ("account", ⟨"account", "bigint", none, none, true, none⟩),
    ("position", ⟨"position", "integer", some (.number (.integer (-1))), none, true, none⟩),
    ("tags", ⟨"tags", "text[]", none, none, false, none⟩)]
  indexes := Keyed.ofList [("by tag", ⟨"by tag", true, ["tags", "position"], "gin"⟩)]
  constraints := Keyed.ofList [
    ("entry_pkey", .primaryKey "entry_pkey" ["account", "position"]),
    ("owner", .foreignKey "owner" ⟨["account"], "account", ["id"], .noAction, .setNull⟩)]

/-- A schema whose first table refers to its second one. -/
def accountSchema : Schema where
  tables := Keyed.ofList [("entry", entryTable), ("account", accountTable)]
  enums := Keyed.ofList [("Mood", ⟨"Mood", ["it's fine", ""], none⟩)]
  extensions := Keyed.ofList [("uuid-ossp", ⟨"uuid-ossp", some "public", some "1.1", none⟩)]

theorem accountTable_isPlain : accountTable.IsPlain where
  some_column := by decide +kernel
  columns := List.forall_mem_cons.2 ⟨
    ⟨⟨⟨⟨["bigserial"], none, 0⟩, by decide +kernel, rfl⟩, by decide +kernel⟩,
      by decide +kernel, rfl⟩,
    List.forall_mem_singleton.2 ⟨
      ⟨⟨⟨["varchar"], some ["255"], 0⟩, by decide +kernel, rfl⟩, by decide +kernel⟩,
      by decide +kernel, rfl⟩⟩
  serial := by decide +kernel
  one_key := by decide +kernel
  key_columns := by decide +kernel
  constraints := by decide +kernel
  indexes := by decide +kernel

theorem entryTable_isPlain : entryTable.IsPlain where
  some_column := by decide +kernel
  columns := List.forall_mem_cons.2 ⟨
    ⟨⟨⟨⟨["bigint"], none, 0⟩, by decide +kernel, rfl⟩, by decide +kernel⟩,
      by decide +kernel, rfl⟩,
    List.forall_mem_cons.2 ⟨
      ⟨⟨⟨⟨["integer"], none, 0⟩, by decide +kernel, rfl⟩, by decide +kernel⟩,
        by decide +kernel, rfl⟩,
      List.forall_mem_singleton.2 ⟨
        ⟨⟨⟨["text"], none, 1⟩, by decide +kernel, rfl⟩, by decide +kernel⟩,
        by decide +kernel, rfl⟩⟩⟩
  serial := by decide +kernel
  one_key := by decide +kernel
  key_columns := by decide +kernel
  constraints := by decide +kernel
  indexes := by decide +kernel

theorem accountSchema_isPlain : accountSchema.IsPlain where
  wellKeyed := by decide +kernel
  tables := List.forall_mem_cons.2
    ⟨entryTable_isPlain, List.forall_mem_singleton.2 accountTable_isPlain⟩
  enums := by decide +kernel
  extensions := by decide +kernel

theorem import_exportScript_accounts : accountSchema.IsPlain ∧
    (importSource .postgres (exportScript accountSchema)).diagnostics = [] ∧
    ((importSource .postgres (exportScript accountSchema)).schema == accountSchema) = true :=
  have hread := import_exportScript accountSchema_isPlain
  ⟨accountSchema_isPlain, hread.1, hread.2.1⟩

end Sql

end SchemaEvolution
