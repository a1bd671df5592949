import SchemaEvolution.Proofs.Sql.Additions
import SchemaEvolution.Proofs.Sql.Reexport

/-!
# Reading migrations that only add

The script of a plain schema, followed by a migration that only adds, is read without a diagnostic
as the new schema.  The tables are followed one by one: what the migration adds is put into the
table that has been read already, or into the one that it has just created, first without and then
with its foreign keys.
-/

namespace SchemaEvolution.Sql

open Patch (diff)

/-- A column that is stored without its comment is described again. -/
theorem describe_insert (columns : Keyed Column) (column : Column) :
    describe (columns.insert column.name { column with comment := none }) column =
      columns.insert column.name column := by
  have hstored : (columns.insert column.name { column with comment := none }).get? column.name =
      some { column with comment := none } := by rw [Keyed.get?_insert, if_pos rfl]
  obtain ⟨name, type, default, check, notNull, comment⟩ := column
  cases comment with
  | none => rfl
  | some text =>
    exact (Keyed.update_eq_insert hstored fun found => { found with comment := some text }).trans
      (Keyed.insert_insert _ _ _ _)

theorem foldl_addColumn (columns : List Column) (table : Table) :
    columns.foldl Table.addColumn table = { table with
      columns := columns.foldl (fun found column => found.insert column.name column)
        table.columns } :=
  List.foldl_hom (fun found => { table with columns := found }) fun _ _ => rfl

theorem sentences_columnAdditions (owner : String) (column : Column) :
    (columnAdditions owner column).flatMap Statement.sentences =
      ⟨.alter, addedColumnRow owner column⟩ ::
        column.comment.toList.map (columnCommentSentence owner column.name) := by
  rw [columnAdditions, columnComment]
  cases column.comment with
  | none => rfl
  | some text => rfl

section Columns

variable {owner : String} {found : Table} {before : Schema} (hname : found.name = owner)
  (hbefore : before.tables.get? owner = some found)

include hname hbefore

/-- A column is added, and then its comment. -/
theorem run_addColumn {column : Column} (hplain : IsPlainColumn column)
    (hserial : TypeName.isSerial column.type = true → column.notNull = true) :
    Run ((columnAdditions owner column).flatMap Statement.sentences) before
      (before.addTable (found.addColumn column)) := by
  let bare := found.addColumn { column with comment := none }
  have hbare : bare.name = owner := hname
  have hcolumn : column.name ∈ bare.columns.keys := Keyed.mem_keys_iff.2
    ⟨_, (Keyed.get?_insert found.columns column.name column.name _).trans (if_pos rfl)⟩
  have hdescribed : { bare with columns := describe bare.columns column } =
      found.addColumn column :=
    congrArg (fun columns => { found with columns := columns }) (describe_insert _ column)
  have hcomment := run_columnComment hbare hcolumn (get?_addTable_self before hbare)
  have hadd : Run [⟨.alter, addedColumnRow owner column⟩] before (before.addTable bare) :=
    .single (Sentence.reads_addedColumn hbefore hplain hserial)
  rw [hdescribed] at hcomment
  rw [sentences_columnAdditions]
  exact hadd.append_addTable hcomment rfl

theorem run_addColumns {columns : List Column} (hplain : ∀ column ∈ columns,
    IsPlainColumn column ∧ (TypeName.isSerial column.type = true → column.notNull = true)) :
    Run ((columns.flatMap (columnAdditions owner)).flatMap Statement.sentences) before
      (before.addTable (columns.foldl Table.addColumn found)) := by
  rw [List.flatMap_assoc]
  exact Run.table Table.addColumn (fun found => found.name = owner) (fun _ hfound => hfound)
    (fun _ _ _ hfound => hfound) (fun column hmem _ _ hfound hstored =>
      run_addColumn hfound hstored (hplain column hmem).1 (hplain column hmem).2) hname hbefore

end Columns

section Grown

variable (old : Option Table) (table : Table)

/-- The statements that a table is created by, or given its new columns. -/
def openingAdditions : List Statement :=
  match old with
  | none => [.createTable table]
  | some old => (old.columns.newValues table.columns).flatMap (columnAdditions table.name)

def addedIndexes : List Index :=
  match old with
  | none => table.indexes.values
  | some old => old.indexes.newValues table.indexes

def addedConstraints : List Constraint :=
  match old with
  | none => table.separateConstraints
  | some old => old.constraints.newValues table.constraints

def immediateConstraints : List Constraint :=
  (addedConstraints old table).filter fun constraint =>
    !(addConstraint table.name constraint).isForeignKey

/-- The constraints that wait until every table is there. -/
def deferredConstraints : List Constraint :=
  (addedConstraints old table).filter fun constraint =>
    (addConstraint table.name constraint).isForeignKey

/-- The table with its columns, before any other addition. -/
def opened : Table :=
  match old with
  | none => table.described
  | some old => (old.columns.newValues table.columns).foldl Table.addColumn old.restored

/-- The table before its new foreign keys. -/
def advanced : Table :=
  (immediateConstraints old table).foldl Table.addConstraint
    ((addedIndexes old table).foldl Table.addIndex (opened old table))

/-- The statements that add to the table at once. -/
def immediateAdditions : List Statement :=
  openingAdditions old table ++ (addedIndexes old table).map (Statement.createIndex table.name) ++
    (immediateConstraints old table).map (addConstraint table.name)

/-- The statements that wait until every table is there. -/
def deferredAdditions : List Statement :=
  (deferredConstraints old table).map (addConstraint table.name)

def grown : Table :=
  (deferredConstraints old table).foldl Table.addConstraint (advanced old table)

theorem grown_eq : grown old table = { opened old table with
    indexes := (addedIndexes old table).foldl (fun found index => found.insert index.name index)
      (opened old table).indexes
    constraints := insertConstraints (immediateConstraints old table ++
      deferredConstraints old table) (opened old table).constraints } := by
  rw [grown, advanced, foldl_addConstraint, foldl_addConstraint, foldl_addIndex,
    insertConstraints_append]

theorem mem_addedConstraints {constraint : Constraint} :
    constraint ∈ immediateConstraints old table ++ deferredConstraints old table ↔
      constraint ∈ addedConstraints old table := by
  rw [List.mem_append, immediateConstraints, deferredConstraints, List.mem_filter, List.mem_filter]
  cases (addConstraint table.name constraint).isForeignKey <;> simp

variable {old table} (hname : ∀ previous ∈ old, previous.name = table.name)

include hname

theorem name_opened : (opened old table).name = table.name := by
  cases old with
  | none => rfl
  | some previous =>
    rw [opened, foldl_addColumn]
    exact hname previous rfl

theorem name_advanced : (advanced old table).name = table.name := by
  rw [advanced, foldl_addConstraint, foldl_addIndex]
  exact name_opened hname

theorem name_grown : (grown old table).name = table.name := by
  rw [grown_eq]
  exact name_opened hname

end Grown

/-- What was there of a table, and what the table is. -/
structure GrowsTo (old : Option Table) (table : Table) : Prop where
  plain : table.IsPlain
  wellKeyed : table.WellKeyed
  name : ∀ previous ∈ old, previous.name = table.name
  old : ∀ previous ∈ old, previous.Grows table ∧ previous.IsPlain ∧ previous.WellKeyed

section GrowsTo

variable {old : Option Table} {table : Table} (hgrows : GrowsTo old table)

include hgrows

theorem GrowsTo.comment_opened : (opened old table).comment = table.comment := by
  cases old with
  | none => rfl
  | some previous =>
    rw [opened, foldl_addColumn]
    exact (hgrows.old previous rfl).1.comment

theorem GrowsTo.columns_opened : ((opened old table).columns == table.columns) = true := by
  cases old with
  | none => exact BEq.rfl
  | some previous =>
    rw [opened, foldl_addColumn]
    exact (hgrows.old previous rfl).1.columns.foldl_insert_beq hgrows.wellKeyed.1 fun _ => Iff.rfl

/-- The indexes that a table has in the end are those of the new table. -/
theorem GrowsTo.indexes_grown : ((grown old table).indexes == table.indexes) = true := by
  rw [grown_eq]
  cases old with
  | none =>
    have hindexes := Keyed.foldl_insert_self table.indexes hgrows.wellKeyed.2.1
    exact hindexes.symm ▸ BEq.rfl
  | some previous =>
    rw [opened, foldl_addColumn]
    exact (hgrows.old previous rfl).1.indexes.beq.foldl_insert_beq hgrows.wellKeyed.2.1
      fun _ => Iff.rfl

/-- The constraints that a table has in the end are those of the new table, in whatever order. -/
theorem GrowsTo.constraints_grown :
    ((grown old table).constraints == table.constraints) = true := by
  rw [grown_eq]
  cases old with
  | none =>
    -- what its columns carry and what is added are together the constraints of a new table
    have hmem : ∀ constraint, constraint ∈ carriedConstraints table ++
        (immediateConstraints none table ++ deferredConstraints none table) ↔
          constraint ∈ table.constraints.values := by
      intro constraint
      rw [← hgrows.plain.mem_constraints hgrows.wellKeyed.1, List.mem_append, mem_addedConstraints,
        List.mem_append]
      rfl
    change (insertConstraints _ (insertConstraints _ ∅) == _) = true
    rw [← insertConstraints_append]
    refine Keyed.foldl_insert_beq (fun constraint hconstraint =>
      hgrows.wellKeyed.2.2.get?_of_mem ((hmem constraint).1 hconstraint)) fun key hother => ?_
    cases hvalue : table.constraints.get? key with
    | none => rfl
    | some constraint =>
      have hvalues := (hmem constraint).2 (Keyed.mem_values_iff.2 ⟨key, hvalue⟩)
      exact absurd (hgrows.wellKeyed.2.2.of_get? hvalue) (hother constraint hvalues)
  | some previous =>
    obtain ⟨hsame, hplain, hkeyed⟩ := hgrows.old previous rfl
    have hget := hplain.get?_restored hkeyed
    have hrestored : previous.restored.constraints.Grows Eq table.constraints :=
      fun key found hfound => hsame.constraints key found ((hget key).symm.trans hfound)
    rw [opened, foldl_addColumn]
    refine hrestored.beq.foldl_insert_beq hgrows.wellKeyed.2.2 fun constraint => ?_
    rw [mem_addedConstraints, addedConstraints, Keyed.mem_newValues_iff, Keyed.mem_newValues_iff]
    simp only [hget]

/-- With everything that is added, the table is what it is to be. -/
theorem GrowsTo.grown_beq : (grown old table == table) = true := by
  refine (Table.beq_iff _ _).2 ⟨?_, ?_, ?_, hgrows.indexes_grown, hgrows.constraints_grown⟩
  · exact name_grown hgrows.name
  · rw [grown_eq]
    exact hgrows.comment_opened
  · rw [grown_eq]
    exact hgrows.columns_opened

theorem GrowsTo.addedConstraints_subset :
    addedConstraints old table ⊆ table.constraints.values := by
  cases old with
  | none => exact List.filter_subset_self _
  | some previous => exact fun _ => Keyed.mem_values_of_mem_newValues

theorem GrowsTo.addedIndexes_subset : addedIndexes old table ⊆ table.indexes.values := by
  cases old with
  | none => exact List.Subset.refl _
  | some previous => exact fun _ => Keyed.mem_values_of_mem_newValues

/-- The columns of new primary keys are never null, as they are when the key is added. -/
theorem GrowsTo.keyColumns {constraint : Constraint}
    (hmem : constraint ∈ table.constraints.values) :
    Table.KeyColumns (opened old table).columns constraint := by
  intro hkind name hname column hcolumn
  obtain ⟨value, hvalue, hsame⟩ := Keyed.exists_of_beq hgrows.columns_opened hcolumn
  rw [((Column.beq_iff _ _).1 hsame).2.2.2.2.1]
  exact hgrows.plain.key_columns constraint hmem hkind name hname value hvalue

/-! ## Reading what is added -/

/-- The statements that open the additions of a table can all be printed. -/
theorem GrowsTo.prints_opening :
    ∀ statement ∈ openingAdditions old table, statement.Prints := by
  intro statement hmem
  cases old with
  | none =>
    rw [List.mem_singleton.1 hmem]
    exact Statement.prints_table hgrows.plain.some_column hgrows.plain.columns
  | some previous =>
    obtain ⟨column, hcolumn, hstatement⟩ := List.mem_flatMap.1 hmem
    rcases List.mem_cons.1 hstatement with rfl | hcomment
    · exact Statement.prints_addedColumn table.name
        (hgrows.plain.columns column (Keyed.mem_values_of_mem_newValues hcolumn))
    · obtain ⟨text, rfl⟩ := eq_comment_of_mem hcomment
      exact Statement.prints_columnComment table.name column.name text

/-- Every statement that adds to the table is the text of its sentences. -/
theorem GrowsTo.prints :
    ∀ statement ∈ openingAdditions old table ++
      (addedIndexes old table).map (Statement.createIndex table.name) ++
        (addedConstraints old table).map (addConstraint table.name), statement.Prints := by
  refine List.forall_mem_append.2 ⟨List.forall_mem_append.2 ⟨hgrows.prints_opening, ?_⟩, ?_⟩
  · exact List.forall_mem_map.2 fun index hmem => Statement.prints_index table.name
      (hgrows.plain.indexes index (hgrows.addedIndexes_subset hmem)).1
  · exact List.forall_mem_map.2 fun constraint hmem => Statement.prints_constraint table.name
      (kind_ne_check (hgrows.plain.constraints constraint (hgrows.addedConstraints_subset hmem)))

variable {before : Schema} (hbefore : before.tables.get? table.name = old.map Table.restored)

include hbefore

/-- The statements that open the additions of a table are read as the opened table. -/
theorem GrowsTo.run_opening :
    Run ((openingAdditions old table).flatMap Statement.sentences) before
      (before.addTable (opened old table)) := by
  cases old with
  | none =>
    rw [openingAdditions, List.flatMap_singleton]
    exact run_createTable hgrows.plain hgrows.wellKeyed before
  | some previous =>
    have hrestored : previous.restored.name = table.name := hgrows.name previous rfl
    refine run_addColumns hrestored hbefore fun column hmem => ?_
    have hvalue := Keyed.mem_values_of_mem_newValues hmem
    exact ⟨hgrows.plain.columns column hvalue, hgrows.plain.serial column hvalue⟩

/-- What is added to the table at once. -/
theorem GrowsTo.run_immediate :
    Run ((immediateAdditions old table).flatMap Statement.sentences) before
      (before.addTable (advanced old table)) := by
  have hopened := name_opened hgrows.name
  let indexed := (addedIndexes old table).foldl Table.addIndex (opened old table)
  have hindexed : indexed.name = table.name ∧ indexed.columns = (opened old table).columns := by
    simp only [indexed, foldl_addIndex, hopened, and_self]
  have himmediate : immediateConstraints old table ⊆ table.constraints.values :=
    fun _ hmem => hgrows.addedConstraints_subset (List.mem_filter.1 hmem).1
  have hindexes := (hgrows.run_opening hbefore).append_addTable
    (run_indexes hopened (get?_addTable_self before hopened)
      fun index hmem => hgrows.plain.indexes index (hgrows.addedIndexes_subset hmem))
    (hopened.trans hindexed.1.symm)
  have hconstraints := hindexes.append_addTable
    (run_constraints hindexed.1 (get?_addTable_self before hindexed.1)
      (fun constraint hmem => hgrows.plain.constraints constraint (himmediate hmem))
      fun constraint hmem => hindexed.2 ▸ hgrows.keyColumns (himmediate hmem))
    (hindexed.1.trans (name_advanced hgrows.name).symm)
  rw [immediateAdditions, List.flatMap_append, List.flatMap_append, List.flatMap_map,
    List.flatMap_map]
  exact hconstraints

omit hbefore in
/-- The foreign keys that are added when every table is there. -/
theorem GrowsTo.run_deferred (hbefore : before.tables.get? table.name = some (advanced old table)) :
    Run ((deferredAdditions old table).flatMap Statement.sentences) before
      (before.addTable (grown old table)) := by
  have hdeferred : deferredConstraints old table ⊆ table.constraints.values :=
    fun _ hmem => hgrows.addedConstraints_subset (List.mem_filter.1 hmem).1
  have hcolumns : (advanced old table).columns = (opened old table).columns := by
    rw [advanced, foldl_addConstraint, foldl_addIndex]
  rw [deferredAdditions, List.flatMap_map]
  exact run_constraints (name_advanced hgrows.name) hbefore
    (fun constraint hmem => hgrows.plain.constraints constraint (hdeferred hmem))
    fun constraint hmem => hcolumns ▸ hgrows.keyColumns (hdeferred hmem)

end GrowsTo

/-! ## The whole migration -/

theorem additions_eq (before : Schema) (table : Table) :
    additions before table.name table =
      openingAdditions (before.tables.get? table.name) table ++
        (addedIndexes (before.tables.get? table.name) table).map (.createIndex table.name) ++
        (addedConstraints (before.tables.get? table.name) table).map
          (addConstraint table.name) := by
  unfold additions
  cases before.tables.get? table.name with
  | none => rfl
  | some old => rfl

/-- Neither the opening statements nor the indexes add a foreign key. -/
theorem isForeignKey_opening (old : Option Table) (table : Table) :
    ∀ statement ∈ openingAdditions old table ++
      (addedIndexes old table).map (Statement.createIndex table.name),
      statement.isForeignKey = false := by
  intro statement hmem
  rcases List.mem_append.1 hmem with hopening | hindex
  · cases old with
    | none => rw [List.mem_singleton.1 hopening]; rfl
    | some previous =>
      obtain ⟨column, -, hcolumn⟩ := List.mem_flatMap.1 hopening
      rcases List.mem_cons.1 hcolumn with rfl | hcomment
      · rfl
      · obtain ⟨text, rfl⟩ := eq_comment_of_mem hcomment
        rfl
  · obtain ⟨index, -, rfl⟩ := List.mem_map.1 hindex
    rfl

/-- Of what is added to a table, its foreign keys come last. -/
theorem filter_additions (before : Schema) (table : Table) :
    (additions before table.name table).filter (fun statement => !statement.isForeignKey) =
        immediateAdditions (before.tables.get? table.name) table ∧
      (additions before table.name table).filter Statement.isForeignKey =
        deferredAdditions (before.tables.get? table.name) table := by
  have hopening := isForeignKey_opening (before.tables.get? table.name) table
  constructor
  · have hall := List.filter_eq_self.2 fun statement hmem =>
      (congrArg not (hopening statement hmem)).trans Bool.not_false
    rw [additions_eq, List.filter_append, hall, List.filter_map]
    rfl
  · have hnone := List.filter_eq_nil_iff.2 fun statement hmem =>
      Bool.eq_false_iff.1 (hopening statement hmem)
    rw [additions_eq, List.filter_append, hnone, List.filter_map]
    rfl

/-- The statements of a schema that has grown, its foreign keys apart. -/
theorem foreignKeysLast_growthStatements {before after : Schema} (hkeyed : after.WellKeyed) :
    foreignKeysLast (growthStatements before after) =
      (before.extensions.newValues after.extensions).map .createExtension ++
        (before.enums.newValues after.enums).map .createEnum ++
        ((after.tables.values.flatMap fun table =>
          immediateAdditions (before.tables.get? table.name) table) ++
        after.tables.values.flatMap fun table =>
          deferredAdditions (before.tables.get? table.name) table) := by
  have hcreate : ∀ statement ∈ (before.extensions.newValues after.extensions).map
      Statement.createExtension ++ (before.enums.newValues after.enums).map .createEnum,
        statement.isForeignKey = false := by
    simp only [List.forall_mem_append, List.forall_mem_map, Statement.isForeignKey, implies_true,
      and_self]
  rw [growthStatements, hkeyed.1.flatMap_toList (additions before),
    foreignKeysLast_append hcreate, foreignKeysLast, List.filter_flatMap, List.filter_flatMap]
  refine congrArg _ (congrArg₂ (· ++ ·) ?_ ?_)
  · exact List.flatMap_congr fun table _ => (filter_additions before table).1
  · exact List.flatMap_congr fun table _ => (filter_additions before table).2

section Whole

variable {before after : Schema} (hbefore : before.IsPlain) (hafter : after.IsPlain)
  (hgrows : before.Grows after)

/-- What the script of a schema is read as, with the extensions and the types that are new. -/
def extended (before after : Schema) : Schema :=
  (before.enums.newValues after.enums).foldl Schema.addEnum
    ((before.extensions.newValues after.extensions).foldl Schema.addExtension (imported before))

/-- The table before its new foreign keys, where it may have been in a schema. -/
def advancedFrom (before : Schema) (table : Table) : Table :=
  advanced (before.tables.get? table.name) table

/-- The table with everything that is added, where it may have been in a schema. -/
def grownFrom (before : Schema) (table : Table) : Table :=
  grown (before.tables.get? table.name) table

/-- What the script of a schema and the migration to another one are read as. -/
def migrated (before after : Schema) : Schema :=
  storeTables (grownFrom before)
    (storeTables (advancedFrom before) (extended before after) after.tables.values)
    after.tables.values

theorem extended_eq (before after : Schema) : extended before after =
    { tables := (imported before).tables
      enums := (before.enums.newValues after.enums).foldl
        (fun found type => found.insert type.name type) before.enums
      extensions := (before.extensions.newValues after.extensions).foldl
        (fun found extension => found.insert extension.name extension) before.extensions } := by
  rw [extended, Schema.foldl_addEnum, Schema.foldl_addExtension, enums_imported, extensions_imported]

include hbefore

theorem get?_extended (key : String) :
    (extended before after).tables.get? key = (before.tables.get? key).map Table.restored := by
  rw [extended_eq]
  exact get?_imported hbefore key

theorem name_of_get? (table : Table) :
    ∀ previous ∈ before.tables.get? table.name, previous.name = table.name :=
  fun _ hprevious => hbefore.wellKeyed.1.of_get? hprevious

theorem name_advancedFrom (table : Table) : (advancedFrom before table).name = table.name :=
  name_advanced (name_of_get? hbefore table)

theorem name_grownFrom (table : Table) : (grownFrom before table).name = table.name :=
  name_grown (name_of_get? hbefore table)

include hafter hgrows

theorem growsTo {table : Table} (hmem : table ∈ after.tables.values) :
    GrowsTo (before.tables.get? table.name) table where
  plain := hafter.tables table hmem
  wellKeyed := hafter.wellKeyed.2.2.2 table hmem
  name := name_of_get? hbefore table
  old := by
    intro previous hprevious
    have hsame := hgrows.tables.of_get? hprevious (hafter.wellKeyed.1.get?_of_mem hmem)
    exact ⟨hsame, hbefore.tables.of_get? hprevious, hbefore.wellKeyed.2.2.2.of_get? hprevious⟩

omit hbefore hgrows in
theorem nodup_names : (after.tables.values.map Table.name).Nodup :=
  hafter.wellKeyed.1.map_name ▸ after.tables.distinct

/-- The migration is read, statement by statement, on what has been read before. -/
theorem run_additions :
    Run ((foreignKeysLast (growthStatements before after)).flatMap Statement.sentences)
      (imported before) (migrated before after) := by
  have hextensions := run_extensions
    (fun extension (hmem : extension ∈ before.extensions.newValues after.extensions) =>
      hafter.extensions extension (Keyed.mem_values_of_mem_newValues hmem)) (imported before)
  have henums := run_enums
    (fun type (hmem : type ∈ before.enums.newValues after.enums) =>
      hafter.enums type (Keyed.mem_values_of_mem_newValues hmem))
    ((before.extensions.newValues after.extensions).foldl Schema.addExtension (imported before))
  have hdistinct := nodup_names hafter
  have hextended : ∀ table ∈ after.tables.values, (extended before after).tables.get? table.name =
      (before.tables.get? table.name).map Table.restored :=
    fun table _ => get?_extended hbefore table.name
  have himmediate := Run.storeTables (advancedFrom before) (name_advancedFrom hbefore) hdistinct
    (fun table hmem _ hstored => (growsTo hbefore hafter hgrows hmem).run_immediate hstored)
    hextended
  -- a foreign key finds every table as the statements before have left it
  have hdeferred := Run.storeTables (grownFrom before) (name_grownFrom hbefore) hdistinct
    (fun table hmem _ hstored => (growsTo hbefore hafter hgrows hmem).run_deferred hstored)
    fun table hmem => get?_storeTables (advancedFrom before) (name_advancedFrom hbefore) hdistinct
      (extended before after) hmem
  rw [foreignKeysLast_growthStatements hafter.wellKeyed]
  simp only [List.flatMap_append, List.flatMap_map, List.flatMap_assoc]
  exact (hextensions.append henums).append (himmediate.append hdeferred)

/-- Every statement of the migration is the text of its sentences. -/
theorem prints_additions :
    ∀ statement ∈ foreignKeysLast (growthStatements before after), statement.Prints := by
  intro statement hmem
  have hadded := (foreignKeysLast_perm _).mem_iff.1 hmem
  simp only [growthStatements, List.mem_append, List.mem_map, List.mem_flatMap] at hadded
  rcases hadded with (⟨extension, -, rfl⟩ | ⟨type, -, rfl⟩) | ⟨⟨name, table⟩, htable, hstatement⟩
  · exact Statement.prints_extension extension
  · exact Statement.prints_enum type
  · have hvalue := Keyed.get?_eq_some_iff.2 htable
    rw [← hafter.wellKeyed.1.of_get? hvalue, additions_eq] at hstatement
    exact (growsTo hbefore hafter hgrows (Keyed.mem_values_iff.2 ⟨name, hvalue⟩)).prints statement
      hstatement

/-- What is read is equal to the new schema. -/
theorem migrated_beq : (migrated before after == after) = true := by
  refine (Schema.beq_iff _ _).2 ⟨(Keyed.beq_iff_get? _ _).2 fun key => ?_, ?_⟩
  · cases hvalue : after.tables.get? key with
    | some table =>
      have hmem := Keyed.mem_values_iff.2 ⟨key, hvalue⟩
      rw [← hafter.wellKeyed.1.of_get? hvalue, migrated,
        get?_storeTables (grownFrom before) (name_grownFrom hbefore) (nodup_names hafter) _ hmem]
      exact (growsTo hbefore hafter hgrows hmem).grown_beq
    | none =>
      have hother : ∀ table ∈ after.tables.values, table.name ≠ key := by
        rintro table hmem rfl
        rw [hafter.wellKeyed.1.get?_of_mem hmem] at hvalue
        cases hvalue
      have hnone : before.tables.get? key = none := by
        refine Option.eq_none_iff_forall_not_mem.2 fun previous hprevious => ?_
        obtain ⟨table, htable, -⟩ := hgrows.tables key previous hprevious
        rw [hvalue] at htable
        cases htable
      rw [migrated, get?_storeTables_of_ne _ (name_grownFrom hbefore) _ hother,
        get?_storeTables_of_ne _ (name_advancedFrom hbefore) _ hother, get?_extended hbefore, hnone]
      rfl
  · have hkept : (migrated before after).enums = (extended before after).enums ∧
        (migrated before after).extensions = (extended before after).extensions := by
      simp only [migrated, storeTables_eq, and_self]
    rw [hkept.1, hkept.2, extended_eq]
    exact ⟨hgrows.enums.beq.foldl_insert_beq hafter.wellKeyed.2.1 fun _ => Iff.rfl,
      hgrows.extensions.beq.foldl_insert_beq hafter.wellKeyed.2.2.1 fun _ => Iff.rfl⟩

end Whole

/-- Where the difference of two plain schemas only adds, the migration reports nothing, and the
script of the first schema followed by the script of the migration is read without a diagnostic as
a schema that equals the second one. -/
theorem import_migration_of_adds {before after : Schema} (hbefore : before.IsPlain)
    (hafter : after.IsPlain) (hnames : after.NoEmptyName)
    (hadds : ∀ op ∈ diff before after, op.verb = .add) :
    (migrationBetween before after).messages = [] ∧
      (importSource .postgres
        (exportScript before ++ (migrationBetween before after).script)).diagnostics = [] ∧
      ((importSource .postgres
        (exportScript before ++ (migrationBetween before after).script)).schema ==
          after) = true := by
  have hgrows := Patch.grows_of_adds hbefore.wellKeyed hafter.wellKeyed hadds
  obtain ⟨hmessages, hstatements⟩ := migration_of_adds hgrows hnames hafter.wellKeyed hadds
  have hsame := migrated_beq hbefore hafter hgrows
  have hrun := (run_exportStatements hbefore).append (run_additions hbefore hafter hgrows)
  rw [← List.flatMap_append] at hrun
  have hread : importSource .postgres
      (exportScript before ++ (migrationBetween before after).script) =
        ⟨migrated before after, []⟩ := by
    have hscripts := ofSql_scripts (prints_exportStatements hbefore)
      (prints_additions hbefore hafter hgrows) hrun
    -- what is read equals a plain schema, so that every reference has its columns already
    rw [resolveReferences_of_beq hafter hsame, ← hstatements] at hscripts
    exact hscripts
  rw [hread]
  exact ⟨hmessages, rfl, hsame⟩

def noteColumn : Column := ⟨"note", "varchar(80)", some (.text "none; yet"), none, true,
  some "it's free"⟩

/-- The table of entries with a column, an index and a reference more. -/
def notedTable : Table :=
  { entryTable with
    columns := entryTable.columns.insert "note" noteColumn
    indexes := entryTable.indexes.insert "by note" ⟨"by note", false, ["note"], "btree"⟩
    constraints := entryTable.constraints.insert "reviewed"
      (.foreignKey "reviewed" ⟨["note"], "review", ["note"], .cascade, .restrict⟩) }

def reviewTable : Table where
  name := "review"
  comment := some "of a note"
  columns := Keyed.ofList [("note", noteColumn)]
  indexes := ∅
  constraints := Keyed.ofList [("review_pkey", .primaryKey "review_pkey" ["note"])]

/-- The schema of accounts with more in it, the new table before the old ones. -/
def reviewedSchema : Schema where
  tables := Keyed.ofList [("review", reviewTable), ("entry", notedTable), ("account", accountTable)]
  enums := accountSchema.enums.insert "tone" ⟨"tone", [], none⟩
  extensions := accountSchema.extensions

/-- Its tables are plain, the one that it shares with the schema of accounts as it is there. -/
theorem reviewedSchema_isPlain : reviewedSchema.IsPlain := by
  have hnote : IsPlainColumn noteColumn :=
    ⟨⟨⟨⟨["varchar"], some ["80"], 0⟩, by decide +kernel, rfl⟩, by decide +kernel⟩,
      by decide +kernel, rfl⟩
  have hnoted : notedTable.IsPlain :=
    { some_column := by decide +kernel
      columns :=
        have hcolumns : ∀ column ∈ entryTable.columns.values ++ [noteColumn],
            IsPlainColumn column :=
          List.forall_mem_append.2 ⟨entryTable_isPlain.columns, List.forall_mem_singleton.2 hnote⟩
        hcolumns
      serial := by decide +kernel
      one_key := by decide +kernel
      key_columns := by decide +kernel
      constraints := by decide +kernel
      indexes := by decide +kernel }
  have hreview : reviewTable.IsPlain :=
    { some_column := by decide +kernel
      columns := List.forall_mem_singleton.2 hnote
      serial := by decide +kernel
      one_key := by decide +kernel
      key_columns := by decide +kernel
      constraints := by decide +kernel
      indexes := by decide +kernel }
  exact
    { wellKeyed := by decide +kernel
      tables := List.forall_mem_cons.2 ⟨hreview, List.forall_mem_cons.2
        ⟨hnoted, List.forall_mem_singleton.2 accountTable_isPlain⟩⟩
      enums := by decide +kernel
      extensions := by decide +kernel }

theorem import_migration_reviewed :
    (accountSchema.IsPlain ∧ reviewedSchema.IsPlain ∧ reviewedSchema.NoEmptyName ∧
      ∀ op ∈ diff accountSchema reviewedSchema, op.verb = .add) ∧
    (migrationBetween accountSchema reviewedSchema).messages = [] ∧
      (importSource .postgres (exportScript accountSchema ++
        (migrationBetween accountSchema reviewedSchema).script)).diagnostics = [] ∧
      ((importSource .postgres (exportScript accountSchema ++
        (migrationBetween accountSchema reviewedSchema).script)).schema ==
          reviewedSchema) = true := by
  have hnames : reviewedSchema.NoEmptyName := by decide +kernel
  have hadds : ∀ op ∈ diff accountSchema reviewedSchema, op.verb = .add := by decide +kernel
  exact ⟨⟨accountSchema_isPlain, reviewedSchema_isPlain, hnames, hadds⟩,
    import_migration_of_adds accountSchema_isPlain reviewedSchema_isPlain hnames hadds⟩

end SchemaEvolution.Sql
