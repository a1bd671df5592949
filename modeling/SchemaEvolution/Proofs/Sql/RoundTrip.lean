import Mathlib.Data.List.Nodup
import SchemaEvolution.Proofs.Sql.PlainSchema
import SchemaEvolution.Proofs.Sql.ScriptReading
import SchemaEvolution.Source

/-!
# Exported scripts

The script that a plain schema is exported as is read as that schema, without a diagnostic.
The tables are followed through the script one by one: each is created and described, then
given its indexes, then the constraints that have statements of their own.
-/

namespace SchemaEvolution.Sql

theorem addTable_addTable (schema : Schema) {first second : Table}
    (hname : first.name = second.name) :
    (schema.addTable first).addTable second = schema.addTable second := by
  simp only [Schema.addTable, hname, Keyed.insert_insert]

theorem addTable_eq_self {schema : Schema} {table : Table}
    (htable : schema.tables.get? table.name = some table) : schema.addTable table = schema := by
  rw [Schema.addTable, Keyed.insert_eq_self htable]

theorem get?_addTable (schema : Schema) (table : Table) (key : String) :
    (schema.addTable table).tables.get? key =
      if table.name = key then some table else schema.tables.get? key :=
  Keyed.get?_insert schema.tables table.name key table

theorem get?_addTable_self (schema : Schema) {table : Table} {owner : String}
    (hname : table.name = owner) : (schema.addTable table).tables.get? owner = some table := by
  rw [get?_addTable, if_pos hname]

/-- Of two forms of a table that are stored one after the other the second one stays. -/
theorem Run.append_addTable {left right : List Sentence} {before : Schema} {first second : Table}
    (hleft : Run left before (before.addTable first))
    (hright : Run right (before.addTable first) ((before.addTable first).addTable second))
    (hname : first.name = second.name) : Run (left ++ right) before (before.addTable second) := by
  rw [addTable_addTable before hname] at hright
  exact hleft.append hright

/-- What parts do to one table, one after the other. -/
theorem Run.table {α : Type} {items : List α} {part : α → List Sentence}
    (change : Table → α → Table) {owner : String} (Keeps : Table → Prop)
    (hname : ∀ table, Keeps table → table.name = owner)
    (hkeeps : ∀ item ∈ items, ∀ table, Keeps table → Keeps (change table item))
    (hpart : ∀ item ∈ items, ∀ before table, Keeps table →
      before.tables.get? owner = some table →
        Run (part item) before (before.addTable (change table item)))
    {before : Schema} {table : Table} (htable : Keeps table)
    (hbefore : before.tables.get? owner = some table) :
    Run (items.flatMap part) before (before.addTable (items.foldl change table)) := by
  induction items generalizing before table with
  | nil =>
    have hsame : before.addTable table = before :=
      addTable_eq_self (by rw [hname table htable, hbefore])
    rw [List.foldl_nil, hsame]
    exact .nil before
  | cons item more ih =>
    have hmore : ∀ other ∈ more, ∀ table, Keeps table → Keeps (change table other) :=
      fun other hmem => hkeeps other (List.mem_cons_of_mem _ hmem)
    have hchanged := hkeeps item List.mem_cons_self table htable
    -- the table keeps its name to the end, so only the last store of it counts
    have hlast : Keeps (more.foldl change (change table item)) :=
      List.foldlRecOn more change hchanged fun table htable other hmem =>
        hmore other hmem table htable
    have hnames : (change table item).name = (more.foldl change (change table item)).name := by
      rw [hname _ hchanged, hname _ hlast]
    exact (hpart item List.mem_cons_self before table htable hbefore).append_addTable
      (ih hmore (fun other hmem => hpart other (List.mem_cons_of_mem _ hmem)) hchanged
        (get?_addTable_self before (hname _ hchanged))) hnames

def describe (columns : Keyed Column) (column : Column) : Keyed Column :=
  match column.comment with
  | some text => columns.update column.name fun found => { found with comment := some text }
  | none => columns

theorem keys_describe (columns : Keyed Column) (column : Column) :
    (describe columns column).keys = columns.keys := by
  unfold describe
  cases column.comment with
  | none => rfl
  | some text => exact Keyed.keys_update columns column.name _

theorem get?_describe_of_ne (columns : Keyed Column) {column : Column} {key : String}
    (hother : column.name ≠ key) : (describe columns column).get? key = columns.get? key := by
  unfold describe
  cases column.comment with
  | none => rfl
  | some text => exact (Keyed.get?_update columns column.name key _).trans (if_neg hother.symm)

theorem get?_describe_self {columns : Keyed Column} {column : Column}
    (hcolumn : columns.get? column.name = some { column with comment := none }) :
    (describe columns column).get? column.name = some column := by
  obtain ⟨name, type, default, check, notNull, comment⟩ := column
  cases comment with
  | none => exact hcolumn
  | some text =>
    refine (Keyed.get?_update columns name name _).trans ?_
    rw [if_pos rfl, hcolumn]
    rfl

theorem get?_foldl_describe_of_ne {others : List Column} (columns : Keyed Column) {key : String}
    (hother : ∀ column ∈ others, column.name ≠ key) :
    (others.foldl describe columns).get? key = columns.get? key := by
  induction others generalizing columns with
  | nil => rfl
  | cons column more ih =>
    rw [List.foldl_cons, ih _ fun other hmem => hother other (List.mem_cons_of_mem _ hmem),
      get?_describe_of_ne columns (hother column List.mem_cons_self)]

/-- Describing other columns leaves a column as it is. -/
theorem get?_foldl_describe {others : List Column} (hdistinct : (others.map Column.name).Nodup)
    {columns : Keyed Column} (hcolumns : ∀ column ∈ others,
      columns.get? column.name = some { column with comment := none }) {column : Column}
    (hmem : column ∈ others) :
    (others.foldl describe columns).get? column.name = some column := by
  induction others generalizing columns with
  | nil => cases hmem
  | cons first more ih =>
    rw [List.map_cons, List.nodup_cons] at hdistinct
    have hne : ∀ other ∈ more, other.name ≠ first.name := by
      intro other hother heq
      exact hdistinct.1 (List.mem_map.2 ⟨other, hother, heq⟩)
    rw [List.foldl_cons]
    rcases List.mem_cons.1 hmem with rfl | hmore
    · rw [get?_foldl_describe_of_ne _ hne,
        get?_describe_self (hcolumns column List.mem_cons_self)]
    · refine ih hdistinct.2 (fun other hother => ?_) hmore
      rw [get?_describe_of_ne columns (hne other hother).symm]
      exact hcolumns other (List.mem_cons_of_mem _ hother)

theorem keys_foldl_describe (others : List Column) (columns : Keyed Column) :
    (others.foldl describe columns).keys = columns.keys := by
  induction others generalizing columns with
  | nil => rfl
  | cons column more ih => rw [List.foldl_cons, ih, keys_describe]

/-- Columns that are given their comments one by one are the columns as they were. -/
theorem foldl_describe_eq {columns : Keyed Column} (hnamed : columns.Named Column.name) :
    columns.values.foldl describe (columns.map fun column => { column with comment := none }) =
      columns := by
  have hstripped : ∀ column ∈ columns.values,
      (columns.map fun column => { column with comment := none }).get? column.name =
        some { column with comment := none } := by
    intro column hmem
    rw [Keyed.get?_map, hnamed.get?_of_mem hmem]
    rfl
  refine Keyed.ext_get? ?_ fun key => ?_
  · rw [keys_foldl_describe, Keyed.keys, Keyed.map, List.map_map]
    rfl
  · cases hvalue : columns.get? key with
    | some column =>
      have hmem := Keyed.mem_values_iff.2 ⟨key, hvalue⟩
      rw [← hnamed.of_get? hvalue]
      exact get?_foldl_describe (hnamed.map_name ▸ columns.distinct) hstripped hmem
    | none =>
      rw [get?_foldl_describe_of_ne _ fun column hmem heq => ?_, Keyed.get?_map, hvalue]
      · rfl
      · rw [← heq, hnamed.get?_of_mem hmem] at hvalue
        cases hvalue

theorem foldl_columns (others : List Column) (table : Table) :
    others.foldl (fun table column => { table with columns := describe table.columns column })
      table = { table with columns := others.foldl describe table.columns } :=
  List.foldl_hom (fun found => { table with columns := found }) fun _ _ => rfl

section Described

variable {table started : Table} {before : Schema}

/-- The comment of a table is read into that table. -/
theorem run_tableComment (hname : started.name = table.name) (hnone : started.comment = none)
    (hbefore : before.tables.get? table.name = some started) :
    Run (table.comment.toList.map (tableCommentSentence table.name)) before
      (before.addTable { started with comment := table.comment }) := by
  have htitled : table.comment.toList.foldl (fun found text => { found with comment := some text })
      started = { started with comment := table.comment } := by
    cases table.comment with
    | none => exact congrArg (fun comment => { started with comment := comment }) hnone
    | some text => rfl
  rw [List.map_eq_flatMap, ← htitled]
  exact Run.table (fun found text => { found with comment := some text })
    (fun found => found.name = table.name) (fun _ hfound => hfound)
    (fun _ _ _ hfound => hfound) (fun text _ _ _ hfound hstored =>
      .single (Sentence.reads_tableComment hstored hfound text)) hname hbefore

theorem run_columnComment {owner : String} {found : Table} (hname : found.name = owner)
    {column : Column} (hcolumn : column.name ∈ found.columns.keys)
    (hbefore : before.tables.get? owner = some found) :
    Run (column.comment.toList.map (columnCommentSentence owner column.name)) before
      (before.addTable { found with columns := describe found.columns column }) := by
  unfold describe
  cases column.comment with
  | none =>
    have hsame : before.addTable found = before := addTable_eq_self (by rw [hname, hbefore])
    exact hsame.symm ▸ .nil before
  | some text =>
    exact .single (Sentence.reads_columnComment hbefore hname
      (Keyed.contains_eq_true_iff.2 hcolumn) text)

/-- The comments of a table and of its columns are given to it. -/
theorem run_comments (hname : started.name = table.name) (hnone : started.comment = none)
    (hnamed : table.columns.Named Column.name)
    (hcolumns : started.columns = table.columns.map fun column => { column with comment := none })
    (hbefore : before.tables.get? table.name = some started) :
    Run (commentSentences table) before (before.addTable
      { started with comment := table.comment, columns := table.columns }) := by
  let titled : Table := { started with comment := table.comment }
  have htitled : (before.addTable titled).tables.get? table.name = some titled :=
    get?_addTable_self before hname
  have hkeys : titled.name = table.name ∧ titled.columns.keys = table.columns.keys := by
    refine ⟨hname, ?_⟩
    change started.columns.keys = _
    rw [hcolumns, Keyed.keys, Keyed.map, List.map_map]
    rfl
  have hdescribed : table.columns.values.foldl (fun found column =>
      { found with columns := describe found.columns column }) titled =
        { titled with columns := table.columns } := by
    rw [foldl_columns]
    exact congrArg (fun columns => { titled with columns := columns })
      (hcolumns ▸ foldl_describe_eq hnamed)
  have hmem : ∀ column ∈ table.columns.values, column.name ∈ table.columns.keys :=
    fun column hmem => Keyed.mem_keys_iff.2 ⟨column, hnamed.get?_of_mem hmem⟩
  have hrun := Run.table
    (fun found column => { found with columns := describe found.columns column })
    (fun found => found.name = table.name ∧ found.columns.keys = table.columns.keys)
    (fun _ hfound => hfound.1)
    (fun column _ found hfound => ⟨hfound.1, (keys_describe _ column).trans hfound.2⟩)
    (fun column hcolumn _ found hfound hstored =>
      run_columnComment hfound.1 (hfound.2 ▸ hmem column hcolumn) hstored)
    hkeys htitled
  have hnames : titled.name = { titled with columns := table.columns }.name := rfl
  rw [hdescribed] at hrun
  exact (run_tableComment hname hnone hbefore).append_addTable hrun hnames

end Described

theorem foldl_addIndex (indexes : List Index) (table : Table) :
    indexes.foldl Table.addIndex table = { table with
      indexes := indexes.foldl (fun found index => found.insert index.name index)
        table.indexes } :=
  List.foldl_hom (fun found => { table with indexes := found }) fun _ _ => rfl

section Parts

variable {owner : String} {found : Table} {before : Schema} (hname : found.name = owner)
  (hbefore : before.tables.get? owner = some found)

include hname hbefore

/-- Indexes are created one after the other. -/
theorem run_indexes {indexes : List Index} (hplain : ∀ index ∈ indexes, IsPlainIndex index) :
    Run (indexes.flatMap fun index => (Statement.createIndex owner index).sentences) before
      (before.addTable (indexes.foldl Table.addIndex found)) :=
  Run.table Table.addIndex (fun found => found.name = owner) (fun _ hfound => hfound)
    (fun _ _ _ hfound => hfound) (fun index hmem _ _ hfound hstored =>
      .single (Sentence.reads_index hstored hfound (hplain index hmem).1 (hplain index hmem).2))
    hname hbefore

/-- Constraints are added one after the other. -/
theorem run_constraints {constraints : List Constraint}
    (hplain : ∀ constraint ∈ constraints, IsPlainRule constraint.rule)
    (hkeys : ∀ constraint ∈ constraints, Table.KeyColumns found.columns constraint) :
    Run (constraints.flatMap fun constraint => (addConstraint owner constraint).sentences) before
      (before.addTable (constraints.foldl Table.addConstraint found)) := by
  refine Run.table Table.addConstraint
    (fun other => other.name = owner ∧ other.columns = found.columns)
    (fun _ hother => hother.1) (fun _ _ _ hother => hother) ?_ ⟨hname, rfl⟩ hbefore
  intro constraint hmem before other hother hstored
  have hcolumns : Table.KeyColumns other.columns constraint := hother.2 ▸ hkeys constraint hmem
  rw [← Table.addTo_clauseOf (hplain constraint hmem) hcolumns]
  exact .single (Sentence.reads_constraint hstored (kind_ne_check (hplain constraint hmem)))

end Parts

section Plain

variable {table : Table} (hplain : table.IsPlain) (hkeyed : table.WellKeyed)

include hplain hkeyed

/-- The table is created with its comments and with the constraints that its columns carry. -/
theorem run_createTable (before : Schema) : Run (Statement.createTable table).sentences before
    (before.addTable table.described) := by
  have hcreated : table.created.columns =
      table.columns.map fun column => { column with comment := none } := by
    rw [created_eq hkeyed.1]
    exact Keyed.map_congr fun column hmem => hplain.column_definition hkeyed.1 hmem
  have hname : table.created.name = table.name := by rw [created_eq hkeyed.1]
  have hnone : table.created.comment = none := by rw [created_eq hkeyed.1]
  have hcreate : Run [⟨.create, tableRow table⟩] before (before.addTable table.created) :=
    .single (Sentence.reads_table hkeyed.1 hplain.some_column hplain.columns)
  have hdescribed := hcreate.append_addTable
    (run_comments hname hnone hkeyed.1 hcreated (get?_addTable_self before hname)) rfl
  rw [created_eq hkeyed.1] at hdescribed
  exact hdescribed

/-- The indexes of the table are created. -/
theorem run_createIndexes {before : Schema}
    (hbefore : before.tables.get? table.name = some table.described) :
    Run (table.indexes.values.flatMap fun index =>
      (Statement.createIndex table.name index).sentences) before
        (before.addTable table.indexed) := by
  have hindexes : table.indexes.values.foldl Table.addIndex table.described = table.indexed :=
    (foldl_addIndex table.indexes.values table.described).trans
      (congrArg (fun indexes => { table.indexed with indexes := indexes })
        (Keyed.foldl_insert_self table.indexes hkeyed.2.1))
  rw [← hindexes]
  have hname : table.described.name = table.name := rfl
  exact run_indexes hname hbefore hplain.indexes

omit hkeyed in
/-- The constraints with statements of their own are added. -/
theorem run_separateConstraints {before : Schema}
    (hbefore : before.tables.get? table.name = some table.indexed) :
    Run (table.separateConstraints.flatMap fun constraint =>
      (addConstraint table.name constraint).sentences) before
        (before.addTable table.restored) := by
  have hconstraints : table.separateConstraints.foldl Table.addConstraint table.indexed =
      table.restored := by
    rw [foldl_addConstraint, Table.restored, insertConstraints_append]
    rfl
  have hvalue : ∀ constraint ∈ table.separateConstraints, constraint ∈ table.constraints.values :=
    fun constraint hseparate => (List.mem_filter.1 hseparate).1
  have hname : table.indexed.name = table.name := rfl
  rw [← hconstraints]
  exact run_constraints hname hbefore
    (fun constraint hmem => hplain.constraints constraint (hvalue _ hmem))
    fun constraint hmem => hplain.key_columns constraint (hvalue _ hmem)

end Plain

theorem sortNames_perm (names : List String) : (sortNames names).Perm names :=
  List.mergeSort_perm names _

/-- Layers hold every name once. -/
theorem flatten_layersFrom_perm (schema : Schema) (fuel : Nat) (done left : List String) :
    (layersFrom schema fuel done left).flatten.Perm left := by
  induction fuel generalizing done left with
  | zero => simpa [layersFrom] using sortNames_perm left
  | succ fuel ih =>
    have hparts : (left.filter (fun name => (parentsOf schema name).all done.contains) ++
        left.filter (fun name => !(parentsOf schema name).all done.contains)).Perm left :=
      List.filter_append_perm _ left
    rw [layersFrom, List.partition_eq_filter_filter]
    dsimp only
    split
    -- nothing is ready: what a cycle holds back is the last layer
    · next hempty =>
      rw [List.isEmpty_iff.1 hempty, List.nil_append] at hparts
      rw [List.flatten_singleton]
      exact (sortNames_perm _).trans hparts
    · rw [List.flatten_cons]
      exact ((sortNames_perm _).append (ih _ _)).trans hparts

/-- Every table of the schema is exported, and exported once. -/
theorem orderedTables_perm (schema : Schema) :
    (orderedTables schema).Perm schema.tables.values := by
  rw [orderedTables, Keyed.values_eq_filterMap]
  exact (flatten_layersFrom_perm schema _ _ _).filterMap _

theorem nodup_orderedTables {schema : Schema} (hnamed : schema.tables.Named Table.name) :
    ((orderedTables schema).map Table.name).Nodup := by
  rw [((orderedTables_perm schema).map _).nodup_iff, hnamed.map_name]
  exact schema.tables.distinct

/-! ## The whole script -/

def storeTables (change : Table → Table) (schema : Schema) (tables : List Table) : Schema :=
  tables.foldl (fun schema table => schema.addTable (change table)) schema

theorem storeTables_eq (change : Table → Table) (schema : Schema) (tables : List Table) :
    storeTables change schema tables = { schema with
      tables := tables.foldl (fun found table => found.insert (change table).name (change table))
        schema.tables } := by
  induction tables generalizing schema with
  | nil => rfl
  | cons table more ih => exact ih _

section Stored

variable (change : Table → Table) (hname : ∀ table, (change table).name = table.name)
variable {tables : List Table} (hdistinct : (tables.map Table.name).Nodup)

include hname

theorem get?_storeTables_of_ne (schema : Schema) {key : String}
    (hother : ∀ table ∈ tables, table.name ≠ key) :
    (storeTables change schema tables).tables.get? key = schema.tables.get? key := by
  rw [storeTables_eq]
  exact Keyed.get?_foldl_insert_of_ne (fun table hmem => hname table ▸ hother table hmem)
    change schema.tables

include hdistinct

theorem get?_storeTables (schema : Schema) {table : Table} (hmem : table ∈ tables) :
    (storeTables change schema tables).tables.get? table.name = some (change table) := by
  rw [storeTables_eq]
  refine Keyed.get?_foldl_insert (fun other hother heq => ?_) schema.tables
    (.inr ⟨table, hmem, hname table⟩)
  have hsame := List.inj_on_of_nodup_map hdistinct hother hmem ((hname other).symm.trans heq)
  rw [hsame]

/-- Statements for tables, each of which finds what is stored as it was, change one table after
the other. -/
theorem Run.storeTables {part : Table → List Sentence} {old : Table → Option Table}
    (hpart : ∀ table ∈ tables, ∀ before, before.tables.get? table.name = old table →
      Run (part table) before (before.addTable (change table)))
    {before : Schema} (hbefore : ∀ table ∈ tables, before.tables.get? table.name = old table) :
    Run (tables.flatMap part) before (Sql.storeTables change before tables) := by
  -- the statements of one table leave what is stored under other names
  refine Run.flatMap hpart ?_ hbefore
  refine (List.pairwise_map.1 hdistinct).imp fun {table other} hother before hstored => ?_
  rw [get?_addTable, hname, if_neg hother, hstored]

end Stored

variable {schema : Schema} (hplain : schema.IsPlain)

def imported (schema : Schema) : Schema :=
  storeTables Table.restored
    (storeTables Table.indexed
      (storeTables Table.described { schema with tables := ∅ } (orderedTables schema))
      (orderedTables schema))
    (orderedTables schema)

theorem run_extensions {extensions : List Extension}
    (hplain : ∀ extension ∈ extensions, extension.comment = none ∧
      extension.name ∉ reserved ∧ ∀ place ∈ extension.schema, place ∉ reserved) (before : Schema) :
    Run (extensions.flatMap fun extension => (Statement.createExtension extension).sentences)
      before (extensions.foldl Schema.addExtension before) := by
  refine .flatMap_always (fun extension hmem before => ?_) before
  obtain ⟨hcomment, hname, hplace⟩ := hplain extension hmem
  exact .single (Sentence.reads_extension hname hplace hcomment)

theorem run_enums {types : List EnumType}
    (hplain : ∀ type ∈ types, type.comment = none ∧ type.name ∉ reserved) (before : Schema) :
    Run (types.flatMap fun type => (Statement.createEnum type).sentences) before
      (types.foldl Schema.addEnum before) := by
  refine .flatMap_always (fun type hmem before => ?_) before
  obtain ⟨hcomment, hname⟩ := hplain type hmem
  exact .single (Sentence.reads_enum hname hcomment)

include hplain

theorem run_createExtensions (before : Schema) (hnone : before.extensions = ∅) :
    Run (schema.extensions.values.flatMap fun extension =>
      (Statement.createExtension extension).sentences) before
        { before with extensions := schema.extensions } := by
  have hextensions : schema.extensions.values.foldl Schema.addExtension before =
      { before with extensions := schema.extensions } := by
    rw [Schema.foldl_addExtension, hnone, Keyed.foldl_insert_self _ hplain.wellKeyed.2.2.1]
  exact hextensions ▸ run_extensions hplain.extensions before

theorem run_createEnums (before : Schema) (hnone : before.enums = ∅) :
    Run (schema.enums.values.flatMap fun type => (Statement.createEnum type).sentences) before
      { before with enums := schema.enums } := by
  have henums : schema.enums.values.foldl Schema.addEnum before =
      { before with enums := schema.enums } := by
    rw [Schema.foldl_addEnum, hnone, Keyed.foldl_insert_self _ hplain.wellKeyed.2.1]
  exact henums ▸ run_enums hplain.enums before

/-- The statements of an export are read, one after the other, into the schema. -/
theorem run_exportStatements :
    Run ((exportStatements schema).flatMap Statement.sentences) .empty (imported schema) := by
  have hdistinct := nodup_orderedTables hplain.wellKeyed.1
  have htables : ∀ table ∈ orderedTables schema, table.IsPlain ∧ table.WellKeyed := by
    intro table hmem
    have hvalue := (orderedTables_perm schema).mem_iff.1 hmem
    exact ⟨hplain.tables table hvalue, hplain.wellKeyed.2.2.2 table hvalue⟩
  have hcreate : Run ((orderedTables schema).flatMap fun table =>
      (Statement.createTable table).sentences) { schema with tables := ∅ }
        (storeTables Table.described { schema with tables := ∅ } (orderedTables schema)) :=
    .flatMap_always (fun table hmem before =>
      run_createTable (htables table hmem).1 (htables table hmem).2 before) _
  have hindex := Run.storeTables Table.indexed (fun _ => rfl) hdistinct
    (fun table hmem _ => run_createIndexes (htables table hmem).1 (htables table hmem).2)
    fun table hmem => get?_storeTables Table.described (fun _ => rfl) hdistinct
      { schema with tables := ∅ } hmem
  have hconstrain := Run.storeTables Table.restored (fun _ => rfl) hdistinct
    (fun table hmem _ => run_separateConstraints (htables table hmem).1)
    fun table hmem => get?_storeTables Table.indexed (fun _ => rfl) hdistinct
      (storeTables Table.described { schema with tables := ∅ } (orderedTables schema)) hmem
  have hextensions := run_createExtensions hplain .empty rfl
  have henums := run_createEnums hplain { Schema.empty with extensions := schema.extensions } rfl
  simp only [exportStatements, List.flatMap_append, List.flatMap_map, List.flatMap_assoc]
  exact (((hextensions.append henums).append hcreate).append hindex).append hconstrain

/-- Every statement of the script is the text of its sentences. -/
theorem prints_exportStatements : ∀ statement ∈ exportStatements schema, statement.Prints := by
  have htables : ∀ table ∈ orderedTables schema, table.IsPlain := fun table hmem =>
    hplain.tables table ((orderedTables_perm schema).mem_iff.1 hmem)
  intro statement hmem
  simp only [exportStatements, List.mem_append, List.mem_map, List.mem_flatMap] at hmem
  rcases hmem with (((⟨extension, -, rfl⟩ | ⟨type, -, rfl⟩) | ⟨table, htable, rfl⟩) |
    ⟨table, htable, index, hindex, rfl⟩) | ⟨table, htable, constraint, hconstraint, rfl⟩
  · exact Statement.prints_extension extension
  · exact Statement.prints_enum type
  · exact Statement.prints_table (htables table htable).some_column (htables table htable).columns
  · exact Statement.prints_index table.name ((htables table htable).indexes index hindex).1
  · exact Statement.prints_constraint table.name (kind_ne_check
      ((htables table htable).constraints constraint (List.mem_filter.1 hconstraint).1))

/-! ## What is read -/

/-- A table of the schema that is read is the restored table of the schema that is written. -/
theorem get?_imported (key : String) :
    (imported schema).tables.get? key = (schema.tables.get? key).map Table.restored := by
  have hnamed := hplain.wellKeyed.1
  have hperm := orderedTables_perm schema
  cases hvalue : schema.tables.get? key with
  | some table =>
    have hmem := hperm.mem_iff.2 (Keyed.mem_values_iff.2 ⟨key, hvalue⟩)
    rw [← hnamed.of_get? hvalue]
    exact get?_storeTables Table.restored (fun _ => rfl) (nodup_orderedTables hnamed) _ hmem
  | none =>
    have hother : ∀ table ∈ orderedTables schema, table.name ≠ key := by
      rintro table hmem rfl
      rw [hnamed.get?_of_mem (hperm.mem_iff.1 hmem)] at hvalue
      cases hvalue
    calc (imported schema).tables.get? key
      _ = _ := get?_storeTables_of_ne Table.restored (fun _ => rfl) _ hother
      _ = _ := get?_storeTables_of_ne Table.indexed (fun _ => rfl) _ hother
      _ = none := get?_storeTables_of_ne Table.described (fun _ => rfl) _ hother

omit hplain in
theorem enums_imported : (imported schema).enums = schema.enums := by
  simp only [imported, storeTables_eq]

omit hplain in
theorem extensions_imported : (imported schema).extensions = schema.extensions := by
  simp only [imported, storeTables_eq]

/-- What is read is equal to the schema. -/
theorem imported_beq : (imported schema == schema) = true := by
  refine (Schema.beq_iff _ _).2 ⟨(Keyed.beq_iff_get? _ _).2 fun key => ?_, ?_⟩
  · rw [get?_imported hplain]
    cases hvalue : schema.tables.get? key with
    | none => rfl
    | some table =>
      exact (hplain.tables.of_get? hvalue).restored_beq (hplain.wellKeyed.2.2.2.of_get? hvalue)
  · rw [enums_imported, extensions_imported]
    exact ⟨BEq.rfl, BEq.rfl⟩

/-- In a schema that equals a plain one no reference leaves its columns to be found. -/
theorem resolveReferences_of_beq {found : Schema} (hsame : (found == schema) = true) :
    resolveReferences found = found := by
  obtain ⟨htables, -⟩ := (Schema.beq_iff _ _).1 hsame
  refine congrArg (fun tables => { found with tables := tables })
    (Keyed.map_eq_self fun owner howner => ?_)
  obtain ⟨key, hkey⟩ := Keyed.mem_values_iff.1 howner
  obtain ⟨table, htable, hother⟩ := Keyed.exists_of_beq htables hkey
  obtain ⟨-, -, -, -, hconstraints⟩ := (Table.beq_iff _ _).1 hother
  refine congrArg (fun constraints => { owner with constraints := constraints })
    (Keyed.map_eq_self fun constraint hmem => ?_)
  obtain ⟨name, hname⟩ := Keyed.mem_values_iff.1 hmem
  obtain ⟨other, hrule, heq⟩ := Keyed.exists_of_beq hconstraints hname
  cases beq_iff_eq.1 heq
  have hplainRule := (hplain.tables.of_get? htable).constraints.of_get? hrule
  obtain ⟨label, rule⟩ := constraint
  cases rule with
  | primaryKey columns => rfl
  | unique columns => rfl
  | check condition => rfl
  | foreignKey target =>
    have hsome : target.targetColumns.isEmpty = false := by
      rw [← Bool.not_eq_true, List.isEmpty_iff]
      exact hplainRule
    simp only [hsome, Bool.false_eq_true, if_false]

/-- The script of a plain schema is read without a diagnostic, as the schema. -/
theorem importSource_exportScript :
    importSource .postgres (exportScript schema) = ⟨imported schema, []⟩ := by
  have hread := ofSql_script (prints_exportStatements hplain) (run_exportStatements hplain)
  rw [resolveReferences_of_beq hplain (imported_beq hplain)] at hread
  exact hread

end SchemaEvolution.Sql
