import SchemaEvolution.Proofs.Schema.StaysKeyed
import SchemaEvolution.Proofs.Sql.WellKeyed
import SchemaEvolution.Repeated
import SchemaEvolution.SchemaRb.Import
import SchemaEvolution.Source

/-!
# Sources give well-keyed schemas

A call of a schema file adds columns, indexes and constraints to one table, or something to the
schema, always under the name that it has; a call that is refused and a block without an end change
nothing.  Where a format declares whole tables, each of them is built from an empty table and then
stored under its own name, like the enumerated types before it.  So every format but the native
one, whose documents choose the keys themselves, gives a well-keyed schema for every text.
-/

namespace SchemaEvolution

namespace SchemaRb

variable {schema next : Schema} {lexemes rest : List Lexeme}

theorem staysKeyed_addReference (reference : String) (call : Call) (table : Table) :
    table.StaysKeyed (addReference reference call table) := by
  unfold addReference
  extract_lets name type plain withColumn withIndex
  have hcolumn : table.StaysKeyed withColumn := table.staysKeyed_addColumn _
  have hindex : withColumn.StaysKeyed withIndex := by
    simp only [withIndex]
    split
    · exact .refl withColumn
    · exact withColumn.staysKeyed_addIndex _
  split
  · exact hcolumn.trans hindex
  · exact (hcolumn.trans hindex).trans (withIndex.staysKeyed_addConstraint _)

/-- A call that is understood changes the table by what it adds. -/
theorem addToTable_staysKeyed {receiver : String} {table after : Table} {call : Call}
    (hadd : addToTable receiver table call = .ok after) : table.StaysKeyed after := by
  unfold addToTable at hadd
  split at hadd
  · cases hadd
    exact table.staysKeyed_addIndex _
  · cases hadd
    exact (table.staysKeyed_addColumn _).trans (Table.staysKeyed_addColumn _ _)
  · cases hadd
    exact Table.staysKeyed_elim fun reference => staysKeyed_addReference reference call table
  · cases hadd
    exact Table.staysKeyed_elim fun reference => staysKeyed_addReference reference call table
  · cases hadd
    exact Table.staysKeyed_elim fun condition => table.staysKeyed_addConstraint _
  · cases hadd
    exact Table.staysKeyed_elim fun name => table.staysKeyed_addColumn _
  · dsimp only at hadd
    split at hadd
    · cases hadd
    · cases hadd
      exact Table.staysKeyed_foldl (fun table name => table.staysKeyed_addColumn _) _ table

/-- A table starts with its key under its own name. -/
theorem startTable_wellKeyed (name : String) (call : Call) : (startTable name call).WellKeyed := by
  unfold startTable
  extract_lets empty table
  have htable : table.WellKeyed :=
    (empty.staysKeyed_comment _).wellKeyed (Table.wellKeyed_empty name)
  split
  · exact htable
  · next column _ =>
    have hcolumn : table.StaysKeyed (table.addColumn column) := table.staysKeyed_addColumn column
    exact (hcolumn.trans (Table.staysKeyed_addConstraint _ _)).wellKeyed htable

theorem staysKeyed_finishTable (call : Call) (table : Table) :
    table.StaysKeyed (finishTable call table) := by
  unfold finishTable
  split
  · exact .refl table
  · next columns _ => exact table.staysKeyed_addKey columns _

/-- A table that is made of calls has its columns and constraints under their names. -/
theorem tableOf_wellKeyed (name receiver : String) (call : Call) (body : List Call) :
    (tableOf name receiver call body).1.WellKeyed := by
  unfold tableOf
  split
  next table warnings hfold =>
  have hbody : (startTable name call).StaysKeyed table := by
    refine Table.staysKeyed_of_foldl _ hfold ?_
    rintro ⟨table, warnings⟩ inner
    dsimp only
    split
    · next hadd => exact addToTable_staysKeyed hadd
    · exact .refl table
  exact (hbody.trans (staysKeyed_finishTable call table)).wellKeyed (startTable_wellKeyed name call)

theorem changeTable_wellKeyed (hkeyed : schema.WellKeyed) {name : String} {call : Call}
    {change : Table → Table} (hchange : ∀ table : Table, table.StaysKeyed (change table))
    (hnext : changeTable schema name call change = .ok next) : next.WellKeyed := by
  rw [changeTable] at hnext
  split at hnext
  · cases hnext
    exact hkeyed.updateTable name hchange
  · cases hnext

/-- A call outside of a table leaves a well-keyed schema well-keyed. -/
theorem addToSchema_wellKeyed (hkeyed : schema.WellKeyed) {call : Call}
    (hadd : addToSchema schema call = .ok next) : next.WellKeyed := by
  unfold addToSchema at hadd
  dsimp only at hadd
  split at hadd
  · cases hadd
    cases call.argumentText? 0 with
    | none => exact hkeyed
    | some name => exact hkeyed.addExtension _
  · split at hadd
    · cases hadd
    · cases hadd
      exact hkeyed.addEnum _
  · split at hadd
    · cases hadd
    · exact changeTable_wellKeyed hkeyed (fun table => table.staysKeyed_addIndex _) hadd
  · split at hadd
    · exact changeTable_wellKeyed hkeyed (fun table => table.staysKeyed_addConstraint _) hadd
    · cases hadd
  · split at hadd
    · exact changeTable_wellKeyed hkeyed (fun table => table.staysKeyed_addConstraint _) hadd
    · cases hadd
  · cases hadd
    exact hkeyed

/-- A table is added once its block has been read to the end. -/
theorem readTable_wellKeyed {state : Import} (hkeyed : state.schema.WellKeyed)
    (lexemes : List Lexeme) : (readTable state lexemes).1.schema.WellKeyed := by
  unfold readTable
  dsimp only
  split
  · exact hkeyed
  · next name _ =>
    split
    · split
      · exact hkeyed.addTable (tableOf_wellKeyed name _ _ _)
      · exact hkeyed
    · exact hkeyed.addTable (tableOf_wellKeyed name _ _ _)

/-- Every step over the file leaves a well-keyed schema well-keyed. -/
theorem fileStep_wellKeyed {state : Import} {turn : Turn Import} (hkeyed : state.schema.WellKeyed)
    (hstep : fileStep state lexemes = .ok (turn, rest)) : turn.state.schema.WellKeyed := by
  unfold fileStep at hstep
  split at hstep
  · cases hstep
    exact hkeyed
  · split at hstep
    · cases hstep
      exact hkeyed
    · split at hstep
      · cases hstep
        exact hkeyed
      · split at hstep
        · cases hstep
          exact readTable_wellKeyed hkeyed _
        · split at hstep
          · cases hstep
            dsimp only [Turn.state]
            split
            · next hadd => exact addToSchema_wellKeyed hkeyed hadd
            · exact hkeyed
          · cases hstep
            exact hkeyed
    · cases hstep
      exact hkeyed

theorem ofSchemaRb_wellKeyed (text : String) : (Schema.ofSchemaRb text).schema.WellKeyed := by
  rw [Schema.ofSchemaRb]
  split
  next result rest hread =>
  exact repeatedly_keeps (fun state : Import => state.schema.WellKeyed)
    (fun _ _ _ _ hkeyed hstep => fileStep_wellKeyed hkeyed hstep) Schema.wellKeyed_empty hread

end SchemaRb

namespace Prisma

theorem staysKeyed_addColumn (d : Declarations) (field : Field) (table : Table) :
    table.StaysKeyed (addColumn d field table) := by
  unfold addColumn
  extract_lets column withKey withIndex
  have hkey : table.StaysKeyed withKey := by
    simp only [withKey]
    split
    · exact table.staysKeyed_addConstraint _
    · exact .refl table
  have hindex : withKey.StaysKeyed withIndex := by
    simp only [withIndex]
    split
    · exact withKey.staysKeyed_addIndex _
    · exact .refl withKey
  exact (hkey.trans hindex).trans (withIndex.staysKeyed_addColumn column)

theorem staysKeyed_addField (d : Declarations) (model : Model) (state : Table × List Diagnostic)
    (field : Field) : state.1.StaysKeyed (addField d model state field).1 := by
  unfold addField
  split
  · exact .refl state.1
  · split
    · split
      · exact state.1.staysKeyed_addConstraint _
      · exact .refl state.1
      · exact .refl state.1
    · exact staysKeyed_addColumn d field state.1

theorem staysKeyed_addAttribute (d : Declarations) (model : Model) (table : Table)
    (attr : Attribute) : table.StaysKeyed (addAttribute d model table attr) := by
  unfold addAttribute
  extract_lets fields columns label method
  split
  · exact table.staysKeyed_addKey columns _
  · exact table.staysKeyed_addIndex _
  · exact table.staysKeyed_addIndex _
  · exact .refl table

theorem staysKeyed_tableOf (d : Declarations) (model : Model) :
    (Table.empty model.databaseName).StaysKeyed (tableOf d model).1 :=
  have hstart := (Table.empty model.databaseName).staysKeyed_comment model.doc
  have hfields := hstart.trans
    (Table.staysKeyed_of_foldl (_, []) rfl (staysKeyed_addField d model))
  hfields.trans (Table.staysKeyed_foldl (staysKeyed_addAttribute d model) model.attributes _)

theorem ofPrisma_wellKeyed (text : String) : (Schema.ofPrisma text).schema.WellKeyed := by
  refine Schema.WellKeyed.addTables (Schema.wellKeyed_empty.addEnums _) fun table hmem => ?_
  rw [List.map_map] at hmem
  obtain ⟨model, -, rfl⟩ := List.mem_map.1 hmem
  exact (staysKeyed_tableOf _ model).wellKeyed (Table.wellKeyed_empty _)

end Prisma

namespace Drizzle

theorem addOption_staysKeyed {d : Declarations} {declaration : TableDeclaration}
    {table after : Table} {option : Expression}
    (hadd : addOption d declaration table option = .ok after) : table.StaysKeyed after := by
  unfold addOption at hadd
  split at hadd
  · cases hadd
  · dsimp only at hadd
    split at hadd
    case h_1 | h_2 =>
      split at hadd
      · cases hadd
      · cases hadd
        exact table.staysKeyed_addIndex _
    case h_3 =>
      cases hadd
      exact table.staysKeyed_addKey _ _
    case h_4 | h_5 =>
      cases hadd
      exact table.staysKeyed_addConstraint _
    case h_6 =>
      obtain ⟨constraint, -, hafter⟩ := exists_of_bind_eq_ok hadd
      cases hafter
      exact table.staysKeyed_addConstraint constraint
    case h_7 => cases hadd

/-- A change that is refused leaves the table as it was. -/
theorem staysKeyed_orWarn (state : Table × List Diagnostic)
    {change : Table → Except Diagnostic Table}
    (hchange : ∀ after, change state.1 = .ok after → state.1.StaysKeyed after) :
    state.1.StaysKeyed (orWarn state change).1 := by
  rw [orWarn]
  split
  · next hafter => exact hchange _ hafter
  · exact .refl state.1

theorem staysKeyed_addColumn (dialect : Dialect) (d : Declarations) (table : TableDeclaration)
    (state : Table × List Diagnostic) (declaration : ColumnDeclaration) :
    state.1.StaysKeyed (addColumn dialect d table state declaration).1 := by
  unfold addColumn
  extract_lets column start usual withUnique
  have hstart : state.1.StaysKeyed start := state.1.staysKeyed_addColumn column
  have hunique : start.StaysKeyed withUnique := by
    simp only [withUnique]
    split
    · exact start.staysKeyed_addConstraint _
    · exact .refl start
  split
  · refine (hstart.trans hunique).trans (staysKeyed_orWarn (withUnique, state.2) ?_)
    intro after hafter
    obtain ⟨constraint, -, hadded⟩ := exists_of_bind_eq_ok hafter
    cases hadded
    exact withUnique.staysKeyed_addConstraint constraint
  · exact hstart.trans hunique

theorem tableOf_wellKeyed (dialect : Dialect) (d : Declarations) (declaration : TableDeclaration) :
    (tableOf dialect d declaration).1.WellKeyed := by
  unfold tableOf
  split
  next table warnings hfold =>
  extract_lets keys withKey
  have hcolumns : (Table.empty declaration.name).StaysKeyed table :=
    Table.staysKeyed_of_foldl _ hfold (staysKeyed_addColumn dialect d declaration)
  have hkey : table.StaysKeyed withKey := by
    simp only [withKey]
    split
    · exact .refl table
    · exact table.staysKeyed_addConstraint _
  refine ((hcolumns.trans hkey).trans
    (Table.staysKeyed_of_foldl (withKey, warnings) rfl ?_)).wellKeyed (Table.wellKeyed_empty _)
  exact fun state option => staysKeyed_orWarn state fun after hafter => addOption_staysKeyed hafter

theorem ofDrizzle_wellKeyed (text : String) : (Schema.ofDrizzle text).schema.WellKeyed := by
  refine Schema.WellKeyed.addTables (Schema.wellKeyed_empty.addEnums _) fun table hmem => ?_
  rw [List.map_map] at hmem
  obtain ⟨declaration, -, rfl⟩ := List.mem_map.1 hmem
  exact tableOf_wellKeyed _ _ declaration

end Drizzle

namespace Tbls

theorem TableEntry.staysKeyed_table (entry : TableEntry) :
    (Table.empty (localName entry.name)).StaysKeyed entry.table.1 := by
  unfold TableEntry.table
  extract_lets empty start withColumns withIndexes
  have hcolumns : start.StaysKeyed withColumns :=
    Table.staysKeyed_foldl Table.staysKeyed_addColumn _ start
  have hindexes : withColumns.StaysKeyed withIndexes :=
    Table.staysKeyed_foldl Table.staysKeyed_addIndex _ withColumns
  refine (((empty.staysKeyed_comment _).trans hcolumns).trans hindexes).trans
    (Table.staysKeyed_of_foldl (withIndexes, []) rfl ?_)
  rintro ⟨table, warnings⟩ constraint
  dsimp only
  split
  · exact table.staysKeyed_addConstraint _
  · exact .refl table
  · exact .refl table

theorem TableEntry.table_wellKeyed (entry : TableEntry) : entry.table.1.WellKeyed :=
  entry.staysKeyed_table.wellKeyed (Table.wellKeyed_empty _)

theorem importDocument_wellKeyed (document : Json) :
    (importDocument document).schema.WellKeyed := by
  have henums (entries : List EnumEntry) : (entries.foldl (fun schema entry =>
      schema.addEnum ⟨localName entry.name, entry.values, none⟩) Schema.empty).WellKeyed := by
    rw [← List.foldl_map]
    exact Schema.wellKeyed_empty.addEnums _
  refine Schema.WellKeyed.addTables (henums _) fun table hmem => ?_
  rw [List.map_map] at hmem
  obtain ⟨entry, -, rfl⟩ := List.mem_map.1 hmem
  exact entry.table_wellKeyed

theorem ofTbls_wellKeyed (text : String) : (Schema.ofTbls text).schema.WellKeyed := by
  rw [Schema.ofTbls]
  split
  · exact Schema.wellKeyed_empty
  · exact importDocument_wellKeyed _
  · exact Schema.wellKeyed_empty

end Tbls

/-! ## Sources -/

/-- Whatever a text contains, what is read from it is stored under its own name at every level, in
every format but the native one. -/
theorem importSource_wellKeyed (format : Format) (source : String)
    (hformat : format.resolve source ≠ .native) :
    (importSource format source).schema.WellKeyed := by
  rw [importSource]
  split
  · exact Sql.ofSql_wellKeyed source
  · exact Sql.ofSql_wellKeyed source
  · exact Prisma.ofPrisma_wellKeyed source
  · exact SchemaRb.ofSchemaRb_wellKeyed source
  · exact Drizzle.ofDrizzle_wellKeyed source
  · exact Tbls.ofTbls_wellKeyed source
  · contradiction

/-- A script that defines a table twice and breaks off in the change of a column. -/
def brokenScript : String :=
  "CREATE TABLE t (id int, id text UNIQUE); CREATE TABLE t (a int CHECK ; ALTER TABLE t ALTER a"

theorem importSource_wellKeyed_brokenScript :
    Format.postgres.resolve brokenScript ≠ .native ∧
      (importSource .postgres brokenScript).schema.WellKeyed := by
  have hformat : Format.postgres.resolve brokenScript ≠ .native := by decide
  exact ⟨hformat, importSource_wellKeyed .postgres brokenScript hformat⟩

end SchemaEvolution
