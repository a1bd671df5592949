import SchemaEvolution.Proofs.Schema.WellKeyed
import SchemaEvolution.Proofs.Sql.PlainColumn
import SchemaEvolution.Sql.Import

/-!
# Plain tables

A new table is printed with its columns, one a line, and read column by column.  The keys that
stand with the columns come first; those that do not are added by statements of their own.
-/

namespace SchemaEvolution

/-- What a column demands where it is printed with its table. -/
def Table.attributes (table : Table) (column : Column) : Sql.Attributes :=
  let inlined := table.inlineConstraints column.name
  let primary := inlined.any fun constraint => constraint.rule.kind == "PRIMARY KEY"
  { primary := primary
    unique := !primary && inlined.any fun constraint => constraint.rule.kind == "UNIQUE"
    notNull := column.notNull && !primary
    default := column.default }

def Table.definition (table : Table) (column : Column) : Sql.ColumnDefinition :=
  (table.attributes column).definition column.name column.type

/-- The table that is read from its columns, before any comment. -/
def Table.created (table : Table) : Table :=
  table.columns.values.foldl (fun done column => (table.definition column).addTo done)
    (.empty table.name)

namespace Sql

/-- The column is printed with a plain type, a literal default and no check. -/
structure IsPlainColumn (column : Column) : Prop where
  type : IsPlainType column.type
  default : ∀ value ∈ column.default, IsPlainDefault value
  check : column.check = none

theorem columnDefinitionIn_eq (table : Table) {column : Column} (hcheck : column.check = none) :
    columnDefinitionIn table column = columnHead column ++ (table.attributes column).text := by
  simp only [columnDefinitionIn, hcheck, Attributes.text, Table.attributes, String.append_assoc,
    String.append_empty]
  rfl

noncomputable def columnRow (table : Table) (column : Column) : List Spaced :=
  ⟨['\n', ' ', ' '], .name column.name⟩ ::
    (typeRow column.type ++ (table.attributes column).row)

theorem rowChars_columnRow (table : Table) {column : Column} (hplain : IsPlainColumn column) :
    rowChars (columnRow table column) =
      '\n' :: ("  " ++ columnDefinitionIn table column).toList := by
  have hrow := hplain.type.isTypeRow
  have hattributes : rowChars (table.attributes column).row =
      (table.attributes column).text.toList := Attributes.rowChars_row hplain.default
  rw [columnDefinitionIn_eq table hplain.check, columnHead]
  change ['\n', ' ', ' '] ++ (quoteIdent column.name).toList ++ rowChars _ = _
  rw [rowChars_append, hrow.chars, hattributes]
  simp

theorem sturdy_columnRow (table : Table) {column : Column} (hplain : IsPlainColumn column) :
    Sturdy (columnRow table column) := by
  have hattributes : Sturdy (table.attributes column).row := Attributes.sturdy_row hplain.default
  exact .cons (List.all_eq_true.1 rfl) trivial rfl
    (hplain.type.isTypeRow.sturdy.append hattributes)

noncomputable def moreColumnsRow (table : Table) (columns : List Column) : List Spaced :=
  columns.flatMap fun column => tight .comma :: columnRow table column

/-- The rows of some columns, a comma after each but the last one. -/
noncomputable def columnsRow (table : Table) : List Column → List Spaced
  | [] => []
  | first :: more => columnRow table first ++ moreColumnsRow table more

/-- The rows of the columns are their definitions, one to a line. -/
theorem rowChars_columnsRow (table : Table) {columns : List Column} (hsome : columns ≠ [])
    (hplain : ∀ column ∈ columns, IsPlainColumn column) :
    rowChars (columnsRow table columns) =
      '\n' :: (",\n".intercalate
        (columns.map fun column => "  " ++ columnDefinitionIn table column)).toList := by
  cases columns with
  | nil => exact absurd rfl hsome
  | cons first more =>
    have hmore : rowChars (moreColumnsRow table more) = more.flatMap fun column =>
        [',', '\n'] ++ ("  " ++ columnDefinitionIn table column).toList := by
      rw [moreColumnsRow, rowChars, List.flatMap_assoc]
      exact List.flatMap_congr fun column hmem => congrArg (',' :: ·)
        (rowChars_columnRow table (hplain column (List.mem_cons_of_mem _ hmem)))
    rw [columnsRow, rowChars_append, hmore,
      rowChars_columnRow table (hplain first List.mem_cons_self), String.toList_intercalate,
      List.map_cons, List.map_cons, intercalate_cons, List.map_map, List.flatMap_map]
    rfl

theorem sturdy_columnsRow (table : Table) {columns : List Column}
    (hplain : ∀ column ∈ columns, IsPlainColumn column) : Sturdy (columnsRow table columns) := by
  cases columns with
  | nil => exact sturdy_nil
  | cons first more =>
    exact (sturdy_columnRow table (hplain first List.mem_cons_self)).append
      (sturdy_flatMap fun column hmem => .tight trivial rfl
        (sturdy_columnRow table (hplain column (List.mem_cons_of_mem _ hmem))))

namespace TableDefinition

variable {table : Table} {row : List Spaced} {rest lexemes : List Lexeme}
variable {line : Option Nat} (d : TableDefinition)

def withColumn (table : Table) (column : Column) : TableDefinition :=
  { d with table := (table.definition column).addTo d.table }

theorem element_comma (hopens : Opens (tight .comma :: row) rest lexemes) :
    element line d lexemes = .ok (.again d, lexemes.tail) := by
  have hnext : next lexemes = .comma := hopens.next
  simp only [element, hnext]

theorem element_closing {gap : List Char}
    (hopens : Opens (⟨gap, .rightParen⟩ :: row) rest lexemes) :
    element line d lexemes = .ok (.done d, lexemes.tail) := by
  have hnext : next lexemes = .rightParen := hopens.next
  simp only [element, hnext]

theorem element_column {column : Column} (hplain : IsPlainColumn column) {closing : Spaced}
    (hclosing : ColumnDefinition.IsClosing closing)
    (hopens : Opens (columnRow table column ++ closing :: row) rest lexemes) :
    ∃ after, Opens (closing :: row) rest after ∧
      element line d lexemes = .ok (.again (d.withColumn table column), after) := by
  rw [columnRow, List.cons_append, List.append_assoc] at hopens
  have hnext : next lexemes = .quotedName column.name := hopens.next
  obtain ⟨after, hafter, hread⟩ := ColumnDefinition.read_of_opens
    (rfl : (Piece.name column.name).token.name? = some column.name) hplain.type hplain.default
    hclosing hopens
  refine ⟨after, hafter, ?_⟩
  simp only [element, hnext, hread]
  rfl

theorem exists_closing (table : Table) (columns : List Column) (gap : List Char)
    (row : List Spaced) :
    ∃ closing others, moreColumnsRow table columns ++ ⟨gap, .rightParen⟩ :: row =
      closing :: others ∧ ColumnDefinition.IsClosing closing := by
  cases columns with
  | nil => exact ⟨_, _, rfl, .inr (.inl rfl)⟩
  | cons column more => exact ⟨_, _, rfl, .inl rfl⟩

/-- A column is read, whether other columns or the closing parenthesis follow. -/
theorem element_first {column : Column} (hplain : IsPlainColumn column) {more : List Column}
    {gap : List Char} (hopens : Opens (columnRow table column ++
      (moreColumnsRow table more ++ ⟨gap, .rightParen⟩ :: row)) rest lexemes) :
    ∃ after, Opens (moreColumnsRow table more ++ ⟨gap, .rightParen⟩ :: row) rest after ∧
      repeatedly (element line) d lexemes =
        repeatedly (element line) (d.withColumn table column) after := by
  obtain ⟨closing, others, hrow, hclosing⟩ := exists_closing table more gap row
  rw [hrow] at hopens ⊢
  obtain ⟨after, hafter, hturn⟩ := element_column d hplain hclosing hopens
  refine ⟨after, hafter, hopens.repeatedly_again hafter ?_ hturn⟩
  simp only [columnRow, List.length_append, List.length_cons]
  omega

/-- Columns are read one after the other, up to the closing parenthesis. -/
theorem repeatedly_more {columns : List Column}
    (hplain : ∀ column ∈ columns, IsPlainColumn column) {gap : List Char}
    (hopens : Opens (moreColumnsRow table columns ++ ⟨gap, .rightParen⟩ :: row) rest lexemes) :
    ∃ after, Opens row rest after ∧ repeatedly (element line) d lexemes =
      .ok (columns.foldl (fun done column => done.withColumn table column) d, after) := by
  induction columns generalizing d lexemes with
  | nil => exact ⟨lexemes.tail, hopens.tail, repeatedly_done (element_closing d hopens)⟩
  | cons column more ih =>
    rw [moreColumnsRow, List.flatMap_cons, List.cons_append, List.cons_append,
      List.append_assoc] at hopens
    obtain ⟨second, hsecond, hcolumn⟩ := element_first d
      (hplain column List.mem_cons_self) hopens.tail
    obtain ⟨after, hafter, hmore⟩ := ih (d.withColumn table column)
      (fun other hmem => hplain other (List.mem_cons_of_mem _ hmem)) hsecond
    refine ⟨after, hafter, ?_⟩
    calc repeatedly (element line) d lexemes
      _ = repeatedly (element line) d lexemes.tail :=
        hopens.repeatedly_again hopens.tail (by simp) (element_comma d hopens)
      _ = repeatedly (element line) (d.withColumn table column) second := hcolumn
      _ = _ := hmore

/-- The rows of the columns are read into the table, one element after the other. -/
theorem repeatedly_columns {columns : List Column} (hsome : columns ≠ [])
    (hplain : ∀ column ∈ columns, IsPlainColumn column) {gap : List Char}
    (hopens : Opens (columnsRow table columns ++ ⟨gap, .rightParen⟩ :: row) rest lexemes) :
    ∃ after, Opens row rest after ∧ repeatedly (element line) d lexemes =
      .ok (columns.foldl (fun done column => done.withColumn table column) d, after) := by
  cases columns with
  | nil => exact absurd rfl hsome
  | cons first more =>
    rw [columnsRow, List.append_assoc] at hopens
    obtain ⟨second, hsecond, hfirst⟩ := element_first d
      (hplain first List.mem_cons_self) hopens
    obtain ⟨after, hafter, hmore⟩ := repeatedly_more (d.withColumn table first)
      (fun other hmem => hplain other (List.mem_cons_of_mem _ hmem)) hsecond
    exact ⟨after, hafter, hfirst.trans hmore⟩

/-- What is read gives the columns to the table in their order. -/
theorem finish_foldl (columns : List Column) :
    (columns.foldl (fun done column => done.withColumn table column) d).finish =
      d.clauses.foldl (fun table (label, clause) => clause.addTo label table)
        (columns.foldl (fun done column => (table.definition column).addTo done) d.table) := by
  induction columns generalizing d with
  | nil => rfl
  | cons column more ih => exact ih (d.withColumn table column)

end TableDefinition

/-- Stores constraints under their own names. -/
def insertConstraints (constraints : List Constraint) (done : Keyed Constraint) :
    Keyed Constraint :=
  constraints.foldl (fun done constraint => done.insert constraint.name constraint) done

theorem insertConstraints_append (first second : List Constraint) (done : Keyed Constraint) :
    insertConstraints (first ++ second) done =
      insertConstraints second (insertConstraints first done) := List.foldl_append

/-- Constraints under new names are added at the end. -/
theorem values_insertConstraints {constraints : List Constraint} {done : Keyed Constraint}
    (hnew : (done.keys ++ constraints.map Constraint.name).Nodup) :
    (insertConstraints constraints done).values = done.values ++ constraints := by
  have hpairs : (constraints.map fun constraint => (constraint.name, constraint)).map Prod.fst =
      constraints.map Constraint.name := by
    rw [List.map_map]
    rfl
  have hentries := Keyed.foldl_insert_entries
    (constraints.map fun constraint => (constraint.name, constraint)) done (hpairs ▸ hnew)
  rw [List.foldl_map] at hentries
  rw [Keyed.values, insertConstraints, hentries, List.map_append, List.map_map]
  exact congrArg _ (List.map_id _)

theorem foldl_addConstraint (constraints : List Constraint) (table : Table) :
    constraints.foldl Table.addConstraint table =
      { table with constraints := insertConstraints constraints table.constraints } :=
  List.foldl_hom (fun found => { table with constraints := found }) fun _ _ => rfl

def carriedConstraints (table : Table) : List Constraint :=
  table.columns.values.flatMap fun column => (table.definition column).constraints table.name

/-- The columns are added in their order, each with its constraints. -/
theorem foldl_addTo (table : Table) (columns : List Column) (done : Keyed Column)
    (constraints : Keyed Constraint) :
    columns.foldl (fun done column => (table.definition column).addTo done)
        ⟨table.name, none, done, ∅, constraints⟩ =
      { name := table.name
        comment := none
        columns := columns.foldl (fun done column =>
          done.insert column.name (table.definition column).column) done
        indexes := ∅
        constraints := insertConstraints (columns.flatMap fun column =>
          (table.definition column).constraints table.name) constraints } := by
  induction columns generalizing done constraints with
  | nil => rfl
  | cons column more ih =>
    rw [List.foldl_cons, ColumnDefinition.addTo, foldl_addConstraint]
    refine (ih _ _).trans ?_
    rw [List.flatMap_cons, insertConstraints, insertConstraints, insertConstraints,
      List.foldl_append]
    rfl

/-- The new table has every column and every constraint that the columns carry. -/
theorem created_eq {table : Table} (hnamed : table.columns.Named Column.name) :
    table.created =
      { name := table.name
        comment := none
        columns := table.columns.map fun column => (table.definition column).column
        indexes := ∅
        constraints := insertConstraints (carriedConstraints table) ∅ } := by
  refine (foldl_addTo table table.columns.values ∅ ∅).trans ?_
  rw [Keyed.foldl_insert_values table.columns _ hnamed]
  rfl

/-! ## Reading the statement -/

noncomputable def tableRow (table : Table) : List Spaced :=
  keyword .table :: after (.name table.name) :: after .leftParen ::
    (columnsRow table table.columns.values ++ [⟨['\n'], .rightParen⟩, tight .semicolon])

variable {row : List Spaced} {rest lexemes : List Lexeme}

theorem Opens.skipStatement (hopens : Opens [tight .semicolon] rest lexemes) :
    skipStatement lexemes = rest := by
  obtain ⟨lexeme, others, hlexeme, hothers, rfl⟩ := hopens.cons
  have htoken : lexeme.token = .semicolon := hlexeme.2.2
  rw [opens_nil_iff.1 hothers, Sql.skipStatement,
    List.dropWhile_cons_of_neg (by simp [htoken]), Sql.skip, Sql.eat?, if_pos htoken]
  rfl

theorem Opens.skipStatement_cons {spaced : Spaced} (hsemicolon : spaced.piece.token ≠ .semicolon)
    (heof : spaced.piece.token ≠ .eof) (hopens : Opens (spaced :: row) rest lexemes) :
    Sql.skipStatement lexemes = Sql.skipStatement lexemes.tail := by
  obtain ⟨lexeme, others, hlexeme, -, rfl⟩ := hopens.cons
  rw [← hlexeme.2.2] at hsemicolon heof
  rw [Sql.skipStatement, List.dropWhile_cons_of_pos (by simp [hsemicolon, heof])]
  rfl

/-- The definition of a table adds the table that its columns make. -/
theorem createTable_of_opens {table : Table} (hnamed : table.columns.Named Column.name)
    (hsome : table.columns.values ≠ []) (hplain : table.columns.All IsPlainColumn)
    {line : Option Nat} {schema : Schema}
    (hopens : Opens (tableRow table) rest lexemes) :
    createTable line schema lexemes.tail = .ok (schema.addTable table.created, rest) := by
  have hname := hopens.tail
  have hif : skipIfNotExists lexemes.tail = lexemes.tail := by
    rw [skipIfNotExists, hname.eat?_none (by rintro ⟨⟩)]
  have hqualified : qualifiedName? lexemes.tail = some (table.name, lexemes.tail.tail) :=
    hname.qualifiedName? rfl (hname.tail.next_ne (by rintro ⟨⟩))
  have hopening : eat? .leftParen lexemes.tail.tail = some lexemes.tail.tail.tail :=
    hname.tail.eat? rfl
  obtain ⟨after, hafter, hread⟩ := TableDefinition.repeatedly_columns
    ⟨.empty table.name, []⟩ hsome hplain hname.tail.tail
  have hfinish : (table.columns.values.foldl
      (fun done column => TableDefinition.withColumn done table column)
      ⟨.empty table.name, []⟩).finish = table.created := TableDefinition.finish_foldl _ _
  have hcolumns : table.created.columns.isEmpty = false := by
    rw [created_eq hnamed, Keyed.isEmpty, Keyed.map, List.isEmpty_map, List.isEmpty_eq_false_iff]
    exact fun hnil => hsome (by rw [Keyed.values, hnil, List.map_nil])
  simp only [createTable, hif, hqualified, hopening]
  rw [hread]
  simp only [bind, Except.bind]
  rw [hfinish]
  rw [hcolumns, hafter.skipStatement]
  rfl

end Sql

end SchemaEvolution
