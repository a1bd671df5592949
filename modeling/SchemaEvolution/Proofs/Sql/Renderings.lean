import SchemaEvolution.Proofs.Splitting
import SchemaEvolution.Proofs.Sql.RoundTrip

/-!
# Where constraints are written

In the script of a schema a constraint is a clause of the column that carries it, in the statement
that creates the table, or it has a statement of its own.  A column leaves its check out where
another constraint demands the same.
-/

namespace SchemaEvolution

namespace Sql

/-- A clause in the definition of a column of a new table. -/
inductive ColumnClause where
  | primaryKey
  | unique
  | notNull
  | default (value : DefaultValue)
  | check (condition : String)
  deriving DecidableEq

namespace ColumnClause

def sql : ColumnClause → String
  | .primaryKey => " PRIMARY KEY"
  | .unique => " UNIQUE"
  | .notNull => " NOT NULL"
  | .default value => " DEFAULT " ++ renderDefault value
  | .check condition => " CHECK (" ++ condition ++ ")"

/-- The constraint that a clause of a column declares, under its usual name. -/
def constraint? (table column : String) : ColumnClause → Option Constraint
  | .primaryKey => some (.primaryKey (Naming.primaryKey table) [column])
  | .unique => some (.unique (Naming.unique table [column]) [column])
  | .check condition => some (.check (Naming.check table column) condition)
  | .notNull | .default _ => none

end ColumnClause

end Sql

namespace Table

variable {table : Table} {column : Column} {constraint : Constraint}

def printedCheck? (table : Table) (column : Column) : Option String :=
  column.check.filter fun check => !Sql.hasNamedCheck table column check

/-- The clauses in the definition of a column, in their order. -/
def clauses (table : Table) (column : Column) : List Sql.ColumnClause :=
  (if (table.attributes column).primary then [.primaryKey] else []) ++
    (if (table.attributes column).unique then [.unique] else []) ++
    (if (table.attributes column).notNull then [.notNull] else []) ++
    column.default.toList.map .default ++ (table.printedCheck? column).toList.map .check

def declared (table : Table) (column : Column) : List Constraint :=
  (table.clauses column).filterMap (Sql.ColumnClause.constraint? table.name column.name)

def usualCheck (table : Table) (name condition : String) : Constraint :=
  .check (Naming.check table.name name) condition

/-- The definition of a column is its head and its clauses. -/
theorem columnDefinitionIn_clauses (table : Table) (column : Column) :
    Sql.columnDefinitionIn table column =
      Sql.columnHead column ++ String.join ((table.clauses column).map Sql.ColumnClause.sql) := by
  have hcheck : String.join
      (((table.printedCheck? column).toList.map .check).map Sql.ColumnClause.sql) =
        column.check.elim "" fun check =>
          if Sql.hasNamedCheck table column check then "" else " CHECK (" ++ check ++ ")" := by
    unfold printedCheck?
    cases column.check with
    | none => rfl
    | some check => cases hnamed : Sql.hasNamedCheck table column check <;>
        simp [Option.filter, hnamed, Sql.ColumnClause.sql]
  have hdefault : Sql.defaultClause column.default =
      String.join ((column.default.toList.map .default).map Sql.ColumnClause.sql) := by
    cases column.default <;> simp [Sql.defaultClause, Sql.ColumnClause.sql]
  have hflag (flag : Bool) (clause : Sql.ColumnClause) : (if flag then clause.sql else "") =
      String.join ((if flag then [clause] else []).map Sql.ColumnClause.sql) := by
    cases flag <;> simp
  simp only [clauses, List.map_append, String.join_append, hcheck, ← hdefault, ← hflag,
    ← String.append_assoc]
  rw [Sql.columnDefinitionIn]
  cases column.check <;> rfl

/-- Besides its keys a column declares the check that it is printed with. -/
theorem declared_eq (table : Table) (column : Column) :
    table.declared column = (table.definition column).constraints table.name ++
      (table.printedCheck? column).toList.map (table.usualCheck column.name) := by
  have hdefault : (column.default.toList.map Sql.ColumnClause.default).filterMap
      (Sql.ColumnClause.constraint? table.name column.name) = [] := by
    cases column.default <;> rfl
  have hcheck : ((table.printedCheck? column).toList.map Sql.ColumnClause.check).filterMap
      (Sql.ColumnClause.constraint? table.name column.name) =
        (table.printedCheck? column).toList.map (table.usualCheck column.name) := by
    cases table.printedCheck? column <;> rfl
  rw [declared, clauses, List.filterMap_append, List.filterMap_append, hdefault, hcheck,
    constraints_definition]
  cases (table.attributes column).primary <;> cases (table.attributes column).unique <;>
    cases (table.attributes column).notNull <;> rfl

/-- A check stands in the line of a column if it has the usual name and the column's condition. -/
theorem inlineColumn?_check {label name condition : String} :
    table.inlineColumn? ⟨label, .check condition⟩ = some name ↔
      label = Naming.check table.name name ∧
        ∃ column ∈ table.columns.values, column.name = name ∧ column.check = some condition := by
  simp only [inlineColumn?, Option.map_eq_some_iff]
  constructor
  · rintro ⟨column, hfound, rfl⟩
    have hcolumn := List.find?_some hfound
    rw [Bool.and_eq_true, beq_iff_eq, beq_iff_eq] at hcolumn
    exact ⟨hcolumn.2, column, List.mem_of_find?_eq_some hfound, rfl, hcolumn.1⟩
  · rintro ⟨rfl, column, hmem, rfl, hcheck⟩
    -- no other column has the usual name of this check
    have hsome : (table.columns.values.find? fun other => other.check == some condition &&
        Naming.check table.name column.name == Naming.check table.name other.name).isSome :=
      List.find?_isSome.2 ⟨column, hmem, by simp [hcheck]⟩
    obtain ⟨found, hfound⟩ := Option.isSome_iff_exists.1 hsome
    have hother := List.find?_some hfound
    rw [Bool.and_eq_true, beq_iff_eq, beq_iff_eq] at hother
    refine ⟨found, hfound, ?_⟩
    have hname := hother.2
    simpa [Naming.check, String.append_left_inj, String.append_right_inj] using hname.symm

/-- A column carries an inline constraint. -/
theorem exists_column_of_inlineColumn? {name : String} (hnamed : table.columns.Named Column.name)
    (hinline : table.inlineColumn? constraint = some name) :
    ∃ column ∈ table.columns.values, column.name = name := by
  have hcontains {column : String} (hcolumn : table.columns.contains column = true) :
      ∃ found ∈ table.columns.values, found.name = column := by
    obtain ⟨found, hfound⟩ := Option.isSome_iff_exists.1 hcolumn
    exact ⟨found, Keyed.mem_values_iff.2 ⟨column, hfound⟩, hnamed.of_get? hfound⟩
  obtain ⟨label, rule⟩ := constraint
  cases rule with
  | primaryKey columns => exact hcontains (inlineColumn?_primaryKey.1 hinline).2.2
  | unique columns => exact hcontains (inlineColumn?_unique.1 hinline).2.2.2
  | foreignKey key => cases hinline
  | check condition =>
    obtain ⟨-, column, hmem, hname, -⟩ := inlineColumn?_check.1 hinline
    exact ⟨column, hmem, hname⟩

/-- An inline check that another constraint of the table demands as well. -/
def IsHidden (table : Table) (constraint : Constraint) : Prop :=
  table.isInline constraint = true ∧ constraint.rule.kind = "CHECK" ∧
    ∃ other ∈ table.constraints.values, other ≠ constraint ∧ other.rule = constraint.rule

instance (table : Table) (constraint : Constraint) : Decidable (table.IsHidden constraint) :=
  inferInstanceAs (Decidable (_ ∧ _ ∧ _))

/-- A column leaves its check out when the constraint that it carries is hidden. -/
theorem hasNamedCheck_iff_isHidden {condition : String}
    (hinline : table.inlineColumn? (table.usualCheck column.name condition) = some column.name) :
    Sql.hasNamedCheck table column condition = true ↔
      table.IsHidden (table.usualCheck column.name condition) := by
  rw [Sql.hasNamedCheck, List.any_eq_true]
  constructor
  · rintro ⟨other, hmem, hother⟩
    rw [Bool.and_eq_true, beq_iff_eq, bne_iff_ne] at hother
    refine ⟨by rw [isInline, hinline]; rfl, rfl, other, hmem, ?_, hother.1⟩
    rintro rfl
    exact hother.2 hinline
  · rintro ⟨-, -, other, hmem, hne, hrule⟩
    refine ⟨other, hmem, ?_⟩
    rw [Bool.and_eq_true, beq_iff_eq, bne_iff_ne]
    refine ⟨hrule, fun hsame => hne ?_⟩
    obtain ⟨label, rule⟩ := other
    obtain rfl : rule = .check condition := hrule
    obtain ⟨rfl, -⟩ := inlineColumn?_check.1 hsame
    rfl

/-- The check of a column is printed if it stands there under its usual name and is not hidden. -/
theorem printedCheck?_eq_some_iff (hnamed : table.columns.Named Column.name)
    (hcolumn : column ∈ table.columns.values) {condition : String} :
    table.printedCheck? column = some condition ↔
      table.inlineColumn? (table.usualCheck column.name condition) = some column.name ∧
        ¬table.IsHidden (table.usualCheck column.name condition) := by
  rw [printedCheck?, Option.filter_eq_some_iff, Bool.not_eq_true', ← Bool.not_eq_true]
  have hinline : table.inlineColumn? (table.usualCheck column.name condition) = some column.name ↔
      column.check = some condition := by
    refine inlineColumn?_check.trans ⟨?_, fun hcheck => ⟨rfl, column, hcolumn, rfl, hcheck⟩⟩
    rintro ⟨-, other, hother, hname, hcheck⟩
    obtain rfl := hnamed.eq_of_name_eq hother hcolumn hname
    exact hcheck
  rw [← hinline]
  exact and_congr_right fun hcheck => not_congr (hasNamedCheck_iff_isHidden hcheck)

/-- The clauses of a column declare no constraint twice. -/
theorem nodup_declared (table : Table) (column : Column) : (table.declared column).Nodup := by
  rw [declared_eq, constraints_definition]
  cases (table.attributes column).primary <;> cases (table.attributes column).unique <;>
    cases table.printedCheck? column <;>
      simp [usualKey, usualUnique, usualCheck, Constraint.primaryKey, Constraint.unique,
        Constraint.check]

theorem exists_check_of_kind (hkind : constraint.rule.kind = "CHECK") :
    ∃ label condition, constraint = .check label condition := by
  obtain ⟨label, rule⟩ := constraint
  cases rule with
  | check condition => exact ⟨label, condition, rfl⟩
  | primaryKey columns => simp [Rule.kind] at hkind
  | foreignKey key => simp [Rule.kind] at hkind
  | unique columns => simp [Rule.kind] at hkind

section Declared

variable (hkeyed : table.WellKeyed) (hone : table.OneKey)
  (hmem : constraint ∈ table.constraints.values)

include hkeyed hone hmem

/-- A column declares the inline constraints of the table that are not hidden. -/
theorem mem_declared_iff (hcolumn : column ∈ table.columns.values) :
    constraint ∈ table.declared column ↔
      table.inlineColumn? constraint = some column.name ∧ ¬table.IsHidden constraint := by
  rw [declared_eq, List.mem_append, hone.mem_constraints_iff, mem_inlineConstraints, List.mem_map]
  simp only [Option.mem_toList]
  by_cases hkind : constraint.rule.kind = "CHECK"
  · rw [or_iff_right fun hkey => hkey.2 hkind]
    constructor
    · rintro ⟨condition, hprinted, rfl⟩
      exact (printedCheck?_eq_some_iff hkeyed.1 hcolumn).1 hprinted
    · intro hinline
      obtain ⟨label, condition, rfl⟩ := exists_check_of_kind hkind
      obtain ⟨rfl, -⟩ := inlineColumn?_check.1 hinline.1
      exact ⟨condition, (printedCheck?_eq_some_iff hkeyed.1 hcolumn).2 hinline, rfl⟩
  · constructor
    · rintro (⟨hinline, -⟩ | ⟨condition, -, rfl⟩)
      · exact ⟨hinline.2, fun hhidden => hkind hhidden.2.1⟩
      · exact absurd rfl hkind
    · rintro ⟨hinline, -⟩
      exact .inl ⟨⟨hmem, hinline⟩, hkind⟩

theorem filter_declared (hcolumn : column ∈ table.columns.values) :
    (table.declared column).filter (· == constraint) =
      if table.inlineColumn? constraint = some column.name ∧ ¬table.IsHidden constraint then
        [constraint]
      else [] := by
  rw [List.filter_beq, (nodup_declared table column).count]
  simp only [mem_declared_iff hkeyed hone hmem hcolumn]
  split <;> rfl

end Declared

end Table

namespace Sql

/-- A constraint as it is written for a table: with one of the columns, or on its own. -/
structure Rendering where
  table : String
  column : Option String
  constraint : Constraint
  deriving DecidableEq

def Statement.renderings : Statement → List Rendering
  | .createTable table => table.columns.values.flatMap fun column =>
    (table.declared column).map (⟨table.name, some column.name, ·⟩)
  | .alterTable table (.addConstraint constraint) => [⟨table, none, constraint⟩]
  | _ => []

/-- Every place in which some statements write a constraint of a table. -/
def renderingsOf (table : String) (constraint : Constraint) (statements : List Statement) :
    List Rendering :=
  (statements.flatMap Statement.renderings).filter fun rendering =>
    rendering.table == table && rendering.constraint == constraint

section Renderings

variable {name : String} {constraint : Constraint}

@[simp] theorem renderingsOf_append (first second : List Statement) :
    renderingsOf name constraint (first ++ second) =
      renderingsOf name constraint first ++ renderingsOf name constraint second := by
  rw [renderingsOf, List.flatMap_append, List.filter_append]
  rfl

theorem renderingsOf_flatMap {α : Type} (items : List α) (part : α → List Statement) :
    renderingsOf name constraint (items.flatMap part) =
      items.flatMap fun item => renderingsOf name constraint (part item) := by
  rw [renderingsOf, List.flatMap_assoc, List.filter_flatMap]
  rfl

theorem renderingsOf_map {α : Type} (items : List α) (statement : α → Statement) :
    renderingsOf name constraint (items.map statement) =
      items.flatMap fun item => renderingsOf name constraint [statement item] := by
  rw [List.map_eq_flatMap, renderingsOf_flatMap]

theorem renderingsOf_addConstraint (table : String) (other : Constraint) :
    renderingsOf name constraint [addConstraint table other] =
      if table = name ∧ other = constraint then [⟨name, none, constraint⟩] else [] := by
  simp only [renderingsOf, List.flatMap_cons, List.flatMap_nil, List.append_nil, addConstraint,
    Statement.renderings, List.filter_cons, List.filter_nil, Bool.and_eq_true, beq_iff_eq]
  split
  · next heq => rw [heq.1, heq.2]
  · rfl

theorem renderingsOf_createTable_of_ne {table : Table} (hne : table.name ≠ name) :
    renderingsOf name constraint [.createTable table] = [] := by
  rw [renderingsOf, List.filter_eq_nil_iff]
  simp only [List.flatMap_cons, List.flatMap_nil, List.append_nil, Statement.renderings,
    List.mem_flatMap, List.mem_map]
  rintro _ ⟨column, -, declared, -, rfl⟩
  simp [hne]

/-- A column writes the constraint when it carries it. -/
theorem renderingsOf_createTable_eq_flatMap {table : Table} (hkeyed : table.WellKeyed)
    (hone : table.OneKey) (hmem : constraint ∈ table.constraints.values) :
    renderingsOf table.name constraint [.createTable table] =
      table.columns.values.flatMap fun column =>
        if table.inlineColumn? constraint = some column.name ∧ ¬table.IsHidden constraint then
          [⟨table.name, some column.name, constraint⟩]
        else [] := by
  simp only [renderingsOf, List.flatMap_cons, List.flatMap_nil, List.append_nil,
    Statement.renderings, List.filter_flatMap, List.filter_map]
  refine List.flatMap_congr fun column hcolumn => ?_
  have hthis : ((fun rendering : Rendering => rendering.table == table.name &&
      rendering.constraint == constraint) ∘ (⟨table.name, some column.name, ·⟩)) =
        (· == constraint) := by
    funext declared
    simp
  rw [hthis, Table.filter_declared hkeyed hone hmem hcolumn]
  split <;> rfl

/-- The statement that creates a table writes its inline constraints that are not hidden, each with
its column. -/
theorem renderingsOf_createTable {table : Table} (hkeyed : table.WellKeyed) (hone : table.OneKey)
    (hmem : constraint ∈ table.constraints.values) :
    renderingsOf table.name constraint [.createTable table] =
      if table.isInline constraint = true ∧ ¬table.IsHidden constraint then
        [⟨table.name, table.inlineColumn? constraint, constraint⟩]
      else [] := by
  rw [renderingsOf_createTable_eq_flatMap hkeyed hone hmem, Table.isInline]
  cases hinline : table.inlineColumn? constraint with
  | none => simp
  | some name =>
    obtain ⟨column, hcolumn, rfl⟩ := Table.exists_column_of_inlineColumn? hkeyed.1 hinline
    rw [flatMap_eq_of_only hkeyed.1.nodup_values hcolumn]
    · simp
    · intro other hother hne
      refine if_neg fun hboth => hne ?_
      exact hkeyed.1.eq_of_name_eq hother hcolumn (Option.some.inj hboth.1).symm

/-! ## In the script of a schema -/

/-- The statements that stand before those that add constraints. -/
def openingStatements (schema : Schema) : List Statement :=
  schema.extensions.values.map .createExtension ++ schema.enums.values.map .createEnum ++
    (orderedTables schema).map .createTable ++
    (orderedTables schema).flatMap fun table => table.indexes.values.map (.createIndex table.name)

def constraintStatements (table : Table) : List Statement :=
  table.separateConstraints.map (addConstraint table.name)

theorem exportStatements_eq (schema : Schema) : exportStatements schema =
    openingStatements schema ++ (orderedTables schema).flatMap constraintStatements := rfl

theorem addConstraint_not_mem_openingStatements (schema : Schema) (table : String) :
    addConstraint table constraint ∉ openingStatements schema := by
  simp [openingStatements, addConstraint]

theorem renderingsOf_eq_nil {statements : List Statement}
    (hnone : ∀ statement ∈ statements, statement.renderings = []) :
    renderingsOf name constraint statements = [] := by
  rw [renderingsOf, List.flatMap_eq_nil_iff.2 hnone, List.filter_nil]

theorem renderingsOf_addConstraints_eq_nil_iff {table : String} {constraints : List Constraint} :
    renderingsOf name constraint (constraints.map (addConstraint table)) = [] ↔
      ¬(table = name ∧ constraint ∈ constraints) := by
  rw [renderingsOf_map, List.flatMap_eq_nil_iff]
  simp only [renderingsOf_addConstraint, ite_eq_right_iff, List.cons_ne_nil, imp_false]
  constructor
  · rintro hnone ⟨rfl, hmem⟩
    exact hnone constraint hmem ⟨rfl, rfl⟩
  · rintro hnone other hmem ⟨rfl, rfl⟩
    exact hnone ⟨rfl, hmem⟩

theorem renderingsOf_constraintStatements_of_ne {table : Table} (hne : table.name ≠ name) :
    renderingsOf name constraint (constraintStatements table) = [] :=
  renderingsOf_addConstraints_eq_nil_iff.2 fun hsame => hne hsame.1

/-- The constraints that are not inline have a statement each. -/
theorem renderingsOf_constraintStatements {table : Table} (hkeyed : table.WellKeyed)
    (hmem : constraint ∈ table.constraints.values) :
    renderingsOf table.name constraint (constraintStatements table) =
      if table.isInline constraint then [] else [⟨table.name, none, constraint⟩] := by
  split
  · next hinline =>
    refine renderingsOf_addConstraints_eq_nil_iff.2 fun hsame => ?_
    simp [Table.separateConstraints, hinline] at hsame
  · next hinline =>
    have hnodup : table.separateConstraints.Nodup := hkeyed.2.2.nodup_values.filter _
    have hseparate : constraint ∈ table.separateConstraints :=
      List.mem_filter.2 ⟨hmem, by simpa using hinline⟩
    simp only [constraintStatements, renderingsOf_map, renderingsOf_addConstraint, true_and]
    rw [flatMap_eq_of_only hnodup hseparate fun other _ hne => if_neg hne, if_pos rfl]

section Schema

variable {schema : Schema} (hkeyed : schema.WellKeyed) {table : Table}
  (htable : table ∈ schema.tables.values)

include hkeyed htable

/-- What the tables have one after the other is written for a table by its own part. -/
theorem renderingsOf_orderedTables {part : Table → List Statement}
    (hpart : ∀ other : Table, other.name ≠ table.name →
      renderingsOf table.name constraint (part other) = []) :
    renderingsOf table.name constraint ((orderedTables schema).flatMap part) =
      renderingsOf table.name constraint (part table) := by
  have hordered {other : Table} : other ∈ orderedTables schema ↔ other ∈ schema.tables.values :=
    (orderedTables_perm schema).mem_iff
  have hnodup := (nodup_orderedTables hkeyed.1).of_map
  rw [renderingsOf_flatMap]
  refine flatMap_eq_of_only hnodup (hordered.2 htable) fun other hother hne => hpart other ?_
  exact fun hname => hne (hkeyed.1.eq_of_name_eq (hordered.1 hother) htable hname)

/-- The statements that open an export show a constraint only where its table is created. -/
theorem renderingsOf_openingStatements :
    renderingsOf table.name constraint (openingStatements schema) =
      renderingsOf table.name constraint [.createTable table] := by
  have hextensions : renderingsOf table.name constraint
      (schema.extensions.values.map .createExtension) = [] :=
    renderingsOf_eq_nil (List.forall_mem_map.2 fun _ _ => rfl)
  have henums : renderingsOf table.name constraint (schema.enums.values.map .createEnum) = [] :=
    renderingsOf_eq_nil (List.forall_mem_map.2 fun _ _ => rfl)
  have hcreate : renderingsOf table.name constraint ((orderedTables schema).map .createTable) =
      renderingsOf table.name constraint [.createTable table] := by
    rw [List.map_eq_flatMap]
    exact renderingsOf_orderedTables hkeyed htable fun other => renderingsOf_createTable_of_ne
  have hindexes : renderingsOf table.name constraint ((orderedTables schema).flatMap fun owner =>
      owner.indexes.values.map (.createIndex owner.name)) = [] := by
    refine renderingsOf_eq_nil fun statement hstatement => ?_
    obtain ⟨owner, -, hindex⟩ := List.mem_flatMap.1 hstatement
    obtain ⟨index, -, rfl⟩ := List.mem_map.1 hindex
    rfl
  rw [openingStatements, renderingsOf_append, renderingsOf_append, renderingsOf_append, hextensions,
    henums, hcreate, hindexes, List.nil_append, List.nil_append, List.append_nil]

end Schema

/-- The definition of a column is its head and its clauses, and every constraint of the table is
written once: an inline one as a clause of the column that carries it and another one in a statement
of its own.  Only a hidden one is not written at all. -/
theorem renderingsOf_exportStatements {schema : Schema} (hkeyed : schema.WellKeyed)
    (hone : schema.tables.All Table.OneKey) {table : Table}
    (htable : table ∈ schema.tables.values) :
    (∀ column ∈ table.columns.values, columnDefinitionIn table column =
      columnHead column ++ String.join ((table.clauses column).map ColumnClause.sql)) ∧
    ∀ constraint ∈ table.constraints.values,
      renderingsOf table.name constraint (exportStatements schema) =
        if table.IsHidden constraint then []
        else [⟨table.name, table.inlineColumn? constraint, constraint⟩] := by
  refine ⟨fun column _ => table.columnDefinitionIn_clauses column, fun constraint hmem => ?_⟩
  have hown := hkeyed.2.2.2 table htable
  rw [exportStatements_eq, renderingsOf_append, renderingsOf_openingStatements hkeyed htable,
    renderingsOf_orderedTables hkeyed htable fun other => renderingsOf_constraintStatements_of_ne,
    renderingsOf_createTable hown (hone table htable) hmem,
    renderingsOf_constraintStatements hown hmem]
  cases hinline : table.inlineColumn? constraint with
  | none => simp [Table.isInline, Table.IsHidden, hinline]
  | some name => by_cases hhidden : table.IsHidden constraint <;>
      simp [Table.isInline, hinline, hhidden]

end Renderings

/-- A table with two columns that have one check, each under its usual name. -/
def twins : Table :=
  let checked (name : String) : Column := { Column.plain name "bigint" with check := some "a > 0" }
  ((((Table.empty "t").addColumn (checked "a")).addColumn (checked "b")).addConstraint
    (.check "t_a_check" "a > 0")).addConstraint (.check "t_b_check" "a > 0")

/-- Each of the two checks keeps the other one out of the script. -/
theorem renderingsOf_twins :
    ((Schema.empty.addTable twins).WellKeyed ∧
      (Schema.empty.addTable twins).tables.All Table.OneKey) ∧
    ∀ constraint ∈ twins.constraints.values,
      renderingsOf "t" constraint (exportStatements (.addTable .empty twins)) = [] := by
  have hhyps : (Schema.empty.addTable twins).WellKeyed ∧
      (Schema.empty.addTable twins).tables.All Table.OneKey := by decide
  have htable : twins ∈ (Schema.empty.addTable twins).tables.values :=
    Keyed.mem_values_iff.2 ⟨"t", rfl⟩
  have hhidden : ∀ constraint ∈ twins.constraints.values, twins.IsHidden constraint := by decide
  refine ⟨hhyps, fun constraint hmem => ?_⟩
  have hwritten := (renderingsOf_exportStatements hhyps.1 hhyps.2 htable).2 constraint hmem
  rwa [if_pos (hhidden constraint hmem)] at hwritten

end Sql

end SchemaEvolution
