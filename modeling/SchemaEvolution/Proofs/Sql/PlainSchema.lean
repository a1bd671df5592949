import SchemaEvolution.Proofs.Sql.AlterationReading
import SchemaEvolution.Sql.Export

/-!
# Plain schemas

A plain schema has nothing that its script can not say in full: types and defaults are spelled
so that they are read as they stand, keys do not clash with one another, and no name that is
printed without quotes is a key word.  What a column and its keys are printed as together gives
them back, and so do the constraints with statements of their own.
-/

namespace SchemaEvolution

/-- A constraint that a statement can add: no check, and a foreign key says what it refers to. -/
def Sql.IsPlainRule : Rule → Prop
  | .primaryKey _ | .unique _ => True
  | .foreignKey key => key.targetColumns ≠ []
  | .check _ => False

instance : (rule : Rule) → Decidable (Sql.IsPlainRule rule)
  | .primaryKey _ | .unique _ => inferInstanceAs (Decidable True)
  | .foreignKey _ => inferInstanceAs (Decidable (_ ≠ _))
  | .check _ => inferInstanceAs (Decidable False)

theorem Sql.kind_ne_check {rule : Rule} (hplain : IsPlainRule rule) : rule.kind ≠ "CHECK" := by
  cases rule with
  | check condition => cases hplain
  | primaryKey columns => simp [Rule.kind]
  | foreignKey key => simp [Rule.kind]
  | unique columns => simp [Rule.kind]

/-- The method of an index is a word that is no key word. -/
def Sql.IsPlainIndex (index : Index) : Prop :=
  Sql.isPlainIdent index.type = true ∧ index.type ∉ Sql.reserved

instance (index : Index) : Decidable (Sql.IsPlainIndex index) :=
  inferInstanceAs (Decidable (_ ∧ _))

/-- A table that is read as it is printed. -/
structure Table.IsPlain (table : Table) : Prop where
  some_column : table.columns.values ≠ []
  columns : table.columns.All Sql.IsPlainColumn
  serial : table.columns.All fun column =>
    Sql.TypeName.isSerial column.type = true → column.notNull = true
  one_key : (table.constraints.values.filter
    fun constraint => constraint.rule.kind == "PRIMARY KEY").length ≤ 1
  key_columns : table.constraints.All fun constraint =>
    constraint.rule.kind = "PRIMARY KEY" → ∀ name ∈ constraint.rule.columns,
      ∀ column ∈ table.columns.get? name, column.notNull = true
  constraints : table.constraints.All fun constraint => Sql.IsPlainRule constraint.rule
  indexes : table.indexes.All Sql.IsPlainIndex

/-- A schema that is read as it is printed. -/
structure Schema.IsPlain (schema : Schema) : Prop where
  wellKeyed : schema.WellKeyed
  tables : schema.tables.All Table.IsPlain
  enums : schema.enums.All fun type => type.comment = none ∧ type.name ∉ Sql.reserved
  extensions : schema.extensions.All fun extension => extension.comment = none ∧
    extension.name ∉ Sql.reserved ∧ ∀ place ∈ extension.schema, place ∉ Sql.reserved

namespace Table

variable {table : Table}

def separateConstraints (table : Table) : List Constraint :=
  table.constraints.values.filter fun constraint => !table.isInline constraint

theorem mem_inlineConstraints {name : String} {constraint : Constraint} :
    constraint ∈ table.inlineConstraints name ↔
      constraint ∈ table.constraints.values ∧ table.inlineColumn? constraint = some name := by
  rw [inlineConstraints, List.mem_filter, beq_iff_eq]

/-- A single column is named exactly by the list of it alone, if the table has it. -/
theorem columnKey?_eq_some {column name : String} :
    table.columnKey? column = some name ↔ column = name ∧ table.columns.contains name = true := by
  unfold columnKey?
  split
  · next hcontains =>
    rw [Option.some.injEq]
    exact ⟨fun heq => ⟨heq, heq ▸ hcontains⟩, And.left⟩
  · next hcontains =>
    constructor
    · rintro ⟨⟩
    · rintro ⟨rfl, hname⟩
      exact absurd hname hcontains

theorem inlineColumn?_primaryKey {label name : String} {columns : List String} :
    table.inlineColumn? ⟨label, .primaryKey columns⟩ = some name ↔
      label = Naming.primaryKey table.name ∧ columns = [name] ∧
        table.columns.contains name = true := by
  match columns with
  | [] => simp [inlineColumn?]
  | first :: second :: more => simp [inlineColumn?]
  | [column] =>
    by_cases hlabel : label = Naming.primaryKey table.name
    · simp [inlineColumn?, hlabel, columnKey?_eq_some]
    · simp [inlineColumn?, hlabel]

/-- A unique constraint stands in the line of a column if it has the usual name and that column has
no key. -/
theorem inlineColumn?_unique {label name : String} {columns : List String} :
    table.inlineColumn? ⟨label, .unique columns⟩ = some name ↔
      label = Naming.unique table.name [name] ∧ columns = [name] ∧
        table.hasInlinePrimaryKey name = false ∧ table.columns.contains name = true := by
  match columns with
  | [] => simp [inlineColumn?]
  | first :: second :: more => simp [inlineColumn?]
  | [column] =>
    by_cases hcolumn : column = name
    · subst hcolumn
      by_cases hlabel : label = Naming.unique table.name [column]
      · simp [inlineColumn?, hlabel, columnKey?_eq_some]
      · simp [inlineColumn?, hlabel]
    · simp [inlineColumn?, hcolumn, columnKey?_eq_some]

def usualKey (table : Table) (name : String) : Constraint :=
  .primaryKey (Naming.primaryKey table.name) [name]

def usualUnique (table : Table) (name : String) : Constraint :=
  .unique (Naming.unique table.name [name]) [name]

/-- A key that is inline at a column is one of the usual two. -/
theorem eq_usual_of_mem {name : String} {constraint : Constraint}
    (hmem : constraint ∈ table.inlineConstraints name) (hkind : constraint.rule.kind ≠ "CHECK") :
    constraint = table.usualKey name ∨ constraint = table.usualUnique name := by
  have hinline := (mem_inlineConstraints.1 hmem).2
  obtain ⟨label, rule⟩ := constraint
  cases rule with
  | primaryKey columns =>
    obtain ⟨rfl, rfl, -⟩ := inlineColumn?_primaryKey.1 hinline
    exact .inl rfl
  | unique columns =>
    obtain ⟨rfl, rfl, -⟩ := inlineColumn?_unique.1 hinline
    exact .inr rfl
  | foreignKey key => cases hinline
  | check condition => exact absurd rfl hkind

theorem any_primaryKey_iff {name : String} :
    ((table.inlineConstraints name).any fun constraint =>
      constraint.rule.kind == "PRIMARY KEY") = true ↔
        table.usualKey name ∈ table.inlineConstraints name := by
  refine ⟨fun hany => ?_, fun hmem => List.any_eq_true.2 ⟨_, hmem, rfl⟩⟩
  obtain ⟨constraint, hmem, hkind⟩ := List.any_eq_true.1 hany
  rcases eq_usual_of_mem hmem (by simp [beq_iff_eq.1 hkind]) with rfl | rfl
  · exact hmem
  · cases hkind

theorem any_unique_iff {name : String} :
    ((table.inlineConstraints name).any fun constraint =>
      constraint.rule.kind == "UNIQUE") = true ↔
        table.usualUnique name ∈ table.inlineConstraints name := by
  refine ⟨fun hany => ?_, fun hmem => List.any_eq_true.2 ⟨_, hmem, rfl⟩⟩
  obtain ⟨constraint, hmem, hkind⟩ := List.any_eq_true.1 hany
  rcases eq_usual_of_mem hmem (by simp [beq_iff_eq.1 hkind]) with rfl | rfl
  · cases hkind
  · exact hmem

theorem eq_of_length_le_one {α : Type} {items : List α} (hone : items.length ≤ 1) {left right : α}
    (hleft : left ∈ items) (hright : right ∈ items) : left = right := by
  cases items with
  | nil => cases hleft
  | cons first more =>
    have hnone : more = [] := List.length_eq_zero_iff.1 (by simpa using hone)
    rw [hnone, List.mem_singleton] at hleft hright
    exact hleft.trans hright.symm

theorem mem_of_primaryKey? {label : String} {columns : List String}
    (hkey : table.primaryKey? = some (label, columns)) :
    Constraint.primaryKey label columns ∈ table.constraints.values := by
  obtain ⟨⟨other, rule⟩, hmem, hfound⟩ := List.exists_of_findSome?_eq_some hkey
  cases rule with
  | primaryKey names =>
    cases hfound
    exact hmem
  | foreignKey key => cases hfound
  | unique names => cases hfound
  | check condition => cases hfound

def OneKey (table : Table) : Prop :=
  (table.constraints.values.filter
    fun constraint => constraint.rule.kind == "PRIMARY KEY").length ≤ 1

instance (table : Table) : Decidable table.OneKey := inferInstanceAs (Decidable (_ ≤ _))

section OneKey

variable (hone : table.OneKey)

include hone

/-- A primary key among the constraints of a plain table is the one that is found. -/
theorem primaryKey?_of_mem {label : String} {columns : List String}
    (hmem : Constraint.primaryKey label columns ∈ table.constraints.values) :
    table.primaryKey? = some (label, columns) := by
  cases hfound : table.primaryKey? with
  | none => cases List.findSome?_eq_none_iff.1 hfound _ hmem
  | some found =>
    obtain ⟨other, names⟩ := found
    have hother := mem_of_primaryKey? hfound
    have hsame : Constraint.primaryKey label columns = Constraint.primaryKey other names :=
      eq_of_length_le_one hone (List.mem_filter.2 ⟨hmem, rfl⟩) (List.mem_filter.2 ⟨hother, rfl⟩)
    cases hsame
    rfl

/-- The column of an inline primary key has no inline unique constraint. -/
theorem hasInlinePrimaryKey_of_mem {name : String}
    (hmem : table.usualKey name ∈ table.constraints.values) :
    table.hasInlinePrimaryKey name = true := by
  have hkey := primaryKey?_of_mem hone hmem
  simp [hasInlinePrimaryKey, isSinglePrimaryKey, hkey]

/-- The line of a column has the word exactly if its usual unique constraint stands there. -/
theorem unique_attributes_iff (column : Column) :
    (table.attributes column).unique = true ↔
      table.usualUnique column.name ∈ table.inlineConstraints column.name := by
  change (!_ && _) = true ↔ _
  rw [Bool.and_eq_true, any_unique_iff]
  refine ⟨And.right, fun hmem => ⟨?_, hmem⟩⟩
  rw [Bool.not_eq_true', ← Bool.not_eq_true, any_primaryKey_iff]
  -- the column would be the one primary key, which keeps its unique constraint apart
  intro hkey
  have hinline := hasInlinePrimaryKey_of_mem hone (mem_inlineConstraints.1 hkey).1
  have hnone := (inlineColumn?_unique.1 (mem_inlineConstraints.1 hmem).2).2.2.1
  rw [hinline] at hnone
  cases hnone

end OneKey

theorem constraints_definition (column : Column) :
    (table.definition column).constraints table.name =
      (if (table.attributes column).primary then [table.usualKey column.name] else []) ++
        (if (table.attributes column).unique then [table.usualUnique column.name] else []) := by
  cases hprimary : (table.attributes column).primary <;>
    cases hunique : (table.attributes column).unique <;>
      simp [Sql.ColumnDefinition.constraints, definition, Sql.Attributes.definition, hprimary,
        hunique, usualKey, usualUnique]

/-- The definition of a column gives the table its inline keys. -/
theorem OneKey.mem_constraints_iff (hone : table.OneKey) {column : Column}
    {constraint : Constraint} : constraint ∈ (table.definition column).constraints table.name ↔
      constraint ∈ table.inlineConstraints column.name ∧ constraint.rule.kind ≠ "CHECK" := by
  have hprimary : (table.attributes column).primary = true ↔
      table.usualKey column.name ∈ table.inlineConstraints column.name := any_primaryKey_iff
  have hunique := unique_attributes_iff hone column
  have hcarried : constraint ∈ (table.definition column).constraints table.name ↔
      (table.attributes column).primary = true ∧ constraint = table.usualKey column.name ∨
        (table.attributes column).unique = true ∧ constraint = table.usualUnique column.name := by
    rw [constraints_definition, List.mem_append]
    split <;> split <;> simp_all
  rw [hcarried, hprimary, hunique]
  constructor
  · rintro (⟨hmem, rfl⟩ | ⟨hmem, rfl⟩)
    · exact ⟨hmem, by simp [usualKey, Constraint.primaryKey, Rule.kind]⟩
    · exact ⟨hmem, by simp [usualUnique, Constraint.unique, Rule.kind]⟩
  · rintro ⟨hmem, hkind⟩
    rcases eq_usual_of_mem hmem hkind with rfl | rfl
    · exact .inl ⟨hmem, rfl⟩
    · exact .inr ⟨hmem, rfl⟩

variable (hplain : table.IsPlain)

include hplain

/-- A column is printed with its inline constraints. -/
theorem IsPlain.mem_constraints_iff {column : Column} {constraint : Constraint} :
    constraint ∈ (table.definition column).constraints table.name ↔
      constraint ∈ table.inlineConstraints column.name := by
  refine (OneKey.mem_constraints_iff hplain.one_key).trans (and_iff_left_of_imp fun hmem => ?_)
  exact Sql.kind_ne_check (hplain.constraints constraint (mem_inlineConstraints.1 hmem).1)

/-- The column of an inline constraint is a column of the table. -/
theorem IsPlain.contains_of_inlineColumn? {constraint : Constraint}
    (hvalue : constraint ∈ table.constraints.values) {name : String}
    (hinline : table.inlineColumn? constraint = some name) :
    table.columns.contains name = true := by
  have hmem := mem_inlineConstraints.2 ⟨hvalue, hinline⟩
  rcases eq_usual_of_mem hmem (Sql.kind_ne_check (hplain.constraints constraint hvalue)) with
    rfl | rfl
  · exact (inlineColumn?_primaryKey.1 hinline).2.2
  · exact (inlineColumn?_unique.1 hinline).2.2.2

/-- The columns of a plain table carry its inline constraints. -/
theorem IsPlain.mem_carriedConstraints_iff (hnamed : table.columns.Named Column.name)
    {constraint : Constraint} : constraint ∈ Sql.carriedConstraints table ↔
      constraint ∈ table.constraints.values ∧ table.isInline constraint = true := by
  rw [Sql.carriedConstraints, List.mem_flatMap]
  constructor
  · rintro ⟨column, -, hcarried⟩
    obtain ⟨hvalue, hinline⟩ := mem_inlineConstraints.1 (hplain.mem_constraints_iff.1 hcarried)
    exact ⟨hvalue, by rw [isInline, hinline]; rfl⟩
  · rintro ⟨hvalue, hinline⟩
    obtain ⟨name, hname⟩ := Option.isSome_iff_exists.1 hinline
    obtain ⟨column, hcolumn⟩ :=
      Option.isSome_iff_exists.1 (hplain.contains_of_inlineColumn? hvalue hname)
    refine ⟨column, Keyed.mem_values_iff.2 ⟨name, hcolumn⟩, hplain.mem_constraints_iff.2 ?_⟩
    rw [hnamed.of_get? hcolumn]
    exact mem_inlineConstraints.2 ⟨hvalue, hname⟩

theorem IsPlain.mem_constraints (hnamed : table.columns.Named Column.name)
    {constraint : Constraint} :
    constraint ∈ Sql.carriedConstraints table ++ table.separateConstraints ↔
      constraint ∈ table.constraints.values := by
  rw [List.mem_append, hplain.mem_carriedConstraints_iff hnamed, separateConstraints,
    List.mem_filter]
  cases table.isInline constraint <;> simp

/-! ## What is read back -/

/-- The definition of a column says all of the column but its comment. -/
theorem IsPlain.column_definition (hnamed : table.columns.Named Column.name) {column : Column}
    (hmem : column ∈ table.columns.values) :
    (table.definition column).column = { column with comment := none } := by
  have hcolumn := hnamed.get?_of_mem hmem
  have hprimary : (table.attributes column).primary = true → column.notNull = true := by
    intro hprimary
    have hvalue := (mem_inlineConstraints.1 (any_primaryKey_iff.1 hprimary)).1
    exact hplain.key_columns _ hvalue rfl column.name List.mem_cons_self column hcolumn
  have hnotNull : ((table.attributes column).primary || (table.attributes column).notNull ||
      Sql.TypeName.isSerial column.type) = column.notNull := by
    have hserial := hplain.serial column hmem
    change (_ || (column.notNull && !(table.attributes column).primary) || _) = _
    cases hvalue : column.notNull <;> simp_all
  obtain ⟨name, type, default, check, notNull, comment⟩ := column
  obtain rfl : check = none := (hplain.columns _ hmem).check
  exact congrArg (fun notNull => Column.mk name type default none notNull none) hnotNull

omit hplain in
/-- Columns that are never null are not changed by being required. -/
theorem foldl_update_eq_self {names : List String} {columns : Keyed Column}
    (hrequired : ∀ name ∈ names, ∀ column ∈ columns.get? name, column.notNull = true) :
    names.foldl (fun found name => found.update name fun column =>
      { column with notNull := true }) columns = columns := by
  induction names with
  | nil => rfl
  | cons name more ih =>
    have hfirst : columns.update name (fun column => { column with notNull := true }) =
        columns := by
      refine Keyed.update_eq_self fun column hcolumn => ?_
      have hnotNull := hrequired name List.mem_cons_self column hcolumn
      rw [← hnotNull]
    rw [List.foldl_cons, hfirst]
    exact ih fun other hmem => hrequired other (List.mem_cons_of_mem _ hmem)

/-- The columns of a primary key are never null. -/
def KeyColumns (columns : Keyed Column) (constraint : Constraint) : Prop :=
  constraint.rule.kind = "PRIMARY KEY" → ∀ name ∈ constraint.rule.columns,
    ∀ column ∈ columns.get? name, column.notNull = true

omit hplain in
/-- To add a constraint whose columns are known not to be null changes no column. -/
theorem addTo_clauseOf {constraint : Constraint} (hrule : Sql.IsPlainRule constraint.rule)
    (hkeys : KeyColumns table.columns constraint) :
    (Sql.clauseOf constraint.rule).addTo (some constraint.name) table =
      table.addConstraint constraint := by
  obtain ⟨label, rule⟩ := constraint
  cases rule with
  | unique columns => rfl
  | foreignKey key => rfl
  | check condition => cases hrule
  | primaryKey columns =>
    have hrequired : columns.foldl (fun found name => found.update name fun column =>
        { column with notNull := true }) table.columns = table.columns :=
      foldl_update_eq_self fun name hname => hkeys rfl name hname
    exact congrArg (fun columns => addConstraint { table with columns := columns } _) hrequired

/-- The table after the statement that creates it and its comments. -/
def described (table : Table) : Table :=
  { table with
    indexes := ∅, constraints := Sql.insertConstraints (Sql.carriedConstraints table) ∅ }

/-- The table after its indexes have been created as well. -/
def indexed (table : Table) : Table :=
  { table with constraints := Sql.insertConstraints (Sql.carriedConstraints table) ∅ }

/-- The table as it is read back: its constraints may come in another order. -/
def restored (table : Table) : Table :=
  { table with
    constraints :=
      Sql.insertConstraints (Sql.carriedConstraints table ++ table.separateConstraints) ∅ }

/-- What is read back are the constraints of the table. -/
theorem IsPlain.get?_restored (hkeyed : table.WellKeyed) (key : String) :
    table.restored.constraints.get? key = table.constraints.get? key := by
  obtain ⟨hcolumns, -, hconstraints⟩ := hkeyed
  have hlookup : ∀ constraint ∈ Sql.carriedConstraints table ++ table.separateConstraints,
      table.constraints.get? constraint.name = some constraint :=
    fun constraint hmem => hconstraints.get?_of_mem ((hplain.mem_constraints hcolumns).1 hmem)
  -- no two of them have one name, so the order in which they are stored does not matter
  cases hvalue : table.constraints.get? key with
  | none =>
    refine Keyed.get?_foldl_insert_of_ne (fun constraint hmem heq => ?_) _ ∅
    have hfound := hlookup constraint hmem
    rw [heq, hvalue] at hfound
    cases hfound
  | some value =>
    refine Keyed.get?_foldl_insert (fun constraint hmem heq => ?_) ∅ (.inr ⟨value,
      (hplain.mem_constraints hcolumns).2 (Keyed.mem_values_iff.2 ⟨key, hvalue⟩),
      hconstraints.of_get? hvalue⟩)
    have hfound := hlookup constraint hmem
    rw [heq, hvalue] at hfound
    cases hfound
    rfl

/-- A table is read back as an equal one. -/
theorem IsPlain.restored_beq (hkeyed : table.WellKeyed) : (table.restored == table) = true := by
  refine (Table.beq_iff _ _).2 ⟨rfl, rfl, BEq.rfl, BEq.rfl, (Keyed.beq_iff_get? _ _).2 ?_⟩
  intro key
  rw [hplain.get?_restored hkeyed key]
  exact BEq.rfl

end Table

end SchemaEvolution
