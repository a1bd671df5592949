import SchemaEvolution.Proofs.Patch.Difference
import SchemaEvolution.Proofs.Sql.Objects
import SchemaEvolution.Sql.Migration

/-!
# What the statements of a migration touch

The statements of an operation create and drop nothing but what the path of the operation leads
to: objects of its owner and, for an operation on an entry of a table, that entry alone.
-/

namespace SchemaEvolution.Sql

open Patch (Edit TableEdit ColumnEdit Operation Owner TablePart)

/-- The statements of an operation; none when it has an error instead. -/
def statementsOf (span : Span) (op : Operation) : List Statement :=
  match operationStatements span op with
  | .ok statements => statements
  | .error _ => []

/-- The statements of an edit; none when it has no statement. -/
def editsTo (span : Span) (edit : Edit) : List Statement :=
  match editStatements span edit with
  | .ok statements => statements
  | .error _ => []

theorem statementsOf_operation (span : Span) {edit : Edit} (hedit : edit.Writable) :
    statementsOf span edit.operation = editsTo span edit := by
  rw [statementsOf, operationStatements, Edit.edit_operation hedit, editsTo]
  cases hstatements : editStatements span edit <;> simp [hstatements, Except.mapError]

/-- Statements that add foreign keys wait until the others are done. -/
def foreignKeysLast (statements : List Statement) : List Statement :=
  statements.filter (fun statement => !statement.isForeignKey) ++
    statements.filter Statement.isForeignKey

theorem migration_statements (before : Schema) (ops : List Operation) :
    (migration before ops).statements = foreignKeysLast
      (ops.flatMap (statementsOf ⟨before, (Patch.applyAll before ops).schema⟩)) := by
  rw [migration, foreignKeysLast]
  simp only [List.partition_eq_filter_filter, List.flatMap_map]
  rfl

/-! ## What the statements of an edit touch -/

def Object.owner : Object → Owner
  | .table name | .column name _ | .constraint name _ => .table name
  | .type name => .enumType name

def Object.part? : Object → Option TablePart
  | .column _ name => some (.column name)
  | .constraint _ name => some (.constraint name)
  | .table _ | .type _ => none

/-- The statement touches no object outside a part of a table, and gives no names. -/
def Statement.StaysIn (table : String) (part : TablePart) (statement : Statement) : Prop :=
  statement.renames = false ∧
    ∀ object, statement.touches object = true →
      object.table? = some table ∧ object.part? = some part

section StaysIn

variable {table : String} {part : TablePart} {statement : Statement}

theorem Statement.StaysIn.of_silent (hrenames : statement.renames = false)
    (hsilent : ∀ object, statement.touches object = false) : statement.StaysIn table part := by
  refine ⟨hrenames, fun object htouch => ?_⟩
  rw [hsilent] at htouch
  cases htouch

theorem Statement.StaysIn.of_named {alteration : Alteration} {object : Object} {present : Bool}
    (hnamed : (Statement.alterTable table alteration).named? = some (object, present))
    (htable : object.table? = some table) (hpart : object.part? = some part) :
    (Statement.alterTable table alteration).StaysIn table part := by
  constructor
  · cases alteration <;> first | rfl | cases hnamed
  · intro other htouch
    rw [touches, decides?, hnamed] at htouch
    · by_cases hother : other = object
      · exact hother ▸ ⟨htable, hpart⟩
      · simp [hother] at htouch
    all_goals rintro _ ⟨⟩

end StaysIn

theorem mem_onlyIf {condition : Bool} {statement other : Statement}
    (hmem : other ∈ onlyIf condition statement) : other = statement := by
  cases condition with
  | false => cases hmem
  | true => exact List.mem_singleton.1 hmem

section Edits

variable {table : String}

/-- What is written for an edit of a column stays in that column. -/
theorem columnStatements_staysIn {name : String} {edit : ColumnEdit} (hfield : edit.field ≠ .name)
    {statements : List Statement} (hstatements : columnStatements table name edit = .ok statements) :
    ∀ statement ∈ statements, statement.StaysIn table (.column name) := by
  have hsilent : ∀ statement, statements = [statement] → statement.renames = false →
      (∀ object, statement.touches object = false) →
      ∀ other ∈ statements, other.StaysIn table (.column name) := by
    rintro statement rfl hrenames hsilent other hmem
    rw [List.mem_singleton.1 hmem]
    exact .of_silent hrenames hsilent
  cases edit with
  | rename target => exact absurd rfl hfield
  | type new => cases hstatements; exact hsilent _ rfl rfl fun _ => rfl
  | comment text => cases hstatements; exact hsilent _ rfl rfl fun _ => rfl
  | check new => cases hstatements
  | notNull flag => cases flag <;> cases hstatements <;> exact hsilent _ rfl rfl fun _ => rfl
  | default new => cases new <;> cases hstatements <;> exact hsilent _ rfl rfl fun _ => rfl

/-- What is written to put in a column stays there, with its comment. -/
theorem putColumn_staysIn (span : Span) {name : String} {column : Column}
    (hkey : column.name = name) {statement : Statement}
    (hmem : statement ∈ onlyIf (span.had Table.columns table name)
        (.alterTable table (.dropColumn name)) ++
      .alterTable table (.addColumn column) ::
      match column.comment with
      | some text => [.comment (.column table name) (some text)]
      | none => []) :
    statement.StaysIn table (.column name) := by
  cases hkey
  rcases List.mem_append.1 hmem with hmem | hmem
  · rw [mem_onlyIf hmem]
    exact .of_named rfl rfl rfl
  · rcases List.mem_cons.1 hmem with rfl | hmem
    · exact .of_named rfl rfl rfl
    · cases hcomment : column.comment with
      | none => rw [hcomment] at hmem; cases hmem
      | some text =>
        rw [hcomment] at hmem
        rw [List.mem_singleton.1 hmem]
        exact .of_silent rfl fun _ => rfl

theorem recreateIndex_staysIn (span : Span) {name : String} {statements : List Statement}
    (hstatements : recreateIndex span table name = .ok statements) :
    ∀ statement ∈ statements, statement.StaysIn table (.index name) := by
  unfold recreateIndex at hstatements
  split at hstatements
  · cases hstatements
    intro statement hmem
    rcases List.mem_cons.1 hmem with rfl | hmem
    · exact .of_silent rfl fun _ => rfl
    · rw [List.mem_singleton.1 hmem]
      exact .of_silent rfl fun _ => rfl
  · cases hstatements

theorem recreateConstraint_of_some {span : Span} {name : String} {constraint : Constraint}
    (hconstraint : span.after.constraint? table name = some constraint) :
    recreateConstraint span table name =
      .ok [.alterTable table (.dropConstraint name), addConstraint table constraint] := by
  rw [Schema.constraint?] at hconstraint
  rw [recreateConstraint, hconstraint]

/-- A constraint that is made anew stays under its name. -/
theorem recreateConstraint_staysIn {span : Span} {name : String}
    (hkeyed : ∀ constraint, span.after.constraint? table name = some constraint →
      constraint.name = name)
    {statements : List Statement} (hstatements : recreateConstraint span table name = .ok statements) :
    ∀ statement ∈ statements, statement.StaysIn table (.constraint name) := by
  cases hconstraint : span.after.constraint? table name with
  | none =>
    rw [Schema.constraint?] at hconstraint
    rw [recreateConstraint, hconstraint] at hstatements
    cases hstatements
  | some constraint =>
    rw [recreateConstraint_of_some hconstraint] at hstatements
    cases hstatements
    cases hkeyed constraint hconstraint
    intro statement hmem
    rcases List.mem_cons.1 hmem with rfl | hmem
    · exact .of_named rfl rfl rfl
    · rw [List.mem_singleton.1 hmem]
      exact .of_named rfl rfl rfl

/-- The statements of an edit inside a table touch nothing but the part that it changes. -/
theorem tableStatements_staysIn {span : Span} {change : TableEdit} {part : TablePart}
    (hpart : change.spot.part? = some part)
    (hplace : (Patch.Path.table table change.spot).isName = false) (hkeeps : change.KeepsName)
    (hkeyed : ∀ name constraint, span.after.constraint? table name = some constraint →
      constraint.name = name)
    {statements : List Statement} (hstatements : tableStatements span table change = .ok statements) :
    ∀ statement ∈ statements, statement.StaysIn table part := by
  cases change with
  | rename target => cases hplace
  | comment text =>
    cases hstatements
    intro statement hmem
    rw [List.mem_singleton.1 hmem]
    exact .of_silent rfl fun _ => rfl
  | putColumn name column =>
    cases hpart
    cases hstatements
    exact fun statement hmem => putColumn_staysIn span hkeeps hmem
  | removeColumn name =>
    cases hpart
    cases hstatements
    intro statement hmem
    rw [List.mem_singleton.1 hmem]
    exact .of_named rfl rfl rfl
  | column name edit =>
    cases hpart
    refine columnStatements_staysIn ?_ hstatements
    intro hfield
    rw [TableEdit.spot, hfield] at hplace
    cases hplace
  | putIndex name index =>
    cases hstatements
    intro statement hmem
    rcases List.mem_append.1 hmem with hmem | hmem
    · rw [mem_onlyIf hmem]
      exact .of_silent rfl fun _ => rfl
    · rw [List.mem_singleton.1 hmem]
      exact .of_silent rfl fun _ => rfl
  | removeIndex name =>
    cases hstatements
    intro statement hmem
    rw [List.mem_singleton.1 hmem]
    exact .of_silent rfl fun _ => rfl
  | index name edit =>
    cases hpart
    cases edit with
    | rename target => cases hplace
    | _ => exact recreateIndex_staysIn span hstatements
  | putConstraint name constraint =>
    cases hpart
    cases hkeeps
    cases hstatements
    intro statement hmem
    rcases List.mem_append.1 hmem with hmem | hmem
    · rw [mem_onlyIf hmem]
      exact .of_named rfl rfl rfl
    · rw [List.mem_singleton.1 hmem]
      exact .of_named rfl rfl rfl
  | removeConstraint name =>
    cases hpart
    cases hstatements
    intro statement hmem
    rw [List.mem_singleton.1 hmem]
    exact .of_named rfl rfl rfl
  | constraint name edit =>
    cases hpart
    cases edit with
    | rename target => cases hplace
    | _ => exact recreateConstraint_staysIn (hkeyed name) hstatements

end Edits

/-- The statement touches no object of another owner, and gives no names. -/
def Statement.StaysWith (owner : Owner) (statement : Statement) : Prop :=
  statement.renames = false ∧ ∀ object, statement.touches object = true → object.owner = owner

theorem Statement.StaysIn.staysWith {table : String} {part : TablePart} {statement : Statement}
    (hstays : statement.StaysIn table part) : statement.StaysWith (.table table) := by
  refine ⟨hstays.1, fun object htouch => ?_⟩
  have htable := (hstays.2 object htouch).1
  cases object with
  | type name => cases htable
  | table | column | constraint => cases htable; rfl

theorem Statement.StaysWith.of_silent {owner : Owner} {statement : Statement}
    (hrenames : statement.renames = false) (hsilent : ∀ object, statement.touches object = false) :
    statement.StaysWith owner := by
  refine ⟨hrenames, fun object htouch => ?_⟩
  rw [hsilent] at htouch
  cases htouch

theorem addConstraint_staysWith (table : String) (constraint : Constraint) :
    (addConstraint table constraint).StaysWith (.table table) :=
  have hstays : (addConstraint table constraint).StaysIn table (.constraint constraint.name) :=
    .of_named rfl rfl rfl
  hstays.staysWith

theorem Statement.staysWith_table {statement : Statement} {name : String}
    (hrenames : statement.renames = false)
    (htable : ∀ object, statement.touches object = true → object.table? = some name) :
    statement.StaysWith (.table name) := by
  refine ⟨hrenames, fun object htouch => ?_⟩
  have := htable object htouch
  cases object with
  | type => cases this
  | table | column | constraint => cases this; rfl

theorem dropTable_staysWith (name : String) : (Statement.dropTable name).StaysWith (.table name) :=
  Statement.staysWith_table rfl fun object htouch => by
    by_cases htable : object.table? = some name
    · exact htable
    · simp [Statement.touches, Statement.decides?, htable] at htouch

theorem createTable_staysWith (table : Table) :
    (Statement.createTable table).StaysWith (.table table.name) :=
  Statement.staysWith_table rfl fun object htouch => by
    by_cases htable : object.table? = some table.name
    · exact htable
    · simp [Statement.touches, Statement.decides?, htable] at htouch

theorem putTable_staysWith {name : String} {table : Table} (hkey : table.name = name)
    {statement : Statement} (hmem : statement ∈ putTableStatements name table) :
    statement.StaysWith (.table name) := by
  cases hkey
  rcases List.mem_append.1 hmem with hmem | hmem
  · rcases List.mem_cons.1 hmem with rfl | hmem
    · exact createTable_staysWith table
    · obtain ⟨index, -, rfl⟩ := List.mem_map.1 hmem
      exact .of_silent rfl fun _ => rfl
  · obtain ⟨constraint, -, rfl⟩ := List.mem_map.1 hmem
    exact addConstraint_staysWith _ _

theorem type_staysWith {statement : Statement} {name : String}
    (hrenames : statement.renames = false)
    (htype : ∀ object, object ≠ .type name → statement.touches object = false) :
    statement.StaysWith (.enumType name) := by
  refine ⟨hrenames, fun object htouch => ?_⟩
  by_cases hobject : object = .type name
  · cases hobject
    rfl
  · rw [htype object hobject] at htouch
    cases htouch

/-- The changes of an enumerated type create and drop nothing. -/
theorem enumStatements_silent {span : Span} {name : String} {change : Patch.EnumEdit}
    (hspot : change.spot ≠ .field .name) {statements : List Statement}
    (hstatements : enumStatements span name change = .ok statements) :
    ∀ statement ∈ statements,
      statement.renames = false ∧ ∀ object, statement.touches object = false := by
  cases change with
  | rename target => exact absurd rfl hspot
  | values new =>
    simp only [enumStatements] at hstatements
    split at hstatements
    all_goals
      split at hstatements
      · cases hstatements
        intro statement hmem
        obtain ⟨value, -, rfl⟩ := List.mem_map.1 hmem
        exact ⟨rfl, fun _ => rfl⟩
      · cases hstatements
  | comment text =>
    cases hstatements
    intro statement hmem
    rw [List.mem_singleton.1 hmem]
    exact ⟨rfl, fun _ => rfl⟩
  | item edit =>
    cases edit with
    | insert position value =>
      cases hstatements
      intro statement hmem
      rw [List.mem_singleton.1 hmem]
      exact ⟨rfl, fun _ => rfl⟩
    | remove | replace => cases hstatements

/-- What is written for an extension touches no table and no type. -/
theorem extensionStatements_staysWith {name : String} {change : Patch.ExtensionEdit}
    {statements : List Statement} (hstatements : extensionStatements name change = .ok statements)
    (owner : Owner) : ∀ statement ∈ statements, statement.StaysWith owner := by
  have hsilent : ∀ statement, statements = [statement] → statement.renames = false →
      (∀ object, statement.touches object = false) →
      ∀ other ∈ statements, other.StaysWith owner := by
    rintro statement rfl hrenames hsilent other hmem
    rw [List.mem_singleton.1 hmem]
    exact .of_silent hrenames hsilent
  cases change with
  | comment text => cases hstatements; exact hsilent _ rfl rfl fun _ => rfl
  | schema text => cases text <;> cases hstatements; exact hsilent _ rfl rfl fun _ => rfl
  | version text => cases text <;> cases hstatements; exact hsilent _ rfl rfl fun _ => rfl

/-- The statements of an edit touch nothing but what its owner has. -/
theorem editStatements_staysWith {span : Span} {edit : Edit} (hedit : edit.Writable)
    (hplace : edit.path.isName = false)
    (hkeyed : ∀ table name constraint, span.after.constraint? table name = some constraint →
      constraint.name = name)
    {statements : List Statement} (hstatements : editStatements span edit = .ok statements) :
    ∀ statement ∈ statements, statement.StaysWith edit.path.owner := by
  cases edit with
  | putTable name table =>
    cases hstatements
    intro statement hmem
    rcases List.mem_append.1 hmem with hmem | hmem
    · rw [mem_onlyIf hmem]
      exact dropTable_staysWith name
    · exact putTable_staysWith hedit.2 hmem
  | removeTable name =>
    cases hstatements
    intro statement hmem
    rw [List.mem_singleton.1 hmem]
    exact dropTable_staysWith name
  | table name change =>
    obtain ⟨part, hpart⟩ : ∃ part, change.spot.part? = some part := by
      cases change <;> exact ⟨_, rfl⟩
    exact fun statement hmem =>
      (tableStatements_staysIn hpart hplace hedit.2 (hkeyed name) hstatements statement
        hmem).staysWith
  | putEnum name type =>
    cases hstatements
    cases hedit.2
    intro statement hmem
    rcases List.mem_append.1 hmem with hmem | hmem
    · rw [mem_onlyIf hmem]
      exact type_staysWith rfl fun object hobject => by
        simp [Statement.touches, Statement.decides?, Statement.named?, hobject]
    · rw [List.mem_singleton.1 hmem]
      exact type_staysWith rfl fun object hobject => by
        simp [Statement.touches, Statement.decides?, hobject]
  | removeEnum name =>
    cases hstatements
    intro statement hmem
    rw [List.mem_singleton.1 hmem]
    exact type_staysWith rfl fun object hobject => by
      simp [Statement.touches, Statement.decides?, Statement.named?, hobject]
  | enumType name change =>
    have hspot : change.spot ≠ .field .name := by
      intro hspot
      rw [Edit.path, hspot] at hplace
      cases hplace
    intro statement hmem
    obtain ⟨hrenames, hsilent⟩ := enumStatements_silent hspot hstatements statement hmem
    exact .of_silent hrenames hsilent
  | putExtension name extension =>
    cases hstatements
    intro statement hmem
    rcases List.mem_append.1 hmem with hmem | hmem
    · rw [mem_onlyIf hmem]
      exact .of_silent rfl fun _ => rfl
    · rw [List.mem_singleton.1 hmem]
      exact .of_silent rfl fun _ => rfl
  | removeExtension name =>
    cases hstatements
    intro statement hmem
    rw [List.mem_singleton.1 hmem]
    exact .of_silent rfl fun _ => rfl
  | extension name change => exact extensionStatements_staysWith hstatements _
  | hint => exact absurd rfl hedit.1

end SchemaEvolution.Sql
