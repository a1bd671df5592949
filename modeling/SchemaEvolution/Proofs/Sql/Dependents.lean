import Mathlib.Data.List.Basic
import Mathlib.Logic.Function.Basic
import SchemaEvolution.Proofs.Schema.WellKeyed
import SchemaEvolution.Sql.Statement

/-!
# What a script leaves in place

A table can not be dropped while a foreign key of another table refers to it, nor a type while a
column has it.  So of the state that a script has reached the foreign keys and the types of
columns are kept, each under the name of its table and its own.  A foreign key goes with its
table, with any of its columns, or alone.
-/

namespace SchemaEvolution

/-- What a foreign key depends on: columns of its own table, and another table. -/
structure Reference where
  columns : List String
  target : String
  deriving DecidableEq

def Rule.reference? : Rule → Option Reference
  | .foreignKey key => some ⟨key.columns, key.targetTable⟩
  | _ => none

theorem Rule.reference?_eq_none_iff {rule : Rule} :
    rule.reference? = none ↔ rule.kind ≠ "FOREIGN KEY" := by
  cases rule <;> simp [reference?, kind]

namespace Sql

open Function (update)

/-- The foreign keys of tables and the types of their columns, by table and name. -/
structure Dependents where
  key? : String → String → Option SchemaEvolution.Reference
  type? : String → String → Option String

namespace Dependents

/-- What is under one name goes to another. -/
def renamed {α : Type} [Inhabited α] (source target : String) (entries : String → α) :
    String → α :=
  update (update entries source default) target (entries source)

/-- The new name of what was renamed, and the name of everything else. -/
def newName (source target name : String) : String := if name = source then target else name

def ofSchema (schema : Schema) : Dependents where
  key? table name :=
    (schema.constraint? table name).bind fun constraint => constraint.rule.reference?
  type? table name :=
    ((schema.tables.get? table).bind fun owner => owner.columns.get? name).map Column.type

/-- The table that a foreign key refers to. -/
def target? (state : Dependents) (table name : String) : Option String :=
  (state.key? table name).map SchemaEvolution.Reference.target

def setKeys (state : Dependents) (table : String)
    (keys : String → Option SchemaEvolution.Reference) : Dependents :=
  { state with key? := update state.key? table keys }

def setTypes (state : Dependents) (table : String) (types : String → Option String) :
    Dependents :=
  { state with type? := update state.type? table types }

def alter (state : Dependents) (table : String) : Alteration → Dependents
  | .rename name =>
    let moved := renamed table name state.key?
    { key? := fun owner key => (moved owner key).map fun reference =>
        { reference with target := newName table name reference.target }
      type? := renamed table name state.type? }
  | .addColumn column =>
    state.setTypes table (update (state.type? table) column.name (some column.type))
  | .dropColumn name =>
    (state.setTypes table (update (state.type? table) name none)).setKeys table fun key =>
      (state.key? table key).filter fun reference => !reference.columns.contains name
  | .renameColumn name target =>
    (state.setTypes table (renamed name target (state.type? table))).setKeys table fun key =>
      (state.key? table key).map fun reference =>
        { reference with columns := reference.columns.map (newName name target) }
  | .setType column type =>
    state.setTypes table
      (update (state.type? table) column ((state.type? table column).map fun _ => type))
  | .addConstraint constraint =>
    state.setKeys table (update (state.key? table) constraint.name constraint.rule.reference?)
  | .dropConstraint name => state.setKeys table (update (state.key? table) name none)
  | .renameConstraint name target => state.setKeys table (renamed name target (state.key? table))
  | .setNotNull _ | .dropNotNull _ | .setDefault _ _ | .dropDefault _ => state

/-- What a statement leaves.  A table is created with its columns, and without foreign keys. -/
def step (state : Dependents) : Statement → Dependents
  | .createTable table =>
    (state.setTypes table.name fun name =>
      (table.columns.values.find? fun column => column.name == name).map Column.type).setKeys
        table.name fun _ => none
  | .dropTable name => (state.setTypes name fun _ => none).setKeys name fun _ => none
  | .alterTable table alteration => state.alter table alteration
  | .renameType name target =>
    { state with type? := fun table column => (state.type? table column).map (newName name target) }
  | _ => state

def run (state : Dependents) (statements : List Statement) : Dependents :=
  statements.foldl step state

end Dependents

/-! ## Scripts that only drop -/

def Statement.isDrop : Statement → Bool
  | .alterTable _ (.dropConstraint _) | .alterTable _ (.dropColumn _) | .dropIndex _
  | .dropTable _ | .dropType _ | .dropExtension _ => true
  | _ => false

/-- The statements that take a foreign key away: with its table, alone, or with a column. -/
def keyDroppedBy (table key : String) (reference : SchemaEvolution.Reference) :
    List Statement :=
  .dropTable table :: .alterTable table (.dropConstraint key) ::
    reference.columns.map fun column => .alterTable table (.dropColumn column)

def columnDroppedBy (table column : String) : List Statement :=
  [.dropTable table, .alterTable table (.dropColumn column)]

namespace Dependents

variable {state : Dependents} {table : String}

/-- In a step that only drops, a key stays as it is unless it is among the dropped ones. -/
theorem key?_step_of_isDrop {statement : Statement} (hdrop : statement.isDrop = true)
    (key : String) (reference : SchemaEvolution.Reference) :
    (state.step statement).key? table key = some reference ↔
      state.key? table key = some reference ∧ statement ∉ keyDroppedBy table key reference := by
  cases statement with
  | dropTable name =>
    by_cases htable : table = name
    · simp [step, setKeys, keyDroppedBy, htable]
    · simp [step, setKeys, setTypes, keyDroppedBy, htable, Ne.symm htable]
  | alterTable owner alteration =>
    by_cases htable : table = owner
    · cases htable
      cases alteration with
      | dropColumn name => simp [step, alter, setKeys, keyDroppedBy]
      | dropConstraint name =>
        by_cases hkey : key = name
        · simp [step, alter, setKeys, keyDroppedBy, hkey]
        · simp [step, alter, setKeys, keyDroppedBy, hkey, Ne.symm hkey]
      | _ => cases hdrop
    · cases alteration with
      | dropColumn name =>
        simp [step, alter, setKeys, setTypes, keyDroppedBy, htable, Ne.symm htable]
      | dropConstraint name =>
        simp [step, alter, setKeys, keyDroppedBy, htable, Ne.symm htable]
      | _ => cases hdrop
  | dropType name | dropIndex name | dropExtension name => simp [step, keyDroppedBy]
  | _ => cases hdrop

/-- In a step that only drops, a column keeps its type unless it is among the dropped ones. -/
theorem type?_step_of_isDrop {statement : Statement} (hdrop : statement.isDrop = true)
    (column type : String) :
    (state.step statement).type? table column = some type ↔
      state.type? table column = some type ∧ statement ∉ columnDroppedBy table column := by
  cases statement with
  | dropTable name =>
    by_cases htable : table = name
    · simp [step, setKeys, setTypes, columnDroppedBy, htable]
    · simp [step, setKeys, setTypes, columnDroppedBy, htable, Ne.symm htable]
  | alterTable owner alteration =>
    cases alteration with
    | dropColumn name =>
      by_cases htable : table = owner
      · cases htable
        by_cases hcolumn : column = name
        · simp [step, alter, setKeys, setTypes, columnDroppedBy, hcolumn]
        · simp [step, alter, setKeys, setTypes, columnDroppedBy, hcolumn, Ne.symm hcolumn]
      · simp [step, alter, setKeys, setTypes, columnDroppedBy, htable, Ne.symm htable]
    | dropConstraint name => simp [step, alter, setKeys, columnDroppedBy]
    | _ => cases hdrop
  | dropType name | dropIndex name | dropExtension name => simp [step, columnDroppedBy]
  | _ => cases hdrop

/-- A foreign key is there after drops when none of them takes it away. -/
theorem key?_run_of_isDrop {statements : List Statement}
    (hdrops : ∀ statement ∈ statements, statement.isDrop = true) (key : String)
    (reference : SchemaEvolution.Reference) :
    (state.run statements).key? table key = some reference ↔
      state.key? table key = some reference ∧
        (keyDroppedBy table key reference).Disjoint statements := by
  induction statements generalizing state with
  | nil => simp [run]
  | cons statement rest ih =>
    rw [List.forall_mem_cons] at hdrops
    have hrest := @ih (state.step statement) hdrops.2
    rw [run, List.foldl_cons, ← run, hrest, key?_step_of_isDrop hdrops.1, List.disjoint_cons_right,
      and_assoc]

/-- A column is there after drops when none of them takes it away. -/
theorem type?_run_of_isDrop {statements : List Statement}
    (hdrops : ∀ statement ∈ statements, statement.isDrop = true) (column type : String) :
    (state.run statements).type? table column = some type ↔
      state.type? table column = some type ∧
        (columnDroppedBy table column).Disjoint statements := by
  induction statements generalizing state with
  | nil => simp [run]
  | cons statement rest ih =>
    rw [List.forall_mem_cons] at hdrops
    have hrest := @ih (state.step statement) hdrops.2
    rw [run, List.foldl_cons, ← run, hrest, type?_step_of_isDrop hdrops.1, List.disjoint_cons_right,
      and_assoc]

end Dependents

end Sql

end SchemaEvolution
