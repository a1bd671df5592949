import SchemaEvolution.Proofs.Patch.Acceptance
import SchemaEvolution.Proofs.Patch.Edit
import SchemaEvolution.Proofs.Schema.StaysKeyed
import SchemaEvolution.Repeated

/-!
# Patches of well-keyed schemas

An operation that puts an entry gives it the name from the path, and one that renames an entry
moves it under its new name.  Only inside a table that is put as a whole are the names taken as
they come, so a patch keeps a schema well keyed exactly as long as it puts no table in which an
entry is stored under another name than its own.
-/

namespace SchemaEvolution.Patch

variable {op : Operation} {name : String}

/-- An operation in a column is read as an edit that puts a column under its own name. -/
theorem TableEdit.keepsName_of_columnEdit {spot : ColumnSpot} {edit : TableEdit}
    (hedit : op.columnEdit name spot = .ok edit) : edit.KeepsName := by
  cases spot with
  | whole =>
    simp only [Operation.columnEdit] at hedit
    split at hedit
    · cases hedit
      trivial
    · exact holds_of_bind_pure hedit fun _ => rfl
  | field field =>
    simp only [Operation.columnEdit] at hedit
    split at hedit <;> exact holds_of_bind_pure hedit fun _ => trivial

theorem TableEdit.keepsName_of_indexEdit {spot : IndexSpot} {edit : TableEdit}
    (hedit : op.indexEdit name spot = .ok edit) : edit.KeepsName := by
  cases spot with
  | whole =>
    simp only [Operation.indexEdit] at hedit
    split at hedit
    · cases hedit
      trivial
    · exact holds_of_bind_pure hedit fun _ => rfl
  | field field =>
    simp only [Operation.indexEdit] at hedit
    split at hedit <;> exact holds_of_bind_pure hedit fun _ => trivial
  | item position =>
    exact holds_of_bind_pure hedit fun _ => trivial

theorem TableEdit.keepsName_of_constraintEdit {spot : ConstraintSpot} {edit : TableEdit}
    (hedit : op.constraintEdit name spot = .ok edit) : edit.KeepsName := by
  cases spot with
  | whole =>
    simp only [Operation.constraintEdit] at hedit
    split at hedit
    · cases hedit
      trivial
    · exact holds_of_bind_pure hedit fun _ => rfl
  | field field =>
    simp only [Operation.constraintEdit] at hedit
    split at hedit <;> exact holds_of_bind_pure hedit fun _ => trivial
  | item list position =>
    exact holds_of_bind_pure hedit fun _ => trivial

/-- An operation in a table is read as an edit that puts its entry under its own name. -/
theorem Edit.keepsName_of_tableEdit {spot : TableSpot} {edit : Edit}
    (hedit : op.tableEdit name spot = .ok edit) : edit.KeepsName := by
  cases spot with
  | whole =>
    simp only [Operation.tableEdit] at hedit
    split at hedit
    · cases hedit
      trivial
    · exact holds_of_bind_pure hedit fun _ => rfl
  | field field =>
    -- a field of a table is its name or its comment, neither of which puts an entry
    simp only [Operation.tableEdit] at hedit
    split at hedit
    · cases hedit
    · cases hedit
      trivial
    · obtain ⟨change, hchange, hinside⟩ := exists_of_bind_eq_ok hedit
      obtain ⟨text, -, rfl⟩ := exists_of_map_eq_ok hchange
      cases hinside
      trivial
    · obtain ⟨change, hchange, hinside⟩ := exists_of_bind_eq_ok hedit
      obtain ⟨text, -, rfl⟩ := exists_of_map_eq_ok hchange
      cases hinside
      trivial
  | column column spot =>
    obtain ⟨change, hchange, rfl⟩ := exists_of_map_eq_ok hedit
    exact TableEdit.keepsName_of_columnEdit hchange
  | index index spot =>
    obtain ⟨change, hchange, rfl⟩ := exists_of_map_eq_ok hedit
    exact TableEdit.keepsName_of_indexEdit hchange
  | constraint constraint spot =>
    obtain ⟨change, hchange, rfl⟩ := exists_of_map_eq_ok hedit
    exact TableEdit.keepsName_of_constraintEdit hchange

theorem Edit.keepsName_of_enumEdit {spot : EnumSpot} {edit : Edit}
    (hedit : op.enumEdit name spot = .ok edit) : edit.KeepsName := by
  cases spot with
  | whole =>
    simp only [Operation.enumEdit] at hedit
    split at hedit
    · cases hedit
      trivial
    · exact holds_of_bind_pure hedit fun _ => rfl
  | field field =>
    simp only [Operation.enumEdit] at hedit
    split at hedit <;> exact holds_of_bind_pure hedit fun _ => trivial
  | item position =>
    exact holds_of_bind_pure hedit fun _ => trivial

theorem Edit.keepsName_of_extensionEdit {spot : ExtensionSpot} {edit : Edit}
    (hedit : op.extensionEdit name spot = .ok edit) : edit.KeepsName := by
  cases spot with
  | whole =>
    simp only [Operation.extensionEdit] at hedit
    split at hedit
    · cases hedit
      trivial
    · exact holds_of_bind_pure hedit fun _ => rfl
  | field field =>
    cases field with
    | schema | version | comment =>
      exact holds_of_bind_pure hedit fun _ => trivial
    | fromVersion | ifNotExists | cascade =>
      cases hedit
      trivial

/-- Whatever an operation puts has the name that the path gives it. -/
theorem Edit.keepsName_of_edit {edit : Edit} (hedit : op.edit = .ok edit) : edit.KeepsName := by
  rw [Operation.edit] at hedit
  split at hedit
  · cases hedit
  · exact keepsName_of_tableEdit hedit
  · exact keepsName_of_enumEdit hedit
  · exact keepsName_of_extensionEdit hedit

section Entries

variable {α : Type} {entries next : Keyed α} {property : String → α → Prop} {absent : Missing}

theorem holds_changeEntry (hholds : entries.Holds property) {change : α → Except Obstacle α}
    (hnext : changeEntry entries name absent change = .ok next)
    (hchange : ∀ value new, change value = .ok new → property name value → property name new) :
    next.Holds property := by
  rw [changeEntry] at hnext
  split at hnext
  · cases hnext
  · next value hvalue =>
    obtain ⟨new, hnew, hput⟩ := exists_of_bind_eq_ok hnext
    cases hput
    exact hholds.insert (hchange value new hnew (hholds name value hvalue))

/-- A property of names and values is kept by a renaming if the renamed value has it. -/
theorem holds_renameEntry (hholds : entries.Holds property) {target : String} {setName : α → α}
    (hnext : renameEntry entries name target absent setName = .ok next)
    (hname : ∀ value, property name value → property target (setName value)) :
    next.Holds property := by
  rw [renameEntry] at hnext
  split at hnext
  · cases hnext
  · split at hnext
    · cases hnext
      exact hholds
    · split at hnext
      · next renamed hrenamed =>
        cases hnext
        exact hholds.rename? hrenamed hname
      · cases hnext

end Entries

/-- An edit of an index at any place but its name keeps the name. -/
theorem IndexEdit.apply_name {edit : IndexEdit} (hspot : edit.spot ≠ .field .name)
    {index new : Index} (happly : edit.apply index = .ok new) : new.name = index.name := by
  cases edit with
  | rename name => exact absurd rfl hspot
  | unique value | type value | columns value =>
    cases happly
    rfl
  | item edit =>
    obtain ⟨columns, -, hnew⟩ := exists_of_bind_eq_ok happly
    cases hnew
    rfl

theorem ConstraintEdit.apply_name {edit : ConstraintEdit} (hspot : edit.spot ≠ .field .name)
    {constraint new : Constraint} (happly : edit.apply constraint = .ok new) :
    new.name = constraint.name := by
  cases edit with
  | rename name => exact absurd rfl hspot
  | _ =>
    obtain ⟨rule, -, hnew⟩ := exists_of_bind_eq_ok happly
    cases hnew
    rfl

theorem EnumEdit.apply_name {edit : EnumEdit} (hspot : edit.spot ≠ .field .name)
    {type new : EnumType} (happly : edit.apply type = .ok new) : new.name = type.name := by
  cases edit with
  | rename name => exact absurd rfl hspot
  | values value | comment value =>
    cases happly
    rfl
  | item edit =>
    obtain ⟨values, -, hnew⟩ := exists_of_bind_eq_ok happly
    cases hnew
    rfl

/-- An edit inside a table misnames nothing, if what it puts has the name that it is put under. -/
theorem TableEdit.staysKeyed {edit : TableEdit} (hkeeps : edit.KeepsName)
    (hspot : edit.spot ≠ .field .name) {table after : Table} {key : String}
    (happly : edit.apply table key = .ok after) : table.StaysKeyed after := by
  cases edit with
  | rename target => exact absurd rfl hspot
  | comment new =>
    cases happly
    exact Table.staysKeyed_comment table new
  | putColumn name new =>
    cases happly
    exact Table.staysKeyed_columns fun hcolumns => hcolumns.insert hkeeps
  | removeColumn name =>
    cases happly
    exact Table.staysKeyed_columns fun hcolumns => hcolumns.erase name
  | column name edit =>
    cases edit with
    | rename target =>
      obtain ⟨columns, hcolumns, hafter⟩ := exists_of_bind_eq_ok happly
      cases hafter
      exact Table.staysKeyed_columns fun hholds =>
        holds_renameEntry hholds hcolumns fun column _ => rfl
    | type _ | default _ | check _ | notNull _ | comment _ =>
      obtain ⟨columns, hcolumns, hafter⟩ := exists_of_bind_eq_ok happly
      cases hafter
      refine Table.staysKeyed_columns fun hholds => holds_changeEntry hholds hcolumns ?_
      intro column new hnew hname
      cases hnew
      exact hname
  | putIndex name new =>
    cases happly
    exact Table.staysKeyed_indexes fun hindexes => hindexes.insert hkeeps
  | removeIndex name =>
    cases happly
    exact Table.staysKeyed_indexes fun hindexes => hindexes.erase name
  | index name edit =>
    cases edit with
    | rename target =>
      obtain ⟨indexes, hindexes, hafter⟩ := exists_of_bind_eq_ok happly
      cases hafter
      exact Table.staysKeyed_indexes fun hholds =>
        holds_renameEntry hholds hindexes fun index _ => rfl
    | unique _ | type _ | columns _ | item _ =>
      obtain ⟨indexes, hindexes, hafter⟩ := exists_of_bind_eq_ok happly
      cases hafter
      exact Table.staysKeyed_indexes fun hholds =>
        holds_changeEntry hholds hindexes fun index new hnew hname =>
          (IndexEdit.apply_name (by simp [IndexEdit.spot]) hnew).trans hname
  | putConstraint name new =>
    cases happly
    exact Table.staysKeyed_constraints fun hconstraints => hconstraints.insert hkeeps
  | removeConstraint name =>
    cases happly
    exact Table.staysKeyed_constraints fun hconstraints => hconstraints.erase name
  | constraint name edit =>
    cases edit with
    | rename target =>
      obtain ⟨constraints, hconstraints, hafter⟩ := exists_of_bind_eq_ok happly
      cases hafter
      exact Table.staysKeyed_constraints fun hholds =>
        holds_renameEntry hholds hconstraints fun constraint _ => rfl
    | onUpdate _ | onDelete _ | condition _ | targetTable _ | columns _ | targetColumns _
    | item _ _ =>
      obtain ⟨constraints, hconstraints, hafter⟩ := exists_of_bind_eq_ok happly
      cases hafter
      exact Table.staysKeyed_constraints fun hholds =>
        holds_changeEntry hholds hconstraints fun constraint new hnew hname =>
          (ConstraintEdit.apply_name (by simp [ConstraintEdit.spot]) hnew).trans hname

section Schemas

variable {schema next : Schema} {inside : Table → Prop}

/-- An edit keeps what is true inside every table, if that is kept by changes which misname
nothing and if it is true inside the table that the edit puts. -/
theorem Edit.keyedWith {edit : Edit}
    (hinside : ∀ before after : Table, (before.WellKeyed → after.WellKeyed) →
      inside before → inside after)
    (hkeeps : edit.KeepsName) (hputs : ∀ name table, edit = .putTable name table → inside table)
    (hkeyed : schema.KeyedWith inside) (happly : edit.apply schema = .ok next) :
    next.KeyedWith inside := by
  obtain ⟨htables, henums, hextensions⟩ := hkeyed
  cases edit with
  | putTable name new =>
    cases happly
    exact ⟨htables.insert ⟨hkeeps, hputs name new rfl⟩, henums, hextensions⟩
  | removeTable name =>
    cases happly
    exact ⟨htables.erase name, henums, hextensions⟩
  | table name edit =>
    by_cases hspot : edit.spot = .field .name
    · obtain ⟨target, rfl⟩ : ∃ target, edit = .rename target := by
        cases edit with
        | rename target => exact ⟨target, rfl⟩
        | _ => simp [TableEdit.spot] at hspot
      obtain ⟨tables, hrenamed, hnext⟩ := exists_of_bind_eq_ok happly
      cases hnext
      refine ⟨holds_renameEntry htables hrenamed fun table htable => ?_, henums, hextensions⟩
      exact ⟨rfl, hinside table _ id htable.2⟩
    · rw [Edit.apply] at happly
      · split at happly
        · cases happly
          exact ⟨htables, henums, hextensions⟩
        · obtain ⟨tables, hchanged, hnext⟩ := exists_of_bind_eq_ok happly
          cases hnext
          refine ⟨holds_changeEntry htables hchanged fun table new hnew htable => ?_, henums,
            hextensions⟩
          have hstays := edit.staysKeyed hkeeps hspot hnew
          exact ⟨hstays.name.trans htable.1, hinside table new hstays.wellKeyed htable.2⟩
      · rintro target rfl
        exact hspot rfl
  | putEnum name new =>
    cases happly
    exact ⟨htables, henums.insert hkeeps, hextensions⟩
  | removeEnum name =>
    cases happly
    exact ⟨htables, henums.erase name, hextensions⟩
  | enumType name edit =>
    cases edit with
    | rename target =>
      obtain ⟨enums, hrenamed, hnext⟩ := exists_of_bind_eq_ok happly
      cases hnext
      exact ⟨htables, holds_renameEntry henums hrenamed fun type _ => rfl, hextensions⟩
    | values _ | comment _ | item _ =>
      obtain ⟨enums, hchanged, hnext⟩ := exists_of_bind_eq_ok happly
      cases hnext
      refine ⟨htables, holds_changeEntry henums hchanged fun type new hnew hname => ?_,
        hextensions⟩
      exact (EnumEdit.apply_name (by simp [EnumEdit.spot]) hnew).trans hname
  | putExtension name new =>
    cases happly
    exact ⟨htables, henums, hextensions.insert hkeeps⟩
  | removeExtension name =>
    cases happly
    exact ⟨htables, henums, hextensions.erase name⟩
  | extension name edit =>
    obtain ⟨extensions, hchanged, hnext⟩ := exists_of_bind_eq_ok happly
    cases hnext
    refine ⟨htables, henums, holds_changeEntry hextensions hchanged ?_⟩
    intro extension new hnew hname
    cases hnew
    cases edit <;> exact hname
  | hint =>
    cases happly
    exact ⟨htables, henums, hextensions⟩

/-! ## Runs -/

/-- The operation puts a table in which an entry is stored under another name than its own. -/
def Operation.PutsMisnamed (op : Operation) : Prop :=
  ∃ name table, op.edit = .ok (.putTable name table) ∧ ¬ table.WellKeyed

theorem Operation.apply_eq_ok_iff {op : Operation} :
    op.apply schema = .ok next ↔ ∃ edit, op.edit = .ok edit ∧ edit.apply schema = .ok next := by
  rw [Operation.apply]
  cases op.edit with
  | error obstacle => simp [bind, Except.bind, Except.mapError]
  | ok edit =>
    simp only [bind, Except.bind, Except.ok.injEq, exists_eq_left']
    cases edit.apply schema <;> simp [Except.mapError]

/-- A run keeps what holds inside of tables if every table that it puts has it. -/
theorem keyedWith_applyAll
    (hinside : ∀ before after : Table, (before.WellKeyed → after.WellKeyed) →
      inside before → inside after)
    {ops : List Operation}
    (hputs : ∀ op ∈ ops, ∀ name table, op.edit = .ok (.putTable name table) → inside table)
    (hkeyed : schema.KeyedWith inside) : (applyAll schema ops).schema.KeyedWith inside := by
  induction ops generalizing schema with
  | nil => exact hkeyed
  | cons op rest ih =>
    have hrest := fun other hmem => hputs other (List.mem_cons_of_mem _ hmem)
    cases happly : op.apply schema with
    | error refusal =>
      rw [applyAll_cons_of_error happly]
      exact ih hrest hkeyed
    | ok next =>
      rw [applyAll_cons_of_ok happly]
      obtain ⟨edit, hedit, hnext⟩ := Operation.apply_eq_ok_iff.1 happly
      refine ih hrest (Edit.keyedWith hinside (Edit.keepsName_of_edit hedit) ?_ hkeyed hnext)
      rintro name table rfl
      exact hputs op List.mem_cons_self name table hedit

/-- A table with misnamed entries is put whatever the schema. -/
theorem Operation.PutsMisnamed.not_wellKeyed {op : Operation} (hputs : op.PutsMisnamed)
    (schema : Schema) : ¬ (applyAll schema [op]).schema.WellKeyed := by
  obtain ⟨name, table, hedit, htable⟩ := hputs
  have happly : op.apply schema = .ok { schema with tables := schema.tables.insert name table } :=
    Operation.apply_eq_ok_iff.2 ⟨_, hedit, rfl⟩
  rw [applyAll_cons_of_ok happly, applyAll_nil]
  intro hkeyed
  exact htable (hkeyed.table ((Keyed.get?_insert ..).trans (if_pos rfl)))

/-- A patch keeps tables, enumerated types and extensions under their own names.  It keeps the
schema well keyed at every level, all along the run, exactly when no operation puts a table in
which an entry is stored under another name than its own. -/
theorem wellKeyed_applyAll_iff (hkeyed : schema.WellKeyed) (ops : List Operation) :
    ((applyAll schema ops).schema.tables.Named Table.name ∧
      (applyAll schema ops).schema.enums.Named EnumType.name ∧
      (applyAll schema ops).schema.extensions.Named Extension.name) ∧
    ((∀ front, front <+: ops → (applyAll schema front).schema.WellKeyed) ↔
      ∀ op ∈ ops, ¬ op.PutsMisnamed) := by
  refine ⟨?_, ?_, ?_⟩
  · have houter : (applyAll schema ops).schema.KeyedWith fun _ => True := by
      refine keyedWith_applyAll (fun _ _ _ _ => trivial) (fun _ _ _ _ _ => trivial) ?_
      obtain ⟨htables, henums, hextensions, -⟩ := hkeyed
      exact (schema.keyedWith_iff _).2 ⟨htables, henums, hextensions, fun _ _ => trivial⟩
    obtain ⟨htables, henums, hextensions, -⟩ := (Schema.keyedWith_iff _ _).1 houter
    exact ⟨htables, henums, hextensions⟩
  · intro hruns op hmem hputs
    obtain ⟨front, back, rfl⟩ := List.append_of_mem hmem
    have hprefix : front ++ [op] <+: front ++ op :: back := ⟨back, by simp⟩
    have hrun := hruns (front ++ [op]) hprefix
    rw [applyAll_append] at hrun
    exact hputs.not_wellKeyed (applyAll schema front).schema hrun
  · intro hputs front hfront
    rw [Schema.wellKeyed_iff_keyedWith] at hkeyed ⊢
    refine keyedWith_applyAll (fun before after hstays => hstays) ?_ hkeyed
    intro op hmem name table hedit
    by_contra htable
    exact hputs op (hfront.subset hmem) ⟨name, table, hedit, htable⟩

end Schemas

/-- A table whose column is stored under another name than its own. -/
def misnamedTable : Table :=
  { Table.empty "t" with columns := (∅ : Keyed Column).insert "id" (.plain "other" "bigint") }

/-- The operation that puts such a table is accepted, and the schema is not well keyed any more. -/
theorem not_wellKeyed_putTable :
    Schema.empty.WellKeyed ∧
    (applyAll .empty [(Edit.putTable "t" misnamedTable).operation]).refusals = [] ∧
    ¬ (applyAll .empty [(Edit.putTable "t" misnamedTable).operation]).schema.WellKeyed := by
  have hedit : (Edit.putTable "t" misnamedTable).operation.edit =
      .ok (.putTable "t" misnamedTable) := Edit.edit_operation ⟨⟨by decide, trivial⟩, rfl⟩
  have hempty : Schema.empty.WellKeyed := Schema.wellKeyed_empty
  have happly : (Edit.putTable "t" misnamedTable).operation.apply .empty =
      .ok { Schema.empty with tables := Schema.empty.tables.insert "t" misnamedTable } :=
    Operation.apply_eq_ok_iff.2 ⟨_, hedit, rfl⟩
  refine ⟨hempty, by rw [applyAll_cons_of_ok happly, applyAll_nil], fun hkeyed => ?_⟩
  have hruns := (wellKeyed_applyAll_iff hempty [(Edit.putTable "t" misnamedTable).operation]).2
  refine hruns.1 ?_ _ List.mem_cons_self ⟨"t", misnamedTable, hedit, by decide⟩
  intro front hfront
  rcases List.prefix_cons_iff.1 hfront with rfl | ⟨rest, rfl, hrest⟩
  · exact hempty
  · rw [List.prefix_nil.1 hrest]
    exact hkeyed

end SchemaEvolution.Patch
