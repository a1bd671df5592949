import SchemaEvolution.Proofs.Splitting
import SchemaEvolution.Proofs.Sql.Additions

/-!
# Foreign keys wait for the rest

A migration adds the foreign keys that are new or differ, as they are in the end.  The statements
that do so stand behind all others, so that they find the tables, columns and keys that they need.
-/

namespace SchemaEvolution.Sql

open Patch (Operation TablePart arranged changesOf ownerRemovals ownerChanges partRemovals
  partChanges)

theorem isForeignKey_addConstraint {table : String} {constraint : Constraint}
    (hkind : constraint.rule.kind ≠ "FOREIGN KEY") :
    (addConstraint table constraint).isForeignKey = false := by
  obtain ⟨name, rule⟩ := constraint
  cases rule with
  | foreignKey key => exact absurd rfl hkind
  | primaryKey | unique | check => rfl

theorem mem_iff_of_filter_eq {α : Type} {keep : α → Bool} {left right : List α}
    (hfilter : left.filter keep = right.filter keep) {item : α} (hkeep : keep item = true) :
    item ∈ left ↔ item ∈ right := by
  have hmem : item ∈ left.filter keep ↔ item ∈ right.filter keep := by rw [hfilter]
  rwa [List.mem_filter, List.mem_filter, and_iff_left hkeep, and_iff_left hkeep] at hmem

theorem mem_foreignKeysLast {statement : Statement} {statements : List Statement} :
    statement ∈ foreignKeysLast statements ↔ statement ∈ statements :=
  (foreignKeysLast_perm statements).mem_iff

/-- In front of a foreign key stands all that is none. -/
theorem mem_front_of_foreignKeysLast {statements front back : List Statement}
    {key statement : Statement} (hsplit : foreignKeysLast statements = front ++ key :: back)
    (hkey : key.isForeignKey = true) (hmem : statement ∈ statements)
    (hother : statement.isForeignKey = false) : statement ∈ front := by
  have hlater : key ∉ statements.filter fun statement => !statement.isForeignKey := by
    simp [hkey]
  obtain ⟨middle, rfl, -⟩ := exists_of_not_mem_left hsplit hlater
  exact List.mem_append_left _ (List.mem_filter.2 ⟨hmem, by simp [hother]⟩)

section Migration

variable {before after : Schema} (hbefore : before.WellKeyed) (hafter : after.WellKeyed)
  (hnames : before.NoEmptyName) (hnames' : after.NoEmptyName)

include hbefore hafter hnames hnames'

/-- A statement that touches an object comes from an operation on its owner. -/
theorem mem_migration_iff_of_touches {object : Object} {statement : Statement}
    (htouch : statement.touches object = true) :
    statement ∈ (migrationBetween before after).statements ↔
      statement ∈ (arranged (ownerRemovals before after object.owner)
        (ownerChanges before after object.owner)).flatMap
          (statementsOf (spanBetween before after)) := by
  have hfilter := filter_touches_migration hbefore hafter hnames hnames' object
  rw [← filter_foreignKeysLast] at hfilter
  exact (mem_iff_of_filter_eq hfilter htouch).trans mem_foreignKeysLast

theorem mem_migration_iff_of_tableAdded {table : String} {new : Table}
    (hold : before.tables.get? table = none) (hnew : after.tables.get? table = some new)
    {object : Object} (howner : object.owner = .table table) {statement : Statement}
    (htouch : statement.touches object = true) :
    statement ∈ (migrationBetween before after).statements ↔
      statement ∈ putTableStatements table new := by
  rw [mem_migration_iff_of_touches hbefore hafter hnames hnames' htouch, howner, ownerRemovals,
    ownerChanges, hold, hnew]
  simp only [changesOf]
  rw [Patch.arranged_adds _ (.add _ _), List.nil_append, List.flatMap_singleton,
    statementsOf_tableAdded hafter hnames' hold hnew]

/-- In a table of both schemas a statement that touches an entry comes from an operation on it. -/
theorem mem_migration_iff_of_tableKept {table : String} {old new : Table}
    (hold : before.tables.get? table = some old) (hnew : after.tables.get? table = some new)
    {object : Object} (howner : object.owner = .table table) {part : TablePart}
    (hpart : object.part? = some part) {statement : Statement}
    (htouch : statement.touches object = true) :
    statement ∈ (migrationBetween before after).statements ↔
      statement ∈ (arranged (partRemovals table old new part)
        (partChanges table old new part)).flatMap (statementsOf (spanBetween before after)) := by
  have hfilter := filter_touches_of_part hbefore hafter hnames hnames' hold hnew hpart
  rw [mem_migration_iff_of_touches hbefore hafter hnames hnames' htouch, howner, ownerRemovals,
    ownerChanges, hold, hnew]
  exact mem_iff_of_filter_eq hfilter htouch

/-! ## Tables, columns and constraints -/

theorem createTable_mem_migration {table : String} {new : Table}
    (hold : before.tables.get? table = none) (hnew : after.tables.get? table = some new) :
    .createTable new ∈ (migrationBetween before after).statements := by
  have hname : new.name = table := hafter.1.of_get? hnew
  have htouch : (Statement.createTable new).touches (.table table) = true := by
    simp [Statement.touches, Statement.decides?, Object.table?, hname]
  rw [mem_migration_iff_of_tableAdded hbefore hafter hnames hnames' hold hnew rfl htouch]
  exact List.mem_append_left _ List.mem_cons_self

/-- A column that only the new table has is added in the migration. -/
theorem addColumn_mem_migration {table : String} {old new : Table}
    (hold : before.tables.get? table = some old) (hnew : after.tables.get? table = some new)
    {column : Column} (habsent : old.columns.get? column.name = none)
    (hvalue : new.columns.get? column.name = some column) :
    .alterTable table (.addColumn column) ∈ (migrationBetween before after).statements := by
  have htouch : (Statement.alterTable table (.addColumn column)).touches
      (.column table column.name) = true := Statement.touches_of_named rfl
  rw [mem_migration_iff_of_tableKept hbefore hafter hnames hnames' hold hnew rfl rfl htouch,
    partRemovals, partChanges, habsent, hvalue]
  simp only [changesOf]
  rw [Patch.arranged_adds _ (.add _ _), List.mem_flatMap]
  refine ⟨_, List.mem_append_right _ List.mem_cons_self, ?_⟩
  rw [statementsOf_columnAdded hnames' hafter hold hnew hvalue habsent]
  exact List.mem_cons_self

section Kept

variable {table : String} {old new : Table} (hold : before.tables.get? table = some old)
  (hnew : after.tables.get? table = some new)

include hold hnew

/-- A constraint that differs is added again, as it is in the end. -/
theorem addConstraint_mem_constraintChanges_iff {name : String} {previous value : Constraint}
    (hprevious : old.constraints.get? name = some previous)
    (hvalue : new.constraints.get? name = some value)
    (hkind : previous.rule.kind = value.rule.kind) {constraint : Constraint} :
    addConstraint table constraint ∈ (Patch.constraintChanges table name previous value).flatMap
        (statementsOf (spanBetween before after)) ↔
      value = constraint ∧ previous ≠ constraint := by
  have hops := constraintChanges_statements hbefore hafter hnames hnames' hnew hvalue hkind
  rw [List.mem_flatMap]
  constructor
  · rintro ⟨op, hop, hmem⟩
    rw [hops op hop] at hmem
    obtain rfl : constraint = value := by simpa [recreation, addConstraint] using hmem
    refine ⟨rfl, ?_⟩
    rintro rfl
    rw [Patch.constraintChanges_of_beq table name BEq.rfl] at hop
    cases hop
  · rintro ⟨rfl, hne⟩
    have hname : previous.name = value.name :=
      ((hbefore.2.2.2.of_get? hold).2.2.of_get? hprevious).trans
        ((hafter.2.2.2.of_get? hnew).2.2.of_get? hvalue).symm
    have hsome : Patch.constraintChanges table name previous value ≠ [] := fun hnone =>
      hne (beq_iff_eq.1 ((Patch.constraintChanges_eq_nil_iff table name hname).1 hnone))
    obtain ⟨op, hop⟩ := List.exists_mem_of_ne_nil _ hsome
    refine ⟨op, hop, ?_⟩
    rw [hops op hop]
    exact List.mem_cons_of_mem _ List.mem_cons_self

/-- A table of both schemas is given the constraints that are new or differ, as they are in the
end. -/
theorem addConstraint_mem_tableKept_iff {constraint : Constraint} :
    addConstraint table constraint ∈ (migrationBetween before after).statements ↔
      new.constraints.get? constraint.name = some constraint ∧
        old.constraints.get? constraint.name ≠ some constraint := by
  have htouch : (addConstraint table constraint).touches (.constraint table constraint.name) =
    true := Statement.touches_of_named rfl
  have hadded (replaced : Bool) (name : String) (value : Constraint) :
      addConstraint table constraint ∈
        onlyIf replaced (.alterTable table (.dropConstraint name)) ++ [addConstraint table value] ↔
      value = constraint := by
    cases replaced <;> simp [onlyIf, addConstraint, eq_comm]
  rw [mem_migration_iff_of_tableKept hbefore hafter hnames hnames' hold hnew rfl rfl htouch,
    Patch.arranged_partChanges, Patch.partSlice, partRemovals, partChanges]
  generalize constraint.name = name
  cases hprevious : old.constraints.get? name with
  | none =>
    cases hvalue : new.constraints.get? name with
    | none => simp [Patch.constraintRemoval, changesOf]
    | some value =>
      simp only [Patch.constraintRemoval, changesOf]
      rw [List.nil_append, List.flatMap_singleton,
        statementsOf_constraintAdded hafter hnames' hold hnew hvalue, hadded]
      simp
  | some previous =>
    cases hvalue : new.constraints.get? name with
    | none =>
      simp only [Patch.constraintRemoval, changesOf]
      rw [List.append_nil, List.flatMap_singleton,
        statementsOf_constraintRemoved hnames hold hprevious]
      simp [addConstraint]
    | some value =>
      simp only [Patch.constraintRemoval, changesOf]
      by_cases hkind : previous.rule.kind = value.rule.kind
      · rw [if_neg (by simp [hkind]), List.nil_append,
          addConstraint_mem_constraintChanges_iff hbefore hafter hnames hnames' hold hnew hprevious
            hvalue hkind]
        simp
      -- the constraint is removed as one of a kind and put as one of another
      · have hne : value = constraint → previous ≠ constraint := by
          rintro rfl rfl
          exact hkind rfl
        rw [if_pos (by simpa using Ne.symm hkind), List.flatMap_append, List.flatMap_singleton,
          Patch.constraintChanges_of_kind_ne table name hkind, List.flatMap_singleton,
          statementsOf_constraintRemoved hnames hold hprevious,
          statementsOf_constraintAdded hafter hnames' hold hnew hvalue, List.mem_append, hadded]
        simpa [addConstraint] using hne

end Kept

/-- A new table is given the constraints that its columns do not carry. -/
theorem addConstraint_mem_tableAdded_iff {table : String} {new : Table}
    (hold : before.tables.get? table = none) (hnew : after.tables.get? table = some new)
    {constraint : Constraint} :
    addConstraint table constraint ∈ (migrationBetween before after).statements ↔
      constraint ∈ new.constraints.values ∧ new.isInline constraint = false := by
  have htouch : (addConstraint table constraint).touches (.constraint table constraint.name) =
    true := Statement.touches_of_named rfl
  rw [mem_migration_iff_of_tableAdded hbefore hafter hnames hnames' hold hnew rfl htouch]
  simp [putTableStatements, addConstraint]

/-- A migration adds the constraints that are new or differ, as they are in the end, but for those
that the columns of a new table carry. -/
theorem addConstraint_mem_migration_iff {table : String} {constraint : Constraint} :
    addConstraint table constraint ∈ (migrationBetween before after).statements ↔
      after.constraint? table constraint.name = some constraint ∧
        before.constraint? table constraint.name ≠ some constraint ∧
        (before.tables.get? table = none →
          ∀ new ∈ after.tables.get? table, new.isInline constraint = false) := by
  cases hnew : after.tables.get? table with
  | none =>
    have htouch : (addConstraint table constraint).touches (.constraint table constraint.name) =
      true := Statement.touches_of_named rfl
    rw [mem_migration_iff_of_touches hbefore hafter hnames hnames' htouch, Object.owner,
      ownerRemovals, ownerChanges, hnew]
    cases hold : before.tables.get? table with
    | none => simp [arranged, changesOf, Schema.constraint?, hnew]
    | some old =>
      change _ ∈ [Operation.remove _].flatMap _ ↔ _
      rw [List.flatMap_singleton, statementsOf_tableRemoved hnames hold]
      simp [addConstraint, Schema.constraint?, hnew]
  | some new =>
    cases hold : before.tables.get? table with
    | none =>
      have hvalue : constraint ∈ new.constraints.values ↔
          new.constraints.get? constraint.name = some constraint :=
        ⟨(hafter.2.2.2.of_get? hnew).2.2.get?_of_mem,
          fun hvalue => Keyed.mem_values_iff.2 ⟨_, hvalue⟩⟩
      rw [addConstraint_mem_tableAdded_iff hbefore hafter hnames hnames' hold hnew, hvalue]
      simp [Schema.constraint?, hold, hnew]
    | some old =>
      rw [addConstraint_mem_tableKept_iff hbefore hafter hnames hnames' hold hnew]
      simp [Schema.constraint?, hold, hnew]

theorem addConstraint_mem_migration {table : String} {new : Table}
    (hnew : after.tables.get? table = some new) {constraint : Constraint}
    (hvalue : new.constraints.get? constraint.name = some constraint)
    (hdiffers : before.constraint? table constraint.name ≠ some constraint)
    (hapart : before.tables.get? table = none → new.isInline constraint = false) :
    addConstraint table constraint ∈ (migrationBetween before after).statements := by
  refine (addConstraint_mem_migration_iff hbefore hafter hnames hnames').2 ⟨?_, hdiffers, ?_⟩
  · rw [Schema.constraint?, hnew]
    exact hvalue
  · intro hold other hother
    cases hnew.symm.trans hother
    exact hapart hold

/-- The statements that add foreign keys stand behind all others of a migration: behind those that
create the new tables, add the new columns, and add or recreate the other constraints.  They are the
foreign keys that are new or differ, as they are in the end. -/
theorem foreignKeys_last :
    (∀ table name key,
      addConstraint table (.foreignKey name key) ∈ (migrationBetween before after).statements ↔
        after.constraint? table name = some (.foreignKey name key) ∧
          before.constraint? table name ≠ some (.foreignKey name key)) ∧
    ∀ front key back, (migrationBetween before after).statements = front ++ key :: back →
      key.isForeignKey = true →
      (∀ statement ∈ (migrationBetween before after).statements,
        statement.isForeignKey = false → statement ∈ front) ∧
      (∀ table new, before.tables.get? table = none → after.tables.get? table = some new →
        .createTable new ∈ front) ∧
      (∀ table old new column, before.tables.get? table = some old →
        after.tables.get? table = some new → old.columns.get? column.name = none →
        new.columns.get? column.name = some column →
        .alterTable table (.addColumn column) ∈ front) ∧
      ∀ table new constraint, after.tables.get? table = some new →
        new.constraints.get? constraint.name = some constraint →
        before.constraint? table constraint.name ≠ some constraint →
        constraint.rule.kind ≠ "FOREIGN KEY" →
        addConstraint table constraint ∈ front ∨
          before.tables.get? table = none ∧ new.isInline constraint = true ∧
            .createTable new ∈ front := by
  refine ⟨fun table name key => ?_, fun front key back hsplit hkey => ?_⟩
  · refine (addConstraint_mem_migration_iff hbefore hafter hnames hnames').trans ?_
    exact and_congr_right fun _ => and_iff_left fun _ _ _ => rfl
  · have hfront {statement : Statement}
        (hmem : statement ∈ (migrationBetween before after).statements)
        (hother : statement.isForeignKey = false) : statement ∈ front := by
      rw [migrationBetween, migration_statements] at hsplit hmem
      exact mem_front_of_foreignKeysLast hsplit hkey (mem_foreignKeysLast.1 hmem) hother
    have hcreate {table : String} {new : Table} (hold : before.tables.get? table = none)
        (hnew : after.tables.get? table = some new) : .createTable new ∈ front :=
      hfront (createTable_mem_migration hbefore hafter hnames hnames' hold hnew) rfl
    refine ⟨fun statement => hfront, fun table new => hcreate, ?_, ?_⟩
    · intro table old new column hold hnew habsent hvalue
      exact hfront
        (addColumn_mem_migration hbefore hafter hnames hnames' hold hnew habsent hvalue) rfl
    · intro table new constraint hnew hvalue hdiffers hkind
      by_cases hcarried : before.tables.get? table = none ∧ new.isInline constraint = true
      · exact .inr ⟨hcarried.1, hcarried.2, hcreate hcarried.1 hnew⟩
      · have hmem := addConstraint_mem_migration hbefore hafter hnames hnames' hnew hvalue hdiffers
          fun hold => by simpa [hold] using hcarried
        exact .inl (hfront hmem (isForeignKey_addConstraint hkind))

end Migration

/-- A unique constraint that becomes a foreign key is added again when nothing else is left. -/
theorem foreignKeys_last_slashed :
    let key : Rule := .foreignKey ⟨["id"], "a/~b", ["id"], .cascade, .noAction⟩
    let before := Patch.slashed (.unique ["id"])
    let after := Patch.slashed key
    (before.WellKeyed ∧ after.WellKeyed ∧ before.NoEmptyName ∧ after.NoEmptyName) ∧
    ∃ front back, (migrationBetween before after).statements =
        front ++ addConstraint "a/~b" ⟨"key", key⟩ :: back ∧
      ∀ statement ∈ (migrationBetween before after).statements,
        statement.isForeignKey = false → statement ∈ front := by
  intro key before after
  have hhyps : before.WellKeyed ∧ after.WellKeyed ∧ before.NoEmptyName ∧ after.NoEmptyName := by
    decide
  obtain ⟨hbefore, hafter, hnames, hnames'⟩ := hhyps
  obtain ⟨hadds, hlast⟩ := foreignKeys_last hbefore hafter hnames hnames'
  obtain ⟨front, back, hsplit⟩ :=
    List.append_of_mem ((hadds "a/~b" "key" _).2 ⟨rfl, by decide⟩)
  exact ⟨⟨hbefore, hafter, hnames, hnames'⟩, front, back, hsplit, (hlast front _ back hsplit rfl).1⟩

end SchemaEvolution.Sql
