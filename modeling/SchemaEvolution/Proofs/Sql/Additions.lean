import Mathlib.Data.List.Perm.Basic
import SchemaEvolution.Proofs.Patch.Growth
import SchemaEvolution.Proofs.Sql.Contribution
import SchemaEvolution.Proofs.Sql.RoundTrip
import SchemaEvolution.Proofs.Sql.Safety

/-!
# Migrations that only add

Where the difference of two schemas only adds, every operation has statements: they create what
is new, in the order of the new schema, and foreign keys wait until the end.  From the empty
schema these are the statements that the whole schema is exported as.
-/

namespace SchemaEvolution.Sql

open Patch (Edit Operation EditsIn AllOf diff changes)

/-- The edit puts a whole entry under a name. -/
def Puts : Edit → Prop
  | .putTable _ _ | .putEnum _ _ | .putExtension _ _ => True
  | .table _ (.putColumn _ _) | .table _ (.putIndex _ _) | .table _ (.putConstraint _ _) => True
  | _ => False

theorem Puts.supported {span : Span} {edit : Edit} (hputs : Puts edit) :
    ¬Unsupported span edit := by
  cases edit with
  | table name change => cases change <;> first | exact id | cases hputs
  | putTable | putEnum | putExtension => exact id
  | _ => cases hputs

theorem putsWhenAdded_of_replacements {property : Edit → Prop} {ops : List Operation}
    (hedits : EditsIn property ops) (hverbs : AllOf .replace ops) :
    EditsIn (fun edit => edit.operation.verb = .add → Puts edit) ops := by
  intro op hop
  obtain ⟨edit, rfl, hwritable, -⟩ := hedits op hop
  refine ⟨edit, rfl, hwritable, fun hadd => ?_⟩
  cases (hverbs _ hop).symm.trans hadd

section Puts

variable {old new : Schema} (hnames : new.NoEmptyName) (hkeyed : new.WellKeyed)

include hnames hkeyed

/-- What the changes of a table add is put in as a whole. -/
theorem tableChanges_puts {name : String} {previous value : Table}
    (hvalue : new.tables.get? name = some value) :
    EditsIn (fun edit => edit.operation.verb = .add → Puts edit)
      (Patch.tableChanges name previous value) := by
  have htable := Keyed.ne_empty_of_get? hnames.1 hvalue
  have hentries := hnames.2.2.2.of_get? hvalue
  have hnamed := hkeyed.2.2.2.of_get? hvalue
  refine (((EditsIn.append ?_ (.entryChanges ?_ ?_)).append (.entryChanges ?_ ?_))).append
    (.entryChanges ?_ ?_)
  · exact .replaceField (.table name (.comment value.comment)) rfl ⟨⟨htable, trivial⟩, trivial⟩
      nofun
  · exact fun key column hcolumn => .singleton (.table name (.putColumn key column))
      ⟨⟨htable, Keyed.ne_empty_of_get? hentries.1 hcolumn⟩, hnamed.1.of_get? hcolumn⟩
      fun _ => trivial
  · intro key before after _ hafter
    exact putsWhenAdded_of_replacements (Patch.columnChanges_edits htable
      (Keyed.ne_empty_of_get? hentries.1 hafter) before after) (Patch.columnChanges_verbs _ _ _ _)
  · exact fun key index hindex => .singleton (.table name (.putIndex key index))
      ⟨⟨htable, Keyed.ne_empty_of_get? hentries.2.1 hindex, trivial⟩, hnamed.2.1.of_get? hindex⟩
      fun _ => trivial
  · intro key before after _ hafter
    exact putsWhenAdded_of_replacements (Patch.indexChanges_edits htable
      (Keyed.ne_empty_of_get? hentries.2.1 hafter) before after) (Patch.indexChanges_verbs _ _ _ _)
  · exact fun key constraint hconstraint =>
      .singleton (.table name (.putConstraint key constraint))
        ⟨⟨htable, Keyed.ne_empty_of_get? hentries.2.2 hconstraint, trivial⟩,
          hnamed.2.2.of_get? hconstraint⟩ fun _ => trivial
  · intro key before after _ hafter
    have hkey := Keyed.ne_empty_of_get? hentries.2.2 hafter
    have hname := hnamed.2.2.of_get? hafter
    by_cases hkind : before.rule.kind = after.rule.kind
    · exact putsWhenAdded_of_replacements
        (Patch.constraintChanges_edits htable hkey before hname)
        (Patch.constraintChanges_verbs name key hkind)
    · rw [Patch.constraintChanges_of_kind_ne name key hkind]
      exact .singleton (.table name (.putConstraint key after)) ⟨⟨htable, hkey, trivial⟩, hname⟩
        fun _ => trivial

/-- What a difference adds is put as a whole. -/
theorem changes_puts :
    EditsIn (fun edit => edit.operation.verb = .add → Puts edit) (changes old new) := by
  refine (EditsIn.append (.entryChanges ?_ ?_) (.entryChanges ?_ ?_)).append
    (.entryChanges ?_ ?_)
  · exact fun name extension hextension => .singleton (.putExtension name extension)
      ⟨Keyed.ne_empty_of_get? hnames.2.2.1 hextension, hkeyed.2.2.1.of_get? hextension⟩
      fun _ => trivial
  · intro name before after _ hafter
    exact putsWhenAdded_of_replacements (Patch.extensionChanges_edits
      (Keyed.ne_empty_of_get? hnames.2.2.1 hafter) before after) (Patch.extensionChanges_verbs _ _ _)
  · exact fun name type htype => .singleton (.putEnum name type)
      ⟨⟨Keyed.ne_empty_of_get? hnames.2.1 htype, trivial⟩, hkeyed.2.1.of_get? htype⟩
      fun _ => trivial
  · intro name before after _ hafter
    exact putsWhenAdded_of_replacements (Patch.enumChanges_edits
      (Keyed.ne_empty_of_get? hnames.2.1 hafter) before after) (Patch.enumChanges_verbs _ _ _)
  · exact fun name table htable => .singleton (.putTable name table)
      ⟨⟨Keyed.ne_empty_of_get? hnames.1 htable, trivial⟩, hkeyed.1.of_get? htable⟩
      fun _ => trivial
  · exact fun name before after _ hafter => tableChanges_puts hnames hkeyed hafter

end Puts

/-- What adds a column to a table: the column and then its comment. -/
def columnAdditions (table : String) (column : Column) : List Statement :=
  .alterTable table (.addColumn column) :: columnComment table column

def tableAdditions (name : String) (old new : Table) : List Statement :=
  (old.columns.newValues new.columns).flatMap (columnAdditions name) ++
    (old.indexes.newValues new.indexes).map (.createIndex name) ++
    (old.constraints.newValues new.constraints).map (addConstraint name)

/-- What makes a table what it is to be, where it is new or has grown. -/
def additions (before : Schema) (name : String) (table : Table) : List Statement :=
  match before.tables.get? name with
  | none => putTableStatements name table
  | some old => tableAdditions name old table

/-- What makes a schema what it is to be, where it has grown. -/
def growthStatements (before after : Schema) : List Statement :=
  (before.extensions.newValues after.extensions).map .createExtension ++
    (before.enums.newValues after.enums).map .createEnum ++
    after.tables.toList.flatMap fun entry => additions before entry.1 entry.2

/-- Where entries of both collections do not change, the new ones are what counts. -/
theorem flatMap_entryChanges {α : Type} {old new : Keyed α} {added : String → α → List Operation}
    {changed : String → α → α → List Operation} {f : Operation → List Statement}
    {part : α → List Statement}
    (hadded : ∀ name value, new.get? name = some value → old.get? name = none →
      (added name value).flatMap f = part value)
    (hchanged : ∀ name previous value, old.get? name = some previous →
      new.get? name = some value → changed name previous value = []) :
    (Patch.entryChanges old new added changed).flatMap f = (old.newValues new).flatMap part := by
  rw [Patch.entryChanges, List.flatMap_assoc, Keyed.newValues, List.flatMap_map,
    Patch.flatMap_filter]
  refine List.flatMap_congr fun entry hmem => ?_
  have hvalue := Keyed.get?_eq_some_iff.2 hmem
  cases hold : old.get? entry.1 with
  | none =>
    simp only [hold, Keyed.contains]
    exact hadded entry.1 entry.2 hvalue hold
  | some previous =>
    simp only [hold, Keyed.contains, hchanged entry.1 previous entry.2 hold hvalue]
    rfl

section Statements

variable {before after : Schema} (hgrows : before.Grows after) (hnames : after.NoEmptyName)
  (hkeyed : after.WellKeyed)

include hnames hkeyed

theorem statementsOf_columnAdded {table : String} {old new : Table}
    (hold : before.tables.get? table = some old) (hnew : after.tables.get? table = some new)
    {name : String} {value : Column} (hvalue : new.columns.get? name = some value)
    (habsent : old.columns.get? name = none) :
    statementsOf (spanBetween before after)
        (.add (.table table (.column name .whole)) value.toJson) =
      columnAdditions table value := by
  have hkey : value.name = name := (hkeyed.2.2.2.of_get? hnew).1.of_get? hvalue
  have hwritable : (Edit.table table (.putColumn name value)).Writable :=
    ⟨⟨Keyed.ne_empty_of_get? hnames.1 hnew,
      Keyed.ne_empty_of_get? (hnames.2.2.2.of_get? hnew).1 hvalue⟩, hkey⟩
  exact (statementsOf_operation _ hwritable).trans (editsTo_putColumn hold hkey habsent _)

/-- The operation that adds an index to a kept table is written as the statement that creates it. -/
theorem statementsOf_indexAdded {table : String} {old new : Table}
    (hold : before.tables.get? table = some old) (hnew : after.tables.get? table = some new)
    {name : String} {value : Index} (hvalue : new.indexes.get? name = some value)
    (habsent : old.indexes.get? name = none) :
    statementsOf (spanBetween before after)
        (.add (.table table (.index name .whole)) value.toJson) = [.createIndex table value] := by
  have hwritable : (Edit.table table (.putIndex name value)).Writable :=
    ⟨⟨Keyed.ne_empty_of_get? hnames.1 hnew,
      Keyed.ne_empty_of_get? (hnames.2.2.2.of_get? hnew).2.1 hvalue, trivial⟩,
      (hkeyed.2.2.2.of_get? hnew).2.1.of_get? hvalue⟩
  have hhad : (spanBetween before after).had Table.indexes table name = false := by
    simp [Span.had, spanBetween, hold, Keyed.contains, habsent]
  refine (statementsOf_operation _ hwritable).trans ?_
  change onlyIf _ _ ++ _ = _
  rw [hhad]
  rfl

/-- The statements of a table that has grown. -/
theorem flatMap_tableChanges {table : String} {old new : Table}
    (hold : before.tables.get? table = some old) (hnew : after.tables.get? table = some new)
    (hgrows : old.Grows new) :
    (Patch.tableChanges table old new).flatMap (statementsOf (spanBetween before after)) =
      tableAdditions table old new := by
  have hcomment : Patch.replaceField (.table table (.field .comment)) optionalText old.comment
      new.comment = [] := Patch.replaceField_of_beq (beq_iff_eq.2 hgrows.comment)
  rw [Patch.tableChanges, hcomment, List.nil_append, List.flatMap_append, List.flatMap_append,
    tableAdditions]
  refine congrArg₂ (· ++ ·) (congrArg₂ (· ++ ·) ?_ ?_) ?_
  · refine flatMap_entryChanges (fun name value hvalue habsent => ?_) ?_
    · rw [List.flatMap_singleton]
      exact statementsOf_columnAdded hnames hkeyed hold hnew hvalue habsent
    · intro name previous value hprevious hvalue
      exact Patch.columnChanges_of_beq table name (hgrows.columns.of_get? hprevious hvalue)
  · rw [List.map_eq_flatMap]
    refine flatMap_entryChanges (fun name value hvalue habsent => ?_) ?_
    · rw [List.flatMap_singleton]
      exact statementsOf_indexAdded hnames hkeyed hold hnew hvalue habsent
    · intro name previous value hprevious hvalue
      cases hgrows.indexes.of_get? hprevious hvalue
      exact Patch.indexChanges_of_beq table name BEq.rfl
  · rw [List.map_eq_flatMap]
    refine flatMap_entryChanges (fun name value hvalue habsent => ?_) ?_
    · have hhad : old.constraints.contains name = false := by rw [Keyed.contains, habsent]; rfl
      rw [List.flatMap_singleton, statementsOf_constraintAdded hkeyed hnames hold hnew hvalue, hhad]
      rfl
    · intro name previous value hprevious hvalue
      cases hgrows.constraints.of_get? hprevious hvalue
      exact Patch.constraintChanges_of_beq table name BEq.rfl

theorem statementsOf_enumAdded {name : String} {type : EnumType}
    (hvalue : after.enums.get? name = some type) (habsent : before.enums.get? name = none) :
    statementsOf (spanBetween before after) (.add (.enumType name .whole) type.toJson) =
      [.createEnum type] := by
  have hwritable : (Edit.putEnum name type).Writable :=
    ⟨⟨Keyed.ne_empty_of_get? hnames.2.1 hvalue, trivial⟩, hkeyed.2.1.of_get? hvalue⟩
  have hhad : before.enums.contains name = false := by rw [Keyed.contains, habsent]; rfl
  refine (statementsOf_operation _ hwritable).trans ?_
  change onlyIf (before.enums.contains name) _ ++ _ = _
  rw [hhad]
  rfl

theorem statementsOf_extensionAdded {name : String} {extension : Extension}
    (hvalue : after.extensions.get? name = some extension)
    (habsent : before.extensions.get? name = none) :
    statementsOf (spanBetween before after) (.add (.extension name .whole) extension.toJson) =
      [.createExtension extension] := by
  have hwritable : (Edit.putExtension name extension).Writable :=
    ⟨Keyed.ne_empty_of_get? hnames.2.2.1 hvalue, hkeyed.2.2.1.of_get? hvalue⟩
  have hhad : before.extensions.contains name = false := by rw [Keyed.contains, habsent]; rfl
  refine (statementsOf_operation _ hwritable).trans ?_
  change onlyIf (before.extensions.contains name) _ ++ _ = _
  rw [hhad]
  rfl

include hgrows

/-- The statements of a schema that has grown. -/
theorem flatMap_changes :
    (changes before after).flatMap (statementsOf (spanBetween before after)) =
      growthStatements before after := by
  rw [Patch.changes, List.flatMap_append, List.flatMap_append, growthStatements]
  refine congrArg₂ (· ++ ·) (congrArg₂ (· ++ ·) ?_ ?_) ?_
  · rw [List.map_eq_flatMap]
    refine flatMap_entryChanges (fun name value hvalue habsent => ?_) ?_
    · rw [List.flatMap_singleton]
      exact statementsOf_extensionAdded hnames hkeyed hvalue habsent
    · intro name previous value hprevious hvalue
      cases hgrows.extensions.of_get? hprevious hvalue
      exact Patch.extensionChanges_of_beq name BEq.rfl
  · rw [List.map_eq_flatMap]
    refine flatMap_entryChanges (fun name value hvalue habsent => ?_) ?_
    · rw [List.flatMap_singleton]
      exact statementsOf_enumAdded hnames hkeyed hvalue habsent
    · intro name previous value hprevious hvalue
      cases hgrows.enums.of_get? hprevious hvalue
      exact Patch.enumChanges_of_beq name BEq.rfl
  · rw [Patch.entryChanges, List.flatMap_assoc]
    refine List.flatMap_congr fun entry hmem => ?_
    have hvalue := Keyed.get?_eq_some_iff.2 hmem
    cases hold : before.tables.get? entry.1 with
    | none =>
      simp only [hold, additions]
      rw [List.flatMap_singleton, statementsOf_tableAdded hkeyed hnames hold hvalue]
    | some old =>
      simp only [hold, additions]
      exact flatMap_tableChanges hnames hkeyed hold hvalue (hgrows.tables.of_get? hold hvalue)

end Statements

/-- A migration that only adds reports nothing and creates what is new. -/
theorem migration_of_adds {before after : Schema} (hgrows : before.Grows after)
    (hnames : after.NoEmptyName) (hkeyed : after.WellKeyed)
    (hadds : AllOf .add (diff before after)) :
    (migrationBetween before after).messages = [] ∧
      (migrationBetween before after).statements =
        foreignKeysLast (growthStatements before after) := by
  constructor
  · refine messages_migration_eq_nil_iff.2 fun op hop => ?_
    have hadd := hadds op hop
    rw [Patch.diff_eq_changes hadds] at hop
    obtain ⟨edit, rfl, hwritable, hputs⟩ := changes_puts hnames hkeyed op hop
    cases hstatements : operationStatements (spanOf before (diff before after)) edit.operation with
    | ok statements => exact ⟨statements, rfl⟩
    | error error =>
      exact absurd (operationStatements_error_iff.1 ⟨error, hstatements⟩ edit
        (Edit.edit_operation hwritable)) (hputs hadd).supported
  · -- nothing is removed or moved, so the difference is its changes in their own order
    rw [migrationBetween, migration_statements, ← flatMap_changes hgrows hnames hkeyed]
    exact congrArg (fun ops => foreignKeysLast
      (ops.flatMap (statementsOf (spanBetween before after)))) (Patch.diff_eq_changes hadds)

/-! ## From the empty schema -/

theorem foreignKeysLast_perm (statements : List Statement) :
    (foreignKeysLast statements).Perm statements :=
  List.perm_append_comm.trans (List.filter_append_perm _ statements)

/-- A schema is exported by kinds of statements; table by table these are the same. -/
theorem exportStatements_perm {schema : Schema} (hkeyed : schema.WellKeyed) :
    (exportStatements schema).Perm
      (schema.extensions.values.map .createExtension ++ schema.enums.values.map .createEnum ++
        schema.tables.toList.flatMap fun entry => putTableStatements entry.1 entry.2) := by
  rw [hkeyed.1.flatMap_toList putTableStatements, exportStatements]
  simp only [List.append_assoc]
  refine .append_left _ (.append_left _ ?_)
  refine .trans ?_ ((orderedTables_perm schema).flatMap_right _)
  rw [List.map_eq_flatMap]
  have hlast := (List.flatMap_append_perm (orderedTables schema)
    (fun table => table.indexes.values.map (Statement.createIndex table.name))
    fun table => table.separateConstraints.map (addConstraint table.name)).append_left
      ((orderedTables schema).flatMap fun table => [Statement.createTable table])
  exact hlast.trans (List.flatMap_append_perm (orderedTables schema)
    (fun table => [Statement.createTable table]) _)

/-- The migration from the empty schema reports nothing, and its statements are those that the
schema is exported as, in some order. -/
theorem migrationBetween_empty_perm {schema : Schema} (hkeyed : schema.WellKeyed)
    (hnames : schema.NoEmptyName) :
    (migrationBetween .empty schema).messages = [] ∧
      (migrationBetween .empty schema).statements.Perm (exportStatements schema) := by
  obtain ⟨hmessages, hstatements⟩ := migration_of_adds (Schema.grows_empty schema) hnames hkeyed
    (Patch.diff_empty_adds schema)
  refine ⟨hmessages, ?_⟩
  rw [hstatements]
  have hadded : growthStatements .empty schema =
      schema.extensions.values.map .createExtension ++ schema.enums.values.map .createEnum ++
        schema.tables.toList.flatMap fun entry => putTableStatements entry.1 entry.2 := by
    simp only [growthStatements, Schema.empty, Keyed.newValues_empty]
    rfl
  exact hadded ▸ (foreignKeysLast_perm _).trans (exportStatements_perm hkeyed).symm

/-- A table that refers to itself: its foreign key is added when the table is there. -/
theorem migrationBetween_empty_slashed :
    let schema := Patch.slashed (.foreignKey ⟨["id"], "a/~b", ["id"], .cascade, .noAction⟩)
    (schema.WellKeyed ∧ schema.NoEmptyName) ∧ (migrationBetween .empty schema).messages = [] ∧
      (migrationBetween .empty schema).statements.Perm (exportStatements schema) := by
  intro schema
  have hhyps : schema.WellKeyed ∧ schema.NoEmptyName := by decide
  exact ⟨hhyps, migrationBetween_empty_perm hhyps.1 hhyps.2⟩

end SchemaEvolution.Sql
