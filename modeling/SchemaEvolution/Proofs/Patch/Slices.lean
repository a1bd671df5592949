import SchemaEvolution.Proofs.Patch.Selection
import SchemaEvolution.Proofs.Schema.WellKeyed

/-!
# Slices of a difference

What a difference does inside one table, one entry of a table, one enumerated type or one
extension: the operations whose paths lie there, in their order, depend only on what the two
schemas hold there.
-/

namespace SchemaEvolution.Patch

/-- What of a table an operation may touch without touching the rest. -/
inductive TablePart where
  | name
  | comment
  | column (name : String)
  | index (name : String)
  | constraint (name : String)
  deriving DecidableEq

def TableSpot.part? : TableSpot → Option TablePart
  | .whole => none
  | .field .name => some .name
  | .field .comment => some .comment
  | .column name _ => some (.column name)
  | .index name _ => some (.index name)
  | .constraint name _ => some (.constraint name)

def TablePart.contains (table : String) : TablePart → Path → Bool
  | .name => (· == .table table (.field .name))
  | .comment => (· == .table table (.field .comment))
  | .column key => Path.inColumn table key
  | .index key => Path.inIndex table key
  | .constraint key => Path.inConstraint table key

theorem TablePart.contains_table (part : TablePart) (table : String) (spot : TableSpot) :
    part.contains table (.table table spot) = (spot.part? == some part) := by
  cases part <;> rcases spot with _ | (_ | _) | _ | _ | _ <;>
    simp [contains, Path.inColumn, Path.inIndex, Path.inConstraint, TableSpot.part?]

def Path.isName : Path → Bool
  | .table _ (.field .name) => true
  | .table _ (.column _ (.field .name)) => true
  | .table _ (.index _ (.field .name)) => true
  | .table _ (.constraint _ (.field .name)) => true
  | .enumType _ (.field .name) => true
  | _ => false

def Edit.Inside (table : String) (part : TablePart) (edit : Edit) : Prop :=
  edit.path.isName = false ∧ ∃ change : TableEdit, edit = .table table change ∧
    change.spot.part? = some part

theorem Edit.Inside.onlyIn {table : String} {part : TablePart} {edit : Edit}
    (hinside : edit.Inside table part) : edit.OnlyIn (TablePart.contains table) part := by
  intro other
  obtain ⟨-, change, rfl, hpart⟩ := hinside
  rw [path, TablePart.contains_table, hpart]
  exact Bool.eq_iff_iff.2 (by simp)

theorem EditsIn.onlyIn {table : String} {part : TablePart} {ops : List Operation}
    (hedits : EditsIn (Edit.Inside table part) ops) :
    EditsIn (Edit.OnlyIn (TablePart.contains table) part) ops :=
  hedits.mono fun _ hinside => hinside.onlyIn

section Entries

variable {table name : String} (htable : table ≠ "") (hname : name ≠ "")

theorem EditsIn.tableField {α : Type} [BEq α] {part : TablePart} (change : TableEdit)
    (view : α → Json) (old new : α) (haction : change.action = .replace (view new))
    (hwritable : (Edit.table table change).Writable)
    (hplace : (Path.table table change.spot).isName = false)
    (hpart : change.spot.part? = some part) :
    EditsIn (Edit.Inside table part) (Patch.replaceField (.table table change.spot) view old new) :=
  .replaceField (.table table change) haction hwritable ⟨hplace, change, rfl, hpart⟩

include htable hname

/-- The changes of a column are edits inside of that column. -/
theorem columnChanges_edits (old new : Column) :
    EditsIn (Edit.Inside table (.column name)) (columnChanges table name old new) := by
  have hwritable : ∀ change, (Edit.table table (.column name change)).Writable :=
    fun _ => ⟨⟨htable, hname⟩, trivial⟩
  exact ((((EditsIn.tableField (.column name (.type new.type)) .string _ _
    rfl (hwritable _) rfl rfl).append
    (.tableField (.column name (.default new.default)) optionalDefault _ _
      rfl (hwritable _) rfl rfl)).append
    (.tableField (.column name (.notNull new.notNull)) .bool _ _
      rfl (hwritable _) rfl rfl)).append
    (.tableField (.column name (.check new.check)) optionalText _ _
      rfl (hwritable _) rfl rfl)).append
    (.tableField (.column name (.comment new.comment)) optionalText _ _
      rfl (hwritable _) rfl rfl)

theorem indexChanges_edits (old new : Index) :
    EditsIn (Edit.Inside table (.index name)) (indexChanges table name old new) := by
  have hwritable : ∀ change : IndexEdit, change.spot.Fits →
      (Edit.table table (.index name change)).Writable :=
    fun _ hfits => ⟨⟨htable, hname, hfits⟩, trivial⟩
  exact ((EditsIn.tableField (.index name (.unique new.unique)) .bool _ _
    rfl (hwritable _ trivial) rfl rfl).append
    (.tableField (.index name (.type new.type)) .string _ _
      rfl (hwritable _ trivial) rfl rfl)).append
    (.tableField (.index name (.columns new.columns)) texts _ _
      rfl (hwritable _ trivial) rfl rfl)

/-- A constraint that stays changes by its fields; one of another kind is added as a whole. -/
theorem constraintChanges_edits (old : Constraint) {new : Constraint} (hkey : new.name = name) :
    EditsIn (Edit.Inside table (.constraint name)) (constraintChanges table name old new) := by
  have hwritable : ∀ change : ConstraintEdit, change.spot.Fits →
      (Edit.table table (.constraint name change)).Writable :=
    fun _ hfits => ⟨⟨htable, hname, hfits⟩, trivial⟩
  unfold constraintChanges
  split
  · exact .tableField (.constraint name (.columns _)) texts _ _ rfl (hwritable _ trivial) rfl rfl
  · exact .tableField (.constraint name (.columns _)) texts _ _ rfl (hwritable _ trivial) rfl rfl
  · exact .tableField (.constraint name (.condition _)) .string _ _
      rfl (hwritable _ trivial) rfl rfl
  · exact ((((EditsIn.tableField (.constraint name (.columns _)) texts _ _
      rfl (hwritable _ trivial) rfl rfl).append
      (.tableField (.constraint name (.targetTable _)) .string _ _
        rfl (hwritable _ trivial) rfl rfl)).append
      (.tableField (.constraint name (.targetColumns _)) texts _ _
        rfl (hwritable _ trivial) rfl rfl)).append
      (.tableField (.constraint name (.onUpdate _)) ForeignKeyAction.toJson _ _
        rfl (hwritable _ trivial) rfl rfl)).append
      (.tableField (.constraint name (.onDelete _)) ForeignKeyAction.toJson _ _
        rfl (hwritable _ trivial) rfl rfl)
  · exact .singleton (.table table (.putConstraint name new))
      ⟨⟨htable, hname, trivial⟩, hkey⟩ ⟨rfl, _, rfl, rfl⟩

end Entries

/-- The removal of a constraint that is gone or has become one of another kind. -/
def constraintRemoval (old new : Option Constraint) (removal : Operation) : List Operation :=
  match old, new with
  | some _, none => [removal]
  | some previous, some value =>
    if value.rule.kind != previous.rule.kind then [removal] else []
  | none, _ => []

def partRemovals (table : String) (old new : Table) : TablePart → List Operation
  | .name | .comment => []
  | .column name =>
    removalOf (old.columns.get? name) (new.columns.get? name)
      (.remove (.table table (.column name .whole)))
  | .index name =>
    removalOf (old.indexes.get? name) (new.indexes.get? name)
      (.remove (.table table (.index name .whole)))
  | .constraint name =>
    constraintRemoval (old.constraints.get? name) (new.constraints.get? name)
      (.remove (.table table (.constraint name .whole)))

def partChanges (table : String) (old new : Table) : TablePart → List Operation
  | .name => []
  | .comment => replaceField (.table table (.field .comment)) optionalText old.comment new.comment
  | .column name =>
    changesOf (old.columns.get? name) (new.columns.get? name)
      (fun value => [.add (.table table (.column name .whole)) value.toJson])
      (columnChanges table name)
  | .index name =>
    changesOf (old.indexes.get? name) (new.indexes.get? name)
      (fun value => [.add (.table table (.index name .whole)) value.toJson])
      (indexChanges table name)
  | .constraint name =>
    changesOf (old.constraints.get? name) (new.constraints.get? name)
      (fun value => [.add (.table table (.constraint name .whole)) value.toJson])
      (constraintChanges table name)

theorem mem_goneConstraints {old new : Keyed Constraint} {name : String}
    (hmem : name ∈ goneConstraints old new) : name ∈ old.keys := by
  obtain ⟨entry, hentry, rfl⟩ := List.mem_map.1 hmem
  exact List.mem_map.2 ⟨entry, (List.mem_filter.1 hentry).1, rfl⟩

theorem mem_goneNames {α β : Type} {old : Keyed α} {new : Keyed β} {name : String}
    (hmem : name ∈ goneNames old new) : name ∈ old.keys :=
  (List.mem_filter.1 hmem).1

theorem mem_goneNames_iff {α β : Type} {old : Keyed α} {new : Keyed β} {name : String} :
    name ∈ goneNames old new ↔ old.get? name ≠ none ∧ new.get? name = none := by
  rw [goneNames, List.mem_filter, ← Keyed.contains_eq_true_iff]
  simp [Keyed.contains, Option.isSome_iff_ne_none]

theorem ne_empty_of_mem {names : List String} (hempty : "" ∉ names) {name : String}
    (hmem : name ∈ names) : name ≠ "" := by
  rintro rfl
  exact hempty hmem

section Removals

variable {table : String} (htable : table ≠ "")

include htable

theorem columnRemoval_edits {name : String} (hname : name ≠ "") :
    EditsIn (Edit.Inside table (.column name)) [.remove (.table table (.column name .whole))] :=
  .singleton (.table table (.removeColumn name)) ⟨⟨htable, hname⟩, trivial⟩ ⟨rfl, _, rfl, rfl⟩

theorem indexRemoval_edits {name : String} (hname : name ≠ "") :
    EditsIn (Edit.Inside table (.index name)) [.remove (.table table (.index name .whole))] :=
  .singleton (.table table (.removeIndex name)) ⟨⟨htable, hname, trivial⟩, trivial⟩
    ⟨rfl, _, rfl, rfl⟩

theorem constraintRemoval_edits {name : String} (hname : name ≠ "") :
    EditsIn (Edit.Inside table (.constraint name))
      [.remove (.table table (.constraint name .whole))] :=
  .singleton (.table table (.removeConstraint name)) ⟨⟨htable, hname, trivial⟩, trivial⟩
    ⟨rfl, _, rfl, rfl⟩

end Removals

section Inside

variable {table : String} (htable : table ≠ "") {old : Table} (hold : old.NoEmptyName)
  (new : Table)

include htable hold

/-- The removals of a table lie in its parts. -/
theorem tableRemovals_edits :
    EditsIn (fun edit => ∃ part, edit.Inside table part) (tableRemovals table old new) := by
  intro op hop
  rcases List.mem_append.1 hop with hop | hop
  · rcases List.mem_append.1 hop with hop | hop
    · obtain ⟨name, hmem, rfl⟩ := List.mem_map.1 hop
      exact (constraintRemoval_edits htable
        (ne_empty_of_mem hold.2.2 (mem_goneConstraints hmem))).mono
        (fun _ hinside => ⟨_, hinside⟩) _ (List.mem_singleton.2 rfl)
    · obtain ⟨name, hmem, rfl⟩ := List.mem_map.1 hop
      exact (indexRemoval_edits htable (ne_empty_of_mem hold.2.1 (mem_goneNames hmem))).mono
        (fun _ hinside => ⟨_, hinside⟩) _ (List.mem_singleton.2 rfl)
  · obtain ⟨name, hmem, rfl⟩ := List.mem_map.1 hop
    exact (columnRemoval_edits htable (ne_empty_of_mem hold.1 (mem_goneNames hmem))).mono
      (fun _ hinside => ⟨_, hinside⟩) _ (List.mem_singleton.2 rfl)

/-- In a part of a table, its removals remove what the part has lost. -/
theorem selectPaths_tableRemovals (part : TablePart) :
    selectPaths (part.contains table) (tableRemovals table old new) =
      partRemovals table old new part := by
  have hcolumn : ∀ name ∈ old.columns.keys, EditsIn
      (Edit.OnlyIn (TablePart.contains table) (.column name))
      [.remove (.table table (.column name .whole))] :=
    fun name hmem => (columnRemoval_edits htable (ne_empty_of_mem hold.1 hmem)).onlyIn
  have hindex : ∀ name ∈ old.indexes.keys, EditsIn
      (Edit.OnlyIn (TablePart.contains table) (.index name))
      [.remove (.table table (.index name .whole))] :=
    fun name hmem => (indexRemoval_edits htable (ne_empty_of_mem hold.2.1 hmem)).onlyIn
  have hconstraint : ∀ name ∈ old.constraints.keys, EditsIn
      (Edit.OnlyIn (TablePart.contains table) (.constraint name))
      [.remove (.table table (.constraint name .whole))] :=
    fun name hmem => (constraintRemoval_edits htable (ne_empty_of_mem hold.2.2 hmem)).onlyIn
  have hcolumns : (∀ name, TablePart.column name ≠ part) →
      selectPaths (part.contains table) ((goneNames old.columns new.columns).map fun name =>
        .remove (.table table (.column name .whole))) = [] := fun hother =>
    selectPaths_map_outside hother fun name hmem => hcolumn name (mem_goneNames hmem)
  have hindexes : (∀ name, TablePart.index name ≠ part) →
      selectPaths (part.contains table) ((goneNames old.indexes new.indexes).map fun name =>
        .remove (.table table (.index name .whole))) = [] := fun hother =>
    selectPaths_map_outside hother fun name hmem => hindex name (mem_goneNames hmem)
  have hconstraints : (∀ name, TablePart.constraint name ≠ part) →
      selectPaths (part.contains table)
        ((goneConstraints old.constraints new.constraints).map fun name =>
          .remove (.table table (.constraint name .whole))) = [] := fun hother =>
    selectPaths_map_outside hother fun name hmem => hconstraint name (mem_goneConstraints hmem)
  rw [tableRemovals, selectPaths_append, selectPaths_append]
  cases part with
  | name | comment => rw [hcolumns nofun, hindexes nofun, hconstraints nofun]; rfl
  | column name =>
    rw [hconstraints nofun, hindexes nofun,
      selectPaths_goneNames (fun _ _ => TablePart.column.inj) old.columns new.columns hcolumn]
    rfl
  | index name =>
    rw [hconstraints nofun, hcolumns nofun,
      selectPaths_goneNames (fun _ _ => TablePart.index.inj) old.indexes new.indexes hindex,
      List.append_nil]
    rfl
  | constraint name =>
    rw [hcolumns nofun, hindexes nofun, List.append_nil, List.append_nil, goneConstraints,
      selectPaths_map_family (fun _ _ => TablePart.constraint.inj) old.constraints _ hconstraint]
    cases hold : old.constraints.get? name <;> cases hnew : new.constraints.get? name <;>
      simp [partRemovals, constraintRemoval, hold, hnew]

end Inside

/-! ## Changes -/

section Changes

variable {table : String} (htable : table ≠ "") (old : Table) {new : Table}
  (hnew : new.NoEmptyName) (hkeyed : new.WellKeyed)

include htable

theorem comment_edits (old new : Option String) :
    EditsIn (Edit.Inside table .comment)
      (replaceField (.table table (.field .comment)) optionalText old new) :=
  .tableField (.comment new) optionalText _ _ rfl ⟨⟨htable, trivial⟩, trivial⟩ rfl rfl

include hnew hkeyed

theorem columnAdded_edits {name : String} {value : Column}
    (hvalue : new.columns.get? name = some value) :
    EditsIn (Edit.Inside table (.column name))
      [.add (.table table (.column name .whole)) value.toJson] :=
  .singleton (.table table (.putColumn name value))
    ⟨⟨htable, Keyed.ne_empty_of_get? hnew.1 hvalue⟩, hkeyed.1.of_get? hvalue⟩ ⟨rfl, _, rfl, rfl⟩

theorem indexAdded_edits {name : String} {value : Index}
    (hvalue : new.indexes.get? name = some value) :
    EditsIn (Edit.Inside table (.index name))
      [.add (.table table (.index name .whole)) value.toJson] :=
  .singleton (.table table (.putIndex name value))
    ⟨⟨htable, Keyed.ne_empty_of_get? hnew.2.1 hvalue, trivial⟩, hkeyed.2.1.of_get? hvalue⟩
    ⟨rfl, _, rfl, rfl⟩

theorem constraintAdded_edits {name : String} {value : Constraint}
    (hvalue : new.constraints.get? name = some value) :
    EditsIn (Edit.Inside table (.constraint name))
      [.add (.table table (.constraint name .whole)) value.toJson] :=
  .singleton (.table table (.putConstraint name value))
    ⟨⟨htable, Keyed.ne_empty_of_get? hnew.2.2 hvalue, trivial⟩, hkeyed.2.2.of_get? hvalue⟩
    ⟨rfl, _, rfl, rfl⟩

/-- The changes of a table lie in its parts. -/
theorem tableChanges_edits :
    EditsIn (fun edit => ∃ part, edit.Inside table part) (tableChanges table old new) := by
  refine (((comment_edits htable _ _).mono fun _ hinside => ⟨_, hinside⟩).append
    (.entryChanges ?_ ?_)).append (.entryChanges ?_ ?_) |>.append (.entryChanges ?_ ?_)
  · intro name value hvalue
    exact (columnAdded_edits htable hnew hkeyed hvalue).mono fun _ hinside => ⟨_, hinside⟩
  · intro name previous value _ hvalue
    exact (columnChanges_edits htable (Keyed.ne_empty_of_get? hnew.1 hvalue) previous value).mono
      fun _ hinside => ⟨_, hinside⟩
  · intro name value hvalue
    exact (indexAdded_edits htable hnew hkeyed hvalue).mono fun _ hinside => ⟨_, hinside⟩
  · intro name previous value _ hvalue
    exact (indexChanges_edits htable (Keyed.ne_empty_of_get? hnew.2.1 hvalue) previous value).mono
      fun _ hinside => ⟨_, hinside⟩
  · intro name value hvalue
    exact (constraintAdded_edits htable hnew hkeyed hvalue).mono fun _ hinside => ⟨_, hinside⟩
  · intro name previous value _ hvalue
    exact (constraintChanges_edits htable (Keyed.ne_empty_of_get? hnew.2.2 hvalue) previous
      (hkeyed.2.2.of_get? hvalue)).mono fun _ hinside => ⟨_, hinside⟩

/-- In a part of a table, its changes bring the part up to date. -/
theorem selectPaths_tableChanges (part : TablePart) :
    selectPaths (part.contains table) (tableChanges table old new) =
      partChanges table old new part := by
  have hcomment := (comment_edits htable old.comment new.comment).onlyIn
  have hcolumn := fun name value (hvalue : new.columns.get? name = some value) =>
    (columnAdded_edits htable hnew hkeyed hvalue).onlyIn
  have hcolumn' := fun name previous value (_ : old.columns.get? name = some previous)
      (hvalue : new.columns.get? name = some value) =>
    (columnChanges_edits htable (Keyed.ne_empty_of_get? hnew.1 hvalue) previous value).onlyIn
  have hindex := fun name value (hvalue : new.indexes.get? name = some value) =>
    (indexAdded_edits htable hnew hkeyed hvalue).onlyIn
  have hindex' := fun name previous value (_ : old.indexes.get? name = some previous)
      (hvalue : new.indexes.get? name = some value) =>
    (indexChanges_edits htable (Keyed.ne_empty_of_get? hnew.2.1 hvalue) previous value).onlyIn
  have hconstraint := fun name value (hvalue : new.constraints.get? name = some value) =>
    (constraintAdded_edits htable hnew hkeyed hvalue).onlyIn
  have hconstraint' := fun name previous value (_ : old.constraints.get? name = some previous)
      (hvalue : new.constraints.get? name = some value) =>
    (constraintChanges_edits htable (Keyed.ne_empty_of_get? hnew.2.2 hvalue) previous
      (hkeyed.2.2.of_get? hvalue)).onlyIn
  have hcomments := fun hother : TablePart.comment ≠ part =>
    selectPaths_of_outside (hcomment.mono fun _ honly => ⟨TablePart.comment, hother, honly⟩)
  have hcolumns := fun hother : ∀ name, TablePart.column name ≠ part =>
    selectPaths_entryChanges_outside hother hcolumn hcolumn'
  have hindexes := fun hother : ∀ name, TablePart.index name ≠ part =>
    selectPaths_entryChanges_outside hother hindex hindex'
  have hconstraints := fun hother : ∀ name, TablePart.constraint name ≠ part =>
    selectPaths_entryChanges_outside hother hconstraint hconstraint'
  rw [tableChanges, selectPaths_append, selectPaths_append, selectPaths_append]
  cases part with
  | name =>
    rw [hcomments nofun, hcolumns nofun, hindexes nofun, hconstraints nofun]
    rfl
  | comment =>
    rw [selectPaths_of_onlyIn hcomment, hcolumns nofun, hindexes nofun, hconstraints nofun,
      List.append_nil, List.append_nil, List.append_nil]
    rfl
  | column name =>
    rw [hcomments nofun, hindexes nofun, hconstraints nofun,
      selectPaths_entryChanges (fun _ _ => TablePart.column.inj) hcolumn hcolumn',
      List.append_nil, List.append_nil, List.nil_append]
    rfl
  | index name =>
    rw [hcomments nofun, hcolumns nofun, hconstraints nofun,
      selectPaths_entryChanges (fun _ _ => TablePart.index.inj) hindex hindex', List.append_nil]
    rfl
  | constraint name =>
    rw [hcomments nofun, hcolumns nofun, hindexes nofun,
      selectPaths_entryChanges (fun _ _ => TablePart.constraint.inj) hconstraint hconstraint']
    rfl

end Changes

end SchemaEvolution.Patch
