import SchemaEvolution.Proofs.Patch.Difference

/-!
# Statuses under a difference

The classifier sees nothing of a schema but the operations of a list.  Given the difference
between two schemas, it says of every table, every entry of a table and every field of a column
what a comparison of the two schemas says.
-/

namespace SchemaEvolution.Patch

/-- The status of what may be absent before and after: `kept` decides where it is on both sides. -/
def ChangeStatus.lifecycle {α : Type} (old new : Option α) (kept : α → α → ChangeStatus) :
    ChangeStatus :=
  match old, new with
  | none, none => .unchanged
  | none, some _ => .added
  | some _, none => .removed
  | some previous, some value => kept previous value

/-- The status of what may be absent before and after, from the two values alone. -/
def ChangeStatus.between {α : Type} [BEq α] (old new : Option α) : ChangeStatus :=
  .lifecycle old new fun previous value => if previous == value then .unchanged else .modified

def sameField (old new : Column) : ColumnField → Bool
  | .name => old.name == new.name
  | .type => old.type == new.type
  | .default => old.default == new.default
  | .check => old.check == new.check
  | .notNull => old.notNull == new.notNull
  | .comment => old.comment == new.comment

/-- Selecting from a wider selection is selecting from all operations. -/
theorem selectPaths_selectPaths {inner outer : Path → Bool}
    (hinner : ∀ path, inner path = true → outer path = true) (ops : List Operation) :
    selectPaths inner (selectPaths outer ops) = selectPaths inner ops := by
  rw [selectPaths, selectPaths, selectPaths, List.filter_filter]
  congr 1
  funext op
  cases op.path? with
  | none => rfl
  | some path =>
    rw [Option.any_some, Option.any_some]
    cases hpath : inner path with
    | false => rfl
    | true => rw [hinner path hpath, Bool.and_self]

theorem statusAt_selectPaths {keep : Path → Bool} {path : Path} (hkeep : keep path = true)
    (ops : List Operation) : statusAt path (selectPaths keep ops) = statusAt path ops := by
  rw [statusAt, statusAt, selectPaths_selectPaths]
  intro other hother
  rw [beq_iff_eq.1 hother, hkeep]

theorem statusAt_of_selectPaths_eq_nil {path : Path} {ops : List Operation}
    (hnil : selectPaths (· == path) ops = []) : statusAt path ops = .unchanged := by
  rw [statusAt, hnil]
  rfl

/-- At the path of a single edit, its verb decides. -/
theorem statusAt_operation (edit : Edit) (hwritable : edit.Writable) :
    statusAt edit.path [edit.operation] = .ofOperations [edit.operation] := by
  rw [statusAt, selectPaths_eq_self]
  exact .singleton edit hwritable (beq_self_eq_true edit.path)

/-- The spot leads to a table or an entry of it as a whole. -/
def TableSpot.isWhole : TableSpot → Bool
  | .whole | .column _ .whole | .index _ .whole | .constraint _ .whole => true
  | _ => false

/-- Nothing is replaced as a whole. -/
theorem TableEdit.verb_ne_replace {change : TableEdit} (hwhole : change.spot.isWhole = true)
    (table : String) : (Edit.table table change).operation.verb ≠ .replace := by
  cases change with
  | rename | comment | column => cases hwhole
  | putColumn | removeColumn | putIndex | removeIndex | putConstraint | removeConstraint => nofun
  | index name edit => cases edit <;> cases hwhole
  | constraint name edit => cases edit <;> cases hwhole

theorem selectPaths_whole_of_replacements {table : String} {part : TablePart} {spot : TableSpot}
    {ops : List Operation} (hedits : EditsIn (Edit.Inside table part) ops)
    (hverbs : AllOf .replace ops) (hwhole : spot.isWhole = true) :
    selectPaths (· == .table table spot) ops = [] := by
  rw [selectPaths, List.filter_eq_nil_iff]
  intro op hop
  obtain ⟨edit, rfl, hwritable, -, change, rfl, -⟩ := hedits op hop
  rw [hwritable.path?, Option.any_some, Edit.path, beq_iff_eq]
  intro heq
  cases heq
  exact TableEdit.verb_ne_replace hwhole table (hverbs _ hop)

theorem replaceField_eq_nil_iff {α : Type} [BEq α] {path : Path} {view : α → Json}
    {old new : α} :
    replaceField path view old new = [] ↔ (old == new) = true := by
  rw [replaceField]
  split <;> simp_all

theorem columnChanges_eq_nil_iff (table name : String) {old new : Column}
    (hname : old.name = new.name) :
    columnChanges table name old new = [] ↔ (old == new) = true := by
  refine ⟨?_, columnChanges_of_beq table name⟩
  simp only [columnChanges, List.append_eq_nil_iff, replaceField_eq_nil_iff, beq_iff_eq,
    Column.beq_iff]
  rintro ⟨⟨⟨⟨htype, hdefault⟩, hnotNull⟩, hcheck⟩, hcomment⟩
  exact ⟨hname, htype, hdefault, hcheck, hnotNull, hcomment⟩

theorem indexChanges_eq_nil_iff (table name : String) {old new : Index}
    (hname : old.name = new.name) :
    indexChanges table name old new = [] ↔ (old == new) = true := by
  refine ⟨?_, indexChanges_of_beq table name⟩
  obtain ⟨_, unique, columns, type⟩ := old
  obtain ⟨_, unique', columns', type'⟩ := new
  cases hname
  simp only [indexChanges, List.append_eq_nil_iff, replaceField_eq_nil_iff, beq_iff_eq]
  rintro ⟨⟨rfl, rfl⟩, rfl⟩
  rfl

/-- A constraint has no changes exactly if it equals the new one. -/
theorem constraintChanges_eq_nil_iff (table name : String) {old new : Constraint}
    (hname : old.name = new.name) :
    constraintChanges table name old new = [] ↔ (old == new) = true := by
  refine ⟨?_, constraintChanges_of_beq table name⟩
  obtain ⟨_, rule⟩ := old
  obtain ⟨_, rule'⟩ := new
  cases hname
  intro hnil
  rw [beq_iff_eq]
  cases rule <;> cases rule' <;>
    simp_all [constraintChanges, replaceField_eq_nil_iff]
  next key key' =>
    cases key
    cases key'
    simp_all

/-- What a difference does in a part of a table of both schemas. -/
def partSlice (table : String) (old new : Table) (part : TablePart) : List Operation :=
  partRemovals table old new part ++ partChanges table old new part

/-- Removals with additions or with replacements behind them are in order as they stand. -/
theorem arranged_changesOf {α : Type} (removals : List Operation) {old new : Option α}
    {added : α → List Operation} {changed : α → α → List Operation}
    (hadded : ∀ value, AllOf .add (added value))
    (hchanged : ∀ previous value, AllOf .replace (changed previous value) ∨
      AllOf .add (changed previous value)) :
    arranged removals (changesOf old new added changed) =
      removals ++ changesOf old new added changed := by
  cases new with
  | none => cases old <;> exact arranged_adds removals nofun
  | some value =>
    cases old with
    | none => exact arranged_adds removals (hadded value)
    | some previous =>
      rcases hchanged previous value with hverbs | hverbs
      · exact arranged_replacements removals hverbs
      · exact arranged_adds removals hverbs

theorem constraintChanges_sameVerb (table name : String) (old new : Constraint) :
    AllOf .replace (constraintChanges table name old new) ∨
      AllOf .add (constraintChanges table name old new) := by
  by_cases hkind : old.rule.kind = new.rule.kind
  · exact .inl (constraintChanges_verbs table name hkind)
  · rw [constraintChanges_of_kind_ne table name hkind]
    exact .inr (.add _ _)

theorem arranged_partChanges (table : String) (old new : Table) (part : TablePart) :
    arranged (partRemovals table old new part) (partChanges table old new part) =
      partSlice table old new part := by
  cases part with
  | name => rfl
  | comment => exact arranged_replacements _ (.replaceField _ _ _ _)
  | column name =>
    exact arranged_changesOf _ (fun _ => .add _ _) fun _ _ => .inl (columnChanges_verbs _ _ _ _)
  | index name =>
    exact arranged_changesOf _ (fun _ => .add _ _) fun _ _ => .inl (indexChanges_verbs _ _ _ _)
  | constraint name =>
    exact arranged_changesOf _ (fun _ => .add _ _) (constraintChanges_sameVerb table name)

/-- An entry that is removed or added as a whole, and otherwise not touched as a whole. -/
theorem statusAt_whole {α : Type} {whole : Path} {removal : Operation} {old new : Option α}
    {added : α → List Operation} {changed : α → α → List Operation}
    (hremoved : ∀ previous, old = some previous → statusAt whole [removal] = .removed)
    (hadded : ∀ value, new = some value → statusAt whole (added value) = .added)
    (hchanged : ∀ previous value, old = some previous → new = some value →
      statusAt whole (changed previous value) = .unchanged) :
    statusAt whole (removalOf old new removal ++ changesOf old new added changed) =
      .lifecycle old new fun _ _ => .unchanged := by
  cases old with
  | none =>
    cases new with
    | none => rfl
    | some value => exact hadded value rfl
  | some previous =>
    cases new with
    | none => exact hremoved previous rfl
    | some value => exact hchanged previous value rfl rfl

section Parts

variable {table : String} (htable : table ≠ "") {old new : Table}
  (hold : old.NoEmptyName) (hnew : new.NoEmptyName) (hnew' : new.WellKeyed)

include htable hold hnew hnew'

/-- At a whole column the slice tells of its lifecycle. -/
theorem statusAt_column_whole (name : String) :
    statusAt (.table table (.column name .whole)) (partSlice table old new (.column name)) =
      .lifecycle (old.columns.get? name) (new.columns.get? name) fun _ _ => .unchanged := by
  refine statusAt_whole ?_ ?_ ?_
  · intro previous hprevious
    have hname := Keyed.ne_empty_of_get? hold.1 hprevious
    exact statusAt_operation (.table table (.removeColumn name))
      ⟨⟨htable, hname⟩, trivial⟩
  · intro value hvalue
    have hname := Keyed.ne_empty_of_get? hnew.1 hvalue
    exact statusAt_operation (.table table (.putColumn name value))
      ⟨⟨htable, hname⟩, hnew'.1.of_get? hvalue⟩
  · intro previous value _ hvalue
    have hname := Keyed.ne_empty_of_get? hnew.1 hvalue
    exact statusAt_of_selectPaths_eq_nil (selectPaths_whole_of_replacements
      (columnChanges_edits htable hname previous value) (columnChanges_verbs _ _ _ _) rfl)

theorem statusAt_index_whole (name : String) :
    statusAt (.table table (.index name .whole)) (partSlice table old new (.index name)) =
      .lifecycle (old.indexes.get? name) (new.indexes.get? name) fun _ _ => .unchanged := by
  refine statusAt_whole ?_ ?_ ?_
  · intro previous hprevious
    have hname := Keyed.ne_empty_of_get? hold.2.1 hprevious
    exact statusAt_operation (.table table (.removeIndex name))
      ⟨⟨htable, hname, trivial⟩, trivial⟩
  · intro value hvalue
    have hname := Keyed.ne_empty_of_get? hnew.2.1 hvalue
    exact statusAt_operation (.table table (.putIndex name value))
      ⟨⟨htable, hname, trivial⟩, hnew'.2.1.of_get? hvalue⟩
  · intro previous value _ hvalue
    have hname := Keyed.ne_empty_of_get? hnew.2.1 hvalue
    exact statusAt_of_selectPaths_eq_nil (selectPaths_whole_of_replacements
      (indexChanges_edits htable hname previous value) (indexChanges_verbs _ _ _ _) rfl)

/-- A constraint of another kind is removed and added. -/
theorem statusAt_constraint_whole (name : String) :
    statusAt (.table table (.constraint name .whole))
        (partSlice table old new (.constraint name)) =
      .lifecycle (old.constraints.get? name) (new.constraints.get? name) fun previous value =>
        if previous.rule.kind = value.rule.kind then .unchanged else .modified := by
  rw [partSlice, partRemovals, partChanges]
  cases hprevious : old.constraints.get? name with
  | none =>
    cases hvalue : new.constraints.get? name with
    | none => rfl
    | some value =>
      have hname := Keyed.ne_empty_of_get? hnew.2.2 hvalue
      exact statusAt_operation (.table table (.putConstraint name value))
        ⟨⟨htable, hname, trivial⟩, hnew'.2.2.of_get? hvalue⟩
  | some previous =>
    have hname := Keyed.ne_empty_of_get? hold.2.2 hprevious
    cases hvalue : new.constraints.get? name with
    | none =>
      exact statusAt_operation (.table table (.removeConstraint name))
        ⟨⟨htable, hname, trivial⟩, trivial⟩
    | some value =>
      have hkey := hnew'.2.2.of_get? hvalue
      simp only [constraintRemoval, changesOf, ChangeStatus.lifecycle]
      by_cases hkind : previous.rule.kind = value.rule.kind
      · have hverbs := constraintChanges_verbs table name hkind
        rw [if_pos hkind, if_neg (by simp [hkind]), List.nil_append]
        exact statusAt_of_selectPaths_eq_nil (selectPaths_whole_of_replacements
          (constraintChanges_edits htable hname previous hkey) hverbs rfl)
      · have hwhole : EditsIn (fun edit => (edit.path == .table table (.constraint name .whole)))
            ([.remove (.table table (.constraint name .whole))] ++
              [.add (.table table (.constraint name .whole)) value.toJson]) :=
          (EditsIn.singleton (.table table (.removeConstraint name))
            ⟨⟨htable, hname, trivial⟩, trivial⟩ (beq_self_eq_true _)).append
            (.singleton (.table table (.putConstraint name value))
              ⟨⟨htable, hname, trivial⟩, hkey⟩ (beq_self_eq_true _))
        rw [if_neg hkind, if_pos (by simp [Ne.symm hkind]),
          constraintChanges_of_kind_ne table name hkind, statusAt, selectPaths_eq_self hwhole]
        rfl

end Parts

theorem ofOperations_replaceField {α : Type} [BEq α] (path : Path) (view : α → Json)
    (old new : α) :
    ChangeStatus.ofOperations (replaceField path view old new) =
      if old == new then .unchanged else .modified := by
  rw [replaceField]
  split <;> rfl

section Fields

variable {table name : String} (htable : table ≠ "") (hname : name ≠ "")

include htable hname

/-- Replacing one field is seen at that field only. -/
theorem selectPaths_columnField {α : Type} [BEq α] (view : α → Json) (old new : α)
    (changed : ColumnField) (change : ColumnEdit) (hchange : change.field = changed)
    (hdocument : change.document = view new) (field : ColumnField) :
    selectPaths (· == .table table (.column name (.field field)))
        (replaceField (.table table (.column name (.field changed))) view old new) =
      if changed = field then
        replaceField (.table table (.column name (.field changed))) view old new
      else [] := by
  subst hchange
  have hwritable : (Edit.table table (.column name change)).Writable :=
    ⟨⟨htable, hname⟩, trivial⟩
  have haction : (Edit.table table (.column name change)).action = .replace (view new) :=
    congrArg Action.replace hdocument
  split
  · next hfield =>
    refine selectPaths_eq_self (.replaceField (.table table (.column name change)) haction
      hwritable ?_)
    rw [← hfield]
    exact beq_self_eq_true _
  · next hfield =>
    refine selectPaths_eq_nil (.replaceField (.table table (.column name change)) haction
      hwritable ?_)
    rw [beq_eq_false_iff_ne]
    intro heq
    cases heq
    exact hfield rfl

/-- The changes of a column show exactly the fields in which it differs. -/
theorem statusAt_columnChanges (old new : Column) (hkey : old.name = new.name)
    (field : ColumnField) :
    statusAt (.table table (.column name (.field field))) (columnChanges table name old new) =
      if sameField old new field then .unchanged else .modified := by
  rw [statusAt, columnChanges]
  simp only [selectPaths_append]
  rw [selectPaths_columnField htable hname .string _ _ .type (.type new.type) rfl rfl,
    selectPaths_columnField htable hname optionalDefault _ _ .default (.default new.default) rfl
      rfl,
    selectPaths_columnField htable hname .bool _ _ .notNull (.notNull new.notNull) rfl rfl,
    selectPaths_columnField htable hname optionalText _ _ .check (.check new.check) rfl rfl,
    selectPaths_columnField htable hname optionalText _ _ .comment (.comment new.comment) rfl rfl]
  cases field with
  | name =>
    rw [sameField, hkey, beq_self_eq_true]
    rfl
  | _ =>
    simp only [reduceCtorEq, if_true, if_false, List.append_nil, List.nil_append]
    exact ofOperations_replaceField ..

end Fields

theorem TablePart.inTable_of_contains (part : TablePart) (table : String) (path : Path)
    (hpath : part.contains table path = true) : Path.inTable table path = true := by
  cases part <;> rcases path with ⟨owner, _ | _ | _ | _ | _⟩ | _ | _ <;>
    simp_all [contains, Path.inTable, Path.table?, Path.inColumn, Path.inIndex,
      Path.inConstraint]

/-- The operations treat a table as the difference between two well-keyed versions of it does. -/
structure Keeps (table : String) (old new : Table) (ops : List Operation) : Prop where
  named : table ≠ ""
  oldNamed : old.NoEmptyName
  newNamed : new.NoEmptyName
  oldKeyed : old.WellKeyed
  newKeyed : new.WellKeyed
  whole : statusAt (.table table .whole) ops = .unchanged
  slice (part : TablePart) : selectPaths (part.contains table) ops = partSlice table old new part

/-- An entry of a kept table, from what its slice says of the entry as a whole: where the entry is
on both sides, it is either brought up to date or exchanged. -/
theorem entryStatus_of_kept {α : Type} [BEq α] {table : String} {whole : Path}
    {inside : Path → Bool} {ops : List Operation} {old new : Option α}
    {kept : α → α → ChangeStatus} (htable : statusAt (.table table .whole) ops = .unchanged)
    (hwhole : statusAt whole ops = .lifecycle old new kept)
    (habsent : old = none → new = none → selectPaths inside ops = [])
    (hkept : ∀ previous value, old = some previous → new = some value →
      kept previous value = .unchanged ∧
          (selectPaths inside ops = [] ↔ (previous == value) = true) ∨
        kept previous value = .modified ∧ (previous == value) = false) :
    entryStatus table whole inside ops = .between old new := by
  rw [entryStatus, htable, hwhole]
  cases old with
  | none =>
    cases new with
    | none =>
      rw [habsent rfl rfl]
      rfl
    | some value => rfl
  | some previous =>
    cases new with
    | none => rfl
    | some value =>
      rw [ChangeStatus.between, ChangeStatus.lifecycle, ChangeStatus.lifecycle]
      rcases hkept previous value rfl rfl with ⟨hunchanged, hempty⟩ | ⟨hmodified, hdiffers⟩
      · rw [hunchanged]
        by_cases hsame : (previous == value) = true
        · rw [hempty.2 hsame, if_pos hsame]
          rfl
        · rw [if_neg hsame]
          have hsome : (selectPaths inside ops).isEmpty = false := by
            rw [List.isEmpty_eq_false_iff]
            exact mt hempty.1 hsame
          rw [hsome]
          rfl
      · rw [hmodified, hdiffers]
        rfl

section Kept

variable {table : String} {old new : Table} {ops : List Operation}
  (hkeeps : Keeps table old new ops)

include hkeeps

theorem Keeps.statusAt_eq (part : TablePart) {spot : TableSpot} (hpart : spot.part? = some part) :
    statusAt (.table table spot) ops =
      statusAt (.table table spot) (partSlice table old new part) := by
  have hcontains : part.contains table (.table table spot) = true := by
    rw [TablePart.contains_table, hpart, beq_self_eq_true]
  rw [← hkeeps.slice part, statusAt_selectPaths hcontains]

theorem Keeps.column_name {name : String} {previous value : Column}
    (hprevious : old.columns.get? name = some previous)
    (hvalue : new.columns.get? name = some value) : previous.name = value.name :=
  (hkeeps.oldKeyed.1.of_get? hprevious).trans (hkeeps.newKeyed.1.of_get? hvalue).symm

theorem Keeps.index_name {name : String} {previous value : Index}
    (hprevious : old.indexes.get? name = some previous)
    (hvalue : new.indexes.get? name = some value) : previous.name = value.name :=
  (hkeeps.oldKeyed.2.1.of_get? hprevious).trans (hkeeps.newKeyed.2.1.of_get? hvalue).symm

theorem Keeps.constraint_name {name : String} {previous value : Constraint}
    (hprevious : old.constraints.get? name = some previous)
    (hvalue : new.constraints.get? name = some value) : previous.name = value.name :=
  (hkeeps.oldKeyed.2.2.of_get? hprevious).trans (hkeeps.newKeyed.2.2.of_get? hvalue).symm

/-- The status of a column is the comparison of the two tables' columns. -/
theorem Keeps.columnStatus (name : String) :
    columnStatus table name ops = .between (old.columns.get? name) (new.columns.get? name) := by
  have hslice := hkeeps.slice (.column name)
  have hwhole := statusAt_column_whole hkeeps.named hkeeps.oldNamed hkeeps.newNamed
    hkeeps.newKeyed name
  refine entryStatus_of_kept hkeeps.whole ((hkeeps.statusAt_eq (.column name) rfl).trans
    hwhole) ?_ ?_
  · intro hprevious hvalue
    refine hslice.trans ?_
    rw [partSlice, partRemovals, partChanges, hprevious, hvalue]
    rfl
  · intro previous value hprevious hvalue
    have hname := hkeeps.column_name hprevious hvalue
    refine .inl ⟨rfl, ?_⟩
    rw [← columnChanges_eq_nil_iff table name hname]
    refine Eq.congr (hslice.trans ?_) rfl
    rw [partSlice, partRemovals, partChanges, hprevious, hvalue]
    rfl

theorem Keeps.indexStatus (name : String) :
    indexStatus table name ops = .between (old.indexes.get? name) (new.indexes.get? name) := by
  have hslice := hkeeps.slice (.index name)
  have hwhole := statusAt_index_whole hkeeps.named hkeeps.oldNamed hkeeps.newNamed
    hkeeps.newKeyed name
  refine entryStatus_of_kept hkeeps.whole ((hkeeps.statusAt_eq (.index name) rfl).trans
    hwhole) ?_ ?_
  · intro hprevious hvalue
    refine hslice.trans ?_
    rw [partSlice, partRemovals, partChanges, hprevious, hvalue]
    rfl
  · intro previous value hprevious hvalue
    have hname := hkeeps.index_name hprevious hvalue
    refine .inl ⟨rfl, ?_⟩
    rw [← indexChanges_eq_nil_iff table name hname]
    refine Eq.congr (hslice.trans ?_) rfl
    rw [partSlice, partRemovals, partChanges, hprevious, hvalue]
    rfl

theorem Keeps.constraintStatus (name : String) :
    constraintStatus table name ops =
      .between (old.constraints.get? name) (new.constraints.get? name) := by
  have hslice := hkeeps.slice (.constraint name)
  have hwhole := statusAt_constraint_whole hkeeps.named hkeeps.oldNamed hkeeps.newNamed
    hkeeps.newKeyed name
  refine entryStatus_of_kept hkeeps.whole ((hkeeps.statusAt_eq (.constraint name) rfl).trans
    hwhole) ?_ ?_
  · intro hprevious hvalue
    refine hslice.trans ?_
    rw [partSlice, partRemovals, partChanges, hprevious, hvalue]
    rfl
  · intro previous value hprevious hvalue
    have hname := hkeeps.constraint_name hprevious hvalue
    by_cases hkind : previous.rule.kind = value.rule.kind
    · refine .inl ⟨if_pos hkind, ?_⟩
      rw [← constraintChanges_eq_nil_iff table name hname]
      refine Eq.congr (hslice.trans ?_) rfl
      rw [partSlice, partRemovals, partChanges, hprevious, hvalue]
      simp only [constraintRemoval, hkind, bne_self_eq_false, changesOf]
      rfl
    · refine .inr ⟨if_neg hkind, ?_⟩
      rw [beq_eq_false_iff_ne]
      rintro rfl
      exact hkind rfl

/-- The status of a field compares the two columns in that field. -/
theorem Keeps.attributeStatus (name : String) (field : ColumnField) :
    attributeStatus table name field ops =
      .lifecycle (old.columns.get? name) (new.columns.get? name) fun previous value =>
        if sameField previous value field then .unchanged else .modified := by
  have hwhole := (hkeeps.statusAt_eq (.column name) rfl).trans
    (statusAt_column_whole hkeeps.named hkeeps.oldNamed hkeeps.newNamed hkeeps.newKeyed name)
  rw [Patch.attributeStatus, hkeeps.whole, hwhole, hkeeps.statusAt_eq (.column name) rfl, partSlice,
    partRemovals, partChanges]
  cases hprevious : old.columns.get? name with
  | none => cases new.columns.get? name <;> rfl
  | some previous =>
    cases hvalue : new.columns.get? name with
    | none => rfl
    | some value =>
      have hkey := hkeeps.column_name hprevious hvalue
      exact statusAt_columnChanges hkeeps.named
        (Keyed.ne_empty_of_get? hkeeps.oldNamed.1 hprevious) previous value
        hkey field

end Kept

/-! ## Tables -/

section Tables

variable {before after : Schema} (hnames : before.NoEmptyName) (hnames' : after.NoEmptyName)
  (hbefore : before.WellKeyed) (hafter : after.WellKeyed) {table : String}

include hnames hnames' hafter

theorem selectPaths_inTable (table : String) :
    selectPaths (Path.inTable table) (diff before after) =
      arranged (ownerRemovals before after (.table table))
        (ownerChanges before after (.table table)) := by
  rw [← Owner.contains_table, selectPaths_diff hnames hnames' hafter]

theorem selectPaths_inTable_of_kept {old new : Table} (hold : before.tables.get? table = some old)
    (hnew : after.tables.get? table = some new) :
    selectPaths (Path.inTable table) (diff before after) =
      arranged (tableRemovals table old new) (tableChanges table old new) := by
  rw [selectPaths_inTable hnames hnames' hafter, ownerRemovals, ownerChanges, hold, hnew]
  rfl

theorem selectPaths_inTable_of_absent (hold : before.tables.get? table = none)
    (hnew : after.tables.get? table = none) :
    selectPaths (Path.inTable table) (diff before after) = [] := by
  rw [selectPaths_inTable hnames hnames' hafter, ownerRemovals, ownerChanges, hold, hnew]
  rfl

theorem statusAt_inTable (spot : TableSpot) :
    statusAt (.table table spot) (diff before after) =
      statusAt (.table table spot) (arranged (ownerRemovals before after (.table table))
        (ownerChanges before after (.table table))) := by
  have hspot : Path.inTable table (.table table spot) = true := beq_self_eq_true _
  rw [← selectPaths_inTable hnames hnames' hafter, statusAt_selectPaths hspot]

/-- A table of both schemas is not touched as a whole. -/
theorem statusAt_table_whole (table : String) :
    statusAt (.table table .whole) (diff before after) =
      .lifecycle (before.tables.get? table) (after.tables.get? table) fun _ _ => .unchanged := by
  rw [statusAt_inTable hnames hnames' hafter, ownerRemovals, ownerChanges]
  cases hold : before.tables.get? table with
  | none =>
    cases hnew : after.tables.get? table with
    | none => rfl
    | some new =>
      have hname := Keyed.ne_empty_of_get? hnames'.1 hnew
      exact statusAt_operation (.putTable table new)
        ⟨⟨hname, trivial⟩, hafter.1.of_get? hnew⟩
  | some old =>
    have hname := Keyed.ne_empty_of_get? hnames.1 hold
    cases hnew : after.tables.get? table with
    | none => exact statusAt_operation (.removeTable table) ⟨⟨hname, trivial⟩, trivial⟩
    | some new =>
      have hedits := tableDiff_edits hname (hnames.2.2.2.of_get? hold)
        (hnames'.2.2.2.of_get? hnew) (hafter.2.2.2.of_get? hnew)
      refine statusAt_of_selectPaths_eq_nil (selectPaths_eq_nil (hedits.mono ?_))
      rintro edit ⟨part, -, change, rfl, hpart⟩
      rw [beq_eq_false_iff_ne]
      intro heq
      injection heq with _ hspot
      rw [hspot] at hpart
      cases hpart

include hbefore in
/-- The difference of two schemas keeps the slices of the tables that stay. -/
theorem keeps_diff {old new : Table} (hold : before.tables.get? table = some old)
    (hnew : after.tables.get? table = some new) : Keeps table old new (diff before after) := by
  have hnamed := Keyed.ne_empty_of_get? hnames.1 hold
  have holdNamed := hnames.2.2.2.of_get? hold
  have hnewNamed := hnames'.2.2.2.of_get? hnew
  have hnewKeyed := hafter.2.2.2.of_get? hnew
  refine ⟨hnamed, holdNamed, hnewNamed, hbefore.2.2.2.of_get? hold, hnewKeyed, ?_, ?_⟩
  · rw [statusAt_table_whole hnames hnames' hafter table, hold, hnew]
    rfl
  · intro part
    rw [← selectPaths_selectPaths (part.inTable_of_contains table),
      selectPaths_inTable_of_kept hnames hnames' hafter hold hnew,
      selectPaths_tableDiff hnamed holdNamed hnewNamed hnewKeyed, arranged_partChanges]

/-- What the status of a table leaves open is decided inside the table. -/
theorem entryStatus_diff (part : TablePart) {spot : TableSpot}
    {kept : Table → Table → ChangeStatus}
    (hkept : ∀ old new, before.tables.get? table = some old → after.tables.get? table = some new →
      entryStatus table (.table table spot) (part.contains table) (diff before after) =
        kept old new) :
    entryStatus table (.table table spot) (part.contains table) (diff before after) =
      .lifecycle (before.tables.get? table) (after.tables.get? table) kept := by
  have htable := statusAt_table_whole hnames hnames' hafter table
  cases hold : before.tables.get? table with
  | none =>
    cases hnew : after.tables.get? table with
    | none =>
      rw [hold, hnew] at htable
      rw [entryStatus, htable, statusAt_inTable hnames hnames' hafter,
        ← selectPaths_selectPaths (part.inTable_of_contains table),
        selectPaths_inTable hnames hnames' hafter, ownerRemovals, ownerChanges, hold, hnew]
      rfl
    | some new =>
      rw [hold, hnew] at htable
      rw [entryStatus, htable]
      rfl
  | some old =>
    cases hnew : after.tables.get? table with
    | none =>
      rw [hold, hnew] at htable
      rw [entryStatus, htable]
      rfl
    | some new => exact hkept old new hold hnew

/-- The status of a field, in a table that may come or go. -/
theorem attributeStatus_diff {column : String} {field : ColumnField}
    {kept : Table → Table → ChangeStatus}
    (hkept : ∀ old new, before.tables.get? table = some old → after.tables.get? table = some new →
      attributeStatus table column field (diff before after) = kept old new) :
    attributeStatus table column field (diff before after) =
      .lifecycle (before.tables.get? table) (after.tables.get? table) kept := by
  have htable := statusAt_table_whole hnames hnames' hafter table
  cases hold : before.tables.get? table with
  | none =>
    cases hnew : after.tables.get? table with
    | none =>
      rw [hold, hnew] at htable
      rw [attributeStatus, htable, statusAt_inTable hnames hnames' hafter,
        statusAt_inTable hnames hnames' hafter, ownerRemovals, ownerChanges, hold, hnew]
      rfl
    | some new =>
      rw [hold, hnew] at htable
      rw [attributeStatus, htable]
      rfl
  | some old =>
    cases hnew : after.tables.get? table with
    | none =>
      rw [hold, hnew] at htable
      rw [attributeStatus, htable]
      rfl
    | some new => exact hkept old new hold hnew

include hbefore

/-- Nothing is done inside a table of both schemas exactly when the two versions are equal. -/
theorem selectPaths_inTable_eq_nil_iff {old new : Table}
    (hold : before.tables.get? table = some old) (hnew : after.tables.get? table = some new) :
    selectPaths (Path.inTable table) (diff before after) = [] ↔ (old == new) = true := by
  rw [selectPaths_inTable_of_kept hnames hnames' hafter hold hnew]
  constructor
  · intro hnil
    obtain ⟨result, hrun, hresult⟩ := tableDiff_reach (Keyed.ne_empty_of_get? hnames.1 hold)
      (hnames.2.2.2.of_get? hold) (hnames'.2.2.2.of_get? hnew) (hbefore.2.2.2.of_get? hold)
      (hafter.2.2.2.of_get? hnew) ((hbefore.1.of_get? hold).trans (hafter.1.of_get? hnew).symm)
    rw [hnil] at hrun
    cases hrun
    exact hresult
  · intro hsame
    rw [tableRemovals_of_beq table hsame, tableChanges_of_beq table hsame]
    rfl

/-- The status of a table is the comparison of the two schemas' tables. -/
theorem tableStatus_diff (table : String) :
    tableStatus table (diff before after) =
      .between (before.tables.get? table) (after.tables.get? table) := by
  have htable := statusAt_table_whole hnames hnames' hafter table
  rw [tableStatus, htable]
  cases hold : before.tables.get? table with
  | none =>
    cases hnew : after.tables.get? table with
    | none =>
      rw [selectPaths_inTable_of_absent hnames hnames' hafter hold hnew]
      rfl
    | some new => rfl
  | some old =>
    cases hnew : after.tables.get? table with
    | none => rfl
    | some new =>
      have hempty := selectPaths_inTable_eq_nil_iff hnames hnames' hbefore hafter hold hnew
      rw [ChangeStatus.between, ChangeStatus.lifecycle, ChangeStatus.lifecycle]
      by_cases hsame : (old == new) = true
      · rw [hempty.2 hsame, if_pos hsame]
        rfl
      · have hsome : (selectPaths (Path.inTable table) (diff before after)).isEmpty = false := by
          rw [List.isEmpty_eq_false_iff]
          exact mt hempty.1 hsame
        rw [hsome, if_neg hsame]
        rfl

end Tables

/-! ## The classifier -/

/-- Given the difference between two well-keyed schemas without empty names, the classifier tells
what a comparison of the two tells: of a table from the table on either side, of an entry of a
table that is kept from the entry on either side, and of a field of a column that is kept from
whether the field differs.  Where the owner is on one side only, the owner decides. -/
theorem statuses_diff (before after : Schema) (hbefore : before.WellKeyed)
    (hafter : after.WellKeyed) (hnames : before.NoEmptyName) (hnames' : after.NoEmptyName)
    (table : String) :
    tableStatus table (diff before after) =
      .between (before.tables.get? table) (after.tables.get? table) ∧
    (∀ column, columnStatus table column (diff before after) =
      .lifecycle (before.tables.get? table) (after.tables.get? table) fun old new =>
        .between (old.columns.get? column) (new.columns.get? column)) ∧
    (∀ index, indexStatus table index (diff before after) =
      .lifecycle (before.tables.get? table) (after.tables.get? table) fun old new =>
        .between (old.indexes.get? index) (new.indexes.get? index)) ∧
    (∀ constraint, constraintStatus table constraint (diff before after) =
      .lifecycle (before.tables.get? table) (after.tables.get? table) fun old new =>
        .between (old.constraints.get? constraint) (new.constraints.get? constraint)) ∧
    ∀ column field, attributeStatus table column field (diff before after) =
      .lifecycle (before.tables.get? table) (after.tables.get? table) fun old new =>
        .lifecycle (old.columns.get? column) (new.columns.get? column) fun previous value =>
          if sameField previous value field then .unchanged else .modified := by
  have hkeeps := fun old new (hold : before.tables.get? table = some old)
      (hnew : after.tables.get? table = some new) =>
    keeps_diff hnames hnames' hbefore hafter hold hnew
  refine ⟨tableStatus_diff hnames hnames' hbefore hafter table, ?_, ?_, ?_, ?_⟩
  · intro column
    exact entryStatus_diff hnames hnames' hafter (.column column)
      fun old new hold hnew => (hkeeps old new hold hnew).columnStatus column
  · intro index
    exact entryStatus_diff hnames hnames' hafter (.index index)
      fun old new hold hnew => (hkeeps old new hold hnew).indexStatus index
  · intro constraint
    exact entryStatus_diff hnames hnames' hafter (.constraint constraint)
      fun old new hold hnew => (hkeeps old new hold hnew).constraintStatus constraint
  · intro column field
    exact attributeStatus_diff hnames hnames' hafter
      fun old new hold hnew => (hkeeps old new hold hnew).attributeStatus column field

/-- A primary key that becomes a unique constraint is modified, though it is removed and added. -/
theorem statuses_diff_slashed :
    ((slashed (.primaryKey ["id"])).WellKeyed ∧ (slashed (.unique ["id"])).WellKeyed ∧
      (slashed (.primaryKey ["id"])).NoEmptyName ∧ (slashed (.unique ["id"])).NoEmptyName) ∧
    constraintStatus "a/~b" "key"
      (diff (slashed (.primaryKey ["id"])) (slashed (.unique ["id"]))) = .modified := by
  have hhyps : (slashed (.primaryKey ["id"])).WellKeyed ∧ (slashed (.unique ["id"])).WellKeyed ∧
      (slashed (.primaryKey ["id"])).NoEmptyName ∧ (slashed (.unique ["id"])).NoEmptyName := by
    decide
  obtain ⟨hbefore, hafter, hnames, hnames'⟩ := hhyps
  refine ⟨⟨hbefore, hafter, hnames, hnames'⟩, ?_⟩
  exact (statuses_diff _ _ hbefore hafter hnames hnames' "a/~b").2.2.2.1 "key"

end SchemaEvolution.Patch
