import SchemaEvolution.Proofs.Sql.Additions

/-!
# What a migration reports

Of all changes between two schemas, a migration reports checks of columns that differ, values that
an enumerated type has lost, and settings of an extension that are gone.  Everything else has
statements.
-/

namespace SchemaEvolution

/-- The entries under the names that both collections have, in the order of the second one. -/
def Keyed.both {α : Type} (old new : Keyed α) : List (String × α × α) :=
  new.toList.filterMap fun (name, value) =>
    (old.get? name).map fun previous => (name, previous, value)

theorem Keyed.mem_both_iff {α : Type} {old new : Keyed α} {name : String} {previous value : α} :
    (name, previous, value) ∈ old.both new ↔
      old.get? name = some previous ∧ new.get? name = some value := by
  rw [both, List.mem_filterMap]
  constructor
  · rintro ⟨entry, hentry, hboth⟩
    obtain ⟨other, hother, heq⟩ := Option.map_eq_some_iff.1 hboth
    cases heq
    exact ⟨hother, get?_eq_some_iff.2 hentry⟩
  · rintro ⟨hprevious, hvalue⟩
    exact ⟨(name, value), get?_eq_some_iff.1 hvalue, by simp [hprevious]⟩

namespace Sql

open Patch (Edit Operation EditsIn Path changes diff)

def checkReports (table name : String) (old new : Column) : List MigrationError :=
  if old.check ≠ new.check then
    [.unsupported (Path.table table (.column name (.field .check))).text .columnCheck]
  else []

def valueReports (name : String) (old new : EnumType) : List MigrationError :=
  if ∃ value ∈ old.values, value ∉ new.values then
    [.unsupported (Path.enumType name (.field .values)).text .enumValueDropped]
  else []

def settingReports (name : String) (old new : Extension) : List MigrationError :=
  (if old.schema ≠ none ∧ new.schema = none then
    [.unsupported (Path.extension name (.field .schema)).text .extensionCleared]
  else []) ++
  if old.version ≠ none ∧ new.version = none then
    [.unsupported (Path.extension name (.field .version)).text .extensionCleared]
  else []

/-- The checks of the columns of a table that are not what they were. -/
def columnReports (table : String) (old new : Table) : List MigrationError :=
  (old.columns.both new.columns).flatMap fun (name, previous, value) =>
    checkReports table name previous value

/-- All that has no statement between two schemas. -/
def reports (before after : Schema) : List MigrationError :=
  ((before.extensions.both after.extensions).flatMap fun (name, old, new) =>
    settingReports name old new) ++
  ((before.enums.both after.enums).flatMap fun (name, old, new) => valueReports name old new) ++
  (before.tables.both after.tables).flatMap fun (table, old, new) => columnReports table old new

section Members

variable {before after : Schema} {error : MigrationError}

theorem mem_reports_iff : error ∈ reports before after ↔
    (∃ name old new, before.extensions.get? name = some old ∧
      after.extensions.get? name = some new ∧ error ∈ settingReports name old new) ∨
    (∃ name old new, before.enums.get? name = some old ∧ after.enums.get? name = some new ∧
      error ∈ valueReports name old new) ∨
    ∃ table old new name previous value, before.tables.get? table = some old ∧
      after.tables.get? table = some new ∧ old.columns.get? name = some previous ∧
      new.columns.get? name = some value ∧ error ∈ checkReports table name previous value := by
  simp only [reports, columnReports, List.mem_append, List.mem_flatMap, Prod.exists,
    Keyed.mem_both_iff, and_assoc, or_assoc, exists_and_left]

/-- There are three reasons to report what cannot be done. -/
theorem eq_unsupported_of_mem_reports (hmem : error ∈ reports before after) :
    ∃ path reason, error = .unsupported path reason ∧
      (reason = .extensionCleared ∨ reason = .enumValueDropped ∨ reason = .columnCheck) := by
  have hreport {condition : Prop} [Decidable condition] {path : String} {reason : NoStatement}
      (hmem : error ∈ if condition then [.unsupported path reason] else []) :
      error = .unsupported path reason := by
    split at hmem
    · exact List.mem_singleton.1 hmem
    · cases hmem
  rcases mem_reports_iff.1 hmem with ⟨name, old, new, -, -, hmem⟩ | ⟨name, old, new, -, -, hmem⟩ |
    ⟨table, old, new, name, previous, value, -, -, -, -, hmem⟩
  · rcases List.mem_append.1 hmem with hmem | hmem
    · exact ⟨_, _, hreport hmem, .inl rfl⟩
    · exact ⟨_, _, hreport hmem, .inl rfl⟩
  · exact ⟨_, _, hreport hmem, .inr (.inl rfl)⟩
  · exact ⟨_, _, hreport hmem, .inr (.inr rfl)⟩

end Members

def errorsOf (span : Span) (op : Operation) : List MigrationError :=
  match operationStatements span op with
  | .ok _ => []
  | .error error => [error]

theorem migration_errors (before : Schema) (ops : List Operation) :
    (migration before ops).errors = ops.flatMap (errorsOf (spanOf before ops)) := by
  change (ops.map (operationStatements (spanOf before ops))).filterMap _ = _
  rw [List.filterMap_map, List.filterMap_eq_flatMap_toList]
  refine List.flatMap_congr fun op _ => ?_
  rw [errorsOf, Function.comp_apply]
  cases operationStatements (spanOf before ops) op <;> rfl

section Edits

variable {span : Span}

theorem errorsOf_operation {edit : Edit} (hwritable : edit.Writable) :
    errorsOf span edit.operation = match editStatements span edit with
      | .ok _ => []
      | .error reason => [.unsupported edit.path.text reason] := by
  rw [errorsOf, operationStatements_of_edit (Edit.edit_operation hwritable)]
  cases editStatements span edit <;> rfl

theorem errorsOf_eq_nil_of_supported {edit : Edit} (hwritable : edit.Writable)
    (hsupported : ¬Unsupported span edit) : errorsOf span edit.operation = [] := by
  rw [errorsOf_operation hwritable]
  cases hstatements : editStatements span edit with
  | ok statements => rfl
  | error reason =>
    exact absurd ((editStatements_traced span edit).error_iff.1 ⟨reason, hstatements⟩) hsupported

theorem flatMap_errorsOf_eq_nil {ops : List Operation}
    (hedits : EditsIn (fun edit => ¬Unsupported span edit) ops) :
    ops.flatMap (errorsOf span) = [] := by
  refine List.flatMap_eq_nil_iff.2 fun op hop => ?_
  obtain ⟨edit, rfl, hwritable, hsupported⟩ := hedits op hop
  exact errorsOf_eq_nil_of_supported hwritable hsupported

/-- A field that is replaced has the errors of its edit. -/
theorem flatMap_errorsOf_replaceField {α : Type} [BEq α] (edit : Edit) (view : α → Json)
    (old new : α) (haction : edit.action = .replace (view new)) :
    (Patch.replaceField edit.path view old new).flatMap (errorsOf span) =
      if old == new then [] else errorsOf span edit.operation := by
  rw [Patch.replaceField]
  split
  · rfl
  · rw [List.flatMap_singleton, Edit.operation, haction, Operation.replace]

/-- Along a collection, where entries that are new have no error. -/
theorem flatMap_errorsOf_entryChanges {α : Type} {old new : Keyed α}
    {added : String → α → List Operation} {changed : String → α → α → List Operation}
    {part : String × α × α → List MigrationError}
    (hadded : ∀ name value, new.get? name = some value →
      EditsIn (fun edit => ¬Unsupported span edit) (added name value))
    (hchanged : ∀ name previous value, old.get? name = some previous →
      new.get? name = some value →
      (changed name previous value).flatMap (errorsOf span) = part (name, previous, value)) :
    (Patch.entryChanges old new added changed).flatMap (errorsOf span) =
      (old.both new).flatMap part := by
  rw [Patch.entryChanges, List.flatMap_assoc, Keyed.both, List.filterMap_eq_flatMap_toList,
    List.flatMap_assoc]
  refine List.flatMap_congr fun entry hentry => ?_
  have hvalue := Keyed.get?_eq_some_iff.2 hentry
  cases hprevious : old.get? entry.1 with
  | none =>
    simp only [hprevious, Option.map_none, Option.toList_none, List.flatMap_nil]
    exact flatMap_errorsOf_eq_nil (hadded entry.1 entry.2 hvalue)
  | some previous =>
    simp only [hprevious, Option.map_some, Option.toList_some, List.flatMap_singleton]
    exact hchanged entry.1 previous entry.2 hprevious hvalue

/-- A field whose replacement is supported has no error. -/
theorem flatMap_errorsOf_supported {α : Type} [BEq α] (edit : Edit) (view : α → Json) (old new : α)
    (haction : edit.action = .replace (view new)) (hwritable : edit.Writable)
    (hsupported : ¬Unsupported span edit) :
    (Patch.replaceField edit.path view old new).flatMap (errorsOf span) = [] :=
  flatMap_errorsOf_eq_nil (.replaceField edit haction hwritable hsupported)

theorem flatMap_append_of {α β : Type} {front back : List α} {f : α → List β}
    {first second : List β} (hfront : front.flatMap f = first) (hback : back.flatMap f = second) :
    (front ++ back).flatMap f = first ++ second := by
  rw [List.flatMap_append, hfront, hback]

/-- The changes of a column report its check, if that differs. -/
theorem flatMap_errorsOf_columnChanges {table name : String} (htable : table ≠ "")
    (hname : name ≠ "") (old new : Column) :
    (Patch.columnChanges table name old new).flatMap (errorsOf span) =
      checkReports table name old new := by
  have hwritable (edit : Patch.ColumnEdit) : (Edit.table table (.column name edit)).Writable :=
    ⟨⟨htable, hname⟩, trivial⟩
  have hcheck : (Patch.replaceField (Path.table table (.column name (.field .check))) optionalText
      old.check new.check).flatMap (errorsOf span) = checkReports table name old new := by
    refine (flatMap_errorsOf_replaceField (.table table (.column name (.check new.check)))
      optionalText _ _ rfl).trans ?_
    rw [errorsOf_operation (hwritable _), checkReports]
    by_cases hsame : old.check = new.check
    · rw [if_pos (beq_iff_eq.2 hsame), if_neg (not_not.2 hsame)]
    · rw [if_neg (by simpa using hsame), if_pos hsame]
      rfl
  have hnone {α : Type} [BEq α] (edit : Patch.ColumnEdit) (view : α → Json) (old new : α)
      (haction : edit.document = view new) (hfield : edit.field ≠ .check) :
      (Patch.replaceField (Path.table table (.column name (.field edit.field))) view old
        new).flatMap (errorsOf span) = [] :=
    flatMap_errorsOf_supported (.table table (.column name edit)) view old new
      (congrArg Patch.Action.replace haction) (hwritable edit) hfield
  have hall := flatMap_append_of (flatMap_append_of (flatMap_append_of (flatMap_append_of
    (hnone (.type new.type) .string old.type new.type rfl nofun)
    (hnone (.default new.default) optionalDefault old.default _ rfl nofun))
    (hnone (.notNull new.notNull) .bool old.notNull _ rfl nofun)) hcheck)
    (hnone (.comment new.comment) optionalText old.comment _ rfl nofun)
  exact hall.trans (List.append_nil _)

theorem editStatements_values_of_lost {name : String} {values : List String}
    (hlost : ∃ value ∈ span.valuesBefore name, value ∉ values) :
    editStatements span (.enumType name (.values values)) = .error .enumValueDropped := by
  have hstatements : editStatements span (.enumType name (.values values)) =
      if (span.valuesBefore name).all values.contains then
        .ok ((values.filter fun value => !(span.valuesBefore name).contains value).map
          (.addEnumValue name))
      else .error .enumValueDropped := rfl
  rw [hstatements, if_neg]
  simpa using hlost

/-- The changes of an enum report the values that are gone. -/
theorem flatMap_errorsOf_enumChanges {name : String} (hname : name ≠ "") {old : EnumType}
    (hold : span.before.enums.get? name = some old) (new : EnumType) :
    (Patch.enumChanges name old new).flatMap (errorsOf span) = valueReports name old new := by
  have hwritable : (Edit.enumType name (.values new.values)).Writable :=
    ⟨⟨hname, trivial⟩, trivial⟩
  have hvalues : (Patch.replaceField (Path.enumType name (.field .values)) texts old.values
      new.values).flatMap (errorsOf span) = valueReports name old new := by
    refine (flatMap_errorsOf_replaceField (.enumType name (.values new.values)) texts _ _
      rfl).trans ?_
    have hbefore : span.valuesBefore name = old.values := by rw [Span.valuesBefore, hold]
    rw [valueReports, ← hbefore]
    by_cases hlost : ∃ value ∈ span.valuesBefore name, value ∉ new.values
    · have hne : span.valuesBefore name ≠ new.values := by
        obtain ⟨value, hmem, hgone⟩ := hlost
        exact fun hsame => hgone (hsame ▸ hmem)
      rw [if_pos hlost, if_neg (by simpa using hne), errorsOf_operation hwritable,
        editStatements_values_of_lost hlost]
      rfl
    · rw [if_neg hlost, errorsOf_eq_nil_of_supported hwritable hlost, ite_self]
  have hcomment : (Patch.replaceField (Path.enumType name (.field .comment)) optionalText
      old.comment new.comment).flatMap (errorsOf span) = [] :=
    flatMap_errorsOf_supported (.enumType name (.comment new.comment)) optionalText _ _ rfl
      ⟨⟨hname, trivial⟩, trivial⟩ id
  exact (flatMap_append_of hvalues hcomment).trans (List.append_nil _)

/-- A setting of an extension has an error when it is cleared. -/
theorem flatMap_errorsOf_setting (span : Span) {name : String} (hname : name ≠ "")
    (edit : Option String → Patch.ExtensionEdit)
    (hdocument : ∀ text, (edit text).document = optionalText text)
    (hsome : ∀ text, ¬Unsupported span (.extension name (edit (some text))))
    (hnone : editStatements span (.extension name (edit none)) = .error .extensionCleared)
    (old new : Option String) :
    (Patch.replaceField (Path.extension name (.field (edit new).field)) optionalText old
      new).flatMap (errorsOf span) =
      if old ≠ none ∧ new = none then
        [.unsupported (Path.extension name (.field (edit new).field)).text .extensionCleared]
      else [] := by
  have haction : (Edit.extension name (edit new)).action = .replace (optionalText new) :=
    congrArg Patch.Action.replace (hdocument new)
  have hwritable : (Edit.extension name (edit new)).Writable := ⟨hname, trivial⟩
  cases new with
  | some text =>
    rw [if_neg (by simp)]
    exact flatMap_errorsOf_supported _ optionalText _ _ haction hwritable (hsome text)
  | none =>
    refine (flatMap_errorsOf_replaceField _ optionalText _ _ haction).trans ?_
    rw [errorsOf_operation hwritable, hnone]
    cases old <;> rfl

/-- The changes of an extension report what has been cleared. -/
theorem flatMap_errorsOf_extensionChanges {name : String} (hname : name ≠ "")
    (old new : Extension) :
    (Patch.extensionChanges name old new).flatMap (errorsOf span) =
      settingReports name old new := by
  have hschema := flatMap_errorsOf_setting span hname .schema (fun _ => rfl)
    (by simp [Unsupported]) rfl old.schema new.schema
  have hversion := flatMap_errorsOf_setting span hname .version (fun _ => rfl)
    (by simp [Unsupported]) rfl old.version new.version
  have hcomment : (Patch.replaceField (Path.extension name (.field .comment)) optionalText
      old.comment new.comment).flatMap (errorsOf span) = [] :=
    flatMap_errorsOf_supported (.extension name (.comment new.comment)) optionalText _ _ rfl
      ⟨hname, trivial⟩ (by simp [Unsupported])
  exact (flatMap_append_of (flatMap_append_of hschema hversion) hcomment).trans
    (List.append_nil _)

theorem supported_of_inside_index {table name : String}
    (hafter : span.indexAfter table name ≠ none) {edit : Edit}
    (hinside : edit.Inside table (.index name)) : ¬Unsupported span edit := by
  obtain ⟨-, change, rfl, hpart⟩ := hinside
  cases change with
  | index key edit =>
    cases hpart
    exact fun hunsupported => hafter hunsupported.2
  | putIndex | removeIndex => exact id
  | _ => cases hpart

theorem supported_of_inside_constraint {table name : String}
    (hafter : span.after.constraint? table name ≠ none) {edit : Edit}
    (hinside : edit.Inside table (.constraint name)) : ¬Unsupported span edit := by
  obtain ⟨-, change, rfl, hpart⟩ := hinside
  cases change with
  | constraint key edit =>
    cases hpart
    exact fun hunsupported => hafter hunsupported.2
  | putConstraint | removeConstraint => exact id
  | _ => cases hpart

/-- No removal inside of a table is unsupported. -/
theorem tableRemovals_supported {table : String} (htable : table ≠ "") {old : Table}
    (hold : old.NoEmptyName) (new : Table) :
    EditsIn (fun edit => ¬Unsupported span edit) (Patch.tableRemovals table old new) := by
  refine (EditsIn.append ?_ ?_).append ?_
  · exact .map_names (fun name => .table table (.removeConstraint name)) fun name hmem =>
      ⟨rfl, ⟨⟨htable, Patch.ne_empty_of_mem hold.2.2 (Patch.mem_goneConstraints hmem), trivial⟩,
        trivial⟩, id⟩
  · exact .map_names (fun name => .table table (.removeIndex name)) fun name hmem =>
      ⟨rfl, ⟨⟨htable, Patch.ne_empty_of_mem hold.2.1 (Patch.mem_goneNames hmem), trivial⟩,
        trivial⟩, id⟩
  · exact .map_names (fun name => .table table (.removeColumn name)) fun name hmem =>
      ⟨rfl, ⟨⟨htable, Patch.ne_empty_of_mem hold.1 (Patch.mem_goneNames hmem)⟩, trivial⟩, id⟩

/-- No removal is unsupported. -/
theorem removals_supported {old : Schema} (hold : old.NoEmptyName) (new : Schema) :
    EditsIn (fun edit => ¬Unsupported span edit) (Patch.removals old new) := by
  refine ((EditsIn.append ?_ ?_).append ?_).append ?_
  · intro op hop
    obtain ⟨entry, hentry, hmem⟩ := List.mem_flatMap.1 hop
    have hvalue := Keyed.get?_eq_some_iff.2 hentry
    cases hkept : new.tables.get? entry.1 with
    | none => simp [hkept] at hmem
    | some table =>
      simp only [hkept] at hmem
      exact tableRemovals_supported (Keyed.ne_empty_of_get? hold.1 hvalue)
        (hold.2.2.2.of_get? hvalue) table op hmem
  · exact .map_names .removeTable fun name hmem =>
      ⟨rfl, ⟨⟨Patch.ne_empty_of_mem hold.1 (Patch.mem_goneNames hmem), trivial⟩, trivial⟩, id⟩
  · exact .map_names .removeEnum fun name hmem =>
      ⟨rfl, ⟨⟨Patch.ne_empty_of_mem hold.2.1 (Patch.mem_goneNames hmem), trivial⟩, trivial⟩, id⟩
  · exact .map_names .removeExtension fun name hmem =>
      ⟨rfl, ⟨Patch.ne_empty_of_mem hold.2.2.1 (Patch.mem_goneNames hmem), trivial⟩, id⟩

end Edits

/-! ## The errors of a migration -/

section Migration

variable {before after : Schema} (hbefore : before.WellKeyed) (hafter : after.WellKeyed)
  (hnames : before.NoEmptyName) (hnames' : after.NoEmptyName)

include hafter hnames hnames'

/-- Removals and adds have no error. -/
theorem flatMap_errorsOf_diff :
    (diff before after).flatMap (errorsOf (spanBetween before after)) =
      (changes before after).flatMap (errorsOf (spanBetween before after)) := by
  have hremovals : (Patch.removals before after).flatMap (errorsOf (spanBetween before after)) =
      [] := flatMap_errorsOf_eq_nil (removals_supported hnames after)
  have hadded : ∀ op ∈ changes before after, op.verb = .add →
      errorsOf (spanBetween before after) op = [] := by
    intro op hop hadd
    obtain ⟨edit, rfl, hwritable, hputs⟩ := changes_puts hnames' hafter op hop
    exact errorsOf_eq_nil_of_supported hwritable (hputs hadd).supported
  have hadds : ((changes before after).filter fun op => op.verb == .add).flatMap
      (errorsOf (spanBetween before after)) = [] := by
    refine List.flatMap_eq_nil_iff.2 fun op hop => ?_
    obtain ⟨hmem, hadd⟩ := List.mem_filter.1 hop
    exact hadded op hmem (beq_iff_eq.1 hadd)
  rw [diff, List.flatMap_append, List.flatMap_append, hremovals, hadds, List.nil_append,
    List.nil_append, Patch.flatMap_filter]
  refine List.flatMap_congr fun op hop => ?_
  cases hverb : op.verb with
  | add => exact (hadded op hop hverb).symm
  | remove => exact absurd hverb (Patch.changes_verb_ne_remove before after op hop)
  | replace => rfl

include hbefore

theorem indexAfter_spanBetween (table name : String) :
    (spanBetween before after).indexAfter table name =
      (after.tables.get? table).bind fun owner => owner.indexes.get? name :=
  Schema.entry?_of_beq (fun old new hbeq => ((Table.beq_iff old new).1 hbeq).2.2.2.1)
    (after_spanBetween hbefore hafter hnames hnames') table name

/-- Of the changes of a table those of the checks of its columns have errors: what an index or a
constraint is in the end is there to recreate it. -/
theorem flatMap_errorsOf_tableChanges {table : String} (old : Table) {new : Table}
    (hnew : after.tables.get? table = some new) :
    (Patch.tableChanges table old new).flatMap (errorsOf (spanBetween before after)) =
      columnReports table old new := by
  have htable := Keyed.ne_empty_of_get? hnames'.1 hnew
  have hentries := hnames'.2.2.2.of_get? hnew
  have hnamed := hafter.2.2.2.of_get? hnew
  have hcomment : (Patch.replaceField (Path.table table (.field .comment)) optionalText old.comment
      new.comment).flatMap (errorsOf (spanBetween before after)) = [] :=
    flatMap_errorsOf_supported (.table table (.comment new.comment)) optionalText _ _ rfl
      ⟨⟨htable, trivial⟩, trivial⟩ id
  have hindexes : EditsIn (fun edit => ¬Unsupported (spanBetween before after) edit)
      (Patch.entryChanges old.indexes new.indexes
        (fun index value => [.add (.table table (.index index .whole)) value.toJson])
        (Patch.indexChanges table)) := by
    refine .entryChanges (fun name value hvalue => ?_) fun name previous value _ hvalue => ?_
    · exact .singleton (.table table (.putIndex name value))
        ⟨⟨htable, Keyed.ne_empty_of_get? hentries.2.1 hvalue, trivial⟩,
          hnamed.2.1.of_get? hvalue⟩ id
    · have hsome : (spanBetween before after).indexAfter table name ≠ none := by
        rw [indexAfter_spanBetween hbefore hafter hnames hnames', hnew, Option.bind_some, hvalue]
        exact Option.some_ne_none value
      exact (Patch.indexChanges_edits htable (Keyed.ne_empty_of_get? hentries.2.1 hvalue) previous
        value).mono fun _ => supported_of_inside_index hsome
  have hconstraints : EditsIn (fun edit => ¬Unsupported (spanBetween before after) edit)
      (Patch.entryChanges old.constraints new.constraints
        (fun constraint value => [.add (.table table (.constraint constraint .whole)) value.toJson])
        (Patch.constraintChanges table)) := by
    refine .entryChanges (fun name value hvalue => ?_) fun name previous value _ hvalue => ?_
    · exact .singleton (.table table (.putConstraint name value))
        ⟨⟨htable, Keyed.ne_empty_of_get? hentries.2.2 hvalue, trivial⟩,
          hnamed.2.2.of_get? hvalue⟩ id
    · have hsome : (spanBetween before after).after.constraint? table name ≠ none := by
        rw [constraint?_spanBetween hbefore hafter hnames hnames', Schema.constraint?, hnew,
          Option.bind_some, hvalue]
        exact Option.some_ne_none value
      exact (Patch.constraintChanges_edits htable (Keyed.ne_empty_of_get? hentries.2.2 hvalue)
        previous (hnamed.2.2.of_get? hvalue)).mono fun _ => supported_of_inside_constraint hsome
  have hcolumns : (Patch.entryChanges old.columns new.columns
      (fun column value => [.add (.table table (.column column .whole)) value.toJson])
      (Patch.columnChanges table)).flatMap (errorsOf (spanBetween before after)) =
        columnReports table old new := by
    refine flatMap_errorsOf_entryChanges (fun name value hvalue => ?_)
      fun name previous value _ hvalue => ?_
    · exact .singleton (.table table (.putColumn name value))
        ⟨⟨htable, Keyed.ne_empty_of_get? hentries.1 hvalue⟩, hnamed.1.of_get? hvalue⟩ id
    · exact flatMap_errorsOf_columnChanges htable (Keyed.ne_empty_of_get? hentries.1 hvalue)
        previous value
  have hall := flatMap_append_of (flatMap_append_of (flatMap_append_of hcomment hcolumns)
    (flatMap_errorsOf_eq_nil hindexes)) (flatMap_errorsOf_eq_nil hconstraints)
  rw [List.nil_append, List.append_nil, List.append_nil] at hall
  exact hall

/-- The errors of the changes are the reports, in their order. -/
theorem flatMap_errorsOf_changes :
    (changes before after).flatMap (errorsOf (spanBetween before after)) =
      reports before after := by
  refine flatMap_append_of (flatMap_append_of ?_ ?_) ?_
  · refine flatMap_errorsOf_entryChanges (fun name value hvalue => ?_)
      fun name previous value _ hvalue => ?_
    · exact .singleton (.putExtension name value)
        ⟨Keyed.ne_empty_of_get? hnames'.2.2.1 hvalue, hafter.2.2.1.of_get? hvalue⟩ id
    · exact flatMap_errorsOf_extensionChanges (Keyed.ne_empty_of_get? hnames'.2.2.1 hvalue)
        previous value
  · refine flatMap_errorsOf_entryChanges (fun name value hvalue => ?_)
      fun name previous value hprevious hvalue => ?_
    · exact .singleton (.putEnum name value)
        ⟨⟨Keyed.ne_empty_of_get? hnames'.2.1 hvalue, trivial⟩, hafter.2.1.of_get? hvalue⟩ id
    · exact flatMap_errorsOf_enumChanges (Keyed.ne_empty_of_get? hnames'.2.1 hvalue) hprevious
        value
  · refine flatMap_errorsOf_entryChanges (fun name value hvalue => ?_)
      fun name previous value _ hvalue => ?_
    · exact .singleton (.putTable name value)
        ⟨⟨Keyed.ne_empty_of_get? hnames'.1 hvalue, trivial⟩, hafter.1.of_get? hvalue⟩ id
    · exact flatMap_errorsOf_tableChanges hbefore hafter hnames hnames' previous hvalue

/-- A migration reports, in order, the settings of extensions that are cleared, the types that lose
a value, and the columns whose check differs, each once; nothing else is reported.  So no operation
is refused, and every index and constraint that is to be recreated is found. -/
theorem errors_migrationBetween :
    (migrationBetween before after).errors = reports before after ∧
    ∀ error ∈ (migrationBetween before after).errors, ∃ path reason,
      error = .unsupported path reason ∧
        (reason = .extensionCleared ∨ reason = .enumValueDropped ∨ reason = .columnCheck) := by
  have herrors : (migrationBetween before after).errors = reports before after := by
    rw [migrationBetween, migration_errors]
    exact (flatMap_errorsOf_diff hafter hnames hnames').trans
      (flatMap_errorsOf_changes hbefore hafter hnames hnames')
  exact ⟨herrors, fun error hmem => eq_unsupported_of_mem_reports (herrors ▸ hmem)⟩

end Migration

/-- A table with a checked and indexed column, a type and an extension. -/
def recorded (check : String) (unique : Bool) (values : List String)
    (setting : Option String) : Schema :=
  let table := ((Table.empty "t").addColumn
    { Column.plain "v" "bigint" with check := some check }).addIndex ⟨"i", unique, ["v"], "btree"⟩
  ((Schema.empty.addTable table).addEnum ⟨"mood", values, none⟩).addExtension
    ⟨"crypto", setting, setting, none⟩

/-- An index that changes, and all that has no statement. -/
theorem errors_migrationBetween_recorded :
    let before := recorded "v > 0" false ["sad", "ok"] (some "old")
    let after := recorded "v > 1" true ["ok"] none
    (before.WellKeyed ∧ after.WellKeyed ∧ before.NoEmptyName ∧ after.NoEmptyName) ∧
    (migrationBetween before after).errors =
      [.unsupported "/extensions/crypto/schema" .extensionCleared,
        .unsupported "/extensions/crypto/version" .extensionCleared,
        .unsupported "/enums/mood/values" .enumValueDropped,
        .unsupported "/tables/t/columns/v/check" .columnCheck] := by
  intro before after
  have hhyps : before.WellKeyed ∧ after.WellKeyed ∧ before.NoEmptyName ∧ after.NoEmptyName := by
    decide
  obtain ⟨hbefore, hafter, hnames, hnames'⟩ := hhyps
  refine ⟨⟨hbefore, hafter, hnames, hnames'⟩, ?_⟩
  exact (errors_migrationBetween hbefore hafter hnames hnames').1.trans rfl

end Sql

end SchemaEvolution
