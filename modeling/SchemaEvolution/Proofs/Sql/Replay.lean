import SchemaEvolution.Proofs.Sql.Footprint

/-!
# Running a migration

The script of a migration, object by object: what it does to a table, a column, a constraint or
a type comes from the operations on that object, and from it follows when the script runs over
the objects of the schema that it starts from.
-/

namespace SchemaEvolution.Sql

open Patch (Edit TableEdit ConstraintEdit Operation Owner TablePart EditsIn selectPaths diff arranged
  removalOf changesOf ownerRemovals ownerChanges partRemovals partChanges)

/-- What stays of a list of lists does not depend on items that add nothing to it. -/
theorem filter_flatMap_select {α β : Type} (f : α → List β) (p : β → Bool) (keep : α → Bool)
    {items : List α} (hother : ∀ item ∈ items, keep item = false → (f item).filter p = []) :
    (items.flatMap f).filter p = ((items.filter keep).flatMap f).filter p := by
  induction items with
  | nil => rfl
  | cons item rest ih =>
    have hrest := ih fun other hmem => hother other (List.mem_cons_of_mem _ hmem)
    rw [List.flatMap_cons, List.filter_append, hrest]
    cases hkeep : keep item with
    | true => rw [List.filter_cons_of_pos hkeep, List.flatMap_cons, List.filter_append]
    | false =>
      rw [List.filter_cons_of_neg (by simp [hkeep]), hother item List.mem_cons_self hkeep,
        List.nil_append]

theorem filter_foreignKeysLast (p : Statement → Bool) (statements : List Statement) :
    (foreignKeysLast statements).filter p = foreignKeysLast (statements.filter p) := by
  simp only [foreignKeysLast, List.filter_append, List.filter_filter, Bool.and_comm]

theorem foreignKeysLast_append {front : List Statement}
    (hnone : ∀ statement ∈ front, statement.isForeignKey = false) (back : List Statement) :
    foreignKeysLast (front ++ back) = front ++ foreignKeysLast back := by
  have hall := List.filter_eq_self.2 fun statement hmem =>
    (congrArg not (hnone statement hmem)).trans Bool.not_false
  have hnothing := List.filter_eq_nil_iff.2 fun statement hmem =>
    Bool.eq_false_iff.1 (hnone statement hmem)
  rw [foreignKeysLast, List.filter_append, List.filter_append, hall, hnothing, List.nil_append,
    List.append_assoc, foreignKeysLast]

theorem foreignKeysLast_eq_self {statements : List Statement}
    (hnone : ∀ statement ∈ statements, statement.isForeignKey = false) :
    foreignKeysLast statements = statements := by
  have hnothing : foreignKeysLast [] = [] := rfl
  rw [← List.append_nil statements, foreignKeysLast_append hnone, hnothing]

/-- What a script made of some statements does to one object. -/
def runObject (object : Object) (statements : List Statement) (present : Bool) : Option Bool :=
  (foreignKeysLast (statements.filter (Statement.touches object))).foldlM
    (Statement.effect object) present

/-- The schemas before and after the difference of two schemas. -/
def spanBetween (before after : Schema) : Span :=
  ⟨before, (Patch.applyAll before (diff before after)).schema⟩

section Migration

variable {before after : Schema} (hbefore : before.WellKeyed) (hafter : after.WellKeyed)
  (hnames : before.NoEmptyName) (hnames' : after.NoEmptyName)

include hbefore hafter hnames hnames'

theorem after_spanBetween : ((spanBetween before after).after == after) = true := by
  obtain ⟨result, hrun, hresult⟩ := Patch.diff_reach hnames hnames' hbefore hafter
  have hall : Patch.applyAll before (diff before after) = ⟨result, []⟩ :=
    Patch.foldl_step_of_foldlM hrun []
  rw [spanBetween, hall]
  exact hresult

theorem constraint?_spanBetween (table name : String) :
    (spanBetween before after).after.constraint? table name = after.constraint? table name :=
  Schema.constraint?_of_beq (after_spanBetween hbefore hafter hnames hnames') table name

theorem name_of_constraintAfter (table name : String) (constraint : Constraint)
    (hconstraint : (spanBetween before after).after.constraint? table name = some constraint) :
    constraint.name = name := by
  rw [constraint?_spanBetween hbefore hafter hnames hnames', Schema.constraint?,
    Option.bind_eq_some_iff] at hconstraint
  obtain ⟨owner, howner, hvalue⟩ := hconstraint
  exact (hafter.2.2.2.of_get? howner).2.2.of_get? hvalue

theorem statementsOf_staysWith {op : Operation} (hop : op ∈ diff before after) :
    ∃ edit : Edit, op = edit.operation ∧ edit.Writable ∧
      ∀ statement ∈ statementsOf (spanBetween before after) op,
        statement.StaysWith edit.path.owner := by
  obtain ⟨edit, rfl, hwritable, hplace⟩ := Patch.diff_edits hnames hnames' hafter op hop
  refine ⟨edit, rfl, hwritable, ?_⟩
  rw [statementsOf_operation _ hwritable, editsTo]
  split
  · next statements hstatements =>
    exact editStatements_staysWith hwritable hplace
      (name_of_constraintAfter hbefore hafter hnames hnames') hstatements
  · rintro statement ⟨⟩

/-- The statements of a migration that touch an object come from the operations on its owner. -/
theorem filter_touches_migration (object : Object) :
    (migrationBetween before after).statements.filter (Statement.touches object) =
      foreignKeysLast (((arranged (ownerRemovals before after object.owner)
        (ownerChanges before after object.owner)).flatMap
          (statementsOf (spanBetween before after))).filter (Statement.touches object)) := by
  rw [migrationBetween, migration_statements, filter_foreignKeysLast,
    ← Patch.selectPaths_diff hnames hnames' hafter, selectPaths,
    ← filter_flatMap_select _ _ fun op : Operation => op.path?.any object.owner.contains]
  · rfl
  · intro op hop hkeep
    obtain ⟨edit, rfl, hwritable, hstays⟩ :=
      statementsOf_staysWith hbefore hafter hnames hnames' hop
    rw [hwritable.path?] at hkeep
    have hother : edit.path.owner ≠ object.owner := by
      intro heq
      simp [Owner.contains, heq] at hkeep
    rw [List.filter_eq_nil_iff]
    intro statement hmem htouch
    exact hother ((hstays statement hmem).2 object htouch).symm

/-- What a migration does to an object comes from the operations on its owner. -/
theorem runPart_migration (object : Object) (present : Bool) :
    Parts.runPart Statement.touches Statement.effect object
        (migrationBetween before after).statements present =
      runObject object ((arranged (ownerRemovals before after object.owner)
        (ownerChanges before after object.owner)).flatMap
          (statementsOf (spanBetween before after))) present := by
  rw [Parts.runPart, filter_touches_migration hbefore hafter hnames hnames', runObject]

theorem renames_migration {statement : Statement}
    (hmem : statement ∈ (migrationBetween before after).statements) :
    statement.renames = false := by
  rw [migrationBetween, migration_statements, foreignKeysLast] at hmem
  have hall : statement ∈ (diff before after).flatMap (statementsOf (spanBetween before after)) := by
    rcases List.mem_append.1 hmem with hmem | hmem
    · exact (List.mem_filter.1 hmem).1
    · exact (List.mem_filter.1 hmem).1
  obtain ⟨op, hop, hmem⟩ := List.mem_flatMap.1 hall
  obtain ⟨edit, rfl, -, hstays⟩ := statementsOf_staysWith hbefore hafter hnames hnames' hop
  exact (hstays statement hmem).1

section Kept

variable {table : String} {old new : Table} (hold : before.tables.get? table = some old)
  (hnew : after.tables.get? table = some new)

include hold hnew

/-- Each operation inside of a kept table edits one part, and its statements stay in that part. -/
theorem insideStatements_stayIn {op : Operation}
    (hop : op ∈ arranged (Patch.tableRemovals table old new) (Patch.tableChanges table old new)) :
    ∃ change : TableEdit, op = (Edit.table table change).operation ∧
      (Edit.table table change).Writable ∧ ∃ part, change.spot.part? = some part ∧
        ∀ statement ∈ statementsOf (spanBetween before after) op, statement.StaysIn table part := by
  have htable := Keyed.ne_empty_of_get? hnames.1 hold
  obtain ⟨edit, rfl, hwritable, part, hplace, change, rfl, hpart⟩ :=
    Patch.tableDiff_edits htable (hnames.2.2.2.of_get? hold) (hnames'.2.2.2.of_get? hnew)
      (hafter.2.2.2.of_get? hnew) op hop
  refine ⟨change, rfl, hwritable, part, hpart, ?_⟩
  rw [statementsOf_operation _ hwritable, editsTo]
  split
  · next statements hstatements =>
    refine tableStatements_staysIn hpart hplace hwritable.2 ?_ hstatements
    exact name_of_constraintAfter hbefore hafter hnames hnames' table
  · rintro statement ⟨⟩

/-- Nothing happens to a table of both schemas itself. -/
theorem runObject_of_part_none {object : Object} (hpart : object.part? = none) (present : Bool) :
    runObject object
      ((arranged (Patch.tableRemovals table old new) (Patch.tableChanges table old new)).flatMap
        (statementsOf (spanBetween before after))) present = some present := by
  have hnone : ((arranged (Patch.tableRemovals table old new)
      (Patch.tableChanges table old new)).flatMap
        (statementsOf (spanBetween before after))).filter (Statement.touches object) = [] := by
    rw [List.filter_eq_nil_iff]
    intro statement hmem htouch
    obtain ⟨op, hop, hmem⟩ := List.mem_flatMap.1 hmem
    obtain ⟨_, -, -, part, -, hstays⟩ :=
      insideStatements_stayIn hbefore hafter hnames hnames' hold hnew hop
    have := ((hstays statement hmem).2 object htouch).2
    rw [hpart] at this
    cases this
  rw [runObject, hnone]
  rfl

/-- The statements for a table of both schemas that touch an entry of it come from the operations on
that entry. -/
theorem filter_touches_of_part {object : Object} {part : TablePart}
    (hobject : object.part? = some part) :
    ((arranged (Patch.tableRemovals table old new) (Patch.tableChanges table old new)).flatMap
      (statementsOf (spanBetween before after))).filter (Statement.touches object) =
    ((arranged (partRemovals table old new part) (partChanges table old new part)).flatMap
      (statementsOf (spanBetween before after))).filter (Statement.touches object) := by
  have htable := Keyed.ne_empty_of_get? hnames.1 hold
  rw [← Patch.selectPaths_tableDiff htable (hnames.2.2.2.of_get? hold)
    (hnames'.2.2.2.of_get? hnew) (hafter.2.2.2.of_get? hnew), selectPaths,
    ← filter_flatMap_select _ _ fun op : Operation => op.path?.any (part.contains table)]
  intro op hop hkeep
  obtain ⟨change, rfl, hwritable, other, hother, hstays⟩ :=
    insideStatements_stayIn hbefore hafter hnames hnames' hold hnew hop
  rw [hwritable.path?] at hkeep
  have hne : other ≠ part := by
    rintro rfl
    simp [Edit.path, TablePart.contains_table, hother] at hkeep
  rw [List.filter_eq_nil_iff]
  intro statement hmem htouch
  have := ((hstays statement hmem).2 object htouch).2
  rw [hobject] at this
  exact hne (Option.some.inj this).symm

/-- What a migration does to an entry of a table of both schemas comes from the operations on
that entry. -/
theorem runObject_of_part {object : Object} {part : TablePart}
    (hobject : object.part? = some part) (present : Bool) :
    runObject object
      ((arranged (Patch.tableRemovals table old new) (Patch.tableChanges table old new)).flatMap
        (statementsOf (spanBetween before after))) present =
    runObject object ((arranged (partRemovals table old new part)
      (partChanges table old new part)).flatMap
        (statementsOf (spanBetween before after))) present := by
  rw [runObject, runObject,
    filter_touches_of_part hbefore hafter hnames hnames' hold hnew hobject]

end Kept

end Migration

/-! ## Runs on one object -/

theorem runObject_nil (object : Object) (present : Bool) :
    runObject object [] present = some present := rfl

theorem runObject_of_silent {object : Object} {statements : List Statement}
    (hsilent : ∀ statement ∈ statements, statement.touches object = false) (present : Bool) :
    runObject object statements present = some present := by
  have hnone : statements.filter (Statement.touches object) = [] :=
    List.filter_eq_nil_iff.2 fun statement hmem => by simp [hsilent statement hmem]
  rw [runObject, hnone]
  rfl

/-- A single statement runs when it finds what it names. -/
theorem runObject_single (object : Object) (statement : Statement) (present : Bool) :
    runObject object [statement] present = statement.effect object present := by
  cases htouch : statement.touches object with
  | true =>
    have hlast : foreignKeysLast [statement] = [statement] := by
      cases hkey : statement.isForeignKey <;> simp [foreignKeysLast, hkey]
    rw [runObject, List.filter_cons_of_pos htouch, List.filter_nil, hlast, List.foldlM_cons]
    cases statement.effect object present <;> rfl
  | false =>
    have hdecides : statement.decides? object = none := by
      simpa [Statement.touches] using htouch
    have hnamed : statement.named? ≠ some (object, !present) := fun hnamed => by
      rw [Statement.touches_of_named hnamed] at htouch
      cases htouch
    rw [runObject_of_silent (by simpa using htouch), Statement.effect, if_neg hnamed, hdecides]
    rfl

theorem runObject_cons_of_silent {object : Object} {rest : List Statement}
    (hsilent : ∀ statement ∈ rest, statement.touches object = false) (first : Statement)
    (present : Bool) :
    runObject object (first :: rest) present = runObject object [first] present := by
  have hnone : rest.filter (Statement.touches object) = [] :=
    List.filter_eq_nil_iff.2 fun statement hmem => by simp [hsilent statement hmem]
  rw [runObject, runObject, List.filter_cons, List.filter_cons, hnone, List.filter_nil]

theorem effect_alterTable {table : String} {alteration : Alteration} {object : Object}
    {wanted : Bool} (hnamed : (Statement.alterTable table alteration).named? = some (object, wanted)) :
    (Statement.alterTable table alteration).effect object wanted = some !wanted := by
  have hwanted : (Statement.alterTable table alteration).named? ≠ some (object, !wanted) := by
    rw [hnamed]
    cases wanted <;> simp
  rw [Statement.effect, if_neg hwanted, Statement.decides?, hnamed]
  · simp
  all_goals rintro _ ⟨⟩

theorem effect_alterTable_none {table : String} {alteration : Alteration} {object : Object}
    {wanted : Bool} (hnamed : (Statement.alterTable table alteration).named? = some (object, wanted)) :
    (Statement.alterTable table alteration).effect object (!wanted) = none := by
  rw [Statement.effect, hnamed, Bool.not_not, if_pos rfl]

section Entries

variable {before after : Schema} (hbefore : before.WellKeyed) (hafter : after.WellKeyed)
  (hnames : before.NoEmptyName) (hnames' : after.NoEmptyName)
  {table : String} {old new : Table} (hold : before.tables.get? table = some old)
  (hnew : after.tables.get? table = some new)

include hold in
theorem ofSchema_column (name : String) :
    Objects.ofSchema before (.column table name) = (old.columns.get? name).isSome := by
  rw [Objects.ofSchema, hold]
  rfl

include hold in
theorem ofSchema_constraint (name : String) :
    Objects.ofSchema before (.constraint table name) = (old.constraints.get? name).isSome := by
  rw [Objects.ofSchema, hold]
  rfl

/-- The changes of a column create and drop nothing. -/
theorem columnStatements_silent {name : String} {edit : Patch.ColumnEdit}
    {statements : List Statement}
    (hstatements : columnStatements table name edit = .ok statements) (object : Object) :
    ∀ statement ∈ statements, statement.touches object = false := by
  cases edit with
  | check new => cases hstatements
  | notNull flag =>
    cases flag <;> cases hstatements <;> simp [Statement.touches, Statement.decides?,
      Statement.named?]
  | default new =>
    cases new <;> cases hstatements <;> simp [Statement.touches, Statement.decides?,
      Statement.named?]
  | _ =>
    cases hstatements
    simp [Statement.touches, Statement.decides?, Statement.named?]

/-- What the script says of a column is about its fields alone. -/
def columnComment (table : String) (column : Column) : List Statement :=
  match column.comment with
  | some text => [.comment (.column table column.name) (some text)]
  | none => []

theorem eq_comment_of_mem {column : Column} {statement : Statement}
    (hmem : statement ∈ columnComment table column) :
    ∃ text, statement = .comment (.column table column.name) (some text) := by
  unfold columnComment at hmem
  split at hmem
  · exact ⟨_, List.mem_singleton.1 hmem⟩
  · cases hmem

include hold in
theorem editsTo_putColumn {name : String} {value : Column} (hkey : value.name = name)
    (hprevious : old.columns.get? name = none) (schema : Schema) :
    editsTo ⟨before, schema⟩ (.table table (.putColumn name value)) =
      .alterTable table (.addColumn value) :: columnComment table value := by
  have hhad : (Span.mk before schema).had Table.columns table name = false := by
    simp [Span.had, hold, Keyed.contains, hprevious]
  cases hkey
  change onlyIf _ _ ++ _ = _
  rw [hhad]
  rfl

theorem columnComment_silent (column : Column) (object : Object) :
    ∀ statement ∈ columnComment table column, statement.touches object = false := by
  intro statement hmem
  obtain ⟨text, rfl⟩ := eq_comment_of_mem hmem
  rfl

include hnames' hnew in
/-- The changes of a column create and drop nothing. -/
theorem columnChanges_silent {name : String} {previous value : Column}
    (hvalue : new.columns.get? name = some value) (object : Object) :
    ∀ statement ∈ (Patch.columnChanges table name previous value).flatMap
      (statementsOf (spanBetween before after)), statement.touches object = false := by
  intro statement hmem
  obtain ⟨op, hop, hmem⟩ := List.mem_flatMap.1 hmem
  have hname := Keyed.ne_empty_of_get? (hnames'.2.2.2.of_get? hnew).1 hvalue
  obtain ⟨edit, rfl, hwritable, hplace, change, rfl, hpart⟩ :=
    Patch.columnChanges_edits (Keyed.ne_empty_of_get? hnames'.1 hnew) hname previous value op hop
  have hverb := Patch.columnChanges_verbs table name previous value _ hop
  rw [statementsOf_operation _ hwritable, editsTo] at hmem
  cases change with
  | column key edit =>
    cases hstatements : columnStatements table key edit with
    | error reason =>
      have : editStatements (spanBetween before after) (.table table (.column key edit)) =
        .error reason := hstatements
      rw [this] at hmem
      cases hmem
    | ok statements =>
      have : editStatements (spanBetween before after) (.table table (.column key edit)) =
        .ok statements := hstatements
      rw [this] at hmem
      exact columnStatements_silent hstatements object statement hmem
  | putColumn | removeColumn => cases hverb
  | _ => cases hpart

include hafter hnames hnames' hold hnew

/-- A column of a kept table is added when it is new, dropped when it is gone, and otherwise
stays. -/
theorem runObject_column (name : String) :
    (runObject (.column table name) ((arranged (partRemovals table old new (.column name))
      (partChanges table old new (.column name))).flatMap (statementsOf (spanBetween before after)))
      (Objects.ofSchema before (.column table name))).isSome := by
  have htable := Keyed.ne_empty_of_get? hnames.1 hold
  rw [ofSchema_column hold, partRemovals, partChanges]
  cases hprevious : old.columns.get? name with
  | none =>
    cases hvalue : new.columns.get? name with
    | none => rfl
    | some value =>
      have hname := Keyed.ne_empty_of_get? (hnames'.2.2.2.of_get? hnew).1 hvalue
      have hkey : value.name = name := (hafter.2.2.2.of_get? hnew).1.of_get? hvalue
      have hwritable : (Edit.table table (.putColumn name value)).Writable :=
        ⟨⟨htable, hname⟩, hkey⟩
      simp only [removalOf, changesOf]
      rw [Patch.arranged_adds _ (.add _ _), List.nil_append, List.flatMap_singleton]
      change (runObject _ (statementsOf _ (Edit.table table (.putColumn name value)).operation)
        false).isSome
      rw [statementsOf_operation _ hwritable, spanBetween, editsTo_putColumn hold hkey hprevious,
        runObject_cons_of_silent (columnComment_silent value _), runObject_single,
        ← Bool.not_true, ← hkey]
      exact congrArg Option.isSome (effect_alterTable rfl)
  | some previous =>
    have hname := Keyed.ne_empty_of_get? (hnames.2.2.2.of_get? hold).1 hprevious
    cases hvalue : new.columns.get? name with
    | none =>
      have hwritable : (Edit.table table (.removeColumn name)).Writable :=
        ⟨⟨htable, hname⟩, trivial⟩
      change (runObject _ ([(Edit.table table (.removeColumn name)).operation].flatMap _)
        true).isSome
      rw [List.flatMap_singleton, statementsOf_operation _ hwritable]
      change (runObject _ [.alterTable table (.dropColumn name)] true).isSome
      rw [runObject_single]
      exact congrArg Option.isSome (effect_alterTable rfl)
    | some value =>
      simp only [removalOf, changesOf]
      rw [Patch.arranged_replacements _ (Patch.columnChanges_verbs _ _ _ _), List.nil_append,
        runObject_of_silent]
      · rfl
      · exact columnChanges_silent hnames' hnew hvalue _

end Entries

/-! ## Constraints of kept tables -/

section Recreations

variable {table : String} {constraint : Constraint} {ops : List Operation}
  {statements : Operation → List Statement}

def recreation (table : String) (constraint : Constraint) : List Statement :=
  [.alterTable table (.dropConstraint constraint.name), addConstraint table constraint]

theorem effect_drop_present :
    (Statement.alterTable table (.dropConstraint constraint.name)).effect
      (.constraint table constraint.name) true = some false := effect_alterTable rfl

theorem effect_drop_absent :
    (Statement.alterTable table (.dropConstraint constraint.name)).effect
      (.constraint table constraint.name) false = none := by
  rw [← Bool.not_true]
  exact effect_alterTable_none rfl

theorem effect_add_absent :
    (addConstraint table constraint).effect (.constraint table constraint.name) false =
      some true := effect_alterTable rfl

theorem touches_recreation {statement : Statement} (hmem : statement ∈ recreation table constraint) :
    statement.touches (.constraint table constraint.name) = true := by
  rcases List.mem_cons.1 hmem with rfl | hmem
  · exact Statement.touches_of_named rfl
  · rw [List.mem_singleton.1 hmem]
    exact Statement.touches_of_named rfl

theorem filter_touches_recreations
    (hops : ∀ op ∈ ops, statements op = recreation table constraint) :
    (ops.flatMap statements).filter (Statement.touches (.constraint table constraint.name)) =
      ops.flatMap statements := by
  rw [List.filter_eq_self]
  intro statement hmem
  obtain ⟨op, hop, hmem⟩ := List.mem_flatMap.1 hmem
  rw [hops op hop] at hmem
  exact touches_recreation hmem

/-- Recreations that are not deferred run, however many they are. -/
theorem runObject_recreations (hkey : (addConstraint table constraint).isForeignKey = false)
    (hops : ∀ op ∈ ops, statements op = recreation table constraint) :
    runObject (.constraint table constraint.name) (ops.flatMap statements) true = some true := by
  have hnone : ∀ statement ∈ ops.flatMap statements, statement.isForeignKey = false := by
    intro statement hmem
    obtain ⟨op, hop, hmem⟩ := List.mem_flatMap.1 hmem
    rw [hops op hop] at hmem
    rcases List.mem_cons.1 hmem with rfl | hmem
    · rfl
    · rw [List.mem_singleton.1 hmem]
      exact hkey
  rw [runObject, filter_touches_recreations hops, foreignKeysLast_eq_self hnone]
  clear hnone
  induction ops with
  | nil => rfl
  | cons op rest ih =>
    rw [List.flatMap_cons, hops op List.mem_cons_self, List.foldlM_append, recreation,
      List.foldlM_cons, effect_drop_present]
    change ([addConstraint table constraint].foldlM _ false >>= _) = some true
    rw [List.foldlM_cons, effect_add_absent]
    exact ih fun other hmem => hops other (List.mem_cons_of_mem _ hmem)

/-- Of a foreign key made anew, again and again, the drops come first. -/
theorem foreignKeysLast_recreations (hkey : (addConstraint table constraint).isForeignKey = true)
    (hops : ∀ op ∈ ops, statements op = recreation table constraint) :
    foreignKeysLast (ops.flatMap statements) =
      List.replicate ops.length (.alterTable table (.dropConstraint constraint.name)) ++
        List.replicate ops.length (addConstraint table constraint) := by
  have hdrop : (Statement.alterTable table (.dropConstraint constraint.name)).isForeignKey =
    false := rfl
  have hfilters : (ops.flatMap statements).filter (fun statement => !statement.isForeignKey) =
      List.replicate ops.length (.alterTable table (.dropConstraint constraint.name)) ∧
      (ops.flatMap statements).filter Statement.isForeignKey =
        List.replicate ops.length (addConstraint table constraint) := by
    induction ops with
    | nil => exact ⟨rfl, rfl⟩
    | cons op rest ih =>
      have hrest := ih fun other hmem => hops other (List.mem_cons_of_mem _ hmem)
      rw [List.flatMap_cons, hops op List.mem_cons_self, List.filter_append, List.filter_append,
        hrest.1, hrest.2, List.length_cons, List.replicate_succ, List.replicate_succ]
      simp [recreation, hdrop, hkey]
  rw [foreignKeysLast, hfilters.1, hfilters.2]

/-- Of recreations whose adds are deferred only one runs: all drops come first. -/
theorem runObject_deferred_recreations
    (hkey : (addConstraint table constraint).isForeignKey = true)
    (hops : ∀ op ∈ ops, statements op = recreation table constraint) :
    (runObject (.constraint table constraint.name) (ops.flatMap statements) true).isSome = true ↔
      ops.length ≤ 1 := by
  rw [runObject, filter_touches_recreations hops, foreignKeysLast_recreations hkey hops]
  match ops.length with
  | 0 => simp
  | 1 =>
    rw [List.replicate_one, List.replicate_one, List.singleton_append, List.foldlM_cons,
      effect_drop_present]
    change (List.foldlM _ false [addConstraint table constraint] : Option Bool).isSome = true ↔ _
    rw [List.foldlM_cons, effect_add_absent]
    simp
  | n + 2 =>
    rw [List.replicate_succ, List.replicate_succ, List.cons_append, List.cons_append,
      List.foldlM_cons, effect_drop_present]
    change (List.foldlM _ false _ : Option Bool).isSome = true ↔ _
    rw [List.foldlM_cons, effect_drop_absent]
    simp

end Recreations

/-- The number of fields in which two foreign keys differ. -/
def changedFields (old new : ForeignKey) : Nat :=
  (if old.columns = new.columns then 0 else 1) +
    (if old.targetTable = new.targetTable then 0 else 1) +
    (if old.targetColumns = new.targetColumns then 0 else 1) +
    (if old.onUpdate = new.onUpdate then 0 else 1) +
    (if old.onDelete = new.onDelete then 0 else 1)

/-- A constraint keeps its kind and, as a foreign key, changes in one field at most. -/
def RecreatedOnce (old new : Constraint) : Prop :=
  old.rule.kind = new.rule.kind ∧
    match old.rule, new.rule with
    | .foreignKey key, .foreignKey key' => changedFields key key' ≤ 1
    | _, _ => True

theorem length_replaceField {α : Type} [DecidableEq α] [BEq α] [LawfulBEq α] (path : Patch.Path)
    (view : α → Json) (old new : α) :
    (Patch.replaceField path view old new).length = if old = new then 0 else 1 := by
  rw [Patch.replaceField]
  by_cases hsame : old = new
  · rw [if_pos hsame, if_pos (beq_iff_eq.2 hsame)]
    rfl
  · rw [if_neg hsame, if_neg (by simpa using hsame)]
    rfl

theorem length_constraintChanges (table name : String) (key key' : ForeignKey) (label : String)
    (label' : String) :
    (Patch.constraintChanges table name ⟨label, .foreignKey key⟩
      ⟨label', .foreignKey key'⟩).length = changedFields key key' := by
  simp only [Patch.constraintChanges, List.length_append, length_replaceField, changedFields]

section Constraints

variable {before after : Schema} (hbefore : before.WellKeyed) (hafter : after.WellKeyed)
  (hnames : before.NoEmptyName) (hnames' : after.NoEmptyName)
  {table : String} {old new : Table} (hold : before.tables.get? table = some old)
  (hnew : after.tables.get? table = some new)

include hbefore hafter hnames hnames' hnew

/-- Whatever changes in a constraint, it is dropped and added as it is in the end. -/
theorem constraintChanges_statements {name : String} {previous value : Constraint}
    (hvalue : new.constraints.get? name = some value)
    (hkind : previous.rule.kind = value.rule.kind) :
    ∀ op ∈ Patch.constraintChanges table name previous value,
      statementsOf (spanBetween before after) op = recreation table value := by
  intro op hop
  have hname := Keyed.ne_empty_of_get? (hnames'.2.2.2.of_get? hnew).2.2 hvalue
  have hkey : value.name = name := (hafter.2.2.2.of_get? hnew).2.2.of_get? hvalue
  have hverb := Patch.constraintChanges_verbs table name hkind op hop
  obtain ⟨edit, rfl, hwritable, hplace, change, rfl, hpart⟩ :=
    Patch.constraintChanges_edits (Keyed.ne_empty_of_get? hnames'.1 hnew) hname previous hkey op
      hop
  have hconstraint : (spanBetween before after).after.constraint? table name = some value := by
    rw [constraint?_spanBetween hbefore hafter hnames hnames', Schema.constraint?, hnew]
    exact hvalue
  have hrecreate := recreateConstraint_of_some hconstraint
  rw [statementsOf_operation _ hwritable, editsTo]
  cases change with
  | constraint key edit =>
    cases hpart
    have hstatements : editStatements (spanBetween before after)
        (.table table (.constraint name edit)) = recreateConstraint (spanBetween before after)
          table name := by
      cases edit with
      | rename target => cases hplace
      | _ => rfl
    rw [hstatements, hrecreate, recreation, hkey]
  | putConstraint | removeConstraint => cases hverb
  | _ => cases hpart

omit hbefore hafter hnames hnames' hnew in
include hold in
theorem editsTo_putConstraint {name : String} {value : Constraint} (schema : Schema) :
    editsTo ⟨before, schema⟩ (.table table (.putConstraint name value)) =
      onlyIf (old.constraints.contains name) (.alterTable table (.dropConstraint name)) ++
        [addConstraint table value] := by
  have hhad : (Span.mk before schema).had Table.constraints table name =
      old.constraints.contains name := by
    simp [Span.had, hold]
  change onlyIf _ _ ++ _ = _
  rw [hhad]

include hold

omit hbefore hnames in
theorem statementsOf_constraintAdded {name : String} {value : Constraint}
    (hvalue : new.constraints.get? name = some value) :
    statementsOf (spanBetween before after)
        (.add (.table table (.constraint name .whole)) value.toJson) =
      onlyIf (old.constraints.contains name) (.alterTable table (.dropConstraint name)) ++
        [addConstraint table value] := by
  have hname := Keyed.ne_empty_of_get? (hnames'.2.2.2.of_get? hnew).2.2 hvalue
  have hwritable : (Edit.table table (.putConstraint name value)).Writable :=
    ⟨⟨Keyed.ne_empty_of_get? hnames'.1 hnew, hname, trivial⟩,
      (hafter.2.2.2.of_get? hnew).2.2.of_get? hvalue⟩
  exact (statementsOf_operation _ hwritable).trans (editsTo_putConstraint hold _)

omit hbefore hafter hnames' hnew in
theorem statementsOf_constraintRemoved {name : String} {previous : Constraint}
    (hprevious : old.constraints.get? name = some previous) :
    statementsOf (spanBetween before after) (.remove (.table table (.constraint name .whole))) =
      [.alterTable table (.dropConstraint name)] := by
  have hname := Keyed.ne_empty_of_get? (hnames.2.2.2.of_get? hold).2.2 hprevious
  have hwritable : (Edit.table table (.removeConstraint name)).Writable :=
    ⟨⟨Keyed.ne_empty_of_get? hnames.1 hold, hname, trivial⟩, trivial⟩
  exact (statementsOf_operation _ hwritable).trans rfl

omit hbefore in
/-- A constraint that changes its kind is dropped twice. -/
theorem runObject_kindChange {name : String} {previous value : Constraint}
    (hprevious : old.constraints.get? name = some previous)
    (hvalue : new.constraints.get? name = some value) :
    runObject (.constraint table name)
      ([.remove (.table table (.constraint name .whole)),
        .add (.table table (.constraint name .whole)) value.toJson].flatMap
          (statementsOf (spanBetween before after))) true = none := by
  have hkey : value.name = name := (hafter.2.2.2.of_get? hnew).2.2.of_get? hvalue
  have hhad : old.constraints.contains name = true := by rw [Keyed.contains, hprevious]; rfl
  rw [List.flatMap_cons, List.flatMap_singleton,
    statementsOf_constraintRemoved hnames hold hprevious,
    statementsOf_constraintAdded hafter hnames' hold hnew hvalue, hhad]
  cases hkey
  have hdrop : (Statement.alterTable table (.dropConstraint value.name)).touches
      (.constraint table value.name) = true := Statement.touches_of_named rfl
  have hadd : (addConstraint table value).touches (.constraint table value.name) = true :=
    Statement.touches_of_named rfl
  have hlast : ∃ rest, foreignKeysLast [.alterTable table (.dropConstraint value.name),
      .alterTable table (.dropConstraint value.name), addConstraint table value] =
      .alterTable table (.dropConstraint value.name) ::
        .alterTable table (.dropConstraint value.name) :: rest := by
    have himmediate : (Statement.alterTable table (.dropConstraint value.name)).isForeignKey =
      false := rfl
    rw [foreignKeysLast]
    simp only [List.filter_cons, himmediate]
    exact ⟨_, rfl⟩
  obtain ⟨rest, hlast⟩ := hlast
  simp only [onlyIf, if_true, List.cons_append, List.nil_append, runObject, List.filter_cons,
    List.filter_nil, hdrop, hadd]
  rw [hlast, List.foldlM_cons, effect_drop_present]
  change (List.foldlM _ false _ : Option Bool) = none
  rw [List.foldlM_cons, effect_drop_absent]
  rfl

/-- A constraint of a kept table runs through the script when it is recreated once at most. -/
theorem runObject_constraint (name : String) :
    (runObject (.constraint table name)
      ((arranged (partRemovals table old new (.constraint name))
        (partChanges table old new (.constraint name))).flatMap
          (statementsOf (spanBetween before after)))
      (Objects.ofSchema before (.constraint table name))).isSome = true ↔
      ∀ previous value, old.constraints.get? name = some previous →
        new.constraints.get? name = some value → RecreatedOnce previous value := by
  rw [ofSchema_constraint hold, partRemovals, partChanges]
  cases hprevious : old.constraints.get? name with
  | none =>
    cases hvalue : new.constraints.get? name with
    | none => simp [arranged, Patch.constraintRemoval, changesOf, runObject_nil]
    | some value =>
      have hkey : value.name = name := (hafter.2.2.2.of_get? hnew).2.2.of_get? hvalue
      have hhad : old.constraints.contains name = false := by rw [Keyed.contains, hprevious]; rfl
      simp only [Patch.constraintRemoval, changesOf]
      rw [Patch.arranged_adds _ (.add _ _), List.nil_append, List.flatMap_singleton,
        statementsOf_constraintAdded hafter hnames' hold hnew hvalue, hhad]
      cases hkey
      change (runObject _ [addConstraint table value] false).isSome = true ↔ _
      rw [runObject_single, effect_add_absent]
      simp
  | some previous =>
    cases hvalue : new.constraints.get? name with
    | none =>
      change (runObject _ ([Operation.remove _].flatMap _) true).isSome = true ↔ _
      rw [List.flatMap_singleton, statementsOf_constraintRemoved hnames hold hprevious,
        runObject_single]
      have heffect : (Statement.alterTable table (.dropConstraint name)).effect
        (.constraint table name) true = some false := effect_alterTable rfl
      simp [heffect]
    | some value =>
      have hkey : value.name = name := (hafter.2.2.2.of_get? hnew).2.2.of_get? hvalue
      have hpair : (∀ a b, some previous = some a → some value = some b → RecreatedOnce a b) ↔
          RecreatedOnce previous value := by simp
      rw [hpair]
      simp only [Patch.constraintRemoval, changesOf, Option.isSome_some]
      by_cases hkind : previous.rule.kind = value.rule.kind
      · rw [if_neg (by simp [hkind]),
          Patch.arranged_replacements _ (Patch.constraintChanges_verbs _ _ hkind), List.nil_append]
        have hops := constraintChanges_statements hbefore hafter hnames hnames' hnew hvalue hkind
        cases hkey
        obtain ⟨label, rule⟩ := previous
        obtain ⟨label', rule'⟩ := value
        cases rule' with
        | foreignKey key' =>
          cases rule with
          | foreignKey key =>
            rw [runObject_deferred_recreations rfl hops, length_constraintChanges]
            simp [RecreatedOnce, Rule.kind]
          | _ => simp [Rule.kind] at hkind
        | _ =>
          rw [runObject_recreations rfl hops]
          cases rule <;> simp [RecreatedOnce, Rule.kind] at hkind ⊢
      · rw [if_pos (by simpa using Ne.symm hkind),
          Patch.constraintChanges_of_kind_ne table name hkind, Patch.arranged_adds _ (.add _ _),
          List.singleton_append, runObject_kindChange hafter hnames hnames' hold hnew hprevious
            hvalue]
        simp [RecreatedOnce, hkind]

end Constraints

end SchemaEvolution.Sql
