import SchemaEvolution.Proofs.Sql.Replay

/-!
# When a migration runs

A migration finds every object that it drops and none that it creates, except for constraints
that change their kind and for foreign keys that change in several fields: these are dropped
more than once.
-/

namespace SchemaEvolution.Sql

open Patch (Edit Operation arranged removalOf changesOf ownerRemovals ownerChanges)

/-- Of the constraints that are added with a table, the one of a name is what touches that name. -/
theorem filter_touches_addConstraints {table : Table} (hkeyed : table.WellKeyed) (name : String) :
    ((table.constraints.values.filter fun constraint => !table.isInline constraint).map
        (addConstraint table.name)).filter (Statement.touches (.constraint table.name name)) =
      match table.constraints.get? name with
      | some constraint =>
        if !table.isInline constraint then [addConstraint table.name constraint] else []
      | none => [] := by
  have htouches : ∀ constraint, (addConstraint table.name constraint).touches
      (.constraint table.name name) = (name == constraint.name) := by
    intro constraint
    simp only [Statement.touches, Statement.decides?, Statement.named?, addConstraint,
      Object.constraint.injEq, true_and]
    by_cases hname : name = constraint.name <;> simp [hname]
  rw [Patch.map_filter_eq_flatMap, Keyed.values, List.flatMap_map]
  refine (Keyed.filter_flatMap_toList (Statement.touches (.constraint table.name name)) name
    table.constraints _ ?_).trans ?_
  · intro entry hmem hother
    have hkey : entry.2.name = entry.1 := hkeyed.2.2 entry hmem
    split
    · simp [htouches, hkey, Ne.symm hother]
    · rfl
  · cases hvalue : table.constraints.get? name with
    | none => rfl
    | some constraint =>
      have hkey : constraint.name = name := hkeyed.2.2.of_get? hvalue
      cases hinline : table.isInline constraint <;> simp [htouches, hkey, hinline]

/-- Of the statements that put a new table, those that touch an object of it. -/
theorem filter_touches_putTable {table : Table} (hkeyed : table.WellKeyed) {object : Object}
    (hobject : object.table? = some table.name) :
    (putTableStatements table.name table).filter (Statement.touches object) =
      .createTable table ::
        match object with
        | .constraint _ name =>
          match table.constraints.get? name with
          | some constraint =>
            if !table.isInline constraint then [addConstraint table.name constraint] else []
          | none => []
        | _ => [] := by
  have hcreate : (Statement.createTable table).touches object = true := by
    simp [Statement.touches, Statement.decides?, hobject]
  have hindexes : (table.indexes.values.map (Statement.createIndex table.name)).filter
      (Statement.touches object) = [] := by
    rw [List.filter_eq_nil_iff]
    intro statement hmem
    obtain ⟨index, -, rfl⟩ := List.mem_map.1 hmem
    exact Bool.false_ne_true
  have hconstraints : (∀ owner name, object ≠ .constraint owner name) →
      ((table.constraints.values.filter fun constraint => !table.isInline constraint).map
        (addConstraint table.name)).filter (Statement.touches object) = [] := by
    intro hother
    rw [List.filter_eq_nil_iff]
    intro statement hmem htouch
    obtain ⟨constraint, -, rfl⟩ := List.mem_map.1 hmem
    simp [Statement.touches, Statement.decides?, Statement.named?, addConstraint, hother] at htouch
  rw [putTableStatements, List.filter_append, List.filter_cons_of_pos hcreate, hindexes]
  cases object with
  | type name => cases hobject
  | constraint owner name =>
    cases hobject
    rw [filter_touches_addConstraints hkeyed name]
    rfl
  | table | column =>
    rw [hconstraints (by simp)]
    rfl

theorem foreignKeysLast_createTable (table : Table) (rest : List Statement)
    (hrest : rest.length ≤ 1) :
    foreignKeysLast (.createTable table :: rest) = .createTable table :: rest := by
  have hcreate : (Statement.createTable table).isForeignKey = false := rfl
  cases rest with
  | nil => rfl
  | cons statement others =>
    obtain rfl : others = [] :=
      List.length_eq_zero_iff.1 (Nat.le_zero.1 (Nat.le_of_succ_le_succ hrest))
    cases hkey : statement.isForeignKey <;> simp [foreignKeysLast, hcreate, hkey]

theorem effect_createTable {table : Table} {object : Object}
    (hobject : object.table? = some table.name) :
    (Statement.createTable table).effect object false = some (createdBy table object) := by
  simp [Statement.effect, Statement.named?, Statement.decides?, hobject]

/-- A constraint that is not carried by a column is not made with the table. -/
theorem createdBy_of_not_inline {table : Table} (hkeyed : table.WellKeyed) {name : String}
    {constraint : Constraint} (hvalue : table.constraints.get? name = some constraint)
    (hinline : table.isInline constraint = false) :
    createdBy table (.constraint table.name name) = false := by
  rw [createdBy, List.any_eq_false]
  intro other hmem hother
  obtain ⟨key, hkey⟩ := Keyed.mem_values_iff.1 hmem
  simp only [Bool.and_eq_true, beq_iff_eq] at hother
  have hname : other.name = key := hkeyed.2.2.of_get? hkey
  rw [hother.1] at hname
  cases hname
  cases hkey.symm.trans hvalue
  rw [hinline] at hother
  exact Bool.false_ne_true hother.2

/-- The statements that put a new table find nothing of it. -/
theorem runObject_putTable {table : Table} (hkeyed : table.WellKeyed) {object : Object}
    (hobject : object.table? = some table.name) :
    (runObject object (putTableStatements table.name table) false).isSome := by
  rw [runObject, filter_touches_putTable hkeyed hobject]
  cases object with
  | type name => cases hobject
  | table | column =>
    rw [foreignKeysLast_createTable table _ (by simp), List.foldlM_cons, effect_createTable hobject]
    rfl
  | constraint owner name =>
    cases hobject
    cases hvalue : table.constraints.get? name with
    | none =>
      simp only [hvalue]
      rw [foreignKeysLast_createTable table _ (by simp), List.foldlM_cons, effect_createTable rfl]
      rfl
    | some constraint =>
      have hkey : constraint.name = name := hkeyed.2.2.of_get? hvalue
      simp only [hvalue]
      cases hinline : table.isInline constraint with
      | true =>
        rw [foreignKeysLast_createTable table _ (by simp), List.foldlM_cons, effect_createTable rfl]
        rfl
      | false =>
        rw [foreignKeysLast_createTable table _ (by simp), List.foldlM_cons, effect_createTable rfl,
          createdBy_of_not_inline hkeyed hvalue hinline]
        cases hkey
        change (List.foldlM _ false [addConstraint table.name constraint] : Option Bool).isSome
        rw [List.foldlM_cons, effect_add_absent]
        rfl

/-! ## Every object -/

section Objects

variable {before after : Schema} (hbefore : before.WellKeyed) (hafter : after.WellKeyed)
  (hnames : before.NoEmptyName) (hnames' : after.NoEmptyName)

theorem ofSchema_absent {table : String} (habsent : before.tables.get? table = none)
    {object : Object} (hobject : object.table? = some table) :
    Objects.ofSchema before object = false := by
  cases object <;> cases hobject <;> simp [Objects.ofSchema, Keyed.contains, habsent]

include hafter hnames' in
theorem statementsOf_tableAdded {name : String} {table : Table}
    (habsent : before.tables.get? name = none) (hvalue : after.tables.get? name = some table) :
    statementsOf (spanBetween before after) (.add (.table name .whole) table.toJson) =
      putTableStatements name table := by
  have hwritable : (Edit.putTable name table).Writable :=
    ⟨⟨Keyed.ne_empty_of_get? hnames'.1 hvalue, trivial⟩, hafter.1.of_get? hvalue⟩
  have hhad : before.tables.contains name = false := by rw [Keyed.contains, habsent]; rfl
  refine (statementsOf_operation _ hwritable).trans ?_
  change onlyIf (before.tables.contains name) _ ++ _ = _
  rw [hhad]
  rfl

include hnames in
theorem statementsOf_tableRemoved {name : String} {table : Table}
    (hvalue : before.tables.get? name = some table) :
    statementsOf (spanBetween before after) (.remove (.table name .whole)) = [.dropTable name] := by
  have hwritable : (Edit.removeTable name).Writable :=
    ⟨⟨Keyed.ne_empty_of_get? hnames.1 hvalue, trivial⟩, trivial⟩
  exact (statementsOf_operation _ hwritable).trans rfl

theorem effect_dropTable {name : String} {object : Object} (hobject : object.table? = some name)
    {present : Bool} (hpresent : object = .table name → present = true) :
    (Statement.dropTable name).effect object present = some false := by
  have hnamed : (Statement.dropTable name).named? ≠ some (object, !present) := by
    intro hnamed
    simp only [Statement.named?, Option.some.injEq, Prod.mk.injEq] at hnamed
    simp [hpresent hnamed.1.symm] at hnamed
  rw [Statement.effect, if_neg hnamed]
  simp [Statement.decides?, hobject]

include hbefore hafter hnames hnames'

/-- An object of a table goes through the script unless it is a constraint that is recreated more
than once. -/
theorem runObject_ofTable {table : String} {object : Object}
    (hobject : object.table? = some table) :
    (runObject object ((arranged (ownerRemovals before after (.table table))
        (ownerChanges before after (.table table))).flatMap
          (statementsOf (spanBetween before after)))
      (Objects.ofSchema before object)).isSome = true ↔
      ∀ name, object = .constraint table name → ∀ previous value,
        before.constraint? table name = some previous →
        after.constraint? table name = some value → RecreatedOnce previous value := by
  rw [ownerRemovals, ownerChanges]
  cases hold : before.tables.get? table with
  | none =>
    have habsent : ∀ name, before.constraint? table name = none := by
      intro name
      rw [Schema.constraint?, hold]
      rfl
    cases hnew : after.tables.get? table with
    | none => simp [arranged, changesOf, runObject_nil, habsent]
    | some new =>
      have hkey : new.name = table := hafter.1.of_get? hnew
      have hrun := runObject_putTable (hafter.2.2.2.of_get? hnew) (hobject.trans (by rw [hkey]))
      rw [hkey] at hrun
      simp only [changesOf]
      rw [Patch.arranged_adds _ (.add _ _), List.nil_append, List.flatMap_singleton,
        statementsOf_tableAdded hafter hnames' hold hnew, ofSchema_absent hold hobject]
      simp [hrun, habsent]
  | some old =>
    cases hnew : after.tables.get? table with
    | none =>
      have habsent : ∀ name, after.constraint? table name = none := by
        intro name
        rw [Schema.constraint?, hnew]
        rfl
      have hpresent : object = .table table → Objects.ofSchema before object = true := by
        rintro rfl
        rw [Objects.ofSchema, Keyed.contains, hold]
        rfl
      change (runObject object ([Operation.remove _].flatMap _) _).isSome = true ↔ _
      rw [List.flatMap_singleton, statementsOf_tableRemoved hnames hold, runObject_single,
        effect_dropTable hobject hpresent]
      simp [habsent]
    | some new =>
      change (runObject object ((arranged (Patch.tableRemovals table old new)
        (Patch.tableChanges table old new)).flatMap _) _).isSome = true ↔ _
      cases object with
      | type name => cases hobject
      | table name =>
        rw [runObject_of_part_none hbefore hafter hnames hnames' hold hnew rfl]
        simp
      | column owner name =>
        cases hobject
        rw [runObject_of_part hbefore hafter hnames hnames' hold hnew rfl]
        simp [runObject_column hafter hnames hnames' hold hnew name]
      | constraint owner name =>
        cases hobject
        rw [runObject_of_part hbefore hafter hnames hnames' hold hnew rfl,
          runObject_constraint hbefore hafter hnames hnames' hold hnew name]
        simp only [Schema.constraint?, hold, hnew, Option.bind_some, Object.constraint.injEq,
          true_and, forall_eq']

omit hbefore hafter hnames in
/-- The changes of an enum create and drop nothing. -/
theorem enumChanges_statements_silent {name : String} (previous : EnumType) {value : EnumType}
    (hvalue : after.enums.get? name = some value) (object : Object) :
    ∀ statement ∈ (Patch.enumChanges name previous value).flatMap
      (statementsOf (spanBetween before after)), statement.touches object = false := by
  intro statement hmem
  obtain ⟨op, hop, hmem⟩ := List.mem_flatMap.1 hmem
  have hverb := Patch.enumChanges_verbs name previous value op hop
  obtain ⟨edit, rfl, hwritable, hplace, howner⟩ :=
    Patch.enumChanges_edits (Keyed.ne_empty_of_get? hnames'.2.1 hvalue) previous value op hop
  rw [statementsOf_operation _ hwritable, editsTo] at hmem
  cases edit with
  | enumType key change =>
    have hspot : change.spot ≠ .field .name := by
      intro hspot
      rw [Edit.path, hspot] at hplace
      cases hplace
    cases hstatements : enumStatements (spanBetween before after) key change with
    | error reason =>
      have : editStatements (spanBetween before after) (.enumType key change) = .error reason :=
        hstatements
      rw [this] at hmem
      cases hmem
    | ok statements =>
      have : editStatements (spanBetween before after) (.enumType key change) = .ok statements :=
        hstatements
      rw [this] at hmem
      exact (enumStatements_silent hspot hstatements statement hmem).2 object
  | putEnum | removeEnum => cases hverb
  | putTable | removeTable | table | putExtension | removeExtension | extension | hint =>
    cases howner

omit hbefore in
/-- What is written for an enum runs in the schema before. -/
theorem runObject_ofType (name : String) :
    (runObject (.type name) ((arranged (ownerRemovals before after (.enumType name))
        (ownerChanges before after (.enumType name))).flatMap
          (statementsOf (spanBetween before after)))
      (Objects.ofSchema before (.type name))).isSome = true := by
  rw [ownerRemovals, ownerChanges, Objects.ofSchema, Keyed.contains]
  cases hold : before.enums.get? name with
  | none =>
    cases hnew : after.enums.get? name with
    | none => rfl
    | some value =>
      have hkey : value.name = name := hafter.2.1.of_get? hnew
      have hwritable : (Edit.putEnum name value).Writable :=
        ⟨⟨Keyed.ne_empty_of_get? hnames'.2.1 hnew, trivial⟩, hkey⟩
      have hhad : before.enums.contains name = false := by rw [Keyed.contains, hold]; rfl
      have hstatements : statementsOf (spanBetween before after)
          (.add (.enumType name .whole) value.toJson) = [.createEnum value] := by
        refine (statementsOf_operation _ hwritable).trans ?_
        change onlyIf (before.enums.contains name) _ ++ _ = _
        rw [hhad]
        rfl
      simp only [removalOf, changesOf]
      rw [Patch.arranged_adds _ (.add _ _), List.nil_append, List.flatMap_singleton, hstatements,
        runObject_single]
      simp [Statement.effect, Statement.named?]
  | some previous =>
    cases hnew : after.enums.get? name with
    | none =>
      have hwritable : (Edit.removeEnum name).Writable :=
        ⟨⟨Keyed.ne_empty_of_get? hnames.2.1 hold, trivial⟩, trivial⟩
      change (runObject _ ([(Edit.removeEnum name).operation].flatMap _) true).isSome = true
      rw [List.flatMap_singleton, statementsOf_operation _ hwritable]
      change (runObject _ [.dropType name] true).isSome = true
      rw [runObject_single]
      simp [Statement.effect, Statement.named?]
    | some value =>
      simp only [removalOf, changesOf]
      rw [Patch.arranged_replacements _ (Patch.enumChanges_verbs _ _ _), List.nil_append,
        runObject_of_silent (enumChanges_statements_silent hnames' previous hnew _)]
      rfl

/-- The migration between two well-keyed schemas without empty names finds every object that it
drops and none that it creates exactly when every constraint of both keeps its kind and, as a
foreign key, changes in one field at most. -/
theorem runScript?_migrationBetween_iff :
    (runScript? (Objects.ofSchema before) (migrationBetween before after).statements).isSome =
      true ↔
      ∀ table name previous value, before.constraint? table name = some previous →
        after.constraint? table name = some value → RecreatedOnce previous value := by
  have hparts : ∀ object : Object, (Parts.runPart Statement.touches Statement.effect object
      (migrationBetween before after).statements (Objects.ofSchema before object)).isSome = true ↔
      ∀ table name, object = .constraint table name → ∀ previous value,
        before.constraint? table name = some previous →
        after.constraint? table name = some value → RecreatedOnce previous value := by
    intro object
    rw [runPart_migration hbefore hafter hnames hnames']
    cases object with
    | type name =>
      simp [Object.owner, runObject_ofType hafter hnames hnames' name]
    | table name =>
      rw [Object.owner, runObject_ofTable hbefore hafter hnames hnames' rfl]
      simp
    | column table name =>
      rw [Object.owner, runObject_ofTable hbefore hafter hnames hnames' rfl]
      simp
    | constraint table name =>
      rw [Object.owner, runObject_ofTable hbefore hafter hnames hnames' rfl]
      simp
  have hstep : ∀ statement ∈ (migrationBetween before after).statements, ∀ objects,
      Parts.Agrees (fun (object : Object) (objects : Objects) => objects object) Statement.touches
        Statement.effect statement objects (statement.run? objects) :=
    fun statement hmem => Statement.run?_agrees
      (renames_migration hbefore hafter hnames hnames' hmem)
  constructor
  · intro hrun table name previous value hprevious hvalue
    by_contra hbroken
    have hpart : Parts.runPart Statement.touches Statement.effect (.constraint table name)
        (migrationBetween before after).statements
        (Objects.ofSchema before (.constraint table name)) = none :=
      Option.not_isSome_iff_eq_none.1 fun hsome =>
        hbroken ((hparts _).1 hsome table name rfl previous value hprevious hvalue)
    have hnone := Parts.foldlM_eq_none _ _ _ Statement.run? _ hstep hpart
    rw [runScript?, hnone] at hrun
    cases hrun
  · intro hsettled
    obtain ⟨objects, hrun, -⟩ := Parts.exists_foldlM_eq_some _ _ _ Statement.run? _ hstep
      fun object => Option.isSome_iff_exists.1 ((hparts object).2
        fun table name _ => hsettled table name)
    rw [runScript?, hrun]
    rfl

end Objects

/-- A primary key that becomes a unique constraint of the same name is dropped twice. -/
theorem runScript?_slashed :
    ((Patch.slashed (.primaryKey ["id"])).WellKeyed ∧ (Patch.slashed (.unique ["id"])).WellKeyed ∧
      (Patch.slashed (.primaryKey ["id"])).NoEmptyName ∧
      (Patch.slashed (.unique ["id"])).NoEmptyName) ∧
    ¬ (runScript? (Objects.ofSchema (Patch.slashed (.primaryKey ["id"])))
      (migrationBetween (Patch.slashed (.primaryKey ["id"]))
        (Patch.slashed (.unique ["id"]))).statements).isSome = true := by
  have hhyps : (Patch.slashed (.primaryKey ["id"])).WellKeyed ∧
      (Patch.slashed (.unique ["id"])).WellKeyed ∧
      (Patch.slashed (.primaryKey ["id"])).NoEmptyName ∧
      (Patch.slashed (.unique ["id"])).NoEmptyName := by
    decide
  refine ⟨hhyps, fun hrun => ?_⟩
  obtain ⟨hbefore, hafter, hnames, hnames'⟩ := hhyps
  have hsettled := (runScript?_migrationBetween_iff hbefore hafter hnames hnames').1 hrun
  exact absurd (hsettled "a/~b" "key" ⟨"key", .primaryKey ["id"]⟩ ⟨"key", .unique ["id"]⟩ rfl
    rfl).1 (by decide)

end SchemaEvolution.Sql
