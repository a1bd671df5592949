import SchemaEvolution.Proofs.Patch.Growth
import SchemaEvolution.Proofs.Splitting
import SchemaEvolution.Proofs.Sql.Dependents
import SchemaEvolution.Proofs.Sql.Safety

/-!
# The order in which a migration drops

A migration begins with everything that it drops for good: constraints, indexes and columns of
the tables that stay, then whole tables and then types, each in the order of the old schema.  What
is replaced is replaced later.  So a dropped table may still be referred to by another removed
table, or by a foreign key that is only going to refer to another table, and a dropped type may
still be the type of a column that is only going to have another one.
-/

namespace SchemaEvolution.Sql

open Patch (Edit Operation changes diff goneConstraints goneNames keptTableRemovals removals)

/-- Whenever the script drops a table, no foreign key of another table refers to it but one that
does so in the end; and whenever it drops a type, no column has it but one that has it in the
end. -/
structure DropsUnused (before after : Schema) (statements : List Statement) : Prop where
  tables : ∀ front name back, statements = front ++ .dropTable name :: back →
    ∀ table key, table ≠ name →
      ((Dependents.ofSchema before).run front).target? table key = some name →
      (Dependents.ofSchema after).target? table key = some name
  types : ∀ front name back, statements = front ++ .dropType name :: back →
    ∀ table column, ((Dependents.ofSchema before).run front).type? table column = some name →
      (Dependents.ofSchema after).type? table column = some name

/-- A removed table that refers to another one stands before it. -/
def ReferrersFirst (before after : Schema) : Prop :=
  ∀ child key parent, child ≠ parent → child ∈ goneNames before.tables after.tables →
    parent ∈ goneNames before.tables after.tables →
    (Dependents.ofSchema before).target? child key = some parent →
    [child, parent].Sublist before.tables.keys

/-- A foreign key of both schemas that refers to a removed table still does so in the end, or it
has a column that is gone. -/
def KeysSettled (before after : Schema) : Prop :=
  ∀ table key reference kept, (Dependents.ofSchema before).key? table key = some reference →
    (Dependents.ofSchema after).key? table key = some kept →
    reference.target ∈ goneNames before.tables after.tables →
    kept.target = reference.target ∨ ∃ column ∈ reference.columns,
      (Dependents.ofSchema before).type? table column ≠ none ∧
        (Dependents.ofSchema after).type? table column = none

/-- A column of both schemas that has a removed type still has it in the end. -/
def TypesSettled (before after : Schema) : Prop :=
  ∀ table column type kept, (Dependents.ofSchema before).type? table column = some type →
    (Dependents.ofSchema after).type? table column = some kept →
    type ∈ goneNames before.enums after.enums → kept = type

def Statement.dropsOwner : Statement → Bool
  | .dropTable _ | .dropType _ => true
  | _ => false

def tableDrops (name : String) (old new : Table) : List Statement :=
  (goneConstraints old.constraints new.constraints).map (fun constraint =>
    .alterTable name (.dropConstraint constraint)) ++
  (goneNames old.indexes new.indexes).map .dropIndex ++
  (goneNames old.columns new.columns).map fun column => .alterTable name (.dropColumn column)

def innerDrops (before after : Schema) : List Statement :=
  before.tables.toList.flatMap fun entry =>
    match after.tables.get? entry.1 with
    | some table => tableDrops entry.1 entry.2 table
    | none => []

def leadingDrops (before after : Schema) : List Statement :=
  innerDrops before after ++ (goneNames before.tables after.tables).map .dropTable ++
    (goneNames before.enums after.enums).map .dropType ++
    (goneNames before.extensions after.extensions).map .dropExtension

/-- What is dropped inside of kept tables belongs to a table that is in both schemas. -/
theorem mem_innerDrops {before after : Schema} {statement : Statement} :
    statement ∈ innerDrops before after ↔ ∃ name old new, before.tables.get? name = some old ∧
      after.tables.get? name = some new ∧ statement ∈ tableDrops name old new := by
  rw [innerDrops, List.mem_flatMap]
  constructor
  · rintro ⟨⟨name, old⟩, hentry, hmem⟩
    cases hnew : after.tables.get? name with
    | none =>
      simp only [hnew] at hmem
      cases hmem
    | some new =>
      simp only [hnew] at hmem
      exact ⟨name, old, new, Keyed.get?_eq_some_iff.2 hentry, hnew, hmem⟩
  · rintro ⟨name, old, new, hold, hnew, hmem⟩
    refine ⟨(name, old), Keyed.get?_eq_some_iff.1 hold, ?_⟩
    simp only [hnew]
    exact hmem

theorem mem_tableDrops {name : String} {old new : Table} {statement : Statement} :
    statement ∈ tableDrops name old new ↔
      (∃ constraint ∈ goneConstraints old.constraints new.constraints,
        statement = .alterTable name (.dropConstraint constraint)) ∨
      (∃ index ∈ goneNames old.indexes new.indexes, statement = .dropIndex index) ∨
      ∃ column ∈ goneNames old.columns new.columns,
        statement = .alterTable name (.dropColumn column) := by
  simp only [tableDrops, List.mem_append, List.mem_map, or_assoc, eq_comm]

theorem isDrop_innerDrops {before after : Schema} {statement : Statement}
    (hmem : statement ∈ innerDrops before after) :
    statement.isDrop = true ∧ statement.dropsOwner = false := by
  obtain ⟨name, old, new, -, -, hmem⟩ := mem_innerDrops.1 hmem
  obtain ⟨constraint, -, rfl⟩ | ⟨index, -, rfl⟩ | ⟨column, -, rfl⟩ := mem_tableDrops.1 hmem <;>
    exact ⟨rfl, rfl⟩

theorem isForeignKey_of_isDrop {statement : Statement} (hdrop : statement.isDrop = true) :
    statement.isForeignKey = false := by
  cases statement with
  | alterTable table alteration => cases alteration <;> first | rfl | cases hdrop
  | _ => rfl

theorem flatMap_map_singleton {α : Type} {names : List String} {part : String → Operation}
    {f : Operation → List α} {single : String → α}
    (hpart : ∀ name ∈ names, f (part name) = [single name]) :
    (names.map part).flatMap f = names.map single := by
  rw [List.flatMap_map, List.flatMap_congr hpart]
  exact List.map_eq_flatMap.symm

theorem mem_leadingDrops {before after : Schema} {statement : Statement} :
    statement ∈ leadingDrops before after ↔ statement ∈ innerDrops before after ∨
      (∃ name ∈ goneNames before.tables after.tables, statement = .dropTable name) ∨
      (∃ name ∈ goneNames before.enums after.enums, statement = .dropType name) ∨
      ∃ name ∈ goneNames before.extensions after.extensions, statement = .dropExtension name := by
  simp only [leadingDrops, List.mem_append, List.mem_map, or_assoc, eq_comm]

theorem isDrop_leadingDrops {before after : Schema} {statement : Statement}
    (hmem : statement ∈ leadingDrops before after) : statement.isDrop = true := by
  obtain hmem | ⟨_, -, rfl⟩ | ⟨_, -, rfl⟩ | ⟨_, -, rfl⟩ := mem_leadingDrops.1 hmem
  · exact (isDrop_innerDrops hmem).1
  all_goals rfl

section Removals

variable {before after : Schema} (hnames : before.NoEmptyName)

include hnames

/-- The removals in a table are written as the drops of that table. -/
theorem statementsOf_tableRemovals {name : String} {old : Table}
    (hold : before.tables.get? name = some old) (new : Table) :
    (Patch.tableRemovals name old new).flatMap (statementsOf (spanBetween before after)) =
      tableDrops name old new := by
  have htable := Keyed.ne_empty_of_get? hnames.1 hold
  obtain ⟨hcolumns, hindexes, hconstraints⟩ := hnames.2.2.2.of_get? hold
  rw [Patch.tableRemovals, List.flatMap_append, List.flatMap_append, tableDrops]
  refine congrArg₂ _ (congrArg₂ _ (flatMap_map_singleton fun constraint hmem => ?_)
    (flatMap_map_singleton fun index hmem => ?_)) (flatMap_map_singleton fun column hmem => ?_)
  · have hwritable : (Edit.table name (.removeConstraint constraint)).Writable :=
      ⟨⟨htable, Patch.ne_empty_of_mem hconstraints (Patch.mem_goneConstraints hmem), trivial⟩,
        trivial⟩
    exact (statementsOf_operation _ hwritable).trans rfl
  · have hwritable : (Edit.table name (.removeIndex index)).Writable :=
      ⟨⟨htable, Patch.ne_empty_of_mem hindexes (Patch.mem_goneNames hmem), trivial⟩, trivial⟩
    exact (statementsOf_operation _ hwritable).trans rfl
  · have hwritable : (Edit.table name (.removeColumn column)).Writable :=
      ⟨⟨htable, Patch.ne_empty_of_mem hcolumns (Patch.mem_goneNames hmem)⟩, trivial⟩
    exact (statementsOf_operation _ hwritable).trans rfl

/-- The removals of a difference are the drops that a migration begins with. -/
theorem statementsOf_removals :
    (removals before after).flatMap (statementsOf (spanBetween before after)) =
      leadingDrops before after := by
  rw [Patch.removals_eq, List.flatMap_append, List.flatMap_append, List.flatMap_append,
    leadingDrops]
  refine congrArg₂ _ (congrArg₂ _ (congrArg₂ _ ?_ (flatMap_map_singleton fun name hmem => ?_))
    (flatMap_map_singleton fun name hmem => ?_)) (flatMap_map_singleton fun name hmem => ?_)
  · rw [keptTableRemovals, List.flatMap_assoc, innerDrops]
    refine List.flatMap_congr fun entry hentry => ?_
    cases after.tables.get? entry.1 with
    | none => rfl
    | some table =>
      exact statementsOf_tableRemovals hnames (Keyed.get?_eq_some_iff.2 hentry) table
  · have hwritable : (Edit.removeTable name).Writable :=
      ⟨⟨Patch.ne_empty_of_mem hnames.1 (Patch.mem_goneNames hmem), trivial⟩, trivial⟩
    exact (statementsOf_operation _ hwritable).trans rfl
  · have hwritable : (Edit.removeEnum name).Writable :=
      ⟨⟨Patch.ne_empty_of_mem hnames.2.1 (Patch.mem_goneNames hmem), trivial⟩, trivial⟩
    exact (statementsOf_operation _ hwritable).trans rfl
  · have hwritable : (Edit.removeExtension name).Writable :=
      ⟨Patch.ne_empty_of_mem hnames.2.2.1 (Patch.mem_goneNames hmem), trivial⟩
    exact (statementsOf_operation _ hwritable).trans rfl

end Removals

theorem Statement.exists_touched_of_dropsOwner {statement : Statement}
    (hdrops : statement.dropsOwner = true) :
    ∃ object : Object, object.part? = none ∧ statement.touches object = true := by
  cases statement with
  | dropTable name => exact ⟨.table name, rfl, touches_of_named rfl⟩
  | dropType name => exact ⟨.type name, rfl, touches_of_named rfl⟩
  | _ => cases hdrops

theorem Statement.StaysIn.dropsOwner {table : String} {part : Patch.TablePart}
    {statement : Statement} (hstays : statement.StaysIn table part) :
    statement.dropsOwner = false := by
  by_contra hdrops
  obtain ⟨object, hpart, htouch⟩ :=
    Statement.exists_touched_of_dropsOwner (Bool.not_eq_false _ ▸ hdrops)
  cases hpart.symm.trans (hstays.2 object htouch).2

theorem Statement.dropsOwner_of_silent {statement : Statement}
    (hsilent : ∀ object, statement.touches object = false) : statement.dropsOwner = false := by
  by_contra hdrops
  obtain ⟨object, -, htouch⟩ :=
    Statement.exists_touched_of_dropsOwner (Bool.not_eq_false _ ▸ hdrops)
  cases (hsilent object).symm.trans htouch

theorem dropsOwner_putTable {name : String} {table : Table} {statement : Statement}
    (hmem : statement ∈ putTableStatements name table) : statement.dropsOwner = false := by
  rcases List.mem_append.1 hmem with hmem | hmem
  · rcases List.mem_cons.1 hmem with rfl | hmem
    · rfl
    · obtain ⟨index, -, rfl⟩ := List.mem_map.1 hmem
      rfl
  · obtain ⟨constraint, -, rfl⟩ := List.mem_map.1 hmem
    rfl

section Changes

variable {before after : Schema} (hbefore : before.WellKeyed) (hafter : after.WellKeyed)
  (hnames : before.NoEmptyName) (hnames' : after.NoEmptyName)

include hbefore hafter hnames hnames'

/-- The operations on an extension drop no table and no type. -/
theorem dropsOwner_extension {name : String} {ops : List Operation}
    (hedits : Patch.EditsIn (Edit.For (.extension name)) ops) {op : Operation} (hop : op ∈ ops) :
    ∀ statement ∈ statementsOf (spanBetween before after) op, statement.dropsOwner = false := by
  obtain ⟨edit, rfl, hwritable, hplace, howner⟩ := hedits op hop
  rw [statementsOf_operation _ hwritable, editsTo]
  split
  · next statements hstatements =>
    intro statement hmem
    have hstays := editStatements_staysWith hwritable hplace
      (name_of_constraintAfter hbefore hafter hnames hnames') hstatements statement hmem
    refine Statement.dropsOwner_of_silent fun object => Bool.eq_false_iff.2 fun htouch => ?_
    have hobject := (hstays.2 object htouch).trans howner
    cases object <;> cases hobject
  · rintro statement ⟨⟩

theorem dropsOwner_extensionChanges {op : Operation}
    (hop : op ∈ Patch.entryChanges before.extensions after.extensions
      (fun name value => [.add (.extension name .whole) value.toJson]) Patch.extensionChanges) :
    ∀ statement ∈ statementsOf (spanBetween before after) op, statement.dropsOwner = false := by
  obtain ⟨name, value, hvalue, ⟨-, hmem⟩ | ⟨previous, -, hmem⟩⟩ := Patch.mem_entryChanges hop
  all_goals have hname := Keyed.ne_empty_of_get? hnames'.2.2.1 hvalue
  · exact dropsOwner_extension hbefore hafter hnames hnames'
      (Patch.extensionAdded_edits hname (hafter.2.2.1.of_get? hvalue)) hmem
  · exact dropsOwner_extension hbefore hafter hnames hnames'
      (Patch.extensionChanges_edits hname previous value) hmem

omit hbefore hnames in
/-- The changes of an enum drop no table and no type. -/
theorem dropsOwner_enumChanges {op : Operation}
    (hop : op ∈ Patch.entryChanges before.enums after.enums
      (fun name value => [.add (.enumType name .whole) value.toJson]) Patch.enumChanges) :
    ∀ statement ∈ statementsOf (spanBetween before after) op, statement.dropsOwner = false := by
  obtain ⟨name, value, hvalue, ⟨hnone, hmem⟩ | ⟨previous, -, hmem⟩⟩ := Patch.mem_entryChanges hop
  · have hwritable : (Edit.putEnum name value).Writable :=
      ⟨⟨Keyed.ne_empty_of_get? hnames'.2.1 hvalue, trivial⟩, hafter.2.1.of_get? hvalue⟩
    have hhad : before.enums.contains name = false := by rw [Keyed.contains, hnone]; rfl
    have hstatements : statementsOf (spanBetween before after)
        (.add (.enumType name .whole) value.toJson) = [.createEnum value] := by
      refine (statementsOf_operation _ hwritable).trans ?_
      change onlyIf (before.enums.contains name) _ ++ _ = _
      rw [hhad]
      rfl
    cases List.mem_singleton.1 hmem
    rw [hstatements]
    exact List.forall_mem_singleton.2 rfl
  · intro statement hstatement
    exact Statement.dropsOwner_of_silent fun object =>
      @enumChanges_statements_silent before after hnames' name previous value hvalue object
        statement (List.mem_flatMap.2 ⟨op, hmem, hstatement⟩)

/-- The changes of tables drop no table and no type. -/
theorem dropsOwner_tableChanges {op : Operation}
    (hop : op ∈ Patch.entryChanges before.tables after.tables
      (fun name value => [.add (.table name .whole) value.toJson]) Patch.tableChanges) :
    ∀ statement ∈ statementsOf (spanBetween before after) op, statement.dropsOwner = false := by
  obtain ⟨name, value, hvalue, ⟨hnone, hmem⟩ | ⟨previous, hprevious, hmem⟩⟩ :=
    Patch.mem_entryChanges hop
  · cases List.mem_singleton.1 hmem
    rw [statementsOf_tableAdded hafter hnames' hnone hvalue]
    exact fun statement hmem => dropsOwner_putTable hmem
  · have hverb := Patch.tableChanges_verb_ne_remove name previous value op hmem
    obtain ⟨_, -, -, part, -, hstays⟩ := insideStatements_stayIn hbefore hafter hnames hnames'
      hprevious hvalue (Patch.mem_arranged_of_changes hmem hverb)
    exact fun statement hstatement => (hstays statement hstatement).dropsOwner

/-- What is added or replaced drops no table and no type. -/
theorem dropsOwner_changes {op : Operation} (hop : op ∈ changes before after) :
    ∀ statement ∈ statementsOf (spanBetween before after) op, statement.dropsOwner = false := by
  rcases List.mem_append.1 hop with hop | hop
  · rcases List.mem_append.1 hop with hop | hop
    · exact dropsOwner_extensionChanges hbefore hafter hnames hnames' hop
    · exact dropsOwner_enumChanges hafter hnames' hop
  · exact dropsOwner_tableChanges hbefore hafter hnames hnames' hop

/-- A migration drops first, and drops no table and no type after that. -/
theorem migrationBetween_statements : ∃ later,
    (migrationBetween before after).statements = leadingDrops before after ++ later ∧
      ∀ statement ∈ later, statement.dropsOwner = false := by
  let replaced : List Operation := (changes before after).filter (fun op => op.verb == .add) ++
    (changes before after).filter fun op => op.verb == .replace
  refine ⟨foreignKeysLast (replaced.flatMap (statementsOf (spanBetween before after))), ?_, ?_⟩
  · have hops : diff before after = removals before after ++ replaced := by
      rw [Patch.diff_eq_arranged, Patch.arranged, List.append_assoc]
    rw [migrationBetween, migration_statements]
    change foreignKeysLast
      ((diff before after).flatMap (statementsOf (spanBetween before after))) = _
    rw [hops, List.flatMap_append, statementsOf_removals hnames,
      foreignKeysLast_append fun statement hmem =>
        isForeignKey_of_isDrop (isDrop_leadingDrops hmem)]
  · intro statement hmem
    have hall : statement ∈ replaced.flatMap (statementsOf (spanBetween before after)) := by
      rcases List.mem_append.1 hmem with hmem | hmem
      · exact (List.mem_filter.1 hmem).1
      · exact (List.mem_filter.1 hmem).1
    obtain ⟨op, hop, hstatement⟩ := List.mem_flatMap.1 hall
    have hchanges : op ∈ changes before after := by
      rcases List.mem_append.1 hop with hop | hop
      · exact (List.mem_filter.1 hop).1
      · exact (List.mem_filter.1 hop).1
    exact dropsOwner_changes hbefore hafter hnames hnames' hchanges statement hstatement

end Changes

/-! ## Where a drop stands -/

/-- A statement for one of several names stands after those for the names before it. -/
theorem exists_of_map_split {α : Type} {left right front back : List α} {make : String → α}
    (hmake : Function.Injective make) {names : List String} {name : String}
    (heq : left ++ (names.map make ++ right) = front ++ make name :: back)
    (hleft : make name ∉ left) (hright : make name ∉ right) :
    ∃ earlier later, names = earlier ++ name :: later ∧ front = left ++ earlier.map make := by
  obtain ⟨middle, rfl, hmiddle⟩ := exists_of_not_mem_left heq hleft
  obtain ⟨rest, hrest⟩ := exists_of_not_mem_right hmiddle hright
  obtain ⟨earlier, others, rfl, rfl, hothers⟩ := List.map_eq_append_iff.1 hrest
  obtain ⟨other, later, rfl, hother, -⟩ := List.map_eq_cons_iff.1 hothers
  cases hmake hother
  exact ⟨earlier, later, rfl, rfl⟩

/-- Of two names that are gone the one that stands first in order is found before the other. -/
theorem mem_earlier_of_order {β γ : Type} {old : Keyed β} {new : Keyed γ}
    {earlier later : List String} {first second : String}
    (hsplit : goneNames old new = earlier ++ second :: later) (hfirst : first ∈ goneNames old new)
    (hsecond : second ∈ goneNames old new) (horder : [first, second].Sublist old.keys) :
    first ∈ earlier := by
  have hboth : [first, second].filter (fun name => !new.contains name) = [first, second] :=
    List.filter_eq_self.2 (List.forall_mem_cons.2 ⟨(List.mem_filter.1 hfirst).2,
      List.forall_mem_singleton.2 (List.mem_filter.1 hsecond).2⟩)
  have hpair := horder.filter fun name => !new.contains name
  rw [hboth] at hpair
  exact (mem_front_iff (old.distinct.filter _) hsplit).2 hpair

/-! ## What the drops inside tables leave -/

section Inner

variable {before after : Schema} {table : String} {old new : Table}

theorem type?_ofSchema {schema : Schema} {owner : Table}
    (howner : schema.tables.get? table = some owner) (column : String) :
    (Dependents.ofSchema schema).type? table column =
      (owner.columns.get? column).map Column.type := by
  simp only [Dependents.ofSchema, howner]
  rfl

theorem key?_ofSchema {schema : Schema} {owner : Table}
    (howner : schema.tables.get? table = some owner) (key : String) :
    (Dependents.ofSchema schema).key? table key =
      (owner.constraints.get? key).bind fun constraint => constraint.rule.reference? := by
  simp only [Dependents.ofSchema, Schema.constraint?, howner]
  rfl

/-- A foreign key is dropped in a table that stays when the table has no such foreign key in the
end. -/
theorem mem_goneConstraints_iff (hold : before.tables.get? table = some old)
    (hnew : after.tables.get? table = some new) {key : String}
    {reference : SchemaEvolution.Reference}
    (hkey : (Dependents.ofSchema before).key? table key = some reference) :
    key ∈ goneConstraints old.constraints new.constraints ↔
      (Dependents.ofSchema after).key? table key = none := by
  rw [key?_ofSchema hold, Option.bind_eq_some_iff] at hkey
  obtain ⟨constraint, hconstraint, hreference⟩ := hkey
  have hkind : constraint.rule.kind = "FOREIGN KEY" := by
    by_contra hkind
    rw [Rule.reference?_eq_none_iff.2 hkind] at hreference
    cases hreference
  rw [key?_ofSchema hnew, goneConstraints, List.mem_map]
  constructor
  · rintro ⟨⟨name, other⟩, hentry, rfl⟩
    obtain ⟨hmem, hgone⟩ := List.mem_filter.1 hentry
    cases hconstraint.symm.trans (Keyed.get?_eq_some_iff.2 hmem)
    cases hvalue : new.constraints.get? name with
    | none => rfl
    | some value =>
      simp only [hvalue, hkind] at hgone
      exact Rule.reference?_eq_none_iff.2 (by simpa using hgone)
  · intro hnone
    refine ⟨(key, constraint), List.mem_filter.2 ⟨Keyed.get?_eq_some_iff.1 hconstraint, ?_⟩, rfl⟩
    cases hvalue : new.constraints.get? key with
    | none => simp only [hvalue]
    | some value =>
      rw [hvalue] at hnone
      have hother : value.rule.kind ≠ "FOREIGN KEY" := Rule.reference?_eq_none_iff.1 hnone
      simpa [hvalue, hkind] using hother

theorem mem_goneColumns_iff (hold : before.tables.get? table = some old)
    (hnew : after.tables.get? table = some new) {column : String} :
    column ∈ goneNames old.columns new.columns ↔
      (Dependents.ofSchema before).type? table column ≠ none ∧
        (Dependents.ofSchema after).type? table column = none := by
  rw [Patch.mem_goneNames_iff, type?_ofSchema hold, type?_ofSchema hnew]
  simp

theorem dropConstraint_mem_innerDrops {key : String} :
    .alterTable table (.dropConstraint key) ∈ innerDrops before after ↔
      ∃ old new, before.tables.get? table = some old ∧ after.tables.get? table = some new ∧
        key ∈ goneConstraints old.constraints new.constraints := by
  simp [mem_innerDrops, mem_tableDrops]

theorem dropColumn_mem_innerDrops {column : String} :
    .alterTable table (.dropColumn column) ∈ innerDrops before after ↔
      ∃ old new, before.tables.get? table = some old ∧ after.tables.get? table = some new ∧
        column ∈ goneNames old.columns new.columns := by
  simp [mem_innerDrops, mem_tableDrops]

theorem dropTable_not_mem_innerDrops : .dropTable table ∉ innerDrops before after := fun hmem => by
  cases (isDrop_innerDrops hmem).2

theorem exists_table_of_key? {schema : Schema} {key : String}
    {reference : SchemaEvolution.Reference}
    (hkey : (Dependents.ofSchema schema).key? table key = some reference) :
    ∃ owner, schema.tables.get? table = some owner := by
  obtain ⟨constraint, hconstraint, -⟩ := Option.bind_eq_some_iff.1 hkey
  exact (Option.bind_eq_some_iff.1 hconstraint).imp fun _ howner => howner.1

theorem exists_table_of_type? {schema : Schema} {column type : String}
    (htype : (Dependents.ofSchema schema).type? table column = some type) :
    ∃ owner, schema.tables.get? table = some owner := by
  obtain ⟨value, hvalue, -⟩ := Option.map_eq_some_iff.1 htype
  exact (Option.bind_eq_some_iff.1 hvalue).imp fun _ howner => howner.1

theorem not_mem_goneTables (hnew : after.tables.get? table = some new) :
    table ∉ goneNames before.tables after.tables := fun hmem => by
  cases (Patch.mem_goneNames_iff.1 hmem).2.symm.trans hnew

/-- In a table that stays a foreign key outlasts the first drops when it is there in the end and
loses no column. -/
theorem key_outlasts_innerDrops {key : String} {reference : SchemaEvolution.Reference}
    (hkey : (Dependents.ofSchema before).key? table key = some reference)
    (hnew : after.tables.get? table = some new) :
    (keyDroppedBy table key reference).Disjoint (innerDrops before after) ↔
      (Dependents.ofSchema after).key? table key ≠ none ∧ ∀ column ∈ reference.columns,
        (Dependents.ofSchema before).type? table column ≠ none →
          (Dependents.ofSchema after).type? table column ≠ none := by
  obtain ⟨old, hold⟩ := exists_table_of_key? hkey
  have hconstraint : .alterTable table (.dropConstraint key) ∈ innerDrops before after ↔
      (Dependents.ofSchema after).key? table key = none := by
    rw [dropConstraint_mem_innerDrops, ← mem_goneConstraints_iff hold hnew hkey]
    simp [hold, hnew]
  have hcolumn : ∀ column, .alterTable table (.dropColumn column) ∈ innerDrops before after ↔
      (Dependents.ofSchema before).type? table column ≠ none ∧
        (Dependents.ofSchema after).type? table column = none := by
    intro column
    rw [dropColumn_mem_innerDrops, ← mem_goneColumns_iff hold hnew]
    simp [hold, hnew]
  have hcolumns : (∀ column ∈ reference.columns,
      .alterTable table (.dropColumn column) ∉ innerDrops before after) ↔
      ((reference.columns.map fun column =>
        .alterTable table (.dropColumn column)).Disjoint (innerDrops before after)) := by
    simp [List.Disjoint]
  rw [keyDroppedBy, List.disjoint_cons_left, List.disjoint_cons_left, hconstraint, ← hcolumns]
  simp [dropTable_not_mem_innerDrops, hcolumn]

/-- In a table that stays a column outlasts the first drops when it is there in the end. -/
theorem column_outlasts_innerDrops {column type : String}
    (htype : (Dependents.ofSchema before).type? table column = some type)
    (hnew : after.tables.get? table = some new) :
    (columnDroppedBy table column).Disjoint (innerDrops before after) ↔
      (Dependents.ofSchema after).type? table column ≠ none := by
  obtain ⟨old, hold⟩ := exists_table_of_type? htype
  have hcolumn : .alterTable table (.dropColumn column) ∈ innerDrops before after ↔
      (Dependents.ofSchema after).type? table column = none := by
    rw [dropColumn_mem_innerDrops]
    simp [hold, hnew, mem_goneColumns_iff hold hnew, htype]
  rw [columnDroppedBy, List.disjoint_cons_left, List.disjoint_cons_left, hcolumn]
  simp [dropTable_not_mem_innerDrops]

/-- Nothing is dropped inside a table that does not stay. -/
theorem disjoint_innerDrops {key : String} {reference : SchemaEvolution.Reference}
    (hgone : after.tables.get? table = none) :
    (keyDroppedBy table key reference).Disjoint (innerDrops before after) := by
  intro statement hdropped hmem
  rcases List.mem_cons.1 hdropped with rfl | hdropped
  · exact dropTable_not_mem_innerDrops hmem
  rcases List.mem_cons.1 hdropped with rfl | hdropped
  · obtain ⟨_, _, -, hnew, -⟩ := dropConstraint_mem_innerDrops.1 hmem
    cases hgone.symm.trans hnew
  · obtain ⟨column, -, rfl⟩ := List.mem_map.1 hdropped
    obtain ⟨_, _, -, hnew, -⟩ := dropColumn_mem_innerDrops.1 hmem
    cases hgone.symm.trans hnew

/-- The foreign keys that are there when a table is dropped, after others. -/
theorem key?_at_dropTable {earlier : List String} {key : String}
    {reference : SchemaEvolution.Reference} :
    ((Dependents.ofSchema before).run
        (innerDrops before after ++ earlier.map .dropTable)).key? table key = some reference ↔
      (Dependents.ofSchema before).key? table key = some reference ∧
        (keyDroppedBy table key reference).Disjoint (innerDrops before after) ∧
        table ∉ earlier := by
  have htables : (keyDroppedBy table key reference).Disjoint (earlier.map .dropTable) ↔
      table ∉ earlier := by
    simp only [List.Disjoint, keyDroppedBy, List.mem_cons, List.mem_map]
    simp [List.forall_mem_ne']
  rw [Dependents.key?_run_of_isDrop, List.disjoint_append_right, htables]
  intro statement hmem
  rcases List.mem_append.1 hmem with hmem | hmem
  · exact (isDrop_innerDrops hmem).1
  · obtain ⟨name, -, rfl⟩ := List.mem_map.1 hmem
    rfl

/-- The columns that are there when a type is dropped, after others. -/
theorem type?_at_dropType {earlier : List String} {column type : String} :
    ((Dependents.ofSchema before).run (innerDrops before after ++
        (goneNames before.tables after.tables).map .dropTable ++
        earlier.map .dropType)).type? table column = some type ↔
      (Dependents.ofSchema before).type? table column = some type ∧
        (columnDroppedBy table column).Disjoint (innerDrops before after) ∧
        table ∉ goneNames before.tables after.tables := by
  have htables : (columnDroppedBy table column).Disjoint
      ((goneNames before.tables after.tables).map .dropTable) ↔
      table ∉ goneNames before.tables after.tables := by
    simp [List.Disjoint, columnDroppedBy, List.forall_mem_ne']
  have htypes : (columnDroppedBy table column).Disjoint (earlier.map .dropType) := by
    simp [List.Disjoint, columnDroppedBy]
  rw [Dependents.type?_run_of_isDrop, List.disjoint_append_right, List.disjoint_append_right,
    htables, and_iff_left htypes]
  intro statement hmem
  rcases List.mem_append.1 hmem with hmem | hmem
  · rcases List.mem_append.1 hmem with hmem | hmem
    · exact (isDrop_innerDrops hmem).1
    · obtain ⟨name, -, rfl⟩ := List.mem_map.1 hmem
      rfl
  · obtain ⟨name, -, rfl⟩ := List.mem_map.1 hmem
    rfl

end Inner

section Order

variable {before after : Schema} (hbefore : before.WellKeyed) (hafter : after.WellKeyed)
  (hnames : before.NoEmptyName) (hnames' : after.NoEmptyName)

include hbefore hafter hnames hnames'

/-- A table is dropped after all that is dropped inside tables that stay, and after the removed
tables before it. -/
theorem dropTable_split_iff {front : List Statement} {name : String} :
    (∃ back, (migrationBetween before after).statements = front ++ .dropTable name :: back) ↔
      ∃ earlier later, goneNames before.tables after.tables = earlier ++ name :: later ∧
        front = innerDrops before after ++ earlier.map .dropTable := by
  obtain ⟨rest, hstatements, hrest⟩ :=
    migrationBetween_statements hbefore hafter hnames hnames'
  rw [hstatements, leadingDrops]
  simp only [List.append_assoc]
  constructor
  · rintro ⟨back, heq⟩
    refine exists_of_map_split (fun _ _ => Statement.dropTable.inj) heq ?_ ?_
    · intro hmem
      cases (isDrop_innerDrops hmem).2
    · intro hmem
      simp only [List.mem_append, List.mem_map, reduceCtorEq, and_false, exists_false,
        false_or] at hmem
      cases hrest _ hmem
  · rintro ⟨earlier, later, hgone, rfl⟩
    rw [hgone, List.map_append, List.map_cons]
    simp only [List.append_assoc, List.cons_append]
    exact ⟨_, rfl⟩

/-- A type is dropped after every removed table and after the removed types before it. -/
theorem dropType_split_iff {front : List Statement} {name : String} :
    (∃ back, (migrationBetween before after).statements = front ++ .dropType name :: back) ↔
      ∃ earlier later, goneNames before.enums after.enums = earlier ++ name :: later ∧
        front = innerDrops before after ++
          (goneNames before.tables after.tables).map .dropTable ++ earlier.map .dropType := by
  obtain ⟨rest, hstatements, hrest⟩ :=
    migrationBetween_statements hbefore hafter hnames hnames'
  rw [hstatements, leadingDrops, List.append_assoc _ ((goneNames before.enums _).map _),
    List.append_assoc _ _ rest, List.append_assoc ((goneNames before.enums _).map _)]
  constructor
  · rintro ⟨back, heq⟩
    refine exists_of_map_split (fun _ _ => Statement.dropType.inj) heq ?_ ?_
    · intro hmem
      rcases List.mem_append.1 hmem with hmem | hmem
      · cases (isDrop_innerDrops hmem).2
      · obtain ⟨_, -, hname⟩ := List.mem_map.1 hmem
        cases hname
    · intro hmem
      rcases List.mem_append.1 hmem with hmem | hmem
      · obtain ⟨_, -, hname⟩ := List.mem_map.1 hmem
        cases hname
      · cases hrest _ hmem
  · rintro ⟨earlier, later, hgone, rfl⟩
    rw [hgone, List.map_append, List.map_cons]
    simp only [List.append_assoc, List.cons_append]
    exact ⟨_, rfl⟩

/-- A referring table that is not in front would still be there. -/
theorem DropsUnused.referrersFirst
    (hunused : DropsUnused before after (migrationBetween before after).statements) :
    ReferrersFirst before after := by
  intro child key parent hne hchild hparent hrefers
  obtain ⟨earlier, later, hgone⟩ := List.append_of_mem hparent
  obtain ⟨reference, hkey, htarget⟩ := Option.map_eq_some_iff.1 hrefers
  obtain ⟨back, hstatements⟩ :=
    (dropTable_split_iff hbefore hafter hnames hnames').2 ⟨earlier, later, hgone, rfl⟩
  have habsent := (Patch.mem_goneNames_iff.1 hchild).2
  have hearlier : child ∈ earlier := by
    by_contra hlater
    have hreached := hunused.tables _ _ back hstatements child key hne (Option.map_eq_some_iff.2
      ⟨reference, key?_at_dropTable.2 ⟨hkey, disjoint_innerDrops habsent, hlater⟩, htarget⟩)
    obtain ⟨kept, hkept, -⟩ := Option.map_eq_some_iff.1 hreached
    obtain ⟨owner, howner⟩ := exists_table_of_key? hkept
    cases habsent.symm.trans howner
  have hpair : [child, parent].Sublist (goneNames before.tables after.tables) := by
    rw [hgone]
    exact (List.singleton_sublist.2 hearlier).append
      (List.singleton_sublist.2 List.mem_cons_self)
  exact hpair.trans List.filter_sublist

/-- A foreign key that stays and loses no column is still there when tables are dropped. -/
theorem DropsUnused.keysSettled
    (hunused : DropsUnused before after (migrationBetween before after).statements) :
    KeysSettled before after := by
  intro table key reference kept hkey hkept hparent
  by_contra hbroken
  rw [not_or] at hbroken
  obtain ⟨owner, howner⟩ := exists_table_of_key? hkept
  have hstays : table ∉ goneNames before.tables after.tables := not_mem_goneTables howner
  obtain ⟨earlier, later, hgone⟩ := List.append_of_mem hparent
  obtain ⟨back, hstatements⟩ :=
    (dropTable_split_iff hbefore hafter hnames hnames').2 ⟨earlier, later, hgone, rfl⟩
  have hlasts : (keyDroppedBy table key reference).Disjoint (innerDrops before after) := by
    refine (key_outlasts_innerDrops hkey howner).2 ⟨by simp [hkept], ?_⟩
    exact fun column hmem htype hnone => hbroken.2 ⟨column, hmem, htype, hnone⟩
  have hearlier : table ∉ earlier := fun hmem => hstays (hgone ▸ List.mem_append_left _ hmem)
  have hreached := hunused.tables _ _ back hstatements table key
    (fun heq => hstays (heq ▸ hparent)) (Option.map_eq_some_iff.2
      ⟨reference, key?_at_dropTable.2 ⟨hkey, hlasts, hearlier⟩, rfl⟩)
  rw [Dependents.target?, hkept, Option.map_some, Option.some.injEq] at hreached
  exact hbroken.1 hreached

/-- A column that stays is still there when types are dropped. -/
theorem DropsUnused.typesSettled
    (hunused : DropsUnused before after (migrationBetween before after).statements) :
    TypesSettled before after := by
  intro table column type kept htype hkept hgone
  obtain ⟨owner, howner⟩ := exists_table_of_type? hkept
  obtain ⟨earlier, later, hgone⟩ := List.append_of_mem hgone
  obtain ⟨back, hstatements⟩ :=
    (dropType_split_iff hbefore hafter hnames hnames').2 ⟨earlier, later, hgone, rfl⟩
  have hlasts : (columnDroppedBy table column).Disjoint (innerDrops before after) :=
    (column_outlasts_innerDrops htype howner).2 (by simp [hkept])
  have hreached := hunused.types _ _ back hstatements table column
    (type?_at_dropType.2 ⟨htype, hlasts, not_mem_goneTables howner⟩)
  exact Option.some.inj (hkept.symm.trans hreached)

/-- A foreign key that refers to a table when it is dropped does so in the end: a removed table that
refers to this one was dropped before it, and what is left of the others refers to it still. -/
theorem target?_of_dropTable (hfirst : ReferrersFirst before after)
    (hsettled : KeysSettled before after) {front back : List Statement} {name : String}
    (hstatements : (migrationBetween before after).statements = front ++ .dropTable name :: back)
    {table key : String} (hne : table ≠ name)
    (hrefers : ((Dependents.ofSchema before).run front).target? table key = some name) :
    (Dependents.ofSchema after).target? table key = some name := by
  obtain ⟨earlier, later, hgone, rfl⟩ :=
    (dropTable_split_iff hbefore hafter hnames hnames').1 ⟨back, hstatements⟩
  obtain ⟨reference, hkey, rfl⟩ := Option.map_eq_some_iff.1 hrefers
  obtain ⟨hkey, hlasts, hearlier⟩ := key?_at_dropTable.1 hkey
  have hparent : reference.target ∈ goneNames before.tables after.tables :=
    hgone ▸ List.mem_append_right _ List.mem_cons_self
  cases hnew : after.tables.get? table with
  | none =>
    obtain ⟨old, hold⟩ := exists_table_of_key? hkey
    have hchild : table ∈ goneNames before.tables after.tables :=
      Patch.mem_goneNames_iff.2 ⟨by simp [hold], hnew⟩
    have horder := hfirst table key reference.target hne hchild hparent
      (Option.map_eq_some_iff.2 ⟨reference, hkey, rfl⟩)
    exact absurd (mem_earlier_of_order hgone hchild hparent horder) hearlier
  | some new =>
    obtain ⟨hkept, hcolumns⟩ := (key_outlasts_innerDrops hkey hnew).1 hlasts
    obtain ⟨kept, hkept⟩ := Option.ne_none_iff_exists'.1 hkept
    rcases hsettled table key reference kept hkey hkept hparent with
      htarget | ⟨column, hmem, htype, hnone⟩
    · rw [Dependents.target?, hkept, Option.map_some, htarget]
    · exact absurd hnone (hcolumns column hmem htype)

/-- A column that has a type when it is dropped has it in the end. -/
theorem type?_of_dropType (hsettled : TypesSettled before after) {front back : List Statement}
    {name : String}
    (hstatements : (migrationBetween before after).statements = front ++ .dropType name :: back)
    {table column : String}
    (htype : ((Dependents.ofSchema before).run front).type? table column = some name) :
    (Dependents.ofSchema after).type? table column = some name := by
  obtain ⟨earlier, later, hgone, rfl⟩ :=
    (dropType_split_iff hbefore hafter hnames hnames').1 ⟨back, hstatements⟩
  obtain ⟨htype, hlasts, hstays⟩ := type?_at_dropType.1 htype
  obtain ⟨old, hold⟩ := exists_table_of_type? htype
  cases hnew : after.tables.get? table with
  | none => exact absurd (Patch.mem_goneNames_iff.2 ⟨by simp [hold], hnew⟩) hstays
  | some new =>
    obtain ⟨kept, hkept⟩ :=
      Option.ne_none_iff_exists'.1 ((column_outlasts_innerDrops htype hnew).1 hlasts)
    have hname : name ∈ goneNames before.enums after.enums :=
      hgone ▸ List.mem_append_right _ List.mem_cons_self
    rw [hkept, hsettled table column name kept htype hkept hname]

/-- Nothing that is dropped is still in use exactly when removed tables stand after those that refer
to them, no foreign key that stays turns away from a removed table, unless it loses a column, and
no column that stays turns away from a removed type. -/
theorem dropsUnused_migrationBetween_iff :
    DropsUnused before after (migrationBetween before after).statements ↔
      ReferrersFirst before after ∧ KeysSettled before after ∧ TypesSettled before after := by
  constructor
  · intro hunused
    exact ⟨hunused.referrersFirst hbefore hafter hnames hnames',
      hunused.keysSettled hbefore hafter hnames hnames',
      hunused.typesSettled hbefore hafter hnames hnames'⟩
  · rintro ⟨hfirst, hkeys, htypes⟩
    constructor
    · intro front name back hstatements table key hne hrefers
      exact target?_of_dropTable hbefore hafter hnames hnames' hfirst hkeys hstatements hne hrefers
    · intro front name back hstatements table column htype
      exact type?_of_dropType hbefore hafter hnames hnames' htypes hstatements htype

end Order

/-- A table, and another one after it that refers to it. -/
def referredFirst : Schema :=
  let parent := (Table.empty "p").addColumn (Column.plain "id" "bigint")
  let child := (Table.empty "c").addColumn (Column.plain "p_id" "bigint")
  let key : ForeignKey := ⟨["p_id"], "p", ["id"], .noAction, .noAction⟩
  (Schema.empty.addTable parent).addTable (child.addConstraint (.foreignKey "fk" key))

/-- When both are removed the first one is dropped while the second one still refers to it. -/
theorem not_dropsUnused_referredFirst :
    (referredFirst.WellKeyed ∧ Schema.empty.WellKeyed ∧ referredFirst.NoEmptyName ∧
      Schema.empty.NoEmptyName) ∧
    ¬ DropsUnused referredFirst .empty (migrationBetween referredFirst .empty).statements := by
  have hhyps : referredFirst.WellKeyed ∧ Schema.empty.WellKeyed ∧ referredFirst.NoEmptyName ∧
      Schema.empty.NoEmptyName := by
    decide
  refine ⟨hhyps, fun hunused => ?_⟩
  obtain ⟨hbefore, hafter, hnames, hnames'⟩ := hhyps
  have hfirst := ((dropsUnused_migrationBetween_iff hbefore hafter hnames hnames').1 hunused).1
  have horder : ["c", "p"].Sublist referredFirst.tables.keys :=
    hfirst "c" "fk" "p" (by decide) (by decide) (by decide) rfl
  exact absurd horder (by decide)

end SchemaEvolution.Sql
