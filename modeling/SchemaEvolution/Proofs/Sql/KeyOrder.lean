import SchemaEvolution.Proofs.Sql.DependencyOrder
import SchemaEvolution.Proofs.Sql.Renderings

/-!
# Foreign keys and what they need

In the script of a schema a foreign key stands after all tables, and after the constraints of the
tables that come before its own.  The constraints of one table keep their order, also those that a
table refers to itself.
-/

namespace SchemaEvolution.Sql

variable {schema : Schema}

theorem map_name_orderedTables (hnamed : schema.tables.Named Table.name) :
    (orderedTables schema).map Table.name = dependencyOrder schema := by
  have hname : ∀ name ∈ dependencyOrder schema,
      (schema.tables.get? name).map Table.name = some name := by
    intro name hname
    obtain ⟨table, htable⟩ := Keyed.mem_keys_iff.1 ((dependencyOrder_perm schema).mem_iff.1 hname)
    rw [htable, Option.map_some, hnamed.of_get? htable]
  rw [orderedTables, List.map_filterMap, List.filterMap_congr hname, List.filterMap_some]

theorem pairwise_orderedTables (hnamed : schema.tables.Named Table.name) :
    (orderedTables schema).Pairwise fun first second =>
      Precedes (RefersTo schema) first.name second.name := by
  have horder := pairwise_dependencyOrder schema
  rw [← map_name_orderedTables hnamed] at horder
  exact List.pairwise_map.1 horder

/-- A table precedes one that refers to it when it reaches no cycle or has the lesser name. -/
theorem precedes_iff_of_refersTo {child parent : String} (hrefers : RefersTo schema child parent) :
    Precedes (RefersTo schema) parent child ↔
      (ReachesCycle (RefersTo schema) parent → parent < child) := by
  constructor
  · rintro (hbefore | ⟨-, hname⟩) hcycle
    · exact absurd hcycle hbefore.not_reachesCycle.1
    · exact hname hcycle
  · intro hname
    by_cases hcycle : ReachesCycle (RefersTo schema) parent
    · exact .inr ⟨hcycle.of_refers hrefers, hname⟩
    · exact precedes_of_refersTo hrefers hcycle

/-! ## Around a statement -/

variable {front back : List Statement} {child : String} {key : Constraint}

/-- A statement that adds a constraint stands among those of its table, which stand after those of
the tables before it. -/
theorem exists_of_addConstraint_split
    (hsplit : exportStatements schema = front ++ addConstraint child key :: back) :
    ∃ earlier owner later first second, orderedTables schema = earlier ++ owner :: later ∧
      owner.name = child ∧ owner.separateConstraints = first ++ key :: second ∧
      front = openingStatements schema ++ (earlier.flatMap constraintStatements ++
        first.map (addConstraint child)) := by
  obtain ⟨middle, rfl, hmiddle⟩ :=
    exists_of_not_mem_left hsplit (addConstraint_not_mem_openingStatements schema child)
  obtain ⟨earlier, owner, later, inner, rest, htables, howner, rfl⟩ :=
    exists_of_flatMap_split hmiddle
  obtain ⟨first, others, hseparate, rfl, hothers⟩ := List.map_eq_append_iff.1 howner
  obtain ⟨other, second, rfl, hother, -⟩ := List.map_eq_cons_iff.1 hothers
  cases hother
  exact ⟨earlier, owner, later, first, second, htables, rfl, hseparate, rfl⟩

/-- The tables before another one are those that precede it. -/
theorem mem_earlier_iff (hnamed : schema.tables.Named Table.name) {earlier later : List Table}
    {owner table : Table} (htables : orderedTables schema = earlier ++ owner :: later)
    (htable : table ∈ schema.tables.values) (hne : table ≠ owner) :
    table ∈ earlier ↔ Precedes (RefersTo schema) table.name owner.name := by
  have horder := pairwise_orderedTables hnamed
  have hmem := (orderedTables_perm schema).mem_iff.2 htable
  rw [htables] at horder hmem
  obtain ⟨-, hlater, hearlier⟩ := List.pairwise_append.1 horder
  constructor
  · exact fun hfirst => hearlier table hfirst owner List.mem_cons_self
  · intro hprecedes
    rcases List.mem_append.1 hmem with hfirst | hsecond
    · exact hfirst
    · have hafter : table ∈ later := (List.mem_cons.1 hsecond).resolve_left hne
      exact absurd hprecedes ((List.pairwise_cons.1 hlater).1 table hafter).asymm

/-- The constraints of a table with statements before that of another one are those that come before
it in the table. -/
theorem mem_first_iff {owner : Table} (hkeyed : owner.WellKeyed) {first second : List Constraint}
    (hseparate : owner.separateConstraints = first ++ key :: second) {constraint : Constraint} :
    constraint ∈ first ↔ owner.isInline constraint = false ∧
      [constraint, key].Sublist owner.constraints.values := by
  have hnodup : owner.separateConstraints.Nodup := hkeyed.2.2.nodup_values.filter _
  have hkey : key ∈ owner.separateConstraints :=
    hseparate ▸ List.mem_append_right _ List.mem_cons_self
  rw [mem_front_iff hnodup hseparate]
  constructor
  · intro horder
    have hmem := horder.subset List.mem_cons_self
    exact ⟨by simpa using (List.mem_filter.1 hmem).2, horder.trans List.filter_sublist⟩
  · rintro ⟨hinline, horder⟩
    have hkeyApart : (!owner.isInline key) = true := (List.mem_filter.1 hkey).2
    have hkept := horder.filter fun other => !owner.isInline other
    simpa [Table.separateConstraints, hinline, hkeyApart] using hkept

/-- A constraint of a table with a statement of its own stands before a constraint of a table that
refers to it. -/
def AddedBefore (schema : Schema) (table : Table) (constraint : Constraint) (child : String)
    (key : Constraint) : Prop :=
  table.isInline constraint = false ∧
    if child = table.name then [constraint, key].Sublist table.constraints.values
    else ReachesCycle (RefersTo schema) table.name → table.name < child

/-- Only its own part of the statements that add constraints writes one of a table. -/
theorem renderingsOf_flatMap_constraintStatements (hkeyed : schema.WellKeyed) {parent : Table}
    (hparent : parent ∈ schema.tables.values) {constraint : Constraint}
    (hmem : constraint ∈ parent.constraints.values) {tables : List Table}
    (htables : ∀ table ∈ tables, table ∈ schema.tables.values) :
    renderingsOf parent.name constraint (tables.flatMap constraintStatements) ≠ [] ↔
      parent ∈ tables ∧ parent.isInline constraint = false := by
  have hpart : renderingsOf parent.name constraint (constraintStatements parent) ≠ [] ↔
      parent.isInline constraint = false := by
    rw [renderingsOf_constraintStatements (hkeyed.2.2.2 parent hparent) hmem]
    cases parent.isInline constraint <;> simp
  rw [renderingsOf_flatMap, ne_eq, List.flatMap_eq_nil_iff]
  push Not
  constructor
  · rintro ⟨table, htable, hwritten⟩
    have hname : table.name = parent.name := by
      by_contra hne
      exact hwritten (renderingsOf_constraintStatements_of_ne hne)
    obtain rfl := hkeyed.1.eq_of_name_eq (htables table htable) hparent hname
    exact ⟨htable, hpart.1 hwritten⟩
  · rintro ⟨hearlier, hinline⟩
    exact ⟨parent, hearlier, hpart.2 hinline⟩

section Before

variable (hsplit : exportStatements schema = front ++ addConstraint child key :: back)
  {parent : Table} (hparent : parent ∈ schema.tables.values)

include hsplit hparent

theorem createTable_mem_front : .createTable parent ∈ front := by
  obtain ⟨earlier, owner, later, first, second, -, -, -, rfl⟩ :=
    exists_of_addConstraint_split hsplit
  refine List.mem_append_left _ (List.mem_append_left _ (List.mem_append_right _ ?_))
  exact List.mem_map_of_mem ((orderedTables_perm schema).mem_iff.2 hparent)

/-- What is written of a constraint in front of another one. -/
theorem renderingsOf_front_iff (hkeyed : schema.WellKeyed) {constraint : Constraint}
    (hmem : constraint ∈ parent.constraints.values)
    (hrefers : child ≠ parent.name → RefersTo schema child parent.name) :
    renderingsOf parent.name constraint front ≠ [] ↔
      renderingsOf parent.name constraint [.createTable parent] ≠ [] ∨
        AddedBefore schema parent constraint child key := by
  obtain ⟨earlier, owner, later, first, second, htables, rfl, hseparate, rfl⟩ :=
    exists_of_addConstraint_split hsplit
  have hordered : ∀ table ∈ orderedTables schema, table ∈ schema.tables.values :=
    fun table => (orderedTables_perm schema).mem_iff.1
  have howner : owner ∈ schema.tables.values := hordered owner (by simp [htables])
  have hearlier := renderingsOf_flatMap_constraintStatements hkeyed hparent hmem
    fun table htable => hordered table (htables ▸ List.mem_append_left _ htable)
  rw [renderingsOf_append, renderingsOf_append, renderingsOf_openingStatements hkeyed hparent,
    ne_eq, List.append_eq_nil_iff, List.append_eq_nil_iff, not_and_or, not_and_or]
  refine or_congr_right ?_
  rw [← ne_eq, hearlier, renderingsOf_addConstraints_eq_nil_iff, not_not, AddedBefore]
  by_cases hsame : owner.name = parent.name
  -- the table refers to itself
  · obtain rfl := hkeyed.1.eq_of_name_eq howner hparent hsame
    have hapart : owner ∉ earlier := by
      intro hfirst
      have hnodup := (nodup_orderedTables hkeyed.1).of_map
      rw [htables] at hnodup
      exact (List.nodup_append.1 hnodup).2.2 owner hfirst owner List.mem_cons_self rfl
    simp [hapart, mem_first_iff (hkeyed.2.2.2 owner howner) hseparate]
  · have hne : parent ≠ owner := fun heq => hsame (congrArg Table.name heq).symm
    rw [mem_earlier_iff hkeyed.1 htables hparent hne, precedes_iff_of_refersTo (hrefers hsame)]
    simp [hsame, and_comm]

end Before

/-- A foreign key that has a statement is a reference of its table. -/
theorem refersTo_of_split (hkeyed : schema.WellKeyed) {name : String} {reference : ForeignKey}
    (hsplit : exportStatements schema =
      front ++ addConstraint child (.foreignKey name reference) :: back)
    {parent : Table} (hparent : schema.tables.get? reference.targetTable = some parent)
    (hne : child ≠ parent.name) : RefersTo schema child parent.name := by
  obtain ⟨earlier, owner, later, first, second, htables, rfl, hseparate, -⟩ :=
    exists_of_addConstraint_split hsplit
  have howner : owner ∈ schema.tables.values :=
    (orderedTables_perm schema).mem_iff.1 (by simp [htables])
  have hmem : .foreignKey name reference ∈ owner.constraints.values :=
    (List.mem_filter.1 (hseparate ▸ List.mem_append_right first List.mem_cons_self)).1
  have htarget : parent.name = reference.targetTable := hkeyed.1.of_get? hparent
  refine ⟨hne.symm, Keyed.mem_keys_iff.2 ⟨parent, htarget ▸ hparent⟩, ?_⟩
  refine ⟨name, .foreignKey name reference, reference, ?_, rfl, htarget.symm⟩
  rw [Schema.constraint?, hkeyed.1.get?_of_mem howner, Option.bind_some]
  exact (hkeyed.2.2.2 owner howner).2.2.get?_of_mem hmem

/-- A foreign key is added after the table that it refers to is created.  A constraint of that
table, such as the key over the columns referred to, is written before it exactly when the statement
that creates the table does so, or when it has a statement of its own and comes first in order: in
the constraints of a table that refers to itself, else in the order of the tables, so that a cycle
leaves it to the names of the tables. -/
theorem written_before_foreignKey_iff (hkeyed : schema.WellKeyed) {name : String}
    {reference : ForeignKey} (hsplit : exportStatements schema =
      front ++ addConstraint child (.foreignKey name reference) :: back)
    {parent : Table} (hparent : schema.tables.get? reference.targetTable = some parent) :
    .createTable parent ∈ front ∧ ∀ constraint ∈ parent.constraints.values,
      (renderingsOf parent.name constraint front ≠ [] ↔
        renderingsOf parent.name constraint [.createTable parent] ≠ [] ∨
          AddedBefore schema parent constraint child (.foreignKey name reference)) := by
  have hvalue : parent ∈ schema.tables.values := Keyed.mem_values_iff.2 ⟨_, hparent⟩
  refine ⟨createTable_mem_front hsplit hvalue, fun constraint hmem => ?_⟩
  exact renderingsOf_front_iff hsplit hvalue hkeyed hmem (refersTo_of_split hkeyed hsplit hparent)

/-- A table that refers to itself, and whose key stands after the reference. -/
def tree : Table :=
  let up : ForeignKey := ⟨["up"], "t", ["id"], .noAction, .noAction⟩
  ((((Table.empty "t").addColumn { Column.plain "id" "bigint" with notNull := true }).addColumn
    (Column.plain "up" "bigint")).addConstraint (.foreignKey "fk" up)).addConstraint
      (.primaryKey "pk" ["id"])

/-- The reference is added when there is no key yet. -/
theorem not_written_before_foreignKey_tree :
    (Schema.empty.addTable tree).WellKeyed ∧
    exportStatements (Schema.empty.addTable tree) =
      [.createTable tree] ++
        addConstraint "t" (.foreignKey "fk" ⟨["up"], "t", ["id"], .noAction, .noAction⟩) ::
          [addConstraint "t" (.primaryKey "pk" ["id"])] ∧
    (Schema.empty.addTable tree).tables.get? "t" = some tree ∧
    renderingsOf "t" (.primaryKey "pk" ["id"]) [.createTable tree] = [] := by
  have hkeyed : (Schema.empty.addTable tree).WellKeyed := by decide
  have hsplit : exportStatements (Schema.empty.addTable tree) =
      [.createTable tree] ++
        addConstraint "t" (.foreignKey "fk" ⟨["up"], "t", ["id"], .noAction, .noAction⟩) ::
          [addConstraint "t" (.primaryKey "pk" ["id"])] := by
    have htables : orderedTables (Schema.empty.addTable tree) = [tree] :=
      List.perm_singleton.1 (orderedTables_perm _)
    rw [exportStatements_eq, openingStatements, htables]
    rfl
  have hparent : (Schema.empty.addTable tree).tables.get? "t" = some tree := rfl
  refine ⟨hkeyed, hsplit, hparent, ?_⟩
  have hmem : .primaryKey "pk" ["id"] ∈ tree.constraints.values := by decide
  have hwritten := (written_before_foreignKey_iff hkeyed hsplit hparent).2 _ hmem
  refine not_not.1 (mt hwritten.1 ?_)
  rintro (hcreate | ⟨-, horder⟩)
  · exact absurd hcreate (by decide)
  · rw [if_pos (show "t" = tree.name from rfl)] at horder
    exact absurd horder (by decide)

end SchemaEvolution.Sql
