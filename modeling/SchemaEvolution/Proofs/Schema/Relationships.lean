import SchemaEvolution.Proofs.Sql.PlainSchema
import SchemaEvolution.Schema.Relationship

/-!
# Relationships of foreign keys

A foreign key gives one relationship for every position that both its lists of columns have, in the
order of the tables, of their constraints and of these positions.  Whether a column is unique is
asked of the first primary key only, but where a table has no second one every key and every unique
index has its say.  So equal schemas have the same relationships.
-/

namespace SchemaEvolution

namespace Table

variable {table other : Table} {column : String}

/-- Some key or some unique index of the table is for the column alone. -/
def MakesUnique (table : Table) (column : String) : Prop :=
  (∃ name, Constraint.primaryKey name [column] ∈ table.constraints.values ∨
      Constraint.unique name [column] ∈ table.constraints.values) ∨
    ∃ index ∈ table.indexes.values, index.unique = true ∧ index.columns = [column]

/-- With one primary key at most, the search for it finds exactly the constraint. -/
theorem isSinglePrimaryKey_iff (hone : table.OneKey) : table.isSinglePrimaryKey column = true ↔
    ∃ name, Constraint.primaryKey name [column] ∈ table.constraints.values := by
  rw [isSinglePrimaryKey]
  constructor
  · intro hsingle
    cases hfound : table.primaryKey? with
    | none =>
      rw [hfound] at hsingle
      cases hsingle
    | some found =>
      obtain ⟨name, columns⟩ := found
      rw [hfound] at hsingle
      obtain rfl : columns = [column] := by simpa using hsingle
      exact ⟨name, mem_of_primaryKey? hfound⟩
  · rintro ⟨name, hmem⟩
    rw [primaryKey?_of_mem hone hmem]
    exact beq_self_eq_true _

/-- The search for a single unique column finds exactly the constraint. -/
theorem hasSingleUnique_iff : table.hasSingleUnique column = true ↔
    ∃ name, Constraint.unique name [column] ∈ table.constraints.values := by
  rw [hasSingleUnique, List.any_eq_true]
  constructor
  · rintro ⟨⟨name, rule⟩, hmem, hrule⟩
    cases rule with
    | unique columns =>
      obtain rfl : columns = [column] := by simpa using hrule
      exact ⟨name, hmem⟩
    | primaryKey columns => cases hrule
    | foreignKey key => cases hrule
    | check condition => cases hrule
  · rintro ⟨name, hmem⟩
    exact ⟨_, hmem, beq_self_eq_true _⟩

/-- Where there is one primary key at most, the first one that is found stands for all. -/
theorem isUniqueColumn_iff (hone : table.OneKey) :
    table.isUniqueColumn column = true ↔ table.MakesUnique column := by
  rw [isUniqueColumn, Bool.or_eq_true, Bool.or_eq_true, hasSingleUnique_iff,
    isSinglePrimaryKey_iff hone, List.any_eq_true, MakesUnique, exists_or]
  simp only [Bool.and_eq_true, beq_iff_eq]
  exact or_congr_left or_comm

/-- The relationships pair the columns of a foreign key of the table by their positions. -/
structure Pairs (table : Table) (name : String) (key : ForeignKey) (found : List Relationship) :
    Prop where
  length : found.length = min key.columns.length key.targetColumns.length
  paired : ∀ (position : Nat) (relationship : Relationship),
    found[position]? = some relationship →
      relationship.name = name ∧ relationship.primaryTable = key.targetTable ∧
      relationship.foreignTable = table.name ∧
      key.columns[position]? = some relationship.foreignColumn ∧
      key.targetColumns[position]? = some relationship.primaryColumn ∧
      (relationship.cardinality = .oneToOne ↔ table.MakesUnique relationship.foreignColumn)

/-- The relationships of a foreign key are its pairs of columns, in their order. -/
theorem pairs_relationshipsOf (hone : table.OneKey) (name : String) (key : ForeignKey) :
    table.Pairs name key (table.relationshipsOf (.foreignKey name key)) where
  length := by
    rw [relationshipsOf, Constraint.foreignKey, List.length_map, List.length_zip]
  paired := by
    intro position relationship hfound
    rw [relationshipsOf, Constraint.foreignKey, List.getElem?_map, Option.map_eq_some_iff] at hfound
    obtain ⟨⟨column, target⟩, hpair, rfl⟩ := hfound
    obtain ⟨hcolumn, htarget⟩ := List.getElem?_zip_eq_some.1 hpair
    refine ⟨rfl, rfl, rfl, hcolumn, htarget, ?_⟩
    change (if table.isUniqueColumn column then Cardinality.oneToOne else .oneToMany) = .oneToOne ↔
      table.MakesUnique column
    rw [← isUniqueColumn_iff hone]
    cases table.isUniqueColumn column <;> decide

/-! ## Equal tables -/

theorem constraints_perm_of_beq (hbeq : (table == other) = true) :
    table.constraints.values.Perm other.constraints.values :=
  Keyed.values_perm fun key => eq_of_beq <|
    (Keyed.beq_iff_get? _ _).1 ((beq_iff table other).1 hbeq).2.2.2.2 key

theorem indexes_perm_of_beq (hbeq : (table == other) = true) :
    table.indexes.values.Perm other.indexes.values :=
  Keyed.values_perm fun key => eq_of_beq <|
    (Keyed.beq_iff_get? _ _).1 ((beq_iff table other).1 hbeq).2.2.2.1 key

theorem OneKey.of_beq (hone : table.OneKey) (hbeq : (table == other) = true) : other.OneKey := by
  rw [OneKey, ← ((constraints_perm_of_beq hbeq).filter _).length_eq]
  exact hone

theorem makesUnique_of_beq (hbeq : (table == other) = true) :
    table.MakesUnique column ↔ other.MakesUnique column := by
  simp only [MakesUnique, (constraints_perm_of_beq hbeq).mem_iff,
    (indexes_perm_of_beq hbeq).mem_iff]

/-- Equal tables have the same unique columns, in whatever order their constraints stand. -/
theorem isUniqueColumn_of_beq (hone : table.OneKey) (hbeq : (table == other) = true) :
    table.isUniqueColumn column = other.isUniqueColumn column := by
  rw [Bool.eq_iff_iff, isUniqueColumn_iff hone, isUniqueColumn_iff (hone.of_beq hbeq)]
  exact makesUnique_of_beq hbeq

theorem relationshipsOf_of_beq (hone : table.OneKey) (hbeq : (table == other) = true) :
    table.relationshipsOf = other.relationshipsOf := by
  have hname : table.name = other.name := ((beq_iff table other).1 hbeq).1
  funext constraint
  simp only [relationshipsOf, hname, isUniqueColumn_of_beq hone hbeq]

def relationships (table : Table) : List Relationship :=
  table.constraints.values.flatMap table.relationshipsOf

theorem relationships_perm (hone : table.OneKey) (hbeq : (table == other) = true) :
    table.relationships.Perm other.relationships := by
  rw [relationships, relationships, relationshipsOf_of_beq hone hbeq]
  exact (constraints_perm_of_beq hbeq).flatMap_right _

def foreignKeys (table : Table) : List (String × ForeignKey) :=
  table.constraints.values.filterMap fun constraint =>
    match constraint.rule with
    | .foreignKey key => some (constraint.name, key)
    | _ => none

/-- Only foreign keys give relationships. -/
theorem relationships_eq_flatMap (table : Table) : table.relationships =
    table.foreignKeys.flatMap fun named =>
      table.relationshipsOf (.foreignKey named.1 named.2) := by
  rw [relationships, foreignKeys]
  induction table.constraints.values with
  | nil => rfl
  | cons constraint more ih =>
    obtain ⟨name, rule⟩ := constraint
    rw [List.flatMap_cons, ih]
    cases rule with
    | foreignKey key => rfl
    | primaryKey columns => rfl
    | unique columns => rfl
    | check condition => rfl

end Table

namespace Schema

variable {schema : Schema}

/-- The foreign keys of a schema, each with its table and its name, in the order of the tables and
of their constraints. -/
def foreignKeys (schema : Schema) : List (Table × String × ForeignKey) :=
  schema.tables.values.flatMap fun table => table.foreignKeys.map (table, ·)

theorem relationships_eq_flatMap (schema : Schema) : schema.relationships =
    schema.foreignKeys.flatMap fun owned =>
      owned.1.relationshipsOf (.foreignKey owned.2.1 owned.2.2) := by
  rw [foreignKeys, List.flatMap_assoc]
  simp only [List.flatMap_map]
  change schema.tables.values.flatMap Table.relationships = _
  exact congrArg (schema.tables.values.flatMap ·) (funext Table.relationships_eq_flatMap)

/-- The relationships by the names under which the tables are stored. -/
theorem relationships_eq_keys (schema : Schema) : schema.relationships =
    schema.tables.keys.flatMap fun key =>
      ((schema.tables.get? key).map Table.relationships).getD [] := by
  change schema.tables.values.flatMap Table.relationships = _
  rw [Keyed.values_eq_filterMap]
  induction schema.tables.keys with
  | nil => rfl
  | cons key more ih =>
    rw [List.filterMap_cons, List.flatMap_cons, ← ih]
    cases schema.tables.get? key with
    | none => rfl
    | some table => rfl

/-- Equal schemas have the same relationships but for their order. -/
theorem relationships_perm (hone : schema.tables.All Table.OneKey) {other : Schema}
    (hbeq : (schema == other) = true) : schema.relationships.Perm other.relationships := by
  have htables := ((beq_iff schema other).1 hbeq).1
  rw [relationships_eq_keys, relationships_eq_keys]
  refine ((Keyed.keys_perm (Keyed.mem_keys_of_beq htables)).flatMap_right _).trans
    (List.Perm.flatMap_left _ fun key _ => ?_)
  rcases Keyed.eq_none_or_of_beq htables key with ⟨hleft, hright⟩ |
    ⟨table, table', hleft, hright, hsame⟩
  · rw [hleft, hright]
  · rw [hleft, hright]
    exact Table.relationships_perm (hone.of_get? hleft) hsame

/-- Every foreign key of a schema gives the relationships that pair its columns, one foreign key
after the other, and the order in which the schema holds its parts matters for nothing else. -/
theorem relationships_spec (hone : schema.tables.All Table.OneKey) :
    (∃ found : List (List Relationship), schema.relationships = found.flatten ∧
      List.Forall₂ (fun owned group => owned.1.Pairs owned.2.1 owned.2.2 group)
        schema.foreignKeys found) ∧
    ∀ other : Schema, (schema == other) = true →
      schema.relationships.Perm other.relationships := by
  refine ⟨⟨_, schema.relationships_eq_flatMap.trans List.flatMap_def, ?_⟩,
    fun other => relationships_perm hone⟩
  rw [List.forall₂_map_right_iff, List.forall₂_same]
  intro owned hmem
  obtain ⟨table, htable, hown⟩ := List.mem_flatMap.1 hmem
  obtain ⟨named, -, rfl⟩ := List.mem_map.1 hown
  exact table.pairs_relationshipsOf (hone table htable) named.1 named.2

/-- A foreign key with more columns than targets, in a table whose constraints may stand in either
order. -/
theorem relationships_spec_posts :
    let key : Constraint := .foreignKey "posts_author_fk"
      ⟨["author", "editor"], "users", ["id"], .noAction, .noAction⟩
    let unique : Constraint := .unique "posts_author_key" ["author"]
    let posts := ((Table.empty "posts").addConstraint unique).addConstraint key
    let swapped := ((Table.empty "posts").addConstraint key).addConstraint unique
    let schema := empty.addTable posts
    ((∃ found : List (List Relationship), schema.relationships = found.flatten ∧
        List.Forall₂ (fun owned group => owned.1.Pairs owned.2.1 owned.2.2 group)
          [(posts, "posts_author_fk", ⟨["author", "editor"], "users", ["id"], .noAction, .noAction⟩)]
          found) ∧
      schema.relationships = [⟨"posts_author_fk", "users", "id", "posts", "author", .oneToOne⟩]) ∧
    schema.relationships.Perm (empty.addTable swapped).relationships := by
  intro key unique posts swapped schema
  have hone : schema.tables.All Table.OneKey := by decide
  have hbeq : (schema == empty.addTable swapped) = true := by decide
  obtain ⟨hpairs, hperm⟩ := relationships_spec hone
  exact ⟨⟨hpairs, by decide⟩, hperm _ hbeq⟩

end Schema

end SchemaEvolution
