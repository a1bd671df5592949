import SchemaEvolution.Proofs.Keyed.Order
import SchemaEvolution.Proofs.Patch.Asked
import SchemaEvolution.Proofs.Patch.Owners

/-!
# What an operation leaves alone

An operation changes only what its path leads to.  Whatever lies outside of it keeps its value, and
its place among the rest that lies outside.
-/

namespace SchemaEvolution

namespace Patch

/-- The owners that are touched at a path with a value that is the text, if there is one.  A table
or an enumerated type that gets a name is touched under both names. -/
def Path.touched (text? : Option String) : Path → List Owner
  | .table name (.field .name) => .table name :: text?.toList.map .table
  | .enumType name (.field .name) => .enumType name :: text?.toList.map .enumType
  | path => [path.owner]

def Operation.touched (op : Operation) : List Owner :=
  match op.path? with
  | some path => path.touched op.text?
  | none => []

theorem Path.owner_mem_touched (text? : Option String) (path : Path) :
    path.owner ∈ path.touched text? := by
  unfold touched
  split <;> exact List.mem_cons_self

def TableSpot.touched (text? : Option String) : TableSpot → List TablePart
  | .column name (.field .name) => .column name :: text?.toList.map .column
  | .index name (.field .name) => .index name :: text?.toList.map .index
  | .constraint name (.field .name) => .constraint name :: text?.toList.map .constraint
  | spot => spot.part?.toList

end Patch

open Patch

/-- Tables, enumerated types and extensions that are not touched are the same, in the same order. -/
structure Schema.SameOutside (touched : List Owner) (before after : Schema) : Prop where
  tables : after.tables.outside (fun name => decide (.table name ∈ touched)) =
    before.tables.outside fun name => decide (.table name ∈ touched)
  enums : after.enums.outside (fun name => decide (.enumType name ∈ touched)) =
    before.enums.outside fun name => decide (.enumType name ∈ touched)
  extensions : after.extensions.outside (fun name => decide (.extension name ∈ touched)) =
    before.extensions.outside fun name => decide (.extension name ∈ touched)

/-- The parts of a table that are not touched are the same, in the same order. -/
structure Table.SameOutside (touched : List TablePart) (before after : Table) : Prop where
  name : .name ∉ touched → after.name = before.name
  comment : .comment ∉ touched → after.comment = before.comment
  columns : after.columns.outside (fun name => decide (.column name ∈ touched)) =
    before.columns.outside fun name => decide (.column name ∈ touched)
  indexes : after.indexes.outside (fun name => decide (.index name ∈ touched)) =
    before.indexes.outside fun name => decide (.index name ∈ touched)
  constraints : after.constraints.outside (fun name => decide (.constraint name ∈ touched)) =
    before.constraints.outside fun name => decide (.constraint name ∈ touched)

/-- The tables stand where they stood, and the parts of one of them that are not touched are the
same. -/
structure Schema.SameInside (name : String) (touched : List TablePart) (before after : Schema) :
    Prop where
  keys : after.tables.keys = before.tables.keys
  table : ∀ old, before.tables.get? name = some old →
    ∃ new, after.tables.get? name = some new ∧ old.SameOutside touched new

theorem Schema.sameOutside_refl (touched : List Owner) (schema : Schema) :
    schema.SameOutside touched schema := ⟨rfl, rfl, rfl⟩

theorem Table.sameOutside_refl (touched : List TablePart) (table : Table) :
    table.SameOutside touched table := ⟨fun _ => rfl, fun _ => rfl, rfl, rfl, rfl⟩

theorem Schema.sameInside_refl (name : String) (touched : List TablePart) (schema : Schema) :
    schema.SameInside name touched schema :=
  ⟨rfl, fun table htable => ⟨table, htable, table.sameOutside_refl touched⟩⟩

namespace Patch

section Entries

variable {α : Type} {entries next : Keyed α} {name source target : String} {absent : Missing}
  {change : α → Except Obstacle α} {setName : α → α} {chosen : String → Bool}

theorem exists_of_changeEntry (hnext : changeEntry entries name absent change = .ok next) :
    ∃ value new, entries.get? name = some value ∧ change value = .ok new ∧
      next = entries.insert name new := by
  rw [changeEntry] at hnext
  split at hnext
  · cases hnext
  · next value hvalue =>
    obtain ⟨new, hnew, hinsert⟩ := exists_of_bind_eq_ok hnext
    exact ⟨value, new, hvalue, hnew, (Except.ok.inj hinsert).symm⟩

/-- A renaming changes nothing or moves an entry that is there. -/
theorem eq_or_exists_of_renameEntry
    (hnext : renameEntry entries source target absent setName = .ok next) :
    next = entries ∨ ∃ value, entries.get? source = some value ∧
      entries.rename? source target setName = some next := by
  rw [renameEntry] at hnext
  split at hnext
  · cases hnext
  · next hcontains =>
    split at hnext
    · exact .inl (Except.ok.inj hnext).symm
    · split at hnext
      · next renamed hrenamed =>
        cases hnext
        have hpresent : entries.get? source ≠ none := by simpa [Keyed.contains] using hcontains
        obtain ⟨value, hvalue⟩ := Option.ne_none_iff_exists'.1 hpresent
        exact .inr ⟨value, hvalue, hrenamed⟩
      · cases hnext

theorem outside_changeEntry (hname : chosen name = true)
    (hnext : changeEntry entries name absent change = .ok next) :
    next.outside chosen = entries.outside chosen := by
  obtain ⟨value, new, -, -, rfl⟩ := exists_of_changeEntry hnext
  exact Keyed.outside_insert hname entries new

theorem outside_renameEntry (hsource : chosen source = true) (htarget : chosen target = true)
    (hnext : renameEntry entries source target absent setName = .ok next) :
    next.outside chosen = entries.outside chosen := by
  rcases eq_or_exists_of_renameEntry hnext with rfl | ⟨value, -, hrenamed⟩
  · rfl
  · exact Keyed.outside_rename? hsource htarget hrenamed

end Entries

section Tables

variable {table after : Table} {key : String} {text? : Option String} {touched : List TablePart}

theorem sameOutside_columns {columns : Keyed Column}
    (hcolumns : columns.outside (fun name => decide (.column name ∈ touched)) =
      table.columns.outside fun name => decide (.column name ∈ touched)) :
    table.SameOutside touched { table with columns } :=
  ⟨fun _ => rfl, fun _ => rfl, hcolumns, rfl, rfl⟩

theorem sameOutside_indexes {indexes : Keyed Index}
    (hindexes : indexes.outside (fun name => decide (.index name ∈ touched)) =
      table.indexes.outside fun name => decide (.index name ∈ touched)) :
    table.SameOutside touched { table with indexes } :=
  ⟨fun _ => rfl, fun _ => rfl, rfl, hindexes, rfl⟩

theorem sameOutside_constraints {constraints : Keyed Constraint}
    (hconstraints : constraints.outside (fun name => decide (.constraint name ∈ touched)) =
      table.constraints.outside fun name => decide (.constraint name ∈ touched)) :
    table.SameOutside touched { table with constraints } :=
  ⟨fun _ => rfl, fun _ => rfl, rfl, rfl, hconstraints⟩

/-- An edit inside a table changes what it touches at most. -/
theorem TableEdit.sameOutside {edit : TableEdit}
    (hname : ∀ target, edit.newName? = some target → text? = some target)
    (happly : edit.apply table key = .ok after) :
    table.SameOutside (edit.spot.touched text?) after := by
  cases edit with
  | rename target =>
    cases happly
    exact ⟨fun hout => absurd List.mem_cons_self hout, fun _ => rfl, rfl, rfl, rfl⟩
  | comment new =>
    cases happly
    exact ⟨fun _ => rfl, fun hout => absurd List.mem_cons_self hout, rfl, rfl, rfl⟩
  | putColumn name new =>
    cases happly
    exact sameOutside_columns (Keyed.outside_insert (decide_eq_true List.mem_cons_self) _ _)
  | removeColumn name =>
    cases happly
    exact sameOutside_columns (Keyed.outside_erase (decide_eq_true List.mem_cons_self) _)
  | putIndex name new =>
    cases happly
    exact sameOutside_indexes (Keyed.outside_insert (decide_eq_true List.mem_cons_self) _ _)
  | removeIndex name =>
    cases happly
    exact sameOutside_indexes (Keyed.outside_erase (decide_eq_true List.mem_cons_self) _)
  | putConstraint name new =>
    cases happly
    exact sameOutside_constraints (Keyed.outside_insert (decide_eq_true List.mem_cons_self) _ _)
  | removeConstraint name =>
    cases happly
    exact sameOutside_constraints (Keyed.outside_erase (decide_eq_true List.mem_cons_self) _)
  | column name edit =>
    cases edit with
    | rename target =>
      obtain ⟨columns, hcolumns, hafter⟩ := exists_of_bind_eq_ok happly
      cases hafter
      obtain rfl := hname target rfl
      exact sameOutside_columns (outside_renameEntry (decide_eq_true List.mem_cons_self)
        (decide_eq_true (List.mem_cons_of_mem _ List.mem_cons_self)) hcolumns)
    | type _ | default _ | check _ | notNull _ | comment _ =>
      obtain ⟨columns, hcolumns, hafter⟩ := exists_of_bind_eq_ok happly
      cases hafter
      exact sameOutside_columns
        (outside_changeEntry (decide_eq_true List.mem_cons_self) hcolumns)
  | index name edit =>
    cases edit with
    | rename target =>
      obtain ⟨indexes, hindexes, hafter⟩ := exists_of_bind_eq_ok happly
      cases hafter
      obtain rfl := hname target rfl
      exact sameOutside_indexes (outside_renameEntry (decide_eq_true List.mem_cons_self)
        (decide_eq_true (List.mem_cons_of_mem _ List.mem_cons_self)) hindexes)
    | unique _ | type _ | columns _ | item _ =>
      obtain ⟨indexes, hindexes, hafter⟩ := exists_of_bind_eq_ok happly
      cases hafter
      exact sameOutside_indexes
        (outside_changeEntry (decide_eq_true List.mem_cons_self) hindexes)
  | constraint name edit =>
    cases edit with
    | rename target =>
      obtain ⟨constraints, hconstraints, hafter⟩ := exists_of_bind_eq_ok happly
      cases hafter
      obtain rfl := hname target rfl
      exact sameOutside_constraints (outside_renameEntry (decide_eq_true List.mem_cons_self)
        (decide_eq_true (List.mem_cons_of_mem _ List.mem_cons_self)) hconstraints)
    | onUpdate _ | onDelete _ | condition _ | targetTable _ | columns _ | targetColumns _
    | item _ _ =>
      obtain ⟨constraints, hconstraints, hafter⟩ := exists_of_bind_eq_ok happly
      cases hafter
      exact sameOutside_constraints
        (outside_changeEntry (decide_eq_true List.mem_cons_self) hconstraints)

end Tables

section Schemas

variable {schema after : Schema} {text? : Option String} {touched : List Owner}

theorem sameOutside_tables {tables : Keyed Table}
    (htables : tables.outside (fun name => decide (.table name ∈ touched)) =
      schema.tables.outside fun name => decide (.table name ∈ touched)) :
    schema.SameOutside touched { schema with tables } := ⟨htables, rfl, rfl⟩

theorem sameOutside_enums {enums : Keyed EnumType}
    (henums : enums.outside (fun name => decide (.enumType name ∈ touched)) =
      schema.enums.outside fun name => decide (.enumType name ∈ touched)) :
    schema.SameOutside touched { schema with enums } := ⟨rfl, henums, rfl⟩

theorem sameOutside_extensions {extensions : Keyed Extension}
    (hextensions : extensions.outside (fun name => decide (.extension name ∈ touched)) =
      schema.extensions.outside fun name => decide (.extension name ∈ touched)) :
    schema.SameOutside touched { schema with extensions } := ⟨rfl, rfl, hextensions⟩

theorem TableEdit.exists_rename {edit : TableEdit} (hspot : edit.spot = .field .name) :
    ∃ target, edit = .rename target := by
  cases edit with
  | rename target => exact ⟨target, rfl⟩
  | _ => simp [TableEdit.spot] at hspot

/-- An edit inside a table finds the table, and changes it where it stands; or it takes something
away from a table that there is not. -/
theorem Edit.inside_of_apply {name : String} {edit : TableEdit} (hspot : edit.spot ≠ .field .name)
    (happly : (Edit.table name edit).apply schema = .ok after) :
    (schema.tables.get? name = none ∧ after = schema) ∨
    ∃ old new, schema.tables.get? name = some old ∧ edit.apply old name = .ok new ∧
      after = { schema with tables := schema.tables.insert name new } := by
  rw [Edit.apply] at happly
  · split at happly
    · next hgone =>
      have habsent : schema.tables.get? name = none := by
        simpa [Keyed.contains] using (Bool.and_eq_true_iff.1 hgone).2
      exact .inl ⟨habsent, (Except.ok.inj happly).symm⟩
    · obtain ⟨tables, htables, hafter⟩ := exists_of_bind_eq_ok happly
      obtain ⟨old, new, hold, hnew, rfl⟩ := exists_of_changeEntry htables
      exact .inr ⟨old, new, hold, hnew, (Except.ok.inj hafter).symm⟩
  · rintro target rfl
    exact hspot rfl

/-- An edit changes what it touches at most. -/
theorem Edit.sameOutside {edit : Edit}
    (hname : ∀ target, edit.newName? = some target → text? = some target)
    (happly : edit.apply schema = .ok after) :
    schema.SameOutside (edit.path.touched text?) after := by
  cases edit with
  | putTable name new =>
    cases happly
    exact sameOutside_tables (Keyed.outside_insert (decide_eq_true List.mem_cons_self) _ _)
  | removeTable name =>
    cases happly
    exact sameOutside_tables (Keyed.outside_erase (decide_eq_true List.mem_cons_self) _)
  | table name edit =>
    by_cases hspot : edit.spot = .field .name
    · obtain ⟨target, rfl⟩ := TableEdit.exists_rename hspot
      obtain ⟨tables, htables, hafter⟩ := exists_of_bind_eq_ok happly
      cases hafter
      obtain rfl := hname target rfl
      exact sameOutside_tables (outside_renameEntry (decide_eq_true List.mem_cons_self)
        (decide_eq_true (List.mem_cons_of_mem _ List.mem_cons_self)) htables)
    · have htouched := Path.owner_mem_touched text? (.table name edit.spot)
      rcases inside_of_apply hspot happly with ⟨-, rfl⟩ | ⟨old, new, -, -, rfl⟩
      · exact after.sameOutside_refl _
      · exact sameOutside_tables (Keyed.outside_insert (decide_eq_true htouched) _ _)
  | putEnum name new =>
    cases happly
    exact sameOutside_enums (Keyed.outside_insert (decide_eq_true List.mem_cons_self) _ _)
  | removeEnum name =>
    cases happly
    exact sameOutside_enums (Keyed.outside_erase (decide_eq_true List.mem_cons_self) _)
  | enumType name edit =>
    cases edit with
    | rename target =>
      obtain ⟨enums, henums, hafter⟩ := exists_of_bind_eq_ok happly
      cases hafter
      obtain rfl := hname target rfl
      exact sameOutside_enums (outside_renameEntry (decide_eq_true List.mem_cons_self)
        (decide_eq_true (List.mem_cons_of_mem _ List.mem_cons_self)) henums)
    | values _ | comment _ | item _ =>
      obtain ⟨enums, henums, hafter⟩ := exists_of_bind_eq_ok happly
      cases hafter
      exact sameOutside_enums (outside_changeEntry (decide_eq_true List.mem_cons_self) henums)
  | putExtension name new =>
    cases happly
    exact sameOutside_extensions (Keyed.outside_insert (decide_eq_true List.mem_cons_self) _ _)
  | removeExtension name =>
    cases happly
    exact sameOutside_extensions (Keyed.outside_erase (decide_eq_true List.mem_cons_self) _)
  | extension name edit =>
    obtain ⟨extensions, hextensions, hafter⟩ := exists_of_bind_eq_ok happly
    cases hafter
    exact sameOutside_extensions
      (outside_changeEntry (decide_eq_true List.mem_cons_self) hextensions)
  | hint =>
    cases happly
    exact schema.sameOutside_refl _

/-- An edit at a place inside of a table is an edit of that table. -/
theorem Edit.eq_table_of_path {edit : Edit} {name : String} {spot : TableSpot}
    (hpath : edit.path = .table name spot) (hwhole : spot ≠ .whole) :
    ∃ inside, edit = .table name inside ∧ inside.spot = spot := by
  cases edit with
  | table other inside =>
    cases hpath
    exact ⟨inside, rfl, rfl⟩
  | putTable _ _ | removeTable _ =>
    cases hpath
    exact absurd rfl hwhole
  | _ => cases hpath

/-- An edit inside a table leaves the tables where they stand, and changes what it touches of its
own one at most. -/
theorem Edit.sameInside {name : String} {edit : TableEdit} (hspot : edit.spot ≠ .field .name)
    (hname : ∀ target, edit.newName? = some target → text? = some target)
    (happly : (Edit.table name edit).apply schema = .ok after) :
    schema.SameInside name (edit.spot.touched text?) after := by
  rcases inside_of_apply hspot happly with ⟨-, rfl⟩ | ⟨old, new, hold, hnew, rfl⟩
  · exact after.sameInside_refl _ _
  · refine ⟨?_, fun table htable => ?_⟩
    · rw [Keyed.keys_insert, if_pos (Keyed.mem_keys_iff.2 ⟨old, hold⟩)]
    · obtain rfl := Option.some.inj (hold.symm.trans htable)
      exact ⟨new, by rw [Keyed.get?_insert, if_pos rfl], TableEdit.sameOutside hname hnew⟩

theorem renamed_of_renameEntry {α : Type} {entries next : Keyed α} {source target : String}
    {absent : Missing} {setName : α → α}
    (hnext : renameEntry entries source target absent setName = .ok next) :
    next = entries ∨ entries.Renamed source target setName next :=
  (eq_or_exists_of_renameEntry hnext).imp_right fun ⟨_, hvalue, hrenamed⟩ =>
    Keyed.renamed_of_rename? hvalue hrenamed

/-- At the path, an entry has the target for its key and for its name, where it stood before. -/
inductive Path.Renames (target : String) : Path → Schema → Schema → Prop
  | table {schema : Schema} {name : String} {tables : Keyed Table}
      (hrenamed : schema.tables.Renamed name target (fun table => { table with name := target })
        tables) :
      Renames target (.table name (.field .name)) schema { schema with tables }
  | enumType {schema : Schema} {name : String} {enums : Keyed EnumType}
      (hrenamed : schema.enums.Renamed name target (fun type => { type with name := target })
        enums) :
      Renames target (.enumType name (.field .name)) schema { schema with enums }
  | column {schema : Schema} {key name : String} {table : Table} {columns : Keyed Column}
      (htable : schema.tables.get? key = some table)
      (hrenamed : table.columns.Renamed name target (fun column => { column with name := target })
        columns) :
      Renames target (.table key (.column name (.field .name))) schema
        { schema with tables := schema.tables.insert key { table with columns } }
  | index {schema : Schema} {key name : String} {table : Table} {indexes : Keyed Index}
      (htable : schema.tables.get? key = some table)
      (hrenamed : table.indexes.Renamed name target (fun index => { index with name := target })
        indexes) :
      Renames target (.table key (.index name (.field .name))) schema
        { schema with tables := schema.tables.insert key { table with indexes } }
  | constraint {schema : Schema} {key name : String} {table : Table}
      {constraints : Keyed Constraint} (htable : schema.tables.get? key = some table)
      (hrenamed : table.constraints.Renamed name target
        (fun constraint => { constraint with name := target }) constraints) :
      Renames target (.table key (.constraint name (.field .name))) schema
        { schema with tables := schema.tables.insert key { table with constraints } }

theorem eq_self_of_insert {name : String} {table : Table}
    (htable : schema.tables.get? name = some table) :
    { schema with tables := schema.tables.insert name table } = schema := by
  rw [Keyed.insert_eq_self htable]

/-- An edit that gives a name changes nothing, or the key and the name alone. -/
theorem Edit.renames_of_apply {edit : Edit} (hplace : edit.path.isName = true)
    (happly : edit.apply schema = .ok after) :
    after = schema ∨
      ∃ target, edit.newName? = some target ∧ edit.path.Renames target schema after := by
  cases edit with
  | enumType name edit =>
    cases edit with
    | rename target =>
      obtain ⟨enums, henums, hafter⟩ := exists_of_bind_eq_ok happly
      cases hafter
      rcases renamed_of_renameEntry henums with rfl | hrenamed
      · exact .inl rfl
      · exact .inr ⟨target, rfl, .enumType hrenamed⟩
    | values _ | comment _ | item _ => cases hplace
  | table key edit =>
    by_cases hspot : edit.spot = .field .name
    · obtain ⟨target, rfl⟩ := TableEdit.exists_rename hspot
      obtain ⟨tables, htables, hafter⟩ := exists_of_bind_eq_ok happly
      cases hafter
      rcases renamed_of_renameEntry htables with rfl | hrenamed
      · exact .inl rfl
      · exact .inr ⟨target, rfl, .table hrenamed⟩
    rcases inside_of_apply hspot happly with ⟨-, rfl⟩ | ⟨old, new, hold, hnew, rfl⟩
    · exact .inl rfl
    cases edit with
    | column name edit =>
      cases edit with
      | rename target =>
        obtain ⟨columns, hcolumns, hafter⟩ := exists_of_bind_eq_ok hnew
        cases hafter
        rcases renamed_of_renameEntry hcolumns with rfl | hrenamed
        · exact .inl (eq_self_of_insert hold)
        · exact .inr ⟨target, rfl, .column hold hrenamed⟩
      | type _ | default _ | check _ | notNull _ | comment _ => cases hplace
    | index name edit =>
      cases edit with
      | rename target =>
        obtain ⟨indexes, hindexes, hafter⟩ := exists_of_bind_eq_ok hnew
        cases hafter
        rcases renamed_of_renameEntry hindexes with rfl | hrenamed
        · exact .inl (eq_self_of_insert hold)
        · exact .inr ⟨target, rfl, .index hold hrenamed⟩
      | unique _ | type _ | columns _ | item _ => cases hplace
    | constraint name edit =>
      cases edit with
      | rename target =>
        obtain ⟨constraints, hconstraints, hafter⟩ := exists_of_bind_eq_ok hnew
        cases hafter
        rcases renamed_of_renameEntry hconstraints with rfl | hrenamed
        · exact .inl (eq_self_of_insert hold)
        · exact .inr ⟨target, rfl, .constraint hold hrenamed⟩
      | onUpdate _ | onDelete _ | condition _ | targetTable _ | columns _ | targetColumns _
      | item _ _ => cases hplace
    | rename _ => exact absurd rfl hspot
    | comment _ | putColumn _ _ | removeColumn _ | putIndex _ _ | removeIndex _
    | putConstraint _ _ | removeConstraint _ => cases hplace
  | putTable _ _ | removeTable _ | putEnum _ _ | removeEnum _ | putExtension _ _
  | removeExtension _ | extension _ _ | hint => cases hplace

/-! ## Operations -/

theorem Operation.touched_of_path? {op : Operation} {path : Path} (hpath : op.path? = some path) :
    op.touched = path.touched op.text? := by
  rw [touched, hpath]

/-- An operation that is applied was a hint, or an edit at its path. -/
theorem Operation.eq_or_exists_of_apply {op : Operation} (happly : op.apply schema = .ok after) :
    after = schema ∨ ∃ edit : Edit, op.path? = some edit.path ∧ edit.apply schema = .ok after ∧
      ∀ target, edit.newName? = some target → op.text? = some target := by
  obtain ⟨edit, hedit, hafter⟩ := Operation.apply_eq_ok_iff.1 happly
  rcases Edit.askedAt_of_edit hedit with rfl | ⟨path, hpath, rfl, hname⟩
  · exact .inl (Except.ok.inj hafter).symm
  · exact .inr ⟨edit, hpath, hafter, hname⟩

theorem Operation.sameOutside {op : Operation} (happly : op.apply schema = .ok after) :
    schema.SameOutside op.touched after := by
  rcases eq_or_exists_of_apply happly with rfl | ⟨edit, hpath, hafter, hname⟩
  · exact after.sameOutside_refl _
  · rw [touched_of_path? hpath]
    exact Edit.sameOutside hname hafter

/-- An operation changes what it touches at most. -/
theorem sameOutside_applyAll (schema : Schema) (op : Operation) :
    schema.SameOutside op.touched (applyAll schema [op]).schema := by
  cases happly : op.apply schema with
  | error refusal =>
    rw [applyAll_cons_of_error happly]
    exact schema.sameOutside_refl _
  | ok after =>
    rw [applyAll_cons_of_ok happly]
    exact Operation.sameOutside happly

/-- An operation changes only what its path leads to.  All other tables, enumerated types and
extensions are the same, in the same order; so is, inside a table, everything else in it; and a
new name is given in place. -/
theorem frame_applyAll {op : Operation} {path : Path} (hpath : op.path? = some path)
    (schema : Schema) :
    schema.SameOutside (path.touched op.text?) (applyAll schema [op]).schema ∧
    (∀ name spot, path = .table name spot → spot ≠ .whole → spot ≠ .field .name →
      schema.SameInside name (spot.touched op.text?) (applyAll schema [op]).schema) ∧
    (path.isName = true → (applyAll schema [op]).schema = schema ∨
      ∃ target, op.text? = some target ∧
        path.Renames target schema (applyAll schema [op]).schema) := by
  refine ⟨Operation.touched_of_path? hpath ▸ sameOutside_applyAll schema op, ?_⟩
  have hsame : ∀ after, after = schema →
      (∀ name spot, path = .table name spot → spot ≠ .whole → spot ≠ .field .name →
        schema.SameInside name (spot.touched op.text?) after) ∧
      (path.isName = true → after = schema ∨
        ∃ target, op.text? = some target ∧ path.Renames target schema after) := by
    rintro after rfl
    exact ⟨fun _ _ _ _ _ => after.sameInside_refl _ _, fun _ => .inl rfl⟩
  cases happly : op.apply schema with
  | error refusal =>
    rw [applyAll_cons_of_error happly]
    exact hsame schema rfl
  | ok after =>
    rw [applyAll_cons_of_ok happly]
    rcases Operation.eq_or_exists_of_apply happly with hafter | ⟨edit, hedit, hafter, hname⟩
    · exact hsame after hafter
    obtain rfl := Option.some.inj (hpath.symm.trans hedit)
    refine ⟨fun name spot htable hwhole hspot => ?_, fun hplace => ?_⟩
    · obtain ⟨inside, rfl, rfl⟩ := Edit.eq_table_of_path htable hwhole
      exact Edit.sameInside hspot hname hafter
    · refine (Edit.renames_of_apply hplace hafter).imp_right fun ⟨target, htarget, hrenames⟩ => ?_
      exact ⟨target, hname target htarget, hrenames⟩

end Schemas

/-- A schema with one table, which has two columns. -/
def usersByEmail : Schema :=
  { Schema.empty with
    tables := (∅ : Keyed Table).insert "users"
      { Table.empty "users" with
        columns := ((∅ : Keyed Column).insert "email" (.plain "email" "text")).insert "id"
          (.plain "id" "bigint") } }

/-- Gives the first column another name. -/
def emailToMail : Operation :=
  .replace (.table "users" (.column "email" (.field .name))) (.string "mail")

/-- The column stays the first one, and nothing else in the table changes. -/
theorem frame_emailToMail :
    emailToMail.path? = some (.table "users" (.column "email" (.field .name))) ∧
    usersByEmail.SameOutside [.table "users"] (applyAll usersByEmail [emailToMail]).schema ∧
    usersByEmail.SameInside "users" [.column "email", .column "mail"]
      (applyAll usersByEmail [emailToMail]).schema ∧
    ((applyAll usersByEmail [emailToMail]).schema = usersByEmail ∨
      ∃ target, emailToMail.text? = some target ∧
        (Path.table "users" (.column "email" (.field .name))).Renames target usersByEmail
          (applyAll usersByEmail [emailToMail]).schema) := by
  have hformed : (Path.table "users" (.column "email" (.field .name))).WellFormed :=
    ⟨by decide, show "email" ≠ "" by decide⟩
  have hpath : emailToMail.path? = some (.table "users" (.column "email" (.field .name))) :=
    Operation.path?_of_wellFormed hformed _
  obtain ⟨houtside, hinside, hrenames⟩ := frame_applyAll hpath usersByEmail
  exact ⟨hpath, houtside, hinside "users" _ rfl nofun nofun, hrenames rfl⟩

end Patch

end SchemaEvolution
