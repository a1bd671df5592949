import SchemaEvolution.Proofs.Schema.WellKeyed

/-!
# Edits of a table

Whatever a table is read from, it is built by edits: columns, indexes and constraints are stored
under their names, and the columns of a primary key are required.  Edits that touch different
entries may come in either order, and a column that is required later on is one that has been
required at once.  So a key may be given anywhere among the edits of a table.
-/

namespace SchemaEvolution

def Column.required (column : Column) : Column := { column with notNull := true }

namespace Table

/-- The tables hold the same under the same names, in whatever order. -/
structure SameEntries (left right : Table) : Prop where
  name : left.name = right.name
  comment : left.comment = right.comment
  columns : ∀ key, left.columns.get? key = right.columns.get? key
  indexes : ∀ key, left.indexes.get? key = right.indexes.get? key
  constraints : ∀ key, left.constraints.get? key = right.constraints.get? key

namespace SameEntries

variable {left right other table : Table}

theorem refl (table : Table) : table.SameEntries table :=
  ⟨rfl, rfl, fun _ => rfl, fun _ => rfl, fun _ => rfl⟩

theorem symm (hsame : left.SameEntries right) : right.SameEntries left where
  name := hsame.name.symm
  comment := hsame.comment.symm
  columns key := (hsame.columns key).symm
  indexes key := (hsame.indexes key).symm
  constraints key := (hsame.constraints key).symm

theorem trans (hleft : left.SameEntries right) (hright : right.SameEntries other) :
    left.SameEntries other where
  name := hleft.name.trans hright.name
  comment := hleft.comment.trans hright.comment
  columns key := (hleft.columns key).trans (hright.columns key)
  indexes key := (hleft.indexes key).trans (hright.indexes key)
  constraints key := (hleft.constraints key).trans (hright.constraints key)

theorem beq (hsame : left.SameEntries right) : (left == right) = true := by
  refine (beq_iff left right).2 ⟨hsame.name, hsame.comment, ?_, ?_, ?_⟩
  · exact (Keyed.beq_iff_get? _ _).2 fun key => by rw [hsame.columns]; exact beq_self_eq_true _
  · exact (Keyed.beq_iff_get? _ _).2 fun key => by rw [hsame.indexes]; exact beq_self_eq_true _
  · exact (Keyed.beq_iff_get? _ _).2 fun key => by rw [hsame.constraints]; exact beq_self_eq_true _

end SameEntries

/-- What can be done to a table as it is built. -/
inductive Edit where
  | column (column : Column)
  | require (columns : List String)
  | index (index : Index)
  | constraint (constraint : Constraint)

def require (table : Table) (columns : List String) : Table :=
  { table with
    columns := columns.foldl (fun found column =>
      found.update column fun column => { column with notNull := true }) table.columns }

def edit (table : Table) : Edit → Table
  | .column column => table.addColumn column
  | .require columns => table.require columns
  | .index index => table.addIndex index
  | .constraint constraint => table.addConstraint constraint

def edited (table : Table) (edits : List Edit) : Table := edits.foldl edit table

variable {table other : Table} {edits left right : List Edit}

theorem edited_append : table.edited (left ++ right) = (table.edited left).edited right :=
  List.foldl_append

/-- Requiring columns changes the ones that are named and are there. -/
theorem get?_require (columns : List String) (key : String) :
    (table.require columns).columns.get? key =
      if key ∈ columns then (table.columns.get? key).map Column.required
      else table.columns.get? key := by
  rw [require]
  generalize table.columns = found
  induction columns generalizing found with
  | nil => rfl
  | cons column more ih =>
    have hupdate := Keyed.get?_update found column key fun column =>
      { column with notNull := true }
    rw [List.foldl_cons, ih, hupdate]
    by_cases hkey : key = column
    · simp only [hkey, if_true, List.mem_cons_self, Option.map_map]
      split <;> rfl
    · simp only [hkey, if_false, List.mem_cons, false_or]

theorem name_edit (edit : Edit) : (table.edit edit).name = table.name := by
  cases edit <;> rfl

theorem name_edited : (table.edited edits).name = table.name := by
  induction edits generalizing table with
  | nil => rfl
  | cons first more ih => exact ih.trans (name_edit first)

/-- An edit does the same to tables with the same entries. -/
theorem SameEntries.edit (hsame : table.SameEntries other) (edit : Edit) :
    (table.edit edit).SameEntries (other.edit edit) := by
  cases edit with
  | column column =>
    refine ⟨hsame.name, hsame.comment, fun key => ?_, hsame.indexes, hsame.constraints⟩
    simp only [Table.edit, addColumn, Keyed.get?_insert, hsame.columns]
  | require columns =>
    refine ⟨hsame.name, hsame.comment, fun key => ?_, hsame.indexes, hsame.constraints⟩
    simp only [Table.edit, get?_require, hsame.columns]
  | index index =>
    refine ⟨hsame.name, hsame.comment, hsame.columns, fun key => ?_, hsame.constraints⟩
    simp only [Table.edit, addIndex, Keyed.get?_insert, hsame.indexes]
  | constraint constraint =>
    refine ⟨hsame.name, hsame.comment, hsame.columns, hsame.indexes, fun key => ?_⟩
    simp only [Table.edit, addConstraint, Keyed.get?_insert, hsame.constraints]

theorem SameEntries.edited (hsame : table.SameEntries other) :
    (table.edited edits).SameEntries (other.edited edits) := by
  induction edits generalizing table other with
  | nil => exact hsame
  | cons first more ih => exact ih (hsame.edit first)

def Edit.Independent : Edit → Edit → Prop
  | .column first, .column second => first.name ≠ second.name
  | .column first, .require names | .require names, .column first => first.name ∉ names
  | .index first, .index second => first.name ≠ second.name
  | .constraint first, .constraint second => first.name ≠ second.name
  | _, _ => True

theorem get?_insert_comm {α : Type} {entries : Keyed α} {first second key : String}
    {value last : α} (hne : first ≠ second) :
    ((entries.insert first value).insert second last).get? key =
      ((entries.insert second last).insert first value).get? key := by
  simp only [Keyed.get?_insert]
  by_cases hsecond : second = key
  · rw [if_pos hsecond, if_neg fun hfirst => hne (hfirst.trans hsecond.symm), if_pos hsecond]
  · rw [if_neg hsecond, if_neg hsecond]

/-- A column that is stored is not one of those that are required. -/
theorem get?_require_addColumn {column : Column} {columns : List String}
    (hfree : column.name ∉ columns) (key : String) :
    ((table.addColumn column).require columns).columns.get? key =
      ((table.require columns).addColumn column).columns.get? key := by
  rw [get?_require]
  simp only [addColumn, Keyed.get?_insert, get?_require]
  by_cases hkey : column.name = key
  · simp only [hkey ▸ hfree, if_neg, hkey, if_pos, not_false_eq_true]
  · simp only [hkey, if_false]

/-- Edits that touch different entries may be exchanged. -/
theorem edit_comm {first second : Edit} (hindependent : first.Independent second) :
    ((table.edit first).edit second).SameEntries ((table.edit second).edit first) := by
  cases first with
  | column column =>
    cases second with
    | column second =>
      exact ⟨rfl, rfl, fun _ => get?_insert_comm hindependent, fun _ => rfl, fun _ => rfl⟩
    | require columns =>
      exact ⟨rfl, rfl, get?_require_addColumn hindependent, fun _ => rfl, fun _ => rfl⟩
    | index _ | constraint _ => exact .refl _
  | require columns =>
    cases second with
    | column column =>
      exact ⟨rfl, rfl, fun key => (get?_require_addColumn hindependent key).symm, fun _ => rfl,
        fun _ => rfl⟩
    | require more =>
      refine ⟨rfl, rfl, fun key => ?_, fun _ => rfl, fun _ => rfl⟩
      simp only [edit, get?_require]
      by_cases hfirst : key ∈ columns <;> by_cases hsecond : key ∈ more <;>
        simp only [hfirst, hsecond, if_true, if_false]
    | index _ | constraint _ => exact .refl _
  | index index =>
    cases second with
    | index second =>
      exact ⟨rfl, rfl, fun _ => rfl, fun _ => get?_insert_comm hindependent, fun _ => rfl⟩
    | column _ | require _ | constraint _ => exact .refl _
  | constraint constraint =>
    cases second with
    | constraint second =>
      exact ⟨rfl, rfl, fun _ => rfl, fun _ => rfl, fun _ => get?_insert_comm hindependent⟩
    | column _ | require _ | index _ => exact .refl _

/-- An edit may come behind those that it is independent of. -/
theorem edited_cons_comm {first : Edit} (hfree : ∀ edit ∈ edits, first.Independent edit) :
    (table.edited (first :: edits)).SameEntries ((table.edited edits).edit first) := by
  induction edits generalizing table with
  | nil => exact .refl _
  | cons second more ih =>
    have hswap : ((table.edit first).edit second).SameEntries ((table.edit second).edit first) :=
      edit_comm (hfree second List.mem_cons_self)
    exact hswap.edited.trans (ih fun edit hmem => hfree edit (List.mem_cons_of_mem _ hmem))

/-- Where an edit is independent of those behind it, it may come last. -/
theorem edited_last {first : Edit} (hfree : ∀ edit ∈ right, first.Independent edit) :
    (table.edited (left ++ first :: right)).SameEntries
      ((table.edited (left ++ right)).edit first) := by
  rw [edited_append, edited_append]
  exact edited_cons_comm hfree

/-- Edits may come behind those that they are independent of. -/
theorem edited_comm {keys : List Edit}
    (hfree : ∀ key ∈ keys, ∀ edit ∈ edits, key.Independent edit) :
    ((table.edited keys).edited edits).SameEntries ((table.edited edits).edited keys) := by
  induction keys generalizing table with
  | nil => exact .refl _
  | cons key more ih =>
    have hmore : (((table.edit key).edited more).edited edits).SameEntries
        (((table.edit key).edited edits).edited more) :=
      ih fun other hmem => hfree other (List.mem_cons_of_mem _ hmem)
    have hfirst : ((table.edit key).edited edits).SameEntries ((table.edited edits).edit key) :=
      edited_cons_comm (hfree key List.mem_cons_self)
    exact hmore.trans hfirst.edited

/-- Edits that have been made early may be made later instead. -/
theorem SameEntries.edited_later {keys : List Edit} (hsame : table.SameEntries (other.edited keys))
    (hfree : ∀ key ∈ keys, ∀ edit ∈ left, key.Independent edit) :
    (table.edited (left ++ right)).SameEntries (other.edited (left ++ (keys ++ right))) := by
  rw [edited_append, edited_append, edited_append]
  exact (hsame.edited.trans (edited_comm hfree)).edited

/-- Of edits that are made somewhere in the middle, some may be made later instead. -/
theorem SameEntries.edited_between {front keyed plain keys : List Edit}
    (hsame : ((table.edited front).edited keyed).SameEntries
      (((table.edited front).edited plain).edited keys))
    (hfree : ∀ key ∈ keys, ∀ edit ∈ left, key.Independent edit) :
    (table.edited (front ++ (keyed ++ (left ++ right)))).SameEntries
      (table.edited (front ++ (plain ++ (left ++ (keys ++ right))))) := by
  have hlater : (((table.edited front).edited keyed).edited (left ++ right)).SameEntries
      (((table.edited front).edited plain).edited (left ++ (keys ++ right))) :=
    hsame.edited_later hfree
  simpa only [edited_append] using hlater

/-- A column that is required is stored as one that is required. -/
theorem addColumn_require (column : Column) :
    ((table.addColumn column).require [column.name]).SameEntries
      (table.addColumn column.required) := by
  refine ⟨rfl, rfl, fun key => ?_, fun _ => rfl, fun _ => rfl⟩
  have hname : column.required.name = column.name := rfl
  rw [get?_require]
  simp only [addColumn, Keyed.get?_insert, List.mem_singleton, hname]
  by_cases hkey : column.name = key
  · simp only [hkey, if_true, Option.map_some]
  · simp only [hkey, Ne.symm hkey, if_false]

/-- The edit stores an index or a constraint under a name that is free in the table. -/
def Edit.Fresh (table : Table) : Edit → Prop
  | index entry => table.indexes.get? entry.name = none
  | constraint entry => table.constraints.get? entry.name = none
  | column _ | require _ => False

theorem get?_eq_none_of_insert {α : Type} {entries : Keyed α} {name key : String} {value : α}
    (hnone : (entries.insert name value).get? key = none) :
    key ≠ name ∧ entries.get? key = none := by
  rw [Keyed.get?_insert] at hnone
  split at hnone
  · cases hnone
  · next hne => exact ⟨Ne.symm hne, hnone⟩

/-- What is free after an edit was free before it, and is not what the edit has stored. -/
theorem fresh_of_edit {key edit : Edit} (hfresh : key.Fresh (table.edit edit)) :
    key.Fresh table ∧ key.Independent edit := by
  cases key with
  | column _ | require _ => exact hfresh.elim
  | index entry =>
    cases edit with
    | index other => exact (get?_eq_none_of_insert hfresh).symm
    | column _ | require _ | constraint _ => exact ⟨hfresh, trivial⟩
  | constraint entry =>
    cases edit with
    | constraint other => exact (get?_eq_none_of_insert hfresh).symm
    | column _ | require _ | index _ => exact ⟨hfresh, trivial⟩

/-- What is free in the end is independent of every edit. -/
theorem independent_of_fresh {key : Edit} (hfresh : key.Fresh (table.edited edits)) :
    key.Fresh table ∧ ∀ edit ∈ edits, key.Independent edit := by
  induction edits generalizing table with
  | nil => exact ⟨hfresh, nofun⟩
  | cons first more ih =>
    obtain ⟨hnext, hmore⟩ := ih hfresh
    obtain ⟨htable, hfirst⟩ := fresh_of_edit hnext
    exact ⟨htable, List.forall_mem_cons.2 ⟨hfirst, hmore⟩⟩

end Table

/-! ## Schemas of such tables -/

theorem Schema.beq_addTable {schema other : Schema} {left right : Table}
    (hschema : (schema == other) = true) (htable : left.SameEntries right) :
    (schema.addTable left == other.addTable right) = true := by
  obtain ⟨htables, henums, hextensions⟩ := (beq_iff schema other).1 hschema
  refine (beq_iff _ _).2 ⟨(Keyed.beq_iff_get? _ _).2 fun key => ?_, henums, hextensions⟩
  rw [addTable, addTable, Keyed.get?_insert, Keyed.get?_insert, htable.name]
  split
  · exact htable.beq
  · exact (Keyed.beq_iff_get? _ _).1 htables key

/-- Schemas of tables with the same entries are equal. -/
theorem Schema.beq_foldl_addTable {tables others : List Table}
    (htables : List.Forall₂ Table.SameEntries tables others) {schema other : Schema}
    (hschema : (schema == other) = true) :
    (tables.foldl addTable schema == others.foldl addTable other) = true := by
  induction htables generalizing schema other with
  | nil => exact hschema
  | cons hfirst _ ih => exact ih (beq_addTable hschema hfirst)

end SchemaEvolution
