import Mathlib.Data.List.Nodup
import SchemaEvolution.Proofs.Numeral.Whole
import SchemaEvolution.Proofs.Schema.TableEdits
import SchemaEvolution.Proofs.Sql.ClauseEntries

/-!
# The edits of a statement

The columns of a statement edit its table one after the other, and then its constraints do.  A
check that is given no name takes the first free one, and the usual name of a key is none of
these, so no constraint is named differently where a key comes earlier or later.
-/

namespace SchemaEvolution.Sql

open Table

/-- A base is numbered differently for different numbers. -/
theorem numbered_inj {base : String} {m n : Nat}
    (hsame : Naming.numbered base m = Naming.numbered base n) : m = n := by
  have hdigits (k : Nat) : Nat.toDigits 10 k ≠ [] := by
    obtain ⟨first, rest, hdigits, -⟩ := Numeral.toDigits_eq_cons k
    rw [hdigits]
    exact List.cons_ne_nil _ _
  have hlists := congrArg String.toList hsame
  cases m with
  | zero =>
    cases n with
    | zero => rfl
    | succ n =>
      rw [Naming.numbered, Naming.numbered, String.toList_append, List.self_eq_append_right] at hlists
      exact absurd (Nat.toList_repr.symm.trans hlists) (hdigits (n + 1))
  | succ m =>
    cases n with
    | zero =>
      rw [Naming.numbered, Naming.numbered, String.toList_append, List.append_right_eq_self] at hlists
      exact absurd (Nat.toList_repr.symm.trans hlists) (hdigits (m + 1))
    | succ n =>
      rw [Naming.numbered, Naming.numbered, String.toList_append, String.toList_append,
        List.append_cancel_left_eq] at hlists
      have hvalues := congrArg Numeral.digitsValue
        (Nat.toList_repr.symm.trans (hlists.trans Nat.toList_repr))
      rwa [Numeral.digitsValue_toDigits, Numeral.digitsValue_toDigits] at hvalues

/-- There is a free name among one more than there are entries, and the first one is taken. -/
theorem firstFree_spec {α : Type} (entries : Keyed α) (base : String) :
    ∃ n, Naming.firstFree entries base = Naming.numbered base n ∧
      entries.contains (Naming.numbered base n) = false ∧
      ∀ m < n, entries.contains (Naming.numbered base m) = true := by
  rw [Naming.firstFree, List.find?_map]
  cases hfind : (List.range (entries.size + 1)).find?
      ((fun candidate => !entries.contains candidate) ∘ Naming.numbered base) with
  | some n =>
    obtain ⟨hfree, -, hless⟩ := List.find?_range_eq_some.1 hfind
    refine ⟨n, rfl, by simpa using hfree, fun m hm => by simpa using hless m hm⟩
  | none =>
    -- Were all of the names taken, there would be more keys than entries.
    exfalso
    have hsubset : (List.range (entries.size + 1)).map (Naming.numbered base) ⊆ entries.keys := by
      intro name hname
      obtain ⟨n, hn, rfl⟩ := List.mem_map.1 hname
      have htaken := List.find?_eq_none.1 hfind n hn
      exact Keyed.contains_eq_true_iff.1 (by simpa using htaken)
    have hnodup : ((List.range (entries.size + 1)).map (Naming.numbered base)).Nodup :=
      List.nodup_range.map fun _ _ => numbered_inj
    have hlength := (hnodup.subperm hsubset).length_le
    rw [List.length_map, List.length_range, Keyed.keys, List.length_map, Keyed.size] at hlength
    omega

/-- The first free name depends on the names of its kind only. -/
theorem firstFree_congr {α β : Type} {entries : Keyed α} {others : Keyed β} {base : String}
    (hsame : ∀ n, entries.contains (Naming.numbered base n) =
      others.contains (Naming.numbered base n)) :
    Naming.firstFree entries base = Naming.firstFree others base := by
  obtain ⟨n, hn, hfree, htaken⟩ := firstFree_spec entries base
  obtain ⟨m, hm, hfree', htaken'⟩ := firstFree_spec others base
  rcases Nat.lt_trichotomy n m with hlt | rfl | hlt
  · have htaken := htaken' n hlt
    rw [← hsame, hfree] at htaken
    cases htaken
  · rw [hn, hm]
  · have htaken := htaken m hlt
    rw [hsame, hfree'] at htaken
    cases htaken

/-- The last character of the usual name of a key is none of a name of a check. -/
theorem ne_numbered {name : String} {n : Nat} (table : String)
    (hlast : name.toList.getLast? = some 'y') : name ≠ Naming.numbered (checkBase table) n := by
  rintro rfl
  cases n with
  | zero =>
    rw [Naming.numbered, checkBase, String.toList_append,
      List.getLast?_append_of_ne_nil _ (by decide)] at hlast
    exact absurd hlast (by decide)
  | succ n =>
    obtain ⟨first, rest, hdigits, -⟩ := Numeral.toDigits_eq_cons (n + 1)
    have htext : (toString (n + 1)).toList = Nat.toDigits 10 (n + 1) := Nat.toList_repr
    rw [Naming.numbered, String.toList_append, htext,
      List.getLast?_append_of_ne_nil _ (by rw [hdigits]; exact List.cons_ne_nil _ _)] at hlast
    have hdigit := List.all_eq_true.1 (Numeral.all_isDigit_toDigits (n + 1)) 'y'
      (List.mem_of_getLast? hlast)
    exact absurd hdigit (by decide)

/-- The tables have the same name, and of the names for its checks the same ones are taken. -/
structure SameChecks (left right : Table) : Prop where
  name : left.name = right.name
  taken : ∀ n, left.constraints.contains (Naming.numbered (checkBase left.name) n) =
    right.constraints.contains (Naming.numbered (checkBase left.name) n)

namespace SameChecks

variable {left right table : Table}

theorem tableCheck (hsame : SameChecks left right) :
    Naming.tableCheck left = Naming.tableCheck right := by
  rw [Naming.tableCheck, Naming.tableCheck, ← hsame.name]
  exact firstFree_congr hsame.taken

theorem of_sameEntries (hsame : left.SameEntries right) : SameChecks left right :=
  ⟨hsame.name, fun _ => by rw [Keyed.contains, hsame.constraints, Keyed.contains]⟩

theorem trans {other : Table} (hleft : SameChecks left right) (hright : SameChecks right other) :
    SameChecks left other :=
  ⟨hleft.name.trans hright.name, fun n =>
    (hleft.taken n).trans (by rw [hleft.name]; exact hright.taken n)⟩

/-- The same edit keeps the checks the same. -/
theorem edit (hsame : SameChecks left right) (edit : Edit) :
    SameChecks (left.edit edit) (right.edit edit) := by
  refine ⟨by rw [name_edit, name_edit, hsame.name], fun n => ?_⟩
  rw [name_edit]
  cases edit with
  | constraint constraint =>
    rw [Keyed.contains, Keyed.contains, Table.edit, Table.edit, Table.addConstraint,
      Table.addConstraint, Keyed.get?_insert, Keyed.get?_insert]
    by_cases hname : constraint.name = Naming.numbered (checkBase left.name) n
    · rw [if_pos hname, if_pos hname]
    · rw [if_neg hname, if_neg hname]
      exact hsame.taken n
  | column _ | require _ | index _ => exact hsame.taken n

theorem edited (hsame : SameChecks left right) (edits : List Edit) :
    SameChecks (left.edited edits) (right.edited edits) := by
  induction edits generalizing left right with
  | nil => exact hsame
  | cons first more ih => exact ih (hsame.edit first)

/-- A key takes no name of a check. -/
theorem addConstraint {constraint : Constraint}
    (hlast : constraint.name.toList.getLast? = some 'y') :
    SameChecks table (table.addConstraint constraint) := by
  refine ⟨rfl, fun n => ?_⟩
  rw [Keyed.contains, Keyed.contains, Table.addConstraint, Keyed.get?_insert,
    if_neg (ne_numbered table.name hlast)]

end SameChecks

/-- What the definition of a column does to a table of the given name. -/
def ColumnDefinition.edits (d : ColumnDefinition) (table : String) : List Edit :=
  (d.constraints table).map .constraint ++ [.column d.column]

theorem ColumnDefinition.addTo_eq_edited (d : ColumnDefinition) (table : Table) :
    d.addTo table = table.edited (d.edits table.name) := by
  have hconstraints : table.edited ((d.constraints table.name).map .constraint) =
      (d.constraints table.name).foldl Table.addConstraint table := List.foldl_map
  rw [addTo, edits, edited_append, hconstraints]
  rfl

def TableClause.edits (clause : TableClause) (label : Option String) (table : Table) :
    List Edit :=
  match clause with
  | .primaryKey columns => [.require columns,
      .constraint (.primaryKey (label.getD (Naming.primaryKey table.name)) columns)]
  | .unique columns =>
    [.constraint (.unique (label.getD (Naming.unique table.name columns)) columns)]
  | .foreignKey columns reference =>
    [.constraint (.foreignKey (label.getD (Naming.foreignKey table.name columns))
      (reference.key columns))]
  | .check condition =>
    [.constraint (.check (label.getD (Naming.tableCheck table)) condition)]

theorem TableClause.addTo_eq_edited (clause : TableClause) (label : Option String)
    (table : Table) : clause.addTo label table = table.edited (clause.edits label table) := by
  cases clause <;> rfl

theorem TableClause.edits_of_sameChecks {left right : Table} (hsame : SameChecks left right)
    (clause : TableClause) (label : Option String) :
    clause.edits label left = clause.edits label right := by
  cases clause <;> simp only [edits, hsame.name, hsame.tableCheck]

namespace TableDefinition

/-- What the constraints of a statement do to a table, one after the other. -/
def clauseEdits : List (Option String × TableClause) → Table → List Edit
  | [], _ => []
  | (label, clause) :: more, table =>
    clause.edits label table ++ clauseEdits more (clause.addTo label table)

variable {clauses more : List (Option String × TableClause)} {table left right : Table}

theorem clauseEdits_append :
    clauseEdits (clauses ++ more) table =
      clauseEdits clauses table ++ clauseEdits more (table.edited (clauseEdits clauses table)) := by
  induction clauses generalizing table with
  | nil => rfl
  | cons clause others ih =>
    rw [List.cons_append, clauseEdits, clauseEdits, ih, List.append_assoc, edited_append,
      TableClause.addTo_eq_edited]

theorem clauseEdits_of_sameChecks (hsame : SameChecks left right) :
    clauseEdits clauses left = clauseEdits clauses right := by
  induction clauses generalizing left right with
  | nil => rfl
  | cons clause more ih =>
    have hedits := clause.2.edits_of_sameChecks hsame clause.1
    rw [clauseEdits, clauseEdits, TableClause.addTo_eq_edited, TableClause.addTo_eq_edited, hedits,
      ih (hsame.edited _)]

theorem finish_eq_edited (d : TableDefinition) :
    d.finish = d.table.edited (clauseEdits d.clauses d.table) := by
  obtain ⟨table, clauses⟩ := d
  induction clauses generalizing table with
  | nil => rfl
  | cons clause more ih =>
    rw [clauseEdits, edited_append, ← TableClause.addTo_eq_edited]
    exact ih _

/-- What the columns of a statement do to a table of the given name. -/
def columnEdits (table : String) (definitions : List ColumnDefinition) : List Edit :=
  definitions.flatMap fun d => d.edits table

theorem foldl_addTo_eq_edited (definitions : List ColumnDefinition) (table : Table) :
    definitions.foldl (fun table d => d.addTo table) table =
      table.edited (columnEdits table.name definitions) := by
  induction definitions generalizing table with
  | nil => rfl
  | cons d more ih =>
    rw [List.foldl_cons, ih, d.addTo_eq_edited, name_edited]
    exact edited_append.symm

end TableDefinition

/-! ## Keys of one column -/

/-- A key of one column that is given no name. -/
inductive ColumnKey where
  | primaryKey
  | unique
  | references (reference : Reference)

namespace ColumnKey

def clause (column : String) : ColumnKey → TableClause
  | primaryKey => .primaryKey [column]
  | unique => .unique [column]
  | references reference => .foreignKey [column] reference

def entry (table column : String) : ColumnKey → Constraint
  | primaryKey => .primaryKey (Naming.primaryKey table) [column]
  | unique => .unique (Naming.unique table [column]) [column]
  | references reference =>
    .foreignKey (Naming.foreignKey table [column]) (reference.key [column])

/-- What the key does to a table of the given name. -/
def edits (table column : String) (key : ColumnKey) : List Edit :=
  match key with
  | primaryKey => [.require [column], .constraint (entry table column .primaryKey)]
  | key => [.constraint (entry table column key)]

/-- The definition of a column with the key; a reference comes behind as many others as given. -/
def insert (position : Nat) (d : ColumnDefinition) : ColumnKey → ColumnDefinition
  | primaryKey => { d.requireValue with primaryKey := some none }
  | unique => { d with unique := some none }
  | references reference =>
    { d with references :=
        d.references.take position ++ (none, reference) :: d.references.drop position }

/-- The definition has no other key for which the key would be taken. -/
def Alone (d : ColumnDefinition) : ColumnKey → Prop
  | primaryKey => d.primaryKey = none
  | unique => d.unique = none
  | references _ => True

variable {key : ColumnKey} {d : ColumnDefinition} {table : Table} {position : Nat}

theorem clause_edits (key : ColumnKey) (column : String) (table : Table) :
    (key.clause column).edits none table = key.edits table.name column := by
  cases key <;> rfl

/-- The usual names of a primary key and of a unique constraint end in `y`. -/
theorem getLast?_entry (key : ColumnKey) (table column : String) :
    (key.entry table column).name.toList.getLast? = some 'y' := by
  have hsuffix (front back : String) (hback : back.toList.getLast? = some 'y') :
      (front ++ back).toList.getLast? = some 'y' := by
    rw [String.toList_append, List.getLast?_append_of_ne_nil _ (by
      rintro hnil
      rw [hnil] at hback
      cases hback)]
    exact hback
  cases key with
  | primaryKey => exact hsuffix table "_pkey" (by decide)
  | unique => exact hsuffix _ "_key" (by decide)
  | references _ => exact hsuffix _ "_fkey" (by decide)

/-- The constraints of the column are the same ones with the key among them. -/
theorem constraints_insert (position : Nat) (halone : key.Alone d) (table : String) :
    ∃ before after, (key.insert position d).constraints table =
        before ++ key.entry table d.column.name :: after ∧
      d.constraints table = before ++ after := by
  obtain ⟨column, primaryKey, unique, references, check⟩ := d
  let named (entry : Option String × Reference) : Constraint :=
    .foreignKey (entry.1.getD (Naming.foreignKey table [column.name]))
      (entry.2.key [column.name])
  let checks : List Constraint := (check.map fun entry =>
    Constraint.check (entry.1.getD (Naming.check table column.name)) entry.2).toList
  let keys : List Constraint := (primaryKey.map fun label =>
    Constraint.primaryKey (label.getD (Naming.primaryKey table)) [column.name]).toList
  let uniques : List Constraint := (unique.map fun label =>
    Constraint.unique (label.getD (Naming.unique table [column.name])) [column.name]).toList
  cases key with
  | primaryKey =>
    obtain rfl : primaryKey = none := halone
    exact ⟨[], uniques ++ references.map named ++ checks, rfl, rfl⟩
  | unique =>
    obtain rfl : unique = none := halone
    refine ⟨keys, references.map named ++ checks, ?_, ?_⟩
    · simp only [ColumnDefinition.constraints, insert, List.append_assoc]
      rfl
    · simp only [ColumnDefinition.constraints, List.append_assoc]
      rfl
  | references reference =>
    refine ⟨keys ++ uniques ++ (references.take position).map named,
      (references.drop position).map named ++ checks, ?_, ?_⟩
    · simp only [ColumnDefinition.constraints, insert, List.append_assoc, List.map_append,
        List.map_cons]
      rfl
    · have hreferences : references.map named =
          (references.take position).map named ++ (references.drop position).map named := by
        rw [← List.map_append, List.take_append_drop]
      have hall : ColumnDefinition.constraints ⟨column, primaryKey, unique, references, check⟩
          table = keys ++ uniques ++ references.map named ++ checks := rfl
      rw [hall, hreferences]
      simp only [List.append_assoc]

theorem mem_edits {edit : Edit} {name column : String} (hmem : edit ∈ key.edits name column) :
    edit = .require [column] ∨ edit = .constraint (key.entry name column) := by
  cases key with
  | primaryKey =>
    exact (List.mem_cons.1 hmem).imp_right List.mem_singleton.1
  | unique | references _ => exact .inr (List.mem_singleton.1 hmem)

/-- What the key does is independent of an edit. -/
def Spares (key : ColumnKey) (table column : String) (edit : Edit) : Prop :=
  ∀ other ∈ key.edits table column, other.Independent edit

variable {name column : String}

theorem spares_constraint {constraint : Constraint}
    (hname : (key.entry name column).name ≠ constraint.name) :
    key.Spares name column (.constraint constraint) := by
  intro other hmem
  rcases mem_edits hmem with rfl | rfl
  · exact trivial
  · exact hname

theorem spares_column {stored : Column} (hname : column ≠ stored.name) :
    key.Spares name column (.column stored) := by
  intro other hmem
  rcases mem_edits hmem with rfl | rfl
  · exact fun hstored => hname (List.mem_singleton.1 hstored).symm
  · exact trivial

theorem spares_require (columns : List String) :
    key.Spares name column (.require columns) := by
  intro other hmem
  rcases mem_edits hmem with rfl | rfl <;> exact trivial

/-- The key at its column does what it does right after the column. -/
theorem edited_insert (table : Table) (position : Nat) (halone : key.Alone d)
    (hnames : ∀ constraint ∈ d.constraints table.name,
      (key.entry table.name d.column.name).name ≠ constraint.name) :
    (table.edited ((key.insert position d).edits table.name)).SameEntries
      ((table.edited (d.edits table.name)).edited (key.edits table.name d.column.name)) := by
  obtain ⟨before, after, hinserted, hconstraints⟩ := constraints_insert position halone table.name
  have hlast (stored : Column) :
      (table.edited ((before ++ key.entry table.name d.column.name :: after).map .constraint ++
        [.column stored])).SameEntries
      (((table.edited ((d.constraints table.name).map .constraint)).addColumn stored).addConstraint
        (key.entry table.name d.column.name)) := by
    have hfree : ∀ edit ∈ after.map Edit.constraint ++ [Edit.column stored],
        (Edit.constraint (key.entry table.name d.column.name)).Independent edit := by
      intro edit hmem
      rcases List.mem_append.1 hmem with hafter | hstored
      · obtain ⟨constraint, hconstraint, rfl⟩ := List.mem_map.1 hafter
        exact hnames constraint (hconstraints ▸ List.mem_append_right _ hconstraint)
      · rw [List.mem_singleton.1 hstored]
        exact trivial
    have hbehind : table.edited (before.map Edit.constraint ++
        (after.map Edit.constraint ++ [Edit.column stored])) =
        (table.edited ((d.constraints table.name).map .constraint)).addColumn stored := by
      rw [← List.append_assoc, ← List.map_append, ← hconstraints, edited_append]
      rfl
    rw [List.map_append, List.map_cons, List.append_assoc, List.cons_append]
    refine (edited_last hfree).trans ?_
    rw [hbehind]
    exact .refl _
  have hbehind : table.edited (d.edits table.name) =
      (table.edited ((d.constraints table.name).map .constraint)).addColumn d.column :=
    edited_append
  rw [hbehind, ColumnDefinition.edits, hinserted]
  cases key with
  | primaryKey =>
    exact (hlast d.column.required).trans ((addColumn_require d.column).symm.edit
      (.constraint (entry table.name d.column.name .primaryKey)))
  | unique => exact hlast d.column
  | references reference => exact hlast d.column

end ColumnKey

namespace TableDefinition

variable {key : ColumnKey} {d : ColumnDefinition}

theorem spares_definition {name column : String} {other : ColumnDefinition}
    (hcolumn : column ≠ other.column.name)
    (hnames : ∀ constraint ∈ other.constraints name,
      (key.entry name column).name ≠ constraint.name) {edit : Edit}
    (hmem : edit ∈ other.edits name) : key.Spares name column edit := by
  rcases List.mem_append.1 hmem with hconstraint | hstored
  · obtain ⟨constraint, hmapped, rfl⟩ := List.mem_map.1 hconstraint
    exact ColumnKey.spares_constraint (hnames constraint hmapped)
  · rw [List.mem_singleton.1 hstored]
    exact ColumnKey.spares_column hcolumn

/-- A clause under another name than the key's makes edits that spare the key. -/
theorem spares_clause {column : String} {clause : TableClause} {label : Option String}
    {table : Table}
    (hname : label.or (clause.usualName? table.name) ≠ some (key.entry table.name column).name)
    {edit : Edit} (hmem : edit ∈ clause.edits label table) :
    key.Spares table.name column edit := by
  have hentry {constraint : Constraint} {usual : Option String}
      (husual : constraint.name = label.getD (usual.getD (Naming.tableCheck table)))
      (hname : label.or usual ≠ some (key.entry table.name column).name) :
      key.Spares table.name column (.constraint constraint) := by
    refine ColumnKey.spares_constraint fun hsame => hname ?_
    rw [hsame, husual]
    cases label with
    | some name => rfl
    | none =>
      cases usual with
      | some name => rfl
      | none =>
        obtain ⟨n, hn, -⟩ := firstFree_spec table.constraints (table.name ++ "_check")
        exact absurd (hsame.trans (husual.trans hn))
          (ne_numbered table.name (key.getLast?_entry table.name column))
  cases clause with
  | primaryKey columns =>
    rcases List.mem_cons.1 hmem with rfl | hmem
    · exact ColumnKey.spares_require columns
    · rw [List.mem_singleton.1 hmem]
      exact hentry rfl hname
  | unique _ | foreignKey _ _ | check _ =>
    rw [List.mem_singleton.1 hmem]
    exact hentry rfl hname

/-- The clauses of a table spare the key if none has its name. -/
theorem spares_clauseEdits {column : String} {clauses : List (Option String × TableClause)}
    {table : Table}
    (hnames : ∀ clause ∈ clauses, clause.1.or (clause.2.usualName? table.name) ≠
      some (key.entry table.name column).name) {edit : Edit}
    (hmem : edit ∈ clauseEdits clauses table) : key.Spares table.name column edit := by
  induction clauses generalizing table with
  | nil => cases hmem
  | cons clause more ih =>
    rcases List.mem_append.1 hmem with hfirst | hmore
    · exact spares_clause (hnames clause List.mem_cons_self) hfirst
    · have hname : (clause.2.addTo clause.1 table).name = table.name := by
        rw [TableClause.addTo_eq_edited, name_edited]
      rw [← hname]
      refine ih (fun other hother => ?_) hmore
      rw [hname]
      exact hnames other (List.mem_cons_of_mem _ hother)

/-- A table has the same names for its checks with a key as without it. -/
theorem sameChecks_key (key : ColumnKey) (name column : String) (table : Table) :
    SameChecks table (table.edited (key.edits name column)) := by
  have hentry (found : Table) : SameChecks found (found.addConstraint (key.entry name column)) :=
    .addConstraint (key.getLast?_entry name column)
  cases key with
  | primaryKey =>
    have hrequired : SameChecks table (table.require [column]) := ⟨rfl, fun _ => rfl⟩
    exact hrequired.trans (hentry _)
  | unique | references _ => exact hentry table

/-- A key that stands at its column gives the same table as one that is a constraint of it. -/
theorem finish_moved (table : String) (position : Nat) (front : List ColumnDefinition)
    {back : List ColumnDefinition} {left : List (Option String × TableClause)}
    (right : List (Option String × TableClause)) (halone : key.Alone d)
    (hcolumns : ∀ other ∈ back, d.column.name ≠ other.column.name)
    (hnames : ∀ other ∈ d :: back, ∀ constraint ∈ other.constraints table,
      (key.entry table d.column.name).name ≠ constraint.name)
    (hclauses : ∀ clause ∈ left, clause.1.or (clause.2.usualName? table) ≠
      some (key.entry table d.column.name).name) :
    (finish ⟨(front ++ key.insert position d :: back).foldl (fun table d => d.addTo table)
        (Table.empty table), left ++ right⟩).SameEntries
      (finish ⟨(front ++ d :: back).foldl (fun table d => d.addTo table)
        (Table.empty table), left ++ (none, key.clause d.column.name) :: right⟩) := by
  set start := (Table.empty table).edited (columnEdits table front)
  have hstart : start.name = table := name_edited
  set keys := key.edits table d.column.name
  have hfold (definition : ColumnDefinition) :
      (front ++ definition :: back).foldl (fun table d => d.addTo table) (Table.empty table) =
        (start.edited (definition.edits table)).edited (columnEdits table back) := by
    rw [foldl_addTo_eq_edited, columnEdits, List.flatMap_append, List.flatMap_cons, edited_append,
      edited_append]
    rfl
  rw [hfold, hfold, finish_eq_edited, finish_eq_edited]
  set keyed := (start.edited ((key.insert position d).edits table)).edited (columnEdits table back)
  set plain := (start.edited (d.edits table)).edited (columnEdits table back)
  -- The key at its column is as good as right behind the columns.
  have hkeyed : keyed.SameEntries (plain.edited keys) := by
    have hhere := ColumnKey.edited_insert start position halone
      (by rw [hstart]; exact hnames d List.mem_cons_self)
    rw [hstart] at hhere
    refine hhere.edited.trans (edited_comm fun other hother edit hmem => ?_)
    obtain ⟨definition, hdefinition, hedit⟩ := List.mem_flatMap.1 hmem
    exact spares_definition (hcolumns definition hdefinition)
      (hnames definition (List.mem_cons_of_mem _ hdefinition)) hedit other hother
  have hplain : plain.name = table := name_edited.trans (name_edited.trans hstart)
  have hspared : ∀ other ∈ keys, ∀ edit ∈ clauseEdits left plain, other.Independent edit := by
    intro other hother edit hedit
    have hspares : key.Spares plain.name d.column.name edit :=
      spares_clauseEdits (by rw [hplain]; exact hclauses) hedit
    rw [hplain] at hspares
    exact hspares other hother
  -- No check is named differently where the key comes later.
  have hleft : clauseEdits left keyed = clauseEdits left plain :=
    (clauseEdits_of_sameChecks ((sameChecks_key key table d.column.name plain).trans
      (.of_sameEntries hkeyed.symm))).symm
  have hkey : (key.clause d.column.name).edits none (plain.edited (clauseEdits left plain)) =
      keys := by
    rw [ColumnKey.clause_edits, name_edited, hplain]
  have hright : clauseEdits right (keyed.edited (clauseEdits left plain)) =
      clauseEdits right ((key.clause d.column.name).addTo none
        (plain.edited (clauseEdits left plain))) := by
    rw [TableClause.addTo_eq_edited, hkey]
    exact clauseEdits_of_sameChecks (.of_sameEntries (hkeyed.edited.trans (edited_comm hspared)))
  rw [clauseEdits_append, clauseEdits_append, clauseEdits, hleft, hright, hkey]
  exact hkeyed.edited_later hspared

end TableDefinition

end SchemaEvolution.Sql
