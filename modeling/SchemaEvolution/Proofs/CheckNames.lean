import SchemaEvolution.Proofs.SchemaRb.Outline
import SchemaEvolution.Proofs.Sql.KeyEdits

/-!
# Names of checks without a name

A check of a table that is given no name takes the first of the names `t_check`, `t_check1`,
`t_check2`, … that no constraint of the table has.  The search for it looks at one name after the
other and is not bounded by anything; it ends because there are fewer constraints than names.  So
a check without a name comes behind the constraints that are there, in the place of none of them,
and it stays until another constraint is given its name.
-/

namespace SchemaEvolution

namespace Naming

/-- A candidate, and the number of the next one. -/
structure Search where
  candidate : String
  number : Nat

namespace Search

variable {α : Type} {entries : Keyed α} {base name other : String}

def start (base : String) : Search := ⟨base, 1⟩

/-- A pass of the search: a candidate that is taken gives way to the next one.  There is no pass
where the candidate is free. -/
def pass? (entries : Keyed α) (base : String) (search : Search) : Option Search :=
  if entries.contains search.candidate then
    some ⟨base ++ toString search.number, search.number + 1⟩
  else none

/-- After finitely many passes the search is at a candidate that is free. -/
inductive Ends (entries : Keyed α) (base : String) : Search → String → Prop
  | free {search : Search} (hfree : search.pass? entries base = none) :
    Ends entries base search search.candidate
  | pass {search next : Search} {name : String} (hpass : search.pass? entries base = some next)
    (hends : Ends entries base next name) : Ends entries base search name

/-- The search ends at one name only, since the first free name is the one that it ends at. -/
theorem Ends.unique {search : Search} (hends : Ends entries base search name)
    (hother : Ends entries base search other) : name = other := by
  induction hends with
  | free hfree =>
    cases hother with
    | free => rfl
    | pass hpass _ => rw [hfree] at hpass; cases hpass
  | pass hpass _ ih =>
    cases hother with
    | free hfree => rw [hfree] at hpass; cases hpass
    | pass hpass' hends' =>
      rw [hpass] at hpass'
      cases hpass'
      exact ih hends'

def after (base : String) (n : Nat) : Search := ⟨numbered base n, n + 1⟩

theorem pass?_after (n : Nat) :
    (after base n).pass? entries base =
      if entries.contains (numbered base n) then some (after base (n + 1)) else none := rfl

/-- From every candidate before the first free one, the search comes to that one. -/
theorem ends_after {first : Nat} (hfree : entries.contains (numbered base first) = false)
    (htaken : ∀ n < first, entries.contains (numbered base n) = true) {n : Nat} (hn : n ≤ first) :
    Ends entries base (after base n) (numbered base first) := by
  induction hn using Nat.decreasingInduction with
  | self => exact .free (by rw [pass?_after, hfree]; rfl)
  | of_succ n hn ih => exact .pass (by rw [pass?_after, if_pos (htaken n hn)]) ih

/-- The search ends, and it ends with the first free name. -/
theorem ends_start_iff :
    Ends entries base (start base) name ↔ name = firstFree entries base := by
  obtain ⟨first, hfirst, hfree, htaken⟩ := Sql.firstFree_spec entries base
  have hends : Ends entries base (start base) (firstFree entries base) := by
    rw [hfirst]
    exact ends_after hfree htaken (Nat.zero_le first)
  exact ⟨fun hother => hother.unique hends, fun hname => hname ▸ hends⟩

end Search

end Naming

namespace Table

variable {table : Table} {name : String} {edits : List Edit}

/-- Adds a check that has no name of its own. -/
def addCheck (table : Table) (condition : String) : Table :=
  table.addConstraint (.check (Naming.tableCheck table) condition)

theorem contains_tableCheck (table : Table) :
    table.constraints.contains (Naming.tableCheck table) = false := by
  obtain ⟨n, hn, hfree, -⟩ := Sql.firstFree_spec table.constraints (table.name ++ "_check")
  rw [Naming.tableCheck, hn, hfree]

/-- The check comes behind all constraints that are there. -/
theorem toList_addCheck (table : Table) (condition : String) :
    (table.addCheck condition).constraints.toList = table.constraints.toList ++
      [(Naming.tableCheck table, .check (Naming.tableCheck table) condition)] := by
  have hfree : Naming.tableCheck table ∉ table.constraints.keys := fun hmem => by
    have htaken := Keyed.contains_eq_true_iff.2 hmem
    rw [contains_tableCheck] at htaken
    cases htaken
  exact Keyed.put_of_not_mem hfree

/-- Checks that come one after the other are all there, in their order, behind the others. -/
theorem rules_foldl_addCheck (conditions : List String) (table : Table) :
    ∃ checks, (conditions.foldl addCheck table).constraints.toList =
        table.constraints.toList ++ checks ∧
      checks.map (fun entry => entry.2.rule) = conditions.map .check := by
  induction conditions generalizing table with
  | nil => exact ⟨[], (List.append_nil _).symm, rfl⟩
  | cons condition more ih =>
    obtain ⟨checks, hchecks, hrules⟩ := ih (table.addCheck condition)
    refine ⟨(Naming.tableCheck table, .check (Naming.tableCheck table) condition) :: checks, ?_, ?_⟩
    · rw [List.foldl_cons, hchecks, toList_addCheck, List.append_assoc, List.singleton_append]
    · rw [List.map_cons, List.map_cons, hrules]
      rfl

/-- What is stored under a name stays there until another constraint is given the name. -/
theorem get?_edited_of_ne
    (hne : ∀ constraint, Edit.constraint constraint ∈ edits → constraint.name ≠ name) :
    (table.edited edits).constraints.get? name = table.constraints.get? name := by
  induction edits generalizing table with
  | nil => rfl
  | cons first more ih =>
    refine (ih fun constraint hmem => hne constraint (List.mem_cons_of_mem _ hmem)).trans ?_
    cases first with
    | constraint constraint =>
      exact (Keyed.get?_insert _ _ _ _).trans (if_neg (hne constraint List.mem_cons_self))
    | column _ | require _ | index _ => rfl

end Table

/-- The name is one of those that checks without a name take. -/
def Naming.IsTableCheck (table name : String) : Prop :=
  ∃ n, name = numbered (table ++ "_check") n

theorem Naming.isTableCheck_tableCheck (table : Table) :
    IsTableCheck table.name (tableCheck table) := by
  obtain ⟨n, hn, -⟩ := Sql.firstFree_spec table.constraints (table.name ++ "_check")
  exact ⟨n, hn⟩

theorem Naming.getLast?_append_of {front back : String} {last : Char}
    (hback : back.toList.getLast? = some last) :
    (front ++ back).toList.getLast? = some last := by
  rw [String.toList_append, List.getLast?_append, hback]
  rfl

/-- No key is named like a check, unless it is given the name. -/
theorem Naming.IsTableCheck.ne {table name other : String} (hcheck : IsTableCheck table name)
    (hother : other.toList.getLast? = some 'y') : other ≠ name := by
  obtain ⟨n, rfl⟩ := hcheck
  exact Sql.ne_numbered table hother

namespace Sql

open Table

variable {table : Table} {name : String}

/-- A constraint that a clause adds is named by its label, or else by the usual name of its kind. -/
theorem TableClause.name_of_mem_edits {clause : TableClause} {label : Option String}
    {constraint : Constraint} (hmem : Edit.constraint constraint ∈ clause.edits label table) :
    constraint.name =
      label.getD ((clause.usualName? table.name).getD (Naming.tableCheck table)) := by
  cases clause with
  | primaryKey columns =>
    rcases List.mem_cons.1 hmem with hrequire | hkey
    · cases hrequire
    · cases List.mem_singleton.1 hkey
      rfl
  | unique _ | foreignKey _ _ | check _ =>
    cases List.mem_singleton.1 hmem
    rfl

theorem TableClause.getLast?_usualName? {clause : TableClause} {table usual : String}
    (husual : clause.usualName? table = some usual) : usual.toList.getLast? = some 'y' := by
  cases clause <;> cases husual <;> exact Naming.getLast?_append_of (by decide)

/-- A constraint takes no name of a check that is in use, unless it is given that name. -/
theorem TableClause.get?_addTo (clause : TableClause) {label : Option String}
    (hcheck : Naming.IsTableCheck table.name name)
    (htaken : table.constraints.contains name = true) (hlabel : label ≠ some name) :
    (clause.addTo label table).constraints.get? name = table.constraints.get? name := by
  rw [addTo_eq_edited]
  refine get?_edited_of_ne fun constraint hmem => ?_
  rw [name_of_mem_edits hmem]
  cases label with
  | some own => exact fun hown => hlabel (congrArg some hown)
  | none =>
    cases husual : clause.usualName? table.name with
    | some usual => exact hcheck.ne (getLast?_usualName? husual)
    | none =>
      rintro rfl
      have hfree := table.contains_tableCheck
      rw [Option.getD_none, Option.getD_none, hfree] at htaken
      cases htaken

end Sql

namespace SchemaRb

open Table

variable {table : Table} {name : String}

/-- A call takes no name of a check that is in use, unless it gives that name. -/
theorem get?_addCall (receiver : String) (call : Call)
    (htaken : table.constraints.contains name = true)
    (hname : call.constraintName? table.name ≠ some name) :
    (addCall receiver table call).constraints.get? name = table.constraints.get? name := by
  rw [addCall_eq_edited]
  refine get?_edited_of_ne fun constraint hmem => ?_
  rw [Call.name_of_mem_edits hmem]
  cases hown : call.constraintName? table.name with
  | some own => exact fun hsame => hname (hown.trans (congrArg some hsame))
  | none =>
    rintro rfl
    have hfree := table.contains_tableCheck
    rw [Option.getD_none, hfree] at htaken
    cases htaken

theorem name_addCall (receiver : String) (table : Table) (call : Call) :
    (addCall receiver table call).name = table.name := by
  rw [addCall_eq_edited, name_edited]

end SchemaRb

/-! ## Sources of checks -/

/-- Constraints that are added to tables one after the other.  Of some of them it is known that
they are checks without a name, and of some which name they are given in a table. -/
structure ConstraintSource (ι : Type) where
  add : Table → ι → Table
  IsUnnamedCheck : ι → String → Prop
  given? : String → ι → Option String

namespace ConstraintSource

variable {ι : Type} {source : ConstraintSource ι}

/-- A check without a name is added under the first free name, and no other constraint takes a name
of a check that is in use, unless it is given that name. -/
structure AddsChecks (source : ConstraintSource ι) : Prop where
  name_add : ∀ (table : Table) (item : ι), (source.add table item).name = table.name
  unnamed : ∀ {item : ι} {condition : String}, source.IsUnnamedCheck item condition →
    ∀ table : Table, source.add table item = table.addCheck condition
  keeps : ∀ {table : Table} {item : ι} {name : String}, Naming.IsTableCheck table.name name →
    table.constraints.contains name = true → source.given? table.name item ≠ some name →
      (source.add table item).constraints.get? name = table.constraints.get? name

/-- Every check without a name is there in the end, under the name that was the first free one when
it came, if no later constraint is given this name. -/
def ChecksSurvive (source : ConstraintSource ι) : Prop :=
  ∀ (table : Table) (item : ι) (condition : String) (later : List ι),
    source.IsUnnamedCheck item condition →
    (∀ other ∈ later, source.given? table.name other ≠ some (Naming.tableCheck table)) →
      ((item :: later).foldl source.add table).constraints.get? (Naming.tableCheck table) =
        some (.check (Naming.tableCheck table) condition)

namespace AddsChecks

/-- A check stays where it is until a constraint is given its name. -/
theorem get?_foldl_add (hadds : source.AddsChecks) {table : Table} {name : String} {items : List ι}
    (hcheck : Naming.IsTableCheck table.name name)
    (htaken : table.constraints.contains name = true)
    (hgiven : ∀ item ∈ items, source.given? table.name item ≠ some name) :
    (items.foldl source.add table).constraints.get? name = table.constraints.get? name := by
  induction items generalizing table with
  | nil => rfl
  | cons item more ih =>
    have hkept := hadds.keeps hcheck htaken (hgiven item List.mem_cons_self)
    refine (ih ?_ ?_ fun other hmem => ?_).trans hkept
    · rwa [hadds.name_add]
    · rwa [Keyed.contains, hkept]
    · rw [hadds.name_add]
      exact hgiven other (List.mem_cons_of_mem _ hmem)

/-- A check without a name survives what comes later, unless that is given its very name. -/
theorem checksSurvive (hadds : source.AddsChecks) : source.ChecksSurvive := by
  intro table item condition later hunnamed hgiven
  have hstored : (table.addCheck condition).constraints.get? (Naming.tableCheck table) =
      some (.check (Naming.tableCheck table) condition) :=
    (Keyed.get?_insert _ _ _ _).trans (if_pos rfl)
  have hcheck : Naming.IsTableCheck (table.addCheck condition).name (Naming.tableCheck table) :=
    Naming.isTableCheck_tableCheck table
  have hkept := hadds.get?_foldl_add hcheck (congrArg Option.isSome hstored) hgiven
  rw [List.foldl_cons, hadds.unnamed hunnamed, hkept, hstored]

end AddsChecks

end ConstraintSource

/-- The constraints of a statement, each with the name that it is given. -/
def Sql.clauseSource : ConstraintSource (Option String × Sql.TableClause) where
  add table clause := clause.2.addTo clause.1 table
  IsUnnamedCheck clause condition := clause = (none, .check condition)
  given? _ clause := clause.1

theorem Sql.addsChecks_clauseSource : clauseSource.AddsChecks where
  name_add table clause := by
    change (clause.2.addTo clause.1 table).name = table.name
    rw [TableClause.addTo_eq_edited, Table.name_edited]
  unnamed := by
    rintro _ condition rfl table
    rfl
  keeps hcheck htaken hgiven := TableClause.get?_addTo _ hcheck htaken hgiven

def SchemaRb.blockSource (receiver : String) : ConstraintSource SchemaRb.Call where
  add := addCall receiver
  IsUnnamedCheck call condition := call.name = "check_constraint" ∧
    call.argumentText? 0 = some condition ∧ call.optionText? "name" = none
  given? table call := call.constraintName? table

theorem SchemaRb.addsChecks_blockSource (receiver : String) :
    (blockSource receiver).AddsChecks where
  name_add := name_addCall receiver
  unnamed := by
    rintro call condition ⟨hname, hcondition, hunnamed⟩ table
    change addCall receiver table call = table.addCheck condition
    rw [addCall_eq_edited, Call.edits]
    simp only [hname, hcondition, hunnamed, Option.elim_some, checkOf, Option.getD_none]
    rfl
  keeps _ htaken hgiven := get?_addCall receiver _ htaken hgiven

/-- A call outside the tables that adds a check without a name. -/
theorem SchemaRb.addToSchema_unnamedCheck {call : Call} {name condition : String}
    (hcall : call.name = "add_check_constraint") (hname : call.argumentText? 0 = some name)
    (hcondition : call.argumentText? 1 = some condition)
    (hunnamed : call.optionText? "name" = none) (schema : Schema) :
    addToSchema schema call =
      changeTable schema name call fun table => table.addCheck condition := by
  unfold addToSchema
  simp only [hcall, hname, hcondition, checkOf, hunnamed, Option.getD_none]
  rfl

/-- In every table the search for the name of a check ends, with the first name that no constraint
has.  The check replaces nothing, so any number of checks without a name are there in the end,
among whatever other constraints they come, if none of these is given the name of one of them. -/
theorem unnamedChecks_survive :
    (∀ (table : Table) (name : String),
      Naming.Search.Ends table.constraints (table.name ++ "_check")
        (.start (table.name ++ "_check")) name ↔ name = Naming.tableCheck table) ∧
    (∀ table : Table, ∃ n, Naming.tableCheck table = Naming.numbered (table.name ++ "_check") n ∧
      table.constraints.contains (Naming.numbered (table.name ++ "_check") n) = false ∧
      ∀ m < n, table.constraints.contains (Naming.numbered (table.name ++ "_check") m) = true) ∧
    (∀ (table : Table) (condition : String),
      (table.addCheck condition).constraints.toList = table.constraints.toList ++
        [(Naming.tableCheck table, .check (Naming.tableCheck table) condition)]) ∧
    (∀ (conditions : List String) (table : Table), ∃ checks,
      (conditions.foldl Table.addCheck table).constraints.toList =
        table.constraints.toList ++ checks ∧
      checks.map (fun entry => entry.2.rule) = conditions.map .check) ∧
    (Sql.clauseSource.AddsChecks ∧ Sql.clauseSource.ChecksSurvive) ∧
    (∀ receiver : String, (SchemaRb.blockSource receiver).AddsChecks ∧
      (SchemaRb.blockSource receiver).ChecksSurvive) ∧
    ∀ (schema : Schema) (call : SchemaRb.Call) (name condition : String),
      call.name = "add_check_constraint" → call.argumentText? 0 = some name →
      call.argumentText? 1 = some condition → call.optionText? "name" = none →
        SchemaRb.addToSchema schema call =
          SchemaRb.changeTable schema name call fun table => table.addCheck condition := by
  refine ⟨fun table name => Naming.Search.ends_start_iff, fun table => ?_, Table.toList_addCheck,
    Table.rules_foldl_addCheck, ?_, fun receiver => ?_, ?_⟩
  · exact Sql.firstFree_spec table.constraints (table.name ++ "_check")
  · exact ⟨Sql.addsChecks_clauseSource, Sql.addsChecks_clauseSource.checksSurvive⟩
  · have hadds := SchemaRb.addsChecks_blockSource receiver
    exact ⟨hadds, hadds.checksSurvive⟩
  · intro schema call name condition hcall hname hcondition hunnamed
    exact SchemaRb.addToSchema_unnamedCheck hcall hname hcondition hunnamed schema

/-- A table whose checks have been given the first two names, the second one first. -/
def crowdedTable : Table :=
  ((Table.empty "t").addConstraint (.check "t_check1" "a > 0")).addConstraint
    (.check "t_check" "b > 0")

theorem tableCheck_crowdedTable : Naming.tableCheck crowdedTable = "t_check2" := by
  decide +kernel

/-- A check without a name, and then one with the name that would be the next one. -/
theorem unnamedChecks_survive_crowdedTable :
    ([(none, Sql.TableClause.check "c > 0"), (some "t_check3", .check "d > 0"),
      (none, .check "e > 0")].foldl Sql.clauseSource.add crowdedTable).constraints.get?
        "t_check2" = some (.check "t_check2" "c > 0") ∧
    SchemaRb.addToSchema (Schema.empty.addTable crowdedTable)
        ⟨"add_check_constraint", [.string "t", .string "c > 0"], [], 1⟩ =
      SchemaRb.changeTable (Schema.empty.addTable crowdedTable) "t"
        ⟨"add_check_constraint", [.string "t", .string "c > 0"], [], 1⟩
        fun table => table.addCheck "c > 0" := by
  obtain ⟨-, -, -, -, ⟨-, hclauses⟩, -, hcalls⟩ := unnamedChecks_survive
  refine ⟨?_, hcalls _ _ "t" "c > 0" rfl rfl rfl rfl⟩
  have hlater : ∀ other ∈ [(some "t_check3", Sql.TableClause.check "d > 0"),
      (none, .check "e > 0")], Sql.clauseSource.given? "t" other ≠
        some (Naming.tableCheck crowdedTable) := by
    rw [tableCheck_crowdedTable]
    decide
  have hkept := hclauses crowdedTable (none, .check "c > 0") "c > 0" _ rfl hlater
  rwa [tableCheck_crowdedTable] at hkept

end SchemaEvolution
