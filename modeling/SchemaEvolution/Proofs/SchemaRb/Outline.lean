import SchemaEvolution.Proofs.Sql.KeyEdits
import SchemaEvolution.Repeated
import SchemaEvolution.SchemaRb.Import

/-!
# Outlines of schema files

A schema file is a row of items: tables with the calls of their blocks, and calls outside of them.
Each call edits a table, and a call that is refused leaves it as it is.  What a call does depends
on the table in one respect only: a check without a name takes the first free one.  So the calls
of a block do the same to tables in which the same names are taken, and what a file defines
depends on its outline only.
-/

namespace SchemaEvolution.SchemaRb

open Table Sql

variable {table left right : Table} {call : Call} {calls more : List Call}

/-- The table after a call of its block, which may be refused. -/
def addCall (receiver : String) (table : Table) (call : Call) : Table :=
  match addToTable receiver table call with
  | .ok after => after
  | .error _ => table

def referenceColumn (reference : String) (call : Call) : Column :=
  let type := ((call.option? "type").bind Value.text?).map fun type => columnType type call
  { Column.plain (reference ++ "_id") (type.getD "bigint") with
    notNull := call.optionIsFalse "null" }

def referenceKeyName (table reference : String) : String :=
  Naming.foreignKey table [reference ++ "_id"]

def referenceKey (table reference target : String) : Constraint :=
  .foreignKey (referenceKeyName table reference)
    ⟨[reference ++ "_id"], target, ["id"], .noAction, .noAction⟩

/-- What a reference does to a table of the given name. -/
def referenceEdits (table reference : String) (call : Call) : List Edit :=
  let columns := [reference ++ "_id"]
  .column (referenceColumn reference call) ::
    ((if call.optionIsFalse "index" then []
      else [.index ⟨indexName table columns, false, columns, "btree"⟩]) ++
      ((referenceTarget? reference call).map fun target =>
        Edit.constraint (referenceKey table reference target)).toList)

def Call.edits (call : Call) (table : Table) : List Edit :=
  match call.name with
  | "index" => [.index (indexOf table.name (call.argumentTexts 0) call)]
  | "timestamps" => ["created_at", "updated_at"].map fun name =>
      .column { Column.plain name (columnType "datetime" call) with
        notNull := !call.optionHolds "null" }
  | "references" | "belongs_to" =>
    (call.argumentText? 0).elim [] fun reference => referenceEdits table.name reference call
  | "check_constraint" =>
    (call.argumentText? 0).elim [] fun condition => [.constraint (checkOf condition table call)]
  | "column" =>
    (call.argumentText? 0).elim [] fun name =>
      [.column (columnOf name ((call.argumentText? 1).getD "string") call)]
  | type => (call.arguments.filterMap Value.text?).map fun name => .column (columnOf name type call)

theorem addReference_eq_edited (reference : String) (call : Call) (table : Table) :
    addReference reference call table =
      table.edited (referenceEdits table.name reference call) := by
  rw [addReference, referenceEdits]
  cases call.optionIsFalse "index" <;> cases referenceTarget? reference call <;> rfl

/-- A call within a table makes the edits that the outline lists for it. -/
theorem addCall_eq_edited (receiver : String) (table : Table) (call : Call) :
    addCall receiver table call = table.edited (call.edits table) := by
  have hargument (change : String → Table) (edits : String → List Edit)
      (hchange : ∀ text, change text = table.edited (edits text)) :
      (call.argumentText? 0).elim table change =
        table.edited ((call.argumentText? 0).elim [] edits) := by
    cases call.argumentText? 0 with
    | none => rfl
    | some text => exact hchange text
  have hcolumns (names : List String) :
      names.foldl (fun table name => table.addColumn (columnOf name call.name call)) table =
        table.edited (names.map fun name => .column (columnOf name call.name call)) := by
    rw [edited, List.foldl_map]
    rfl
  rw [addCall]
  generalize hadd : addToTable receiver table call = outcome
  unfold addToTable at hadd
  split at hadd
  case h_7 =>
    have hedits : call.edits table =
        (call.arguments.filterMap Value.text?).map fun name =>
          .column (columnOf name call.name call) := by
      rw [Call.edits]
      split
      case h_7 => rfl
      all_goals contradiction
    rw [hedits]
    dsimp only at hadd
    split at hadd
    · next hempty =>
      rw [← hadd, List.isEmpty_iff.1 hempty]
      rfl
    · rw [← hadd]
      exact hcolumns _
  case h_1 hname | h_2 hname =>
    rw [← hadd]
    simp only [Call.edits, hname]
    rfl
  case h_3 hname | h_4 hname =>
    rw [← hadd]
    simp only [Call.edits, hname]
    exact hargument _ _ fun reference => addReference_eq_edited reference call table
  case h_5 hname | h_6 hname =>
    rw [← hadd]
    simp only [Call.edits, hname]
    exact hargument _ _ fun _ => rfl

/-- The name of the constraint that a call adds, if it does not take a free one. -/
def Call.constraintName? (call : Call) (table : String) : Option String :=
  match call.name with
  | "references" | "belongs_to" => (call.argumentText? 0).bind fun reference =>
    (referenceTarget? reference call).map fun _ => referenceKeyName table reference
  | "check_constraint" => call.optionText? "name"
  | _ => none

/-- A constraint among the edits of a call has its own name, or the usual name of a check. -/
theorem Call.name_of_mem_edits {constraint : Constraint}
    (hmem : Edit.constraint constraint ∈ call.edits table) :
    constraint.name = (call.constraintName? table.name).getD (Naming.tableCheck table) := by
  have hreference {reference : String}
      (hreference : Edit.constraint constraint ∈ referenceEdits table.name reference call) :
      ∃ target, referenceTarget? reference call = some target ∧
        constraint.name = referenceKeyName table.name reference := by
    simp only [referenceEdits, List.mem_cons, reduceCtorEq, List.mem_append, Option.mem_toList,
      Option.map_eq_some_iff, false_or] at hreference
    rcases hreference with hindex | ⟨target, htarget, hkey⟩
    · split at hindex <;> simp at hindex
    · cases hkey
      exact ⟨target, htarget, rfl⟩
  unfold edits at hmem
  unfold constraintName?
  split at hmem
  case h_1 | h_2 => simp at hmem
  case h_3 hname | h_4 hname =>
    simp only [hname]
    cases hargument : call.argumentText? 0 with
    | none => rw [hargument] at hmem; cases hmem
    | some reference =>
      rw [hargument] at hmem
      obtain ⟨target, htarget, hkey⟩ := hreference hmem
      rw [hkey, Option.bind_some, htarget]
      rfl
  case h_5 hname =>
    simp only [hname]
    cases hargument : call.argumentText? 0 with
    | none => rw [hargument] at hmem; cases hmem
    | some condition =>
      rw [hargument] at hmem
      cases List.mem_singleton.1 hmem
      rfl
  case h_6 hname =>
    cases hargument : call.argumentText? 0 with
    | none => rw [hargument] at hmem; cases hmem
    | some condition => rw [hargument] at hmem; cases List.mem_singleton.1 hmem
  case h_7 =>
    obtain ⟨name, -, hcolumn⟩ := List.mem_map.1 hmem
    cases hcolumn

/-- A call does the same to tables in which the same names for checks are taken. -/
theorem Call.edits_of_sameChecks (hsame : SameChecks left right) (call : Call) :
    call.edits left = call.edits right := by
  simp only [edits, checkOf, hsame.name, hsame.tableCheck]

/-- What the calls of a block do to a table, one after the other. -/
def blockEdits : List Call → Table → List Edit
  | [], _ => []
  | call :: more, table => call.edits table ++ blockEdits more (table.edited (call.edits table))

theorem blockEdits_append :
    blockEdits (calls ++ more) table =
      blockEdits calls table ++ blockEdits more (table.edited (blockEdits calls table)) := by
  induction calls generalizing table with
  | nil => rfl
  | cons call others ih =>
    rw [List.cons_append, blockEdits, blockEdits, ih, List.append_assoc, edited_append]

theorem blockEdits_of_sameChecks (hsame : SameChecks left right) :
    blockEdits calls left = blockEdits calls right := by
  induction calls generalizing left right with
  | nil => rfl
  | cons call more ih =>
    have hedits := call.edits_of_sameChecks hsame
    rw [blockEdits, blockEdits, hedits, ih (hsame.edited _)]

theorem foldl_addCall_eq_edited (receiver : String) (calls : List Call) (table : Table) :
    calls.foldl (addCall receiver) table = table.edited (blockEdits calls table) := by
  induction calls generalizing table with
  | nil => rfl
  | cons call more ih => rw [List.foldl_cons, ih, blockEdits, edited_append, addCall_eq_edited]

/-- A constraint of a block has the name that its call gives it, or the first free one. -/
theorem name_of_mem_blockEdits {calls : List Call} {table : Table} {constraint : Constraint}
    (hmem : .constraint constraint ∈ blockEdits calls table) :
    ∃ call ∈ calls, ∃ found : Table,
      constraint.name = (call.constraintName? table.name).getD (Naming.tableCheck found) := by
  induction calls generalizing table with
  | nil => cases hmem
  | cons first more ih =>
    rcases List.mem_append.1 hmem with hfirst | hmore
    · exact ⟨first, List.mem_cons_self, table, Call.name_of_mem_edits hfirst⟩
    · obtain ⟨call, hcall, found, hname⟩ := ih hmore
      rw [name_edited] at hname
      exact ⟨call, List.mem_cons_of_mem _ hcall, found, hname⟩

/-- The table before the calls of its block, with what its own call says of it. -/
def bareTable (name : String) (call : Call) : Table :=
  { Table.empty name with comment := call.optionText? "comment" }

/-- What the call of a table does before the calls of its block. -/
def startEdits (name : String) (call : Call) : List Edit :=
  (implicitKey? call).elim [] fun column =>
    [.column column, .constraint (.primaryKey (Naming.primaryKey name) [column.name])]

/-- What the call of a table does after the calls of its block. -/
def finishEdits (name : String) (call : Call) : List Edit :=
  (compositeKey? call).elim [] fun columns =>
    [.require columns, .constraint (.primaryKey (Naming.primaryKey name) columns)]

theorem startTable_eq_edited (name : String) (call : Call) :
    startTable name call = (bareTable name call).edited (startEdits name call) := by
  rw [startTable, startEdits]
  cases implicitKey? call <;> rfl

theorem name_startTable (name : String) (call : Call) : (startTable name call).name = name := by
  rw [startTable_eq_edited, name_edited]
  rfl

theorem finishTable_eq_edited (call : Call) (table : Table) :
    finishTable call table = table.edited (finishEdits table.name call) := by
  rw [finishTable, finishEdits]
  cases compositeKey? call <;> rfl

def tableEdits (name : String) (call : Call) (body : List Call) : List Edit :=
  startEdits name call ++ (blockEdits body (startTable name call) ++ finishEdits name call)

theorem fst_foldl_addCall {receiver : String}
    {step : Table × List Diagnostic → Call → Table × List Diagnostic}
    (hstep : ∀ state call, (step state call).1 = addCall receiver state.1 call)
    (body : List Call) (state : Table × List Diagnostic) :
    (body.foldl step state).1 = body.foldl (addCall receiver) state.1 := by
  induction body generalizing state with
  | nil => rfl
  | cons inner more ih => rw [List.foldl_cons, List.foldl_cons, ih, hstep]

/-- A table is what its calls make of a bare one. -/
theorem tableOf_eq_edited (name receiver : String) (call : Call) (body : List Call) :
    (tableOf name receiver call body).1 =
      (bareTable name call).edited (tableEdits name call body) := by
  have htable : (tableOf name receiver call body).1 =
      finishTable call (body.foldl (addCall receiver) (startTable name call)) := by
    refine congrArg (finishTable call) (fst_foldl_addCall (fun state inner => ?_) body _)
    obtain ⟨table, warnings⟩ := state
    rw [addCall]
    dsimp only
    cases addToTable receiver table inner <;> rfl
  rw [htable, foldl_addCall_eq_edited, finishTable_eq_edited, name_edited, name_startTable,
    tableEdits, edited_append, edited_append, ← startTable_eq_edited]

theorem name_tableOf (name receiver : String) (call : Call) (body : List Call) :
    (tableOf name receiver call body).1.name = name := by
  rw [tableOf_eq_edited, name_edited]
  rfl

/-- What is added when a table ends is its primary key, under the usual name. -/
theorem name_of_mem_finishEdits {table : String} {call : Call} {constraint : Constraint}
    (hmem : .constraint constraint ∈ finishEdits table call) :
    constraint.name = Naming.primaryKey table := by
  rw [finishEdits] at hmem
  cases hkey : compositeKey? call with
  | none =>
    rw [hkey] at hmem
    cases hmem
  | some columns =>
    rw [hkey, Option.elim_some] at hmem
    rcases List.mem_cons.1 hmem with hrequire | hprimary
    · cases hrequire
    · cases List.mem_singleton.1 hprimary
      rfl

def Call.unplaced (call : Call) : Call := { call with line := 0 }

/-- What a file says: a table with the calls of its block, or a call outside of tables. -/
inductive Item where
  | table (name receiver : String) (call : Call) (body : List Call)
  | outside (call : Call)

namespace Item

def unplaced : Item → Item
  | .table name receiver call body => .table name receiver call.unplaced (body.map Call.unplaced)
  | .outside call => .outside call.unplaced

/-- The schema after an item, which may be refused. -/
def addTo (schema : Schema) : Item → Schema
  | .table name receiver call body => schema.addTable (tableOf name receiver call body).1
  | .outside call =>
    match addToSchema schema call with
    | .ok after => after
    | .error _ => schema

end Item

def Call.change? (call : Call) : Option (String × (Table → List Edit)) :=
  match call.name with
  | "add_index" => (call.argumentText? 0).map fun name =>
    (name, fun _ => [.index (indexOf name (call.argumentTexts 1) call)])
  | "add_check_constraint" =>
    (call.argumentText? 0).bind fun name => (call.argumentText? 1).map fun condition =>
      (name, fun found => [.constraint (checkOf condition found call)])
  | "add_foreign_key" =>
    (call.argumentText? 0).bind fun owner => (call.argumentText? 1).map fun target =>
      (owner, fun _ => [.constraint (foreignKeyOf owner target call)])
  | _ => none

/-- What a call outside of tables defines besides them. -/
def Call.define (call : Call) (schema : Schema) : Schema :=
  match call.name with
  | "enable_extension" =>
    (call.argumentText? 0).elim schema fun name => schema.addExtension ⟨name, none, none, none⟩
  | "create_enum" =>
    (call.argumentText? 0).elim schema fun name =>
      schema.addEnum ⟨name, call.argumentTexts 1, none⟩
  | _ => schema

def editTable (schema : Schema) (name : String) (edits : Table → List Edit) : Schema :=
  { schema with tables := schema.tables.update name fun found => found.edited (edits found) }

/-- A call outside of a table defines what it can, or edits the table it names. -/
theorem addTo_outside (schema : Schema) (call : Call) :
    (Item.outside call).addTo schema =
      call.change?.elim (call.define schema) fun change =>
        editTable schema change.1 change.2 := by
  have hchange (name : String) (edits : Table → List Edit) :
      (match changeTable schema name call fun found => found.edited (edits found) with
        | .ok after => after
        | .error _ => schema) = editTable schema name edits := by
    rw [changeTable, editTable]
    by_cases hfound : schema.tables.contains name
    · rw [if_pos hfound]
    · rw [if_neg hfound, Keyed.update_eq_self fun value hvalue => ?_]
      rw [Keyed.contains, hvalue] at hfound
      exact absurd rfl hfound
  rw [Item.addTo]
  generalize hadd : addToSchema schema call = outcome
  unfold addToSchema at hadd
  split at hadd
  case h_6 =>
    have hnone : call.change? = none := by
      rw [Call.change?]
      split
      case h_4 => rfl
      all_goals contradiction
    have hdefine : call.define schema = schema := by
      rw [Call.define]
      split
      case h_3 => rfl
      all_goals contradiction
    rw [hnone, ← hadd, Option.elim_none, hdefine]
  case h_1 hname | h_2 hname =>
    simp only [Call.change?, Call.define, hname]
    rw [← hadd]
    cases call.argumentText? 0 <;> rfl
  case h_3 hname =>
    have hdefine : call.define schema = schema := by rw [Call.define, hname]; rfl
    simp only [Call.change?, hname, hdefine]
    rw [← hadd]
    cases call.argumentText? 0 with
    | none => rfl
    | some name => exact hchange name fun _ => [.index (indexOf name (call.argumentTexts 1) call)]
  case h_4 hname =>
    have hdefine : call.define schema = schema := by rw [Call.define, hname]; rfl
    simp only [Call.change?, hname, hdefine]
    rw [← hadd]
    cases call.argumentText? 0 with
    | none => rfl
    | some name =>
      cases call.argumentText? 1 with
      | none => rfl
      | some condition =>
        exact hchange name fun found => [.constraint (checkOf condition found call)]
  case h_5 hname =>
    have hdefine : call.define schema = schema := by rw [Call.define, hname]; rfl
    simp only [Call.change?, hname, hdefine]
    rw [← hadd]
    cases call.argumentText? 0 with
    | none => rfl
    | some owner =>
      cases call.argumentText? 1 with
      | none => rfl
      | some target => exact hchange owner fun _ => [.constraint (foreignKeyOf owner target call)]

/-- An edit of a table depends on the names of its checks only. -/
theorem Call.change?_congr {call : Call} {change : String × (Table → List Edit)}
    {left right : Table} (hchange : call.change? = some change) (hsame : SameChecks left right) :
    change.2 left = change.2 right := by
  rw [Call.change?] at hchange
  split at hchange
  case h_1 =>
    obtain ⟨name, -, rfl⟩ := Option.map_eq_some_iff.1 hchange
    rfl
  case h_2 =>
    obtain ⟨name, -, hname⟩ := Option.bind_eq_some_iff.1 hchange
    obtain ⟨condition, -, rfl⟩ := Option.map_eq_some_iff.1 hname
    simp only [checkOf, hsame.tableCheck]
  case h_3 =>
    obtain ⟨owner, -, howner⟩ := Option.bind_eq_some_iff.1 hchange
    obtain ⟨target, -, rfl⟩ := Option.map_eq_some_iff.1 howner
    rfl
  case h_4 => cases hchange

/-- The table to which a call outside of tables adds a constraint, and the name of the constraint,
if it does not take a free one. -/
def Call.ownConstraint? (call : Call) : Option (String × String) :=
  match call.name with
  | "add_check_constraint" =>
    (call.argumentText? 0).bind fun name => (call.optionText? "name").map fun own => (name, own)
  | "add_foreign_key" =>
    (call.argumentText? 0).bind fun owner => (call.argumentText? 1).map fun target =>
      (owner, (foreignKeyOf owner target call).name)
  | _ => none

/-- A call outside of a table adds a constraint under its own name, or under that of a check. -/
theorem Call.name_of_mem_change {call : Call} {change : String × (Table → List Edit)}
    {found : Table} {constraint : Constraint} (hchange : call.change? = some change)
    (hmem : .constraint constraint ∈ change.2 found) :
    call.ownConstraint? = some (change.1, constraint.name) ∨
      constraint.name = Naming.tableCheck found := by
  rw [Call.change?] at hchange
  rw [Call.ownConstraint?]
  split at hchange
  case h_1 =>
    obtain ⟨name, -, rfl⟩ := Option.map_eq_some_iff.1 hchange
    cases List.mem_singleton.1 hmem
  case h_2 hname =>
    obtain ⟨name, hargument, hcheck⟩ := Option.bind_eq_some_iff.1 hchange
    obtain ⟨condition, -, rfl⟩ := Option.map_eq_some_iff.1 hcheck
    cases List.mem_singleton.1 hmem
    simp only [hname, hargument, Option.bind_some]
    cases hown : call.optionText? "name" with
    | none => exact .inr (by rw [checkOf, hown]; rfl)
    | some own => exact .inl (by rw [checkOf, hown]; rfl)
  case h_3 hname =>
    obtain ⟨owner, hargument, howner⟩ := Option.bind_eq_some_iff.1 hchange
    obtain ⟨target, htarget, rfl⟩ := Option.map_eq_some_iff.1 howner
    cases List.mem_singleton.1 hmem
    exact .inl (by simp only [hname, hargument, htarget, Option.bind_some, Option.map_some])
  case h_4 => cases hchange

/-! ## Alike schemas -/

/-- The tables of the schemas have the same entries, and there is the same besides them. -/
structure Alike (left right : Schema) : Prop where
  tables : ∀ key, Option.Rel SameEntries (left.tables.get? key) (right.tables.get? key)
  enums : left.enums = right.enums
  extensions : left.extensions = right.extensions

namespace Alike

section Option

variable {first second third : Option Table}

theorem rel_refl (found : Option Table) : Option.Rel SameEntries found found := by
  cases found with
  | none => exact .none
  | some table => exact .some (.refl table)

theorem rel_trans (hfirst : Option.Rel SameEntries first second)
    (hsecond : Option.Rel SameEntries second third) : Option.Rel SameEntries first third := by
  cases hfirst with
  | none => exact hsecond
  | some hfirst =>
    cases hsecond with
    | some hsecond => exact .some (hfirst.trans hsecond)

theorem rel_map {change other : Table → Table} (hrel : Option.Rel SameEntries first second)
    (hchange : ∀ {left right : Table}, left.SameEntries right →
      (change left).SameEntries (other right)) :
    Option.Rel SameEntries (first.map change) (second.map other) := by
  cases hrel with
  | none => exact .none
  | some hsame => exact .some (hchange hsame)

theorem rel_beq (hrel : Option.Rel SameEntries first second) : (first == second) = true := by
  cases hrel with
  | none => rfl
  | some hsame => exact hsame.beq

end Option

variable {left right other schema : Schema} {name : String} {edits : Table → List Edit}

theorem refl (schema : Schema) : Alike schema schema := ⟨fun _ => rel_refl _, rfl, rfl⟩

theorem trans (hleft : Alike left right) (hright : Alike right other) : Alike left other where
  tables key := rel_trans (hleft.tables key) (hright.tables key)
  enums := hleft.enums.trans hright.enums
  extensions := hleft.extensions.trans hright.extensions

theorem beq (halike : Alike left right) : (left == right) = true := by
  refine (Schema.beq_iff left right).2
    ⟨(Keyed.beq_iff_get? _ _).2 fun key => rel_beq (halike.tables key), ?_, ?_⟩
  · rw [halike.enums]
    exact beq_self_eq_true _
  · rw [halike.extensions]
    exact beq_self_eq_true _

theorem addTable (halike : Alike left right) {table other : Table}
    (hsame : table.SameEntries other) : Alike (left.addTable table) (right.addTable other) := by
  refine ⟨fun key => ?_, halike.enums, halike.extensions⟩
  rw [Schema.addTable, Schema.addTable, Keyed.get?_insert, Keyed.get?_insert, hsame.name]
  split
  · exact .some hsame
  · exact halike.tables key

theorem editTable (halike : Alike left right)
    (hedits : ∀ {table other : Table}, table.SameEntries other → edits table = edits other) :
    Alike (editTable left name edits) (editTable right name edits) := by
  refine ⟨fun key => ?_, halike.enums, halike.extensions⟩
  rw [SchemaRb.editTable, SchemaRb.editTable, Keyed.get?_update, Keyed.get?_update]
  split
  · refine rel_map (halike.tables key) fun hsame => ?_
    rw [hedits hsame]
    exact hsame.edited
  · exact halike.tables key

/-- Defining the same in alike schemas keeps them alike. -/
theorem define (halike : Alike left right) (call : Call) :
    Alike (call.define left) (call.define right) := by
  rw [Call.define, Call.define]
  split
  · cases call.argumentText? 0 with
    | none => exact halike
    | some name =>
      refine ⟨halike.tables, halike.enums, ?_⟩
      rw [Option.elim_some, Option.elim_some, Schema.addExtension, Schema.addExtension,
        halike.extensions]
  · cases call.argumentText? 0 with
    | none => exact halike
    | some name =>
      refine ⟨halike.tables, ?_, halike.extensions⟩
      rw [Option.elim_some, Option.elim_some, Schema.addEnum, Schema.addEnum, halike.enums]
  · exact halike

/-- An item does the same to schemas that are alike. -/
theorem addTo (halike : Alike left right) (item : Item) :
    Alike (item.addTo left) (item.addTo right) := by
  cases item with
  | table name receiver call body => exact halike.addTable (.refl _)
  | outside call =>
    rw [addTo_outside, addTo_outside]
    cases hchange : call.change? with
    | none => exact halike.define call
    | some change =>
      exact halike.editTable fun hsame => Call.change?_congr hchange (.of_sameEntries hsame)

theorem foldl_addTo (halike : Alike left right) (items : List Item) :
    Alike (items.foldl Item.addTo left) (items.foldl Item.addTo right) := by
  induction items generalizing left right with
  | nil => exact halike
  | cons item more ih => exact ih (halike.addTo item)

end Alike

/-! ## Outlines -/

/-- The table that starts at a place, if it has a name and its block has an end. -/
def tableAt? (lexemes : List Lexeme) : Option Item :=
  let (call, rest) := Call.read lexemes
  (call.argumentText? 0).bind fun name =>
    if isWord "do" rest then
      let (receiver, inside) := blockReceiver rest.tail
      match repeatedly (blockStep receiver) [] inside with
      | .ok (body, _) => some (.table name receiver call body)
      | .error _ => none
    else some (.table name "t" call [])

/-- The item that starts at a place of a file, if there is one. -/
def itemAt? (lexemes : List Lexeme) : Option Item :=
  match lexemes with
  | [] => none
  | lexeme :: _ =>
    match lexeme.token with
    | .word name =>
      if !lexeme.startsLine then none
      else if name == "create_table" then tableAt? lexemes
      else if topLevelCalls.contains name then some (.outside (Call.read lexemes).1)
      else none
    | _ => none

/-- The next item of a file; it is found in the same way whatever has been defined. -/
def itemStep (items : List Item) (lexemes : List Lexeme) :
    Except Empty (Turn (List Item) × List Lexeme) :=
  (fileStep ⟨.empty, []⟩ lexemes).map
    (Prod.map (Turn.map fun _ => items ++ (itemAt? lexemes).toList) id)

/-- The items of a file, without their lines. -/
def outline (text : String) : List Item :=
  match repeatedly itemStep [] (Lexeme.ofText text) with
  | .ok (items, _) => items.map Item.unplaced

/-- What a table adds to the schema is the item at its place, whatever was there before. -/
theorem readTable_eq (state : Import) (lexemes : List Lexeme) :
    (readTable state lexemes).1.schema =
        (tableAt? lexemes).toList.foldl Item.addTo state.schema ∧
      (readTable state lexemes).2 = (readTable ⟨.empty, []⟩ lexemes).2 := by
  rw [readTable, readTable, tableAt?]
  dsimp only
  cases (Call.read lexemes).1.argumentText? 0 with
  | none => exact ⟨rfl, rfl⟩
  | some name =>
    by_cases hdo : isWord "do" (Call.read lexemes).2 = true
    · simp only [hdo, if_true, Option.bind_some]
      cases repeatedly (blockStep (blockReceiver (Call.read lexemes).2.tail).1) []
        (blockReceiver (Call.read lexemes).2.tail).2 <;> exact ⟨rfl, rfl⟩
    · simp only [hdo, Bool.false_eq_true, if_false, Option.bind_some, and_true]
      rfl

/-- A turn does to the schema what its item does, and leaves the same in every state. -/
theorem fileStep_schema (state : Import) (lexemes : List Lexeme) :
    (fileStep state lexemes).map (Prod.map (Turn.map Import.schema) id) =
      (fileStep ⟨.empty, []⟩ lexemes).map (Prod.map
        (Turn.map fun _ => (itemAt? lexemes).toList.foldl Item.addTo state.schema) id) := by
  cases lexemes with
  | nil => rfl
  | cons lexeme rest =>
    obtain ⟨token, line, startsLine⟩ := lexeme
    cases token with
    | word name =>
      -- Only a word that is the first of its line can start an item.
      cases startsLine with
      | false => rfl
      | true =>
        by_cases htable : name == "create_table"
        · obtain ⟨hschema, hrest⟩ := readTable_eq state (⟨.word name, line, true⟩ :: rest)
          simp only [fileStep, itemAt?, htable, if_true, Bool.not_true, Bool.false_eq_true,
            if_false, Except.map, Prod.map, Turn.map, hschema, hrest]
        · by_cases hcall : topLevelCalls.contains name
          · simp only [fileStep, itemAt?, htable, hcall, if_true, Bool.not_true,
              Bool.false_eq_true, if_false, Except.map, Prod.map, Turn.map, Option.toList,
              List.foldl_cons, List.foldl_nil, Item.addTo]
            cases addToSchema state.schema _ <;> rfl
          · simp only [fileStep, itemAt?, htable, hcall, Bool.not_true, Bool.false_eq_true,
              if_false]
            rfl
    | _ => rfl

/-- What an item adds does not depend on its lines. -/
theorem addTo_unplaced (schema : Schema) (item : Item) :
    item.unplaced.addTo schema = item.addTo schema := by
  cases item with
  | table name receiver call body =>
    have hedits (table : Table) (calls : List Call) :
        blockEdits (calls.map Call.unplaced) table = blockEdits calls table := by
      induction calls generalizing table with
      | nil => rfl
      | cons call more ih => exact congrArg (call.edits table ++ ·) (ih _)
    change schema.addTable _ = schema.addTable _
    rw [tableOf_eq_edited, tableOf_eq_edited, tableEdits, hedits]
    rfl
  | outside call =>
    rw [Item.unplaced, addTo_outside, addTo_outside]
    rfl

/-- The next item of a file, where only the schema is kept. -/
def schemaStep (schema : Schema) (lexemes : List Lexeme) :
    Except Empty (Turn Schema × List Lexeme) :=
  (fileStep ⟨.empty, []⟩ lexemes).map
    (Prod.map (Turn.map fun _ => (itemAt? lexemes).toList.foldl Item.addTo schema) id)

theorem schemaStep_foldl (items : List Item) (lexemes : List Lexeme) :
    schemaStep (items.foldl Item.addTo .empty) lexemes =
      (itemStep items lexemes).map
        (Prod.map (Turn.map fun found => found.foldl Item.addTo .empty) id) := by
  simp only [schemaStep, itemStep]
  rcases fileStep ⟨.empty, []⟩ lexemes with fault | ⟨_ | _, after⟩
  · cases fault
  all_goals simp only [Except.map, Prod.map, Turn.map, List.foldl_append, id_eq]

/-- A file defines what its items do, one after the other. -/
theorem schema_ofSchemaRb (text : String) :
    (Schema.ofSchemaRb text).schema = (outline text).foldl Item.addTo .empty := by
  have hschema : repeatedly schemaStep .empty (Lexeme.ofText text) =
      (repeatedly fileStep ⟨.empty, []⟩ (Lexeme.ofText text)).map (Prod.map Import.schema id) :=
    repeatedly_map Import.schema (fun state rest => (fileStep_schema state rest).symm)
      ⟨.empty, []⟩ _
  have hitems : repeatedly schemaStep .empty (Lexeme.ofText text) =
      (repeatedly itemStep [] (Lexeme.ofText text)).map
        (Prod.map (fun items => items.foldl Item.addTo .empty) id) :=
    repeatedly_map (fun items => items.foldl Item.addTo .empty) schemaStep_foldl [] _
  have hunplaced (items : List Item) (schema : Schema) :
      (items.map Item.unplaced).foldl Item.addTo schema = items.foldl Item.addTo schema := by
    rw [List.foldl_map]
    simp only [addTo_unplaced]
  have hsame := hschema.symm.trans hitems
  rw [Schema.ofSchemaRb, outline]
  revert hsame
  rcases repeatedly fileStep ⟨.empty, []⟩ (Lexeme.ofText text) with fault | ⟨state, after⟩
  · cases fault
  rcases repeatedly itemStep [] (Lexeme.ofText text) with fault | ⟨items, after⟩
  · cases fault
  intro hsame
  exact (congrArg Prod.fst (Except.ok.inj hsame)).trans (hunplaced items .empty).symm

theorem outline_eq {text : String} {items : List Item} {left : List Lexeme}
    (hread : repeatedly itemStep [] (Lexeme.ofText text) = .ok (items, left)) :
    outline text = items.map Item.unplaced := by
  rw [outline, hread]

end SchemaEvolution.SchemaRb
