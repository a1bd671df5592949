import Mathlib.Data.List.Flatten
import SchemaEvolution.Proofs.Patch.Acceptance
import SchemaEvolution.Proofs.Sql.Replay

/-!
# What an operation contributes to a migration

An operation contributes statements to the script of a migration, or an error, or nothing.  Which
of the three depends on its edit and on the schemas before and after the whole patch.  It does not
depend on whether the tolerant run accepts the operation, so that refused operations may
contribute statements as well.
-/

namespace SchemaEvolution.Sql

open Patch (Edit Operation Refusal ColumnEdit IndexEdit ConstraintEdit EnumEdit ExtensionEdit
  TableEdit applyAll accepted)

def Span.indexAfter (span : Span) (table name : String) : Option Index :=
  (span.after.tables.get? table).bind fun owner => owner.indexes.get? name

/-- The values of an enumerated type before the patch; none for a type that is not there. -/
def Span.valuesBefore (span : Span) (name : String) : List String :=
  match span.before.enums.get? name with
  | some type => type.values
  | none => []

/-- The edit is not expressible, for what the schemas before and after are. -/
def Unsupported (span : Span) : Edit → Prop
  | .table _ (.column _ edit) => edit.field = .check
  | .table table (.index name edit) =>
    edit.spot ≠ .field .name ∧ span.indexAfter table name = none
  | .table table (.constraint name edit) =>
    edit.spot ≠ .field .name ∧ span.after.constraint? table name = none
  | .enumType name (.values new) => ∃ value ∈ span.valuesBefore name, value ∉ new
  | .enumType _ (.item edit) => ∀ position value, edit ≠ .insert position value
  | .extension _ edit => edit = .version none ∨ edit = .schema none
  | _ => False

/-- The edit gives no statement and no error: it is a hint, or it gives an enumerated type the
members that the type had before. -/
def Silent (span : Span) : Edit → Prop
  | .enumType name (.values new) => ∀ value, value ∈ span.valuesBefore name ↔ value ∈ new
  | .hint => True
  | _ => False

/-- An edit has an error when it is unsupported, and otherwise statements, which are none when it
is silent. -/
structure Traced (span : Span) (edit : Edit) (result : Except NoStatement (List Statement)) :
    Prop where
  error_iff : (∃ reason, result = .error reason) ↔ Unsupported span edit
  ok_nil_iff : result = .ok [] ↔ Silent span edit

namespace Traced

variable {span : Span} {edit : Edit}

theorem of_error {reason : NoStatement} (hunsupported : Unsupported span edit)
    (hnoisy : ¬Silent span edit) : Traced span edit (.error reason) :=
  ⟨⟨fun _ => hunsupported, fun _ => ⟨reason, rfl⟩⟩, ⟨nofun, fun hsilent => absurd hsilent hnoisy⟩⟩

theorem of_statement {statements : List Statement} (hstatements : statements ≠ [])
    (hsupported : ¬Unsupported span edit) (hnoisy : ¬Silent span edit) :
    Traced span edit (.ok statements) :=
  ⟨⟨nofun, fun hunsupported => absurd hunsupported hsupported⟩,
    ⟨fun heq => absurd (Except.ok.inj heq) hstatements, fun hsilent => absurd hsilent hnoisy⟩⟩

end Traced

section Edits

variable (span : Span) (table name : String)

theorem columnStatements_traced (edit : ColumnEdit) :
    Traced span (.table table (.column name edit)) (columnStatements table name edit) := by
  cases edit with
  | check => exact .of_error rfl nofun
  | notNull flag => cases flag <;> exact .of_statement (by simp) nofun nofun
  | default value => cases value <;> exact .of_statement (by simp) nofun nofun
  | rename | type | comment => exact .of_statement (by simp) nofun nofun

/-- An index that is made anew has an error where that is unsupported, and nothing where it is
silent. -/
theorem recreateIndex_traced {edit : IndexEdit} (hspot : edit.spot ≠ .field .name) :
    Traced span (.table table (.index name edit)) (recreateIndex span table name) := by
  cases hindex : span.indexAfter table name with
  | none =>
    have herror : recreateIndex span table name = .error .indexGone := by
      rw [Span.indexAfter] at hindex
      rw [recreateIndex, hindex]
    rw [herror]
    exact .of_error ⟨hspot, hindex⟩ id
  | some index =>
    have hok : recreateIndex span table name = .ok [.dropIndex name, .createIndex table index] := by
      rw [Span.indexAfter] at hindex
      rw [recreateIndex, hindex]
    rw [hok]
    refine .of_statement (by simp) (fun hunsupported => ?_) id
    cases hindex.symm.trans hunsupported.2

/-- A constraint that is made anew has an error where that is unsupported, and nothing where it is
silent. -/
theorem recreateConstraint_traced {edit : ConstraintEdit} (hspot : edit.spot ≠ .field .name) :
    Traced span (.table table (.constraint name edit)) (recreateConstraint span table name) := by
  cases hconstraint : span.after.constraint? table name with
  | none =>
    have herror : recreateConstraint span table name = .error .constraintGone := by
      rw [Schema.constraint?] at hconstraint
      rw [recreateConstraint, hconstraint]
    rw [herror]
    exact .of_error ⟨hspot, hconstraint⟩ id
  | some constraint =>
    rw [recreateConstraint_of_some hconstraint]
    refine .of_statement (by simp) (fun hunsupported => ?_) id
    cases hconstraint.symm.trans hunsupported.2

/-- Every edit of a table has an error where it is unsupported, and nothing where it is silent. -/
theorem tableStatements_traced (edit : TableEdit) :
    Traced span (.table table edit) (tableStatements span table edit) := by
  cases edit with
  | column name edit => exact columnStatements_traced span table name edit
  | index name edit =>
    cases edit with
    | rename target => exact .of_statement (by simp) (fun hunsupported => hunsupported.1 rfl) nofun
    | _ => exact recreateIndex_traced span table name nofun
  | constraint name edit =>
    cases edit with
    | rename target => exact .of_statement (by simp) (fun hunsupported => hunsupported.1 rfl) nofun
    | _ => exact recreateConstraint_traced span table name nofun
  | _ => exact .of_statement (by simp) nofun nofun

theorem filter_new_eq_nil_iff {old new : List String} :
    new.filter (fun value => !old.contains value) = [] ↔ ∀ value ∈ new, value ∈ old := by
  simp [List.filter_eq_nil_iff]

/-- New values for an enumerated type: dropped members are an error, and without new members there
is nothing to say. -/
theorem enumValues_traced (new : List String) :
    Traced span (.enumType name (.values new)) (enumStatements span name (.values new)) := by
  have hstatements : enumStatements span name (.values new) =
      if (span.valuesBefore name).all new.contains then
        .ok ((new.filter fun value => !(span.valuesBefore name).contains value).map
          (.addEnumValue name))
      else .error .enumValueDropped := rfl
  rw [hstatements]
  by_cases hkept : ∀ value ∈ span.valuesBefore name, value ∈ new
  · rw [if_pos (by simpa using hkept)]
    refine ⟨⟨nofun, ?_⟩, ?_⟩
    · rintro ⟨value, hmem, hdropped⟩
      exact absurd (hkept value hmem) hdropped
    · rw [Except.ok.injEq, List.map_eq_nil_iff, filter_new_eq_nil_iff]
      exact ⟨fun hold value => ⟨hkept value, hold value⟩, fun hsilent value => (hsilent value).2⟩
  · rw [if_neg (by simpa using hkept)]
    refine .of_error (by simpa [Unsupported] using hkept) ?_
    exact fun hsilent => hkept fun value => (hsilent value).1

theorem enumStatements_traced (edit : EnumEdit) :
    Traced span (.enumType name edit) (enumStatements span name edit) := by
  cases edit with
  | values new => exact enumValues_traced span name new
  | rename | comment => exact .of_statement (by simp) nofun nofun
  | item edit =>
    cases edit with
    | insert position value =>
      exact .of_statement (by simp) (fun hunsupported => hunsupported _ _ rfl) nofun
    | remove | replace => exact .of_error nofun nofun

/-- Every edit of an extension has an error where it is unsupported, and nothing where it is silent.
-/
theorem extensionStatements_traced (edit : ExtensionEdit) :
    Traced span (.extension name edit) (extensionStatements name edit) := by
  cases edit with
  | comment text => exact .of_statement (by simp) (by simp [Unsupported]) nofun
  | version text =>
    cases text with
    | none => exact .of_error (.inl rfl) nofun
    | some version => exact .of_statement (by simp) (by simp [Unsupported]) nofun
  | schema text =>
    cases text with
    | none => exact .of_error (.inr rfl) nofun
    | some schema => exact .of_statement (by simp) (by simp [Unsupported]) nofun

end Edits

/-- Every edit has statements, unless it is unsupported or silent. -/
theorem editStatements_traced (span : Span) (edit : Edit) :
    Traced span edit (editStatements span edit) := by
  cases edit with
  | table name edit => exact tableStatements_traced span name edit
  | enumType name edit => exact enumStatements_traced span name edit
  | extension name edit => exact extensionStatements_traced span name edit
  | hint => exact ⟨⟨nofun, nofun⟩, ⟨fun _ => trivial, fun _ => rfl⟩⟩
  | putTable => exact .of_statement (by simp [putTableStatements]) nofun nofun
  | _ => exact .of_statement (by simp) nofun nofun

section Operations

variable {span : Span} {op : Operation}

theorem operationStatements_of_edit {edit : Edit} (hedit : op.edit = .ok edit) :
    operationStatements span op = (editStatements span edit).mapError (.unsupported op.path) := by
  rw [operationStatements, hedit]

/-- An operation that is not understood is refused by every schema, and its refusal is reported. -/
theorem operationStatements_of_error {obstacle : Patch.Obstacle}
    (hedit : op.edit = .error obstacle) {schema : Schema} {refusal : Refusal}
    (hrefused : op.apply schema = .error refusal) :
    operationStatements span op = .error (.refused refusal) := by
  rw [Operation.apply, hedit] at hrefused
  rw [operationStatements, hedit]
  cases hrefused
  rfl

theorem operationStatements_error_iff :
    (∃ error, operationStatements span op = .error error) ↔
      ∀ edit, op.edit = .ok edit → Unsupported span edit := by
  cases hedit : op.edit with
  | error obstacle => simp [operationStatements, hedit]
  | ok edit =>
    have htraced := (editStatements_traced span edit).error_iff
    rw [operationStatements_of_edit hedit]
    cases hstatements : editStatements span edit <;> simp_all [Except.mapError]

theorem operationStatements_nil_iff :
    operationStatements span op = .ok [] ↔ ∃ edit, op.edit = .ok edit ∧ Silent span edit := by
  cases hedit : op.edit with
  | error obstacle => simp [operationStatements, hedit]
  | ok edit =>
    have htraced := (editStatements_traced span edit).ok_nil_iff
    rw [operationStatements_of_edit hedit]
    cases hstatements : editStatements span edit <;> simp_all [Except.mapError]

theorem statementsOf_eq_nil_iff :
    statementsOf span op = [] ↔
      ∀ edit, op.edit = .ok edit → Unsupported span edit ∨ Silent span edit := by
  have herror : (∃ error, operationStatements span op = .error error) ↔ _ :=
    operationStatements_error_iff
  have hnil : operationStatements span op = .ok [] ↔ _ := operationStatements_nil_iff
  rw [statementsOf]
  cases hedit : op.edit with
  | error obstacle => simp [operationStatements, hedit]
  | ok edit =>
    cases hstatements : operationStatements span op <;> simp_all

end Operations

def spanOf (before : Schema) (ops : List Operation) : Span := ⟨before, (applyAll before ops).schema⟩

section Migrations

variable {before : Schema} {ops : List Operation}

/-- The errors are those that some operation gives, none besides. -/
theorem mem_migration_errors {error : MigrationError} :
    error ∈ (migration before ops).errors ↔
      ∃ op ∈ ops, operationStatements (spanOf before ops) op = .error error := by
  change error ∈ (ops.map (operationStatements (spanOf before ops))).filterMap _ ↔ _
  rw [List.mem_filterMap]
  constructor
  · rintro ⟨result, hmem, hresult⟩
    obtain ⟨op, hop, rfl⟩ := List.mem_map.1 hmem
    cases hstatements : operationStatements (spanOf before ops) op with
    | ok statements => rw [hstatements] at hresult; cases hresult
    | error reason => rw [hstatements] at hresult; cases hresult; exact ⟨op, hop, hstatements⟩
  · rintro ⟨op, hop, herror⟩
    exact ⟨.error error, List.mem_map.2 ⟨op, hop, herror⟩, rfl⟩

/-- Nothing is reported exactly if every operation has statements. -/
theorem messages_migration_eq_nil_iff :
    (migration before ops).messages = [] ↔
      ∀ op ∈ ops, ∃ statements, operationStatements (spanOf before ops) op = .ok statements := by
  rw [Migration.messages, List.map_eq_nil_iff, List.eq_nil_iff_forall_not_mem]
  constructor
  · intro hnone op hop
    cases hstatements : operationStatements (spanOf before ops) op with
    | ok statements => exact ⟨statements, rfl⟩
    | error error => exact absurd (mem_migration_errors.2 ⟨op, hop, hstatements⟩) (hnone error)
  · intro hall error hmem
    obtain ⟨op, hop, herror⟩ := mem_migration_errors.1 hmem
    obtain ⟨statements, hstatements⟩ := hall op hop
    cases hstatements.symm.trans herror

theorem length_foreignKeysLast (statements : List Statement) :
    (foreignKeysLast statements).length = statements.length := by
  rw [foreignKeysLast, List.length_append, Nat.add_comm, ← List.length_append]
  exact (List.filter_append_perm Statement.isForeignKey statements).length_eq

theorem script_eq_empty_iff {statements : List Statement} :
    script statements = "" ↔ statements = [] := by
  rw [script]
  cases statements with
  | nil => simp
  | cons first rest => simp [String.append_eq_empty_iff]

/-- A migration says nothing and reports nothing when every operation contributes nothing. -/
theorem migration_silent_iff :
    (migration before ops).script = "" ∧ (migration before ops).messages = [] ↔
      ∀ op ∈ ops, operationStatements (spanOf before ops) op = .ok [] := by
  have hstatements : (migration before ops).statements = [] ↔
      ∀ op ∈ ops, statementsOf (spanOf before ops) op = [] := by
    rw [migration_statements, ← List.length_eq_zero_iff, length_foreignKeysLast,
      List.length_eq_zero_iff, List.flatMap_eq_nil_iff]
    rfl
  rw [Migration.script, script_eq_empty_iff, hstatements, messages_migration_eq_nil_iff]
  constructor
  · rintro ⟨hnone, hall⟩ op hop
    obtain ⟨statements, heq⟩ := hall op hop
    have hnil := hnone op hop
    rw [statementsOf, heq] at hnil
    exact heq.trans (congrArg Except.ok hnil)
  · intro hsilent
    refine ⟨fun op hop => ?_, fun op hop => ⟨[], hsilent op hop⟩⟩
    rw [statementsOf, hsilent op hop]

end Migrations

/-! ## Refused operations -/

/-- The tolerant run comes to the operation at a schema that refuses it. -/
def Refuses (schema : Schema) (ops : List Operation) (op : Operation) (refusal : Refusal) : Prop :=
  ∃ front back, ops = front ++ op :: back ∧
    op.apply (applyAll schema front).schema = .error refusal

section Refuses

variable {schema next : Schema} {first op : Operation} {rest : List Operation}
  {refusal reason : Refusal}

/-- After an operation that is accepted, the rest refuses what it refuses from the schema reached.
-/
theorem refuses_cons_of_ok (happly : first.apply schema = .ok next) :
    Refuses schema (first :: rest) op refusal ↔ Refuses next rest op refusal := by
  constructor
  · rintro ⟨_ | ⟨head, front⟩, back, heq, hrefused⟩
    · cases heq
      cases happly.symm.trans hrefused
    · cases heq
      rw [Patch.applyAll_cons_of_ok happly] at hrefused
      exact ⟨front, back, rfl, hrefused⟩
  · rintro ⟨front, back, rfl, hrefused⟩
    refine ⟨first :: front, back, rfl, ?_⟩
    rw [Patch.applyAll_cons_of_ok happly]
    exact hrefused

/-- Of an operation that is refused and the rest, it or the rest refuses, from the same schema. -/
theorem refuses_cons_of_error (happly : first.apply schema = .error reason) :
    Refuses schema (first :: rest) op refusal ↔
      (op = first ∧ refusal = reason) ∨ Refuses schema rest op refusal := by
  constructor
  · rintro ⟨_ | ⟨head, front⟩, back, heq, hrefused⟩
    · cases heq
      cases happly.symm.trans hrefused
      exact .inl ⟨rfl, rfl⟩
    · cases heq
      rw [Patch.applyAll_cons_of_error happly] at hrefused
      exact .inr ⟨front, back, rfl, hrefused⟩
  · rintro (⟨rfl, rfl⟩ | ⟨front, back, rfl, hrefused⟩)
    · exact ⟨[], rest, rfl, happly⟩
    · refine ⟨first :: front, back, rfl, ?_⟩
      rw [Patch.applyAll_cons_of_error happly]
      exact hrefused

theorem Refuses.mem (hrefuses : Refuses schema rest op refusal) : op ∈ rest := by
  obtain ⟨front, back, rfl, -⟩ := hrefuses
  simp

end Refuses

section Accepted

variable {β : Type} (f : Operation → List β)

/-- What the accepted operations give is what all operations give, when the refused ones give
nothing. -/
theorem flatMap_accepted {ops : List Operation} {schema : Schema}
    (hnone : ∀ op refusal, Refuses schema ops op refusal → f op = []) :
    (accepted schema ops).flatMap f = ops.flatMap f := by
  induction ops generalizing schema with
  | nil => rfl
  | cons first rest ih =>
    cases happly : first.apply schema with
    | ok next =>
      rw [Patch.accepted_cons_of_ok happly, List.flatMap_cons, List.flatMap_cons,
        ih fun op refusal hrefuses => hnone op refusal ((refuses_cons_of_ok happly).2 hrefuses)]
    | error reason =>
      rw [Patch.accepted_cons_of_error happly, List.flatMap_cons,
        hnone first reason ((refuses_cons_of_error happly).2 (.inl ⟨rfl, rfl⟩)), List.nil_append,
        ih fun op refusal hrefuses =>
          hnone op refusal ((refuses_cons_of_error happly).2 (.inr hrefuses))]

/-- The accepted operations give less than all operations as soon as a refused one gives
something. -/
theorem eq_nil_of_length_accepted {ops : List Operation} {schema : Schema}
    (hlength : ((accepted schema ops).flatMap f).length = (ops.flatMap f).length) {op : Operation}
    {refusal : Refusal} (hrefuses : Refuses schema ops op refusal) : f op = [] := by
  induction ops generalizing schema with
  | nil => cases hrefuses.mem
  | cons first rest ih =>
    cases happly : first.apply schema with
    | ok next =>
      rw [Patch.accepted_cons_of_ok happly, List.flatMap_cons, List.flatMap_cons,
        List.length_append, List.length_append, Nat.add_left_cancel_iff] at hlength
      exact ih hlength ((refuses_cons_of_ok happly).1 hrefuses)
    | error reason =>
      rw [Patch.accepted_cons_of_error happly, List.flatMap_cons, List.length_append] at hlength
      -- the rest gives no more than it does in full, so the refused operation has nothing to give
      have hle := ((Patch.accepted_sublist rest schema).flatMap f).length_le
      rcases (refuses_cons_of_error happly).1 hrefuses with ⟨rfl, -⟩ | hrest
      · exact List.length_eq_zero_iff.1 (by omega)
      · exact ih (by omega) hrest

end Accepted

/-- The statements of a migration come from the accepted operations alone exactly when every
refused one that is understood is unsupported or silent.  A refused operation is reported exactly
when it is unsupported or not understood, in the latter case with the refusal of the run. -/
theorem migration_accepted_iff (before : Schema) (ops : List Operation) :
    ((migration before ops).statements =
        foreignKeysLast ((accepted before ops).flatMap (statementsOf (spanOf before ops))) ↔
      ∀ op refusal, Refuses before ops op refusal → ∀ edit, op.edit = .ok edit →
        Unsupported (spanOf before ops) edit ∨ Silent (spanOf before ops) edit) ∧
    ∀ op refusal, Refuses before ops op refusal →
      ((∃ error ∈ (migration before ops).errors,
          operationStatements (spanOf before ops) op = .error error) ↔
        ∀ edit, op.edit = .ok edit → Unsupported (spanOf before ops) edit) ∧
      ((∀ edit, op.edit ≠ .ok edit) → .refused refusal ∈ (migration before ops).errors) := by
  refine ⟨⟨fun hsame op refusal hrefuses => ?_, fun hnone => ?_⟩, fun op refusal hrefuses => ?_⟩
  · refine statementsOf_eq_nil_iff.1 (eq_nil_of_length_accepted _ ?_ hrefuses)
    have hlength := congrArg List.length hsame
    rw [migration_statements, length_foreignKeysLast, length_foreignKeysLast] at hlength
    exact hlength.symm
  · rw [migration_statements]
    refine congrArg foreignKeysLast (flatMap_accepted _ fun op refusal hrefuses => ?_).symm
    exact statementsOf_eq_nil_iff.2 (hnone op refusal hrefuses)
  · constructor
    · rw [← operationStatements_error_iff]
      constructor
      · rintro ⟨error, -, herror⟩
        exact ⟨error, herror⟩
      · rintro ⟨error, herror⟩
        exact ⟨error, mem_migration_errors.2 ⟨op, hrefuses.mem, herror⟩, herror⟩
    · intro hunread
      obtain ⟨front, back, -, hrefused⟩ := id hrefuses
      cases hedit : op.edit with
      | ok edit => exact absurd hedit (hunread edit)
      | error obstacle =>
        exact mem_migration_errors.2
          ⟨op, hrefuses.mem, operationStatements_of_error hedit hrefused⟩

/-- A table that is not there is renamed: the run refuses it, the script has it. -/
theorem migration_rename_absent :
    ∃ op refusal, Refuses .empty [op] op refusal ∧
      (migration .empty [op]).statements = [.alterTable "t" (.rename "u")] ∧
      (migration .empty [op]).statements ≠
        foreignKeysLast ((accepted .empty [op]).flatMap (statementsOf (spanOf .empty [op]))) := by
  let edit : Edit := .table "t" (.rename "u")
  have hedit : edit.operation.edit = .ok edit := Edit.edit_operation ⟨⟨by decide, trivial⟩, trivial⟩
  have hrefuses : Refuses .empty [edit.operation] edit.operation
      ⟨edit.operation.path, .missing (.table "t")⟩ := by
    refine ⟨[], [], rfl, ?_⟩
    rw [Operation.apply, hedit]
    rfl
  refine ⟨edit.operation, _, hrefuses, ?_, fun hsame => ?_⟩
  · rw [migration_statements, List.flatMap_singleton, statementsOf, operationStatements, hedit]
    rfl
  · rcases (migration_accepted_iff .empty [edit.operation]).1.1 hsame _ _ hrefuses edit hedit with
      hunsupported | hsilent
    · exact hunsupported
    · exact hsilent

end SchemaEvolution.Sql
