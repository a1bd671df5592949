import SchemaEvolution.Patch.Apply
import SchemaEvolution.Patch.Diff
import SchemaEvolution.Sql.Statement

/-!
# Migrations

A patch becomes a script that carries it out on a database.  Foreign keys are added at the
end, when every table is there.  What has no statement is reported and left out.
-/

namespace SchemaEvolution.Sql

open Patch (Edit Operation TableEdit ColumnEdit IndexEdit ConstraintEdit EnumEdit ExtensionEdit
  ListEdit)

/-- Why an edit has no statement. -/
inductive NoStatement where
  | columnCheck
  | indexGone
  | constraintGone
  | enumValueDropped
  | enumValueEdited
  | extensionCleared
  deriving DecidableEq, Repr

def NoStatement.message : NoStatement → String
  | .columnCheck => "column checks are migrated through their CHECK constraint"
  | .indexGone => "index does not exist after migration"
  | .constraintGone => "constraint does not exist after migration"
  | .enumValueDropped => "enum values cannot be dropped"
  | .enumValueEdited => "enum values cannot be dropped or replaced"
  | .extensionCleared => "extension setting cannot be cleared"

inductive MigrationError where
  | refused (refusal : Patch.Refusal)
  | unsupported (path : String) (reason : NoStatement)

def MigrationError.message : MigrationError → String
  | .refused refusal => refusal.message
  | .unsupported path reason => "cannot deparse " ++ Text.quoted path ++ ": " ++ reason.message

/-- The schemas before and after the whole patch. -/
structure Span where
  before : Schema
  after : Schema

/-- Whether the schema before has an entry of a table. -/
def Span.had {α : Type} (span : Span) (entries : Table → Keyed α) (table name : String) : Bool :=
  (span.before.tables.get? table).any fun owner => (entries owner).contains name

def onlyIf (condition : Bool) (statement : Statement) : List Statement :=
  if condition then [statement] else []

def columnStatements (table name : String) : ColumnEdit → Except NoStatement (List Statement)
  | .rename target => .ok [.alterTable table (.renameColumn name target)]
  | .type new => .ok [.alterTable table (.setType name new)]
  | .notNull true => .ok [.alterTable table (.setNotNull name)]
  | .notNull false => .ok [.alterTable table (.dropNotNull name)]
  | .default (some new) => .ok [.alterTable table (.setDefault name new)]
  | .default none => .ok [.alterTable table (.dropDefault name)]
  | .comment text => .ok [.comment (.column table name) text]
  | .check _ => .error .columnCheck

/-- Drops an index and creates it as it is after the patch. -/
def recreateIndex (span : Span) (table name : String) : Except NoStatement (List Statement) :=
  match (span.after.tables.get? table).bind fun owner => owner.indexes.get? name with
  | some index => .ok [.dropIndex name, .createIndex table index]
  | none => .error .indexGone

/-- Drops a constraint and adds it as it is after the patch. -/
def recreateConstraint (span : Span) (table name : String) :
    Except NoStatement (List Statement) :=
  match (span.after.tables.get? table).bind fun owner => owner.constraints.get? name with
  | some constraint =>
    .ok [.alterTable table (.dropConstraint name), addConstraint table constraint]
  | none => .error .constraintGone

def tableStatements (span : Span) (table : String) : TableEdit → Except NoStatement (List Statement)
  | .rename target => .ok [.alterTable table (.rename target)]
  | .comment text => .ok [.comment (.table table) text]
  | .putColumn name column =>
    .ok <| onlyIf (span.had Table.columns table name) (.alterTable table (.dropColumn name)) ++
      .alterTable table (.addColumn column) ::
      match column.comment with
      | some text => [.comment (.column table name) (some text)]
      | none => []
  | .removeColumn name => .ok [.alterTable table (.dropColumn name)]
  | .column name edit => columnStatements table name edit
  | .putIndex name index =>
    .ok <| onlyIf (span.had Table.indexes table name) (.dropIndex name) ++
      [.createIndex table index]
  | .removeIndex name => .ok [.dropIndex name]
  | .index name (.rename target) => .ok [.renameIndex name target]
  | .index name _ => recreateIndex span table name
  | .putConstraint name constraint =>
    let replaced := span.had Table.constraints table name
    .ok (onlyIf replaced (.alterTable table (.dropConstraint name)) ++
      [addConstraint table constraint])
  | .removeConstraint name => .ok [.alterTable table (.dropConstraint name)]
  | .constraint name (.rename target) => .ok [.alterTable table (.renameConstraint name target)]
  | .constraint name _ => recreateConstraint span table name

def enumStatements (span : Span) (name : String) : EnumEdit → Except NoStatement (List Statement)
  | .rename target => .ok [.renameType name target]
  | .values new =>
    let old := match span.before.enums.get? name with
      | some type => type.values
      | none => []
    if old.all new.contains then
      .ok ((new.filter fun value => !old.contains value).map (.addEnumValue name))
    else .error .enumValueDropped
  | .comment text => .ok [.comment (.enumType name) text]
  | .item (.insert _ value) => .ok [.addEnumValue name value]
  | .item _ => .error .enumValueEdited

def extensionStatements (name : String) : ExtensionEdit → Except NoStatement (List Statement)
  | .version (some version) => .ok [.updateExtension name version]
  | .schema (some schema) => .ok [.moveExtension name schema]
  | .comment text => .ok [.comment (.extension name) text]
  | .version none | .schema none => .error .extensionCleared

/-- The statements of a table that is put in its place: itself, its indexes and its constraints. -/
def putTableStatements (name : String) (table : Table) : List Statement :=
  .createTable table :: table.indexes.values.map (.createIndex name) ++
    (table.constraints.values.filter fun constraint => !table.isInline constraint).map
      (addConstraint name)

def editStatements (span : Span) : Edit → Except NoStatement (List Statement)
  | .putTable name table =>
    let replaced := span.before.tables.contains name
    .ok (onlyIf replaced (.dropTable name) ++ putTableStatements name table)
  | .removeTable name => .ok [.dropTable name]
  | .table name edit => tableStatements span name edit
  | .putEnum name type =>
    .ok (onlyIf (span.before.enums.contains name) (.dropType name) ++ [.createEnum type])
  | .removeEnum name => .ok [.dropType name]
  | .enumType name edit => enumStatements span name edit
  | .putExtension name extension =>
    .ok (onlyIf (span.before.extensions.contains name) (.dropExtension name) ++
      [.createExtension extension])
  | .removeExtension name => .ok [.dropExtension name]
  | .extension name edit => extensionStatements name edit
  | .hint => .ok []

def operationStatements (span : Span) (op : Operation) : Except MigrationError (List Statement) :=
  match op.edit with
  | .error obstacle => .error (.refused ⟨op.path, obstacle⟩)
  | .ok edit => (editStatements span edit).mapError (.unsupported op.path)

/-- Whether a statement adds a foreign key, which has to wait for every table. -/
def Statement.isForeignKey : Statement → Bool
  | .alterTable _ (.addConstraint ⟨_, .foreignKey _⟩) => true
  | _ => false

/-- A script, and what could not be part of it. -/
structure Migration where
  statements : List Statement
  errors : List MigrationError

/-- The migration of a patch; statements that add foreign keys come last. -/
def migration (before : Schema) (ops : List Operation) : Migration :=
  let span : Span := ⟨before, (Patch.applyAll before ops).schema⟩
  let results := ops.map (operationStatements span)
  let statements := results.flatMap fun
    | .ok statements => statements
    | .error _ => []
  let (deferred, immediate) := statements.partition Statement.isForeignKey
  { statements := immediate ++ deferred
    errors := results.filterMap fun
      | .ok _ => none
      | .error error => some error }

def migrationBetween (before after : Schema) : Migration :=
  migration before (Patch.diff before after)

def Migration.script (m : Migration) : String := Sql.script m.statements

def Migration.messages (m : Migration) : List String := m.errors.map MigrationError.message

end SchemaEvolution.Sql
