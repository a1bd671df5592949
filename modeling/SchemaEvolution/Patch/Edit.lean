import SchemaEvolution.Patch.Refusal
import SchemaEvolution.Schema.Document

/-!
# Edits

An edit is an operation that was understood: its path is read and its value decoded to
what the path leads to.  Adding and replacing an entry both put it there; adding a field
replaces it; only in lists do the two differ.
-/

namespace SchemaEvolution.Patch

open Json (Shape)

inductive ListEdit where
  | insert (position : Position) (value : String)
  | remove (index : Nat)
  | replace (index : Nat) (value : String)
  deriving DecidableEq

inductive ColumnEdit where
  | rename (name : String)
  | type (type : String)
  | default (default : Option DefaultValue)
  | check (check : Option String)
  | notNull (notNull : Bool)
  | comment (comment : Option String)
  deriving DecidableEq

inductive IndexEdit where
  | rename (name : String)
  | unique (unique : Bool)
  | type (type : String)
  | columns (columns : List String)
  | item (edit : ListEdit)
  deriving DecidableEq

inductive ConstraintEdit where
  | rename (name : String)
  | onUpdate (action : ForeignKeyAction)
  | onDelete (action : ForeignKeyAction)
  | condition (condition : String)
  | targetTable (table : String)
  | columns (columns : List String)
  | targetColumns (columns : List String)
  | item (list : ConstraintList) (edit : ListEdit)
  deriving DecidableEq

inductive TableEdit where
  | rename (name : String)
  | comment (comment : Option String)
  | putColumn (name : String) (column : Column)
  | removeColumn (name : String)
  | column (name : String) (edit : ColumnEdit)
  | putIndex (name : String) (index : Index)
  | removeIndex (name : String)
  | index (name : String) (edit : IndexEdit)
  | putConstraint (name : String) (constraint : Constraint)
  | removeConstraint (name : String)
  | constraint (name : String) (edit : ConstraintEdit)
  deriving DecidableEq

inductive EnumEdit where
  | rename (name : String)
  | values (values : List String)
  | comment (comment : Option String)
  | item (edit : ListEdit)
  deriving DecidableEq

inductive ExtensionEdit where
  | schema (schema : Option String)
  | version (version : Option String)
  | comment (comment : Option String)
  deriving DecidableEq

inductive Edit where
  | putTable (name : String) (table : Table)
  | removeTable (name : String)
  | table (name : String) (edit : TableEdit)
  | putEnum (name : String) (type : EnumType)
  | removeEnum (name : String)
  | enumType (name : String) (edit : EnumEdit)
  | putExtension (name : String) (extension : Extension)
  | removeExtension (name : String)
  | extension (name : String) (edit : ExtensionEdit)
  /-- A migration hint, which changes nothing. -/
  | hint
  deriving DecidableEq

/-! ## Understanding operations -/

def decodeAs {α : Type} (shape : Shape α) (value : Json) : Except Obstacle α :=
  (shape.decode .document value).mapError fun fault => .value (.undecodable fault)

def Operation.requires {α : Type} (op : Operation) (field : String) : Except Obstacle α :=
  .error (.path op.verb (.required field))

/-- The index of a position that must name an item. -/
def Operation.indexOf (op : Operation) : Position → Except Obstacle Nat
  | .at index => .ok index
  | .atEnd => .error (.path op.verb .endOnlyForAdd)

def Operation.listEdit (op : Operation) (position : Position) : Except Obstacle ListEdit :=
  match op.action with
  | .add value => return .insert position (← decodeAs .text value)
  | .remove => return .remove (← op.indexOf position)
  | .replace value => do
    let index ← op.indexOf position
    return .replace index (← decodeAs .text value)

def optionalTextShape : Shape (Option String) := .optional .text

def textsShape : Shape (List String) := .list .text

def Operation.columnEdit (op : Operation) (name : String) : ColumnSpot → Except Obstacle TableEdit
  | .whole =>
    match op.value? with
    | none => .ok (.removeColumn name)
    | some value => do
      let column ← decodeAs Column.shape value
      return .putColumn name { column with name }
  | .field field => do
    let edit : ColumnEdit ← match op.value?, field with
      | none, .name => op.requires "name"
      | none, .type => op.requires "type"
      | none, .default => .ok (.default none)
      | none, .check => .ok (.check none)
      | none, .notNull => .ok (.notNull false)
      | none, .comment => .ok (.comment none)
      | some value, .name => (decodeAs .text value).map .rename
      | some value, .type => (decodeAs .text value).map .type
      | some value, .default => (decodeAs (.optional DefaultValue.shape) value).map .default
      | some value, .check => (decodeAs optionalTextShape value).map .check
      | some value, .notNull => (decodeAs .flag value).map .notNull
      | some value, .comment => (decodeAs optionalTextShape value).map .comment
    return .column name edit

def Operation.indexEdit (op : Operation) (name : String) : IndexSpot → Except Obstacle TableEdit
  | .whole =>
    match op.value? with
    | none => .ok (.removeIndex name)
    | some value => do
      let index ← decodeAs Index.shape value
      return .putIndex name { index with name }
  | .field field => do
    let edit : IndexEdit ← match op.value?, field with
      | none, field => op.requires field.label
      | some value, .name => (decodeAs .text value).map .rename
      | some value, .unique => (decodeAs .flag value).map .unique
      | some value, .type => (decodeAs .text value).map .type
      | some value, .columns => (decodeAs textsShape value).map .columns
    return .index name edit
  | .item position => return .index name (.item (← op.listEdit position))

def Operation.constraintEdit (op : Operation) (name : String) :
    ConstraintSpot → Except Obstacle TableEdit
  | .whole =>
    match op.value? with
    | none => .ok (.removeConstraint name)
    | some value => do
      let constraint ← decodeAs Constraint.shape value
      return .putConstraint name { constraint with name }
  | .field field => do
    let edit : ConstraintEdit ← match op.value?, field with
      | none, _ => op.requires "constraint field"
      | some value, .name => (decodeAs .text value).map .rename
      | some value, .onUpdate => (decodeAs ForeignKeyAction.shape value).map .onUpdate
      | some value, .onDelete => (decodeAs ForeignKeyAction.shape value).map .onDelete
      | some value, .condition => (decodeAs .text value).map .condition
      | some value, .targetTable => (decodeAs .text value).map .targetTable
      | some value, .columns => (decodeAs textsShape value).map .columns
      | some value, .targetColumns => (decodeAs textsShape value).map .targetColumns
    return .constraint name edit
  | .item list position => return .constraint name (.item list (← op.listEdit position))

def Operation.tableEdit (op : Operation) (name : String) : TableSpot → Except Obstacle Edit
  | .whole =>
    match op.value? with
    | none => .ok (.removeTable name)
    | some value => do
      let table ← decodeAs Table.shape value
      return .putTable name { table with name }
  | .field field => do
    let edit : TableEdit ← match op.value?, field with
      | none, .name => op.requires "name"
      | none, .comment => .ok (.comment none)
      | some value, .name => (decodeAs .text value).map .rename
      | some value, .comment => (decodeAs optionalTextShape value).map .comment
    return .table name edit
  | .column column spot => (op.columnEdit column spot).map (.table name)
  | .index index spot => (op.indexEdit index spot).map (.table name)
  | .constraint constraint spot => (op.constraintEdit constraint spot).map (.table name)

def Operation.enumEdit (op : Operation) (name : String) : EnumSpot → Except Obstacle Edit
  | .whole =>
    match op.value? with
    | none => .ok (.removeEnum name)
    | some value => do
      let type ← decodeAs EnumType.shape value
      return .putEnum name { type with name }
  | .field field => do
    let edit : EnumEdit ← match op.value?, field with
      | none, .comment => .ok (.comment none)
      | none, _ => op.requires "enum field"
      | some value, .name => (decodeAs .text value).map .rename
      | some value, .values => (decodeAs textsShape value).map .values
      | some value, .comment => (decodeAs optionalTextShape value).map .comment
    return .enumType name edit
  | .item position => return .enumType name (.item (← op.listEdit position))

def Operation.extensionEdit (op : Operation) (name : String) : ExtensionSpot → Except Obstacle Edit
  | .whole =>
    match op.value? with
    | none => .ok (.removeExtension name)
    | some value => do
      let extension ← decodeAs Extension.shape value
      return .putExtension name { extension with name }
  | .field field =>
    let text : Except Obstacle (Option String) :=
      match op.value? with
      | none => .ok none
      | some value => decodeAs optionalTextShape value
    match field with
    | .schema => return .extension name (.schema (← text))
    | .version => return .extension name (.version (← text))
    | .comment => return .extension name (.comment (← text))
    | .fromVersion | .ifNotExists | .cascade => .ok .hint

def Operation.edit (op : Operation) : Except Obstacle Edit :=
  match Path.parse op.path with
  | .error fault => .error (.path op.verb (.unreadable fault))
  | .ok (.table name spot) => op.tableEdit name spot
  | .ok (.enumType name spot) => op.enumEdit name spot
  | .ok (.extension name spot) => op.extensionEdit name spot

end SchemaEvolution.Patch
