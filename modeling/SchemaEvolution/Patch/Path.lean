import SchemaEvolution.Numeral.Reader
import SchemaEvolution.Text.Quoted
import SchemaEvolution.Text.Search

/-!
# Paths into a schema

A path names a table, an enumerated type or an extension and a spot inside it.  Its text is
a list of segments, each after a slash; a tilde and a slash inside a segment are escaped.
-/

namespace SchemaEvolution.Patch

inductive TableField where
  | name
  | comment
  deriving DecidableEq, Repr

inductive ColumnField where
  | name
  | type
  | default
  | check
  | notNull
  | comment
  deriving DecidableEq, Repr

inductive IndexField where
  | name
  | unique
  | type
  | columns
  deriving DecidableEq, Repr

inductive ConstraintField where
  | name
  | onUpdate
  | onDelete
  | condition
  | targetTable
  | columns
  | targetColumns
  deriving DecidableEq, Repr

/-- The lists of columns that a constraint may have. -/
inductive ConstraintList where
  | columns
  | targetColumns
  deriving DecidableEq, Repr

inductive EnumField where
  | name
  | values
  | comment
  deriving DecidableEq, Repr

/-- The last three are hints for a migration, which a schema does not keep. -/
inductive ExtensionField where
  | schema
  | version
  | comment
  | fromVersion
  | ifNotExists
  | cascade
  deriving DecidableEq, Repr

/-- A position in a list: before the item with an index, or after the last item. -/
inductive Position where
  | at (index : Nat)
  | atEnd
  deriving DecidableEq, Repr

inductive ColumnSpot where
  | whole
  | field (field : ColumnField)
  deriving DecidableEq, Repr

inductive IndexSpot where
  | whole
  | field (field : IndexField)
  | item (position : Position)
  deriving DecidableEq, Repr

inductive ConstraintSpot where
  | whole
  | field (field : ConstraintField)
  | item (list : ConstraintList) (position : Position)
  deriving DecidableEq, Repr

inductive TableSpot where
  | whole
  | field (field : TableField)
  | column (name : String) (spot : ColumnSpot)
  | index (name : String) (spot : IndexSpot)
  | constraint (name : String) (spot : ConstraintSpot)
  deriving DecidableEq, Repr

inductive EnumSpot where
  | whole
  | field (field : EnumField)
  | item (position : Position)
  deriving DecidableEq, Repr

inductive ExtensionSpot where
  | whole
  | field (field : ExtensionField)
  deriving DecidableEq, Repr

inductive Path where
  | table (name : String) (spot : TableSpot)
  | enumType (name : String) (spot : EnumSpot)
  | extension (name : String) (spot : ExtensionSpot)
  deriving DecidableEq, Repr

def TableField.label : TableField → String
  | .name => "name"
  | .comment => "comment"

def TableField.all : List TableField := [.name, .comment]

def ColumnField.label : ColumnField → String
  | .name => "name"
  | .type => "type"
  | .default => "default"
  | .check => "check"
  | .notNull => "notNull"
  | .comment => "comment"

def ColumnField.all : List ColumnField := [.name, .type, .default, .check, .notNull, .comment]

def IndexField.label : IndexField → String
  | .name => "name"
  | .unique => "unique"
  | .type => "type"
  | .columns => "columns"

def IndexField.all : List IndexField := [.name, .unique, .type, .columns]

def ConstraintField.label : ConstraintField → String
  | .name => "name"
  | .onUpdate => "updateConstraint"
  | .onDelete => "deleteConstraint"
  | .condition => "detail"
  | .targetTable => "targetTableName"
  | .columns => "columnNames"
  | .targetColumns => "targetColumnNames"

def ConstraintField.all : List ConstraintField :=
  [.name, .onUpdate, .onDelete, .condition, .targetTable, .columns, .targetColumns]

def ConstraintList.label : ConstraintList → String
  | .columns => "columnNames"
  | .targetColumns => "targetColumnNames"

def ConstraintList.all : List ConstraintList := [.columns, .targetColumns]

def EnumField.label : EnumField → String
  | .name => "name"
  | .values => "values"
  | .comment => "comment"

def EnumField.all : List EnumField := [.name, .values, .comment]

def ExtensionField.label : ExtensionField → String
  | .schema => "schema"
  | .version => "version"
  | .comment => "comment"
  | .fromVersion => "fromVersion"
  | .ifNotExists => "ifNotExists"
  | .cascade => "cascade"

def ExtensionField.all : List ExtensionField :=
  [.schema, .version, .comment, .fromVersion, .ifNotExists, .cascade]

def Position.label : Position → String
  | .at index => Nat.repr index
  | .atEnd => "-"

def ColumnSpot.segments : ColumnSpot → List String
  | .whole => []
  | .field f => [f.label]

def IndexSpot.segments : IndexSpot → List String
  | .whole => []
  | .field f => [f.label]
  | .item position => ["columns", position.label]

def ConstraintSpot.segments : ConstraintSpot → List String
  | .whole => []
  | .field f => [f.label]
  | .item list position => [list.label, position.label]

def TableSpot.segments : TableSpot → List String
  | .whole => []
  | .field f => [f.label]
  | .column name spot => "columns" :: name :: spot.segments
  | .index name spot => "indexes" :: name :: spot.segments
  | .constraint name spot => "constraints" :: name :: spot.segments

def EnumSpot.segments : EnumSpot → List String
  | .whole => []
  | .field f => [f.label]
  | .item position => ["values", position.label]

def ExtensionSpot.segments : ExtensionSpot → List String
  | .whole => []
  | .field f => [f.label]

def Path.segments : Path → List String
  | .table name spot => "tables" :: name :: spot.segments
  | .enumType name spot => "enums" :: name :: spot.segments
  | .extension name spot => "extensions" :: name :: spot.segments

/-- Why segments are no path. -/
inductive Mismatch where
  | noRule
  | notAnIndex (segment : String)
  deriving DecidableEq, Repr

def fieldLabelled {α : Type} (label : α → String) (all : List α) (text : String) :
    Except Mismatch α :=
  match all.find? fun field => label field == text with
  | some field => .ok field
  | none => .error .noRule

def Position.ofSegment (segment : String) : Except Mismatch Position :=
  if segment = "-" then .ok .atEnd
  else
    match Numeral.readUnsigned? UInt64.size segment with
    | some index => .ok (.at index)
    | none => .error (.notAnIndex segment)

def ColumnSpot.ofSegments : List String → Except Mismatch ColumnSpot
  | [] => .ok .whole
  | [label] => (fieldLabelled ColumnField.label ColumnField.all label).map .field
  | _ => .error .noRule

def IndexSpot.ofSegments : List String → Except Mismatch IndexSpot
  | [] => .ok .whole
  | [label] => (fieldLabelled IndexField.label IndexField.all label).map .field
  | ["columns", position] => (Position.ofSegment position).map .item
  | _ => .error .noRule

def ConstraintSpot.ofSegments : List String → Except Mismatch ConstraintSpot
  | [] => .ok .whole
  | [label] => (fieldLabelled ConstraintField.label ConstraintField.all label).map .field
  | [list, position] => do
    let list ← fieldLabelled ConstraintList.label ConstraintList.all list
    return .item list (← Position.ofSegment position)
  | _ => .error .noRule

def TableSpot.ofSegments : List String → Except Mismatch TableSpot
  | [] => .ok .whole
  | [label] => (fieldLabelled TableField.label TableField.all label).map .field
  | "columns" :: name :: rest => (ColumnSpot.ofSegments rest).map (.column name)
  | "indexes" :: name :: rest => (IndexSpot.ofSegments rest).map (.index name)
  | "constraints" :: name :: rest => (ConstraintSpot.ofSegments rest).map (.constraint name)
  | _ => .error .noRule

def EnumSpot.ofSegments : List String → Except Mismatch EnumSpot
  | [] => .ok .whole
  | [label] => (fieldLabelled EnumField.label EnumField.all label).map .field
  | ["values", position] => (Position.ofSegment position).map .item
  | _ => .error .noRule

def ExtensionSpot.ofSegments : List String → Except Mismatch ExtensionSpot
  | [] => .ok .whole
  | [label] => (fieldLabelled ExtensionField.label ExtensionField.all label).map .field
  | _ => .error .noRule

def Path.ofSegments : List String → Except Mismatch Path
  | "tables" :: name :: rest => (TableSpot.ofSegments rest).map (.table name)
  | "enums" :: name :: rest => (EnumSpot.ofSegments rest).map (.enumType name)
  | "extensions" :: name :: rest => (ExtensionSpot.ofSegments rest).map (.extension name)
  | _ => .error .noRule

/-- Writes a tilde as `~0` and then a slash as `~1`. -/
def escape (segment : List Char) : List Char :=
  Text.replace ['/'] ['~', '1'] (Text.replace ['~'] ['~', '0'] segment)

/-- Reads the escapes back, slashes first, so `~01` is a tilde and a one.  Any other tilde stands
for itself. -/
def unescape (segment : List Char) : List Char :=
  Text.replace ['~', '0'] ['~'] (Text.replace ['~', '1'] ['/'] segment)

/-- Why a text is no path. -/
inductive PathFault where
  | noSlash
  | emptySegment
  | noRule (path : String)
  | notAnIndex (segment : String)
  deriving DecidableEq, Repr

def PathFault.message : PathFault → String
  | .noSlash => "path must start with '/'"
  | .emptySegment => "path contains an empty segment"
  | .noRule path => "no grammar rule matches " ++ Text.quoted path
  | .notAnIndex segment => Text.quoted segment ++ " is not an array index"

def Mismatch.inPath (path : String) : Mismatch → PathFault
  | .noRule => .noRule path
  | .notAnIndex segment => .notAnIndex segment

def Path.parse (text : String) : Except PathFault Path :=
  match text.toList with
  | '/' :: rest =>
    let segments := (Text.cutAt '/' rest).map fun segment => String.ofList (unescape segment)
    if segments.any String.isEmpty then .error .emptySegment
    else (Path.ofSegments segments).mapError (Mismatch.inPath text)
  | _ => .error .noSlash

def Path.text (path : Path) : String :=
  String.ofList (path.segments.flatMap fun segment => '/' :: escape segment.toList)

/-! ## Owners -/

def Path.table? : Path → Option String
  | .table name _ => some name
  | _ => none

end SchemaEvolution.Patch
