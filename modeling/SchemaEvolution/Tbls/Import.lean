import SchemaEvolution.Diagnostic
import SchemaEvolution.Tbls.Excerpt
import SchemaEvolution.Text.LetterCase

/-!
# Reading tbls exports

An export lists tables and enumerated types.  Every entry of a list stands or falls alone: one
that can not be decoded is reported, and the others are read.  Views are left out.
-/

namespace SchemaEvolution.Tbls

open Json (Shape)

structure ColumnEntry where
  name : String
  type : String
  nullable : Bool
  default : Option String
  comment : Option String

structure IndexEntry where
  name : String
  definition : String
  columns : List String

structure ConstraintEntry where
  name : String
  type : String
  definition : String
  columns : List String
  referencedTable : Option String
  referencedColumns : List String

structure TableEntry where
  name : String
  type : String
  comment : Option String
  columns : List ColumnEntry
  indexes : List IndexEntry
  constraints : List ConstraintEntry

structure EnumEntry where
  name : String
  values : List String

def ColumnEntry.shape : Shape ColumnEntry :=
  .record "struct TblsColumn"
    (textField "name" <| .cons "type" .text (some "") <| .cons "nullable" .flag (some false) <|
      optionalField "default" <| optionalField "comment" .nil)
    fun (name, type, nullable, default, comment, ()) => ⟨name, type, nullable, default, comment⟩

def IndexEntry.shape : Shape IndexEntry :=
  .record "struct TblsIndex"
    (textField "name" <| .cons "def" .text (some "") <| textsField "columns" .nil)
    fun (name, definition, columns, ()) => ⟨name, definition, columns⟩

def ConstraintEntry.shape : Shape ConstraintEntry :=
  .record "struct TblsConstraint"
    (textField "name" <| .cons "type" .text (some "") <| .cons "def" .text (some "") <|
      textsField "columns" <| optionalField "referenced_table" <|
      textsField "referenced_columns" .nil)
    fun (name, type, definition, columns, table, targets, ()) =>
      ⟨name, type, definition, columns, table, targets⟩

def TableEntry.shape : Shape TableEntry :=
  .record "struct TblsTable"
    (textField "name" <| .cons "type" .text (some "") <| optionalField "comment" <|
      .cons "columns" (.list ColumnEntry.shape) (some []) <|
      .cons "indexes" (.list IndexEntry.shape) (some []) <|
      .cons "constraints" (.list ConstraintEntry.shape) (some []) .nil)
    fun (name, type, comment, columns, indexes, constraints, ()) =>
      ⟨name, type, comment, columns, indexes, constraints⟩

def EnumEntry.shape : Shape EnumEntry :=
  .record "struct TblsEnum" (textField "name" <| textsField "values" .nil)
    fun (name, values, ()) => ⟨name, values⟩

/-- The name of a thing without the usual schema; other schemas stay in the name. -/
def localName (name : String) : String :=
  match name.toList with
  | 'p' :: 'u' :: 'b' :: 'l' :: 'i' :: 'c' :: '.' :: rest => String.ofList rest
  | _ => name

def nonEmpty (text : Option String) : Option String := text.filter fun text => !text.isEmpty

def ColumnEntry.column (entry : ColumnEntry) : Column :=
  { name := entry.name
    type := entry.type
    default := entry.default.map .text
    check := none
    notNull := !entry.nullable
    comment := nonEmpty entry.comment }

def IndexEntry.index (entry : IndexEntry) : Index :=
  { name := entry.name
    unique := Text.contains (Text.upper entry.definition).toList "UNIQUE INDEX".toList
    columns := entry.columns
    type := ((method? entry.definition).map Text.lower).getD "btree" }

/-- The foreign key of an entry; `none` where it names no table. -/
def ConstraintEntry.foreignKey? (entry : ConstraintEntry) : Option Constraint := do
  let written := target? entry.definition
  let table ← (nonEmpty entry.referencedTable).or (written.map Prod.fst)
  let columns :=
    if entry.referencedColumns.isEmpty then (written.map Prod.snd).getD []
    else entry.referencedColumns
  return .foreignKey entry.name
    { columns := entry.columns
      targetTable := localName table
      targetColumns := columns
      onUpdate := actionFor false entry.definition
      onDelete := actionFor true entry.definition }

/-- The constraint of an entry, or `none` for a kind that is left out.  The error is a warning. -/
def ConstraintEntry.constraint? (table : String) (entry : ConstraintEntry) :
    Except Diagnostic (Option Constraint) :=
  match Text.upper entry.type with
  | "PRIMARY KEY" | "P" => .ok (some (.primaryKey entry.name entry.columns))
  | "UNIQUE" | "U" => .ok (some (.unique entry.name entry.columns))
  | "CHECK" | "C" =>
    .ok (some (.check entry.name ((condition? entry.definition).getD entry.definition)))
  | "FOREIGN KEY" | "F" =>
    match entry.foreignKey? with
    | some constraint => .ok (some constraint)
    | none =>
      .error (.warning ("foreign key " ++ entry.name ++ " on " ++ table ++
        " has no referenced table") none)
  | _ => .ok none

def TableEntry.isView (entry : TableEntry) : Bool :=
  Text.contains (Text.upper entry.type).toList "VIEW".toList

/-- The table of an entry, and the warnings about its constraints. -/
def TableEntry.table (entry : TableEntry) : Table × List Diagnostic :=
  let table := { Table.empty (localName entry.name) with comment := nonEmpty entry.comment }
  let table := (entry.columns.map ColumnEntry.column).foldl Table.addColumn table
  let table := (entry.indexes.map IndexEntry.index).foldl Table.addIndex table
  entry.constraints.foldl (fun (table, warnings) constraint =>
    match constraint.constraint? table.name with
    | .ok (some constraint) => (table.addConstraint constraint, warnings)
    | .ok none => (table, warnings)
    | .error warning => (table, warnings ++ [warning])) (table, [])

/-! ## Exports -/

/-- How an entry of a section is called in a diagnostic: by its name or by its position. -/
def entryLabel (name : String) (position : Nat) (entry : Json) : String :=
  match entry.member? "name" with
  | some (.string label) => name ++ "/" ++ label
  | _ => name ++ "[" ++ toString position ++ "]"

/-- The entries of a section that can be decoded, and a diagnostic for each of the others. -/
def entriesOf {α : Type} (shape : Shape α) (name : String) (document : Json) :
    List α × List Diagnostic :=
  match document.member? name with
  | none | some .null => ([], [])
  | some (.array entries) =>
    let decoded := entries.zipIdx.map fun (entry, position) =>
      match shape.decode .document entry with
      | .ok value => Except.ok value
      | .error fault =>
        .error (Diagnostic.error (entryLabel name position entry ++ ": " ++ fault.message) none)
    (decoded.filterMap Except.toOption, decoded.filterMap fun
      | .ok _ => none
      | .error diagnostic => some diagnostic)
  | some _ => ([], [.error ("\x60" ++ name ++ "\x60 must be an array") none])

/-- The schema of an export whose text has been read. -/
def importDocument (document : Json) : Import :=
  let (enums, enumFaults) := entriesOf EnumEntry.shape "enums" document
  let (entries, tableFaults) := entriesOf TableEntry.shape "tables" document
  let schema := enums.foldl (fun schema entry =>
    schema.addEnum ⟨localName entry.name, entry.values, none⟩) Schema.empty
  let tables := (entries.filter fun entry => !entry.isView).map TableEntry.table
  ⟨(tables.map Prod.fst).foldl Schema.addTable schema,
    enumFaults ++ tableFaults ++ tables.flatMap Prod.snd⟩

end SchemaEvolution.Tbls

namespace SchemaEvolution

def Schema.ofTbls (text : String) : Import :=
  match Json.parse text with
  | .error fault => .failure ("invalid tbls JSON: " ++ fault.message) (some fault.line)
  | .ok (.object members) => Tbls.importDocument (.object members)
  | .ok _ => .failure "tbls JSON must be an object" none

end SchemaEvolution
