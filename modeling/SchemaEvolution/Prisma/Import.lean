import SchemaEvolution.Numeral.Reader
import SchemaEvolution.Prisma.Block
import SchemaEvolution.Schema.Naming
import SchemaEvolution.Text.LetterCase

/-!
# Reading Prisma schemas

Models become tables and enums enumerated types, under their database names.  A field whose type
is a model is no column; where it lists the fields that refer to that model it is a foreign key.
-/

namespace SchemaEvolution.Prisma

def scalarType? : String → Option String
  | "String" => some "text"
  | "Int" => some "integer"
  | "BigInt" => some "bigint"
  | "Boolean" => some "boolean"
  | "DateTime" => some "timestamp(3)"
  | "Float" => some "double precision"
  | "Decimal" => some "decimal(65,30)"
  | "Json" => some "jsonb"
  | "Bytes" => some "bytea"
  | _ => none

/-- The SQL type that an attribute names, with its numbers. -/
def nativeType (name : String) (arguments : List Argument) : String :=
  let base := match name with
    | "DoublePrecision" => "double precision"
    | "Timestamptz" => "timestamptz"
    | other => Text.lower other
  match arguments.filterMap fun argument => argument.2.number? with
  | [] => base
  | numbers => base ++ "(" ++ ",".intercalate numbers ++ ")"

def Expression.default? : Expression → Option DefaultValue
  | .string value => some (.text value)
  | .number digits => DefaultValue.ofNumeral? digits
  | .word "true" => some (.boolean true)
  | .word "false" => some (.boolean false)
  | .word name => some (.text name)
  | .call "dbgenerated" arguments =>
    (arguments.head?.bind fun argument => argument.2.string?).map .text
  | .call name _ => some (.text (name ++ "()"))
  | .list _ => none

/-- The models that are not ignored, and the enums, of a schema. -/
structure Declarations where
  models : List Model
  enums : List EnumBlock

namespace Declarations

def ofBlocks (blocks : List Block) : Declarations :=
  { models := blocks.filterMap fun
      | .model model => if model.has "ignore" then none else some model
      | .enum _ => none
    enums := blocks.filterMap fun
      | .enum block => some block
      | .model _ => none }

/-- The last model with a name. -/
def model? (d : Declarations) (name : String) : Option Model :=
  d.models.reverse.find? fun model => model.name == name

/-- The last enum with a name. -/
def enum? (d : Declarations) (name : String) : Option EnumBlock :=
  d.enums.reverse.find? fun block => block.name == name

def column (d : Declarations) (model field : String) : String :=
  let found := (d.model? model).bind fun model =>
    model.fields.find? fun candidate => candidate.name == field
  (found.map Field.databaseName).getD field

end Declarations

def Attribute.text? (attr : Attribute) (name : String) : Option String :=
  (attr.argument? name).bind Expression.string?

/-- The name of an attribute after `db.`, and its arguments. -/
def nativeAttribute? (field : Field) : Option (String × List Argument) :=
  field.attributes.findSome? fun attr =>
    match attr.name.toList with
    | 'd' :: 'b' :: '.' :: name => some (String.ofList name, attr.arguments)
    | _ => none

def columnType (d : Declarations) (field : Field) : String :=
  let base :=
    match nativeAttribute? field with
    | some (name, arguments) => nativeType name arguments
    | none =>
      if field.type == "Unsupported" then
        (field.typeArguments.head?.bind fun argument => argument.2.string?).getD "text"
      else
        match d.enum? field.type with
        | some block => block.databaseName
        | none => (scalarType? field.type).getD field.type
  if field.list then base ++ "[]" else base

def actionOf? (value : Option Expression) : Option ForeignKeyAction :=
  (value.bind Expression.name?).bind ForeignKeyAction.parse?

/-- Whether a field of a model with one of the names may not be null. -/
def requiresAny (model : Model) (names : List String) : Bool :=
  names.any fun name =>
    match model.fields.find? fun candidate => candidate.name == name with
    | some field => !field.optional
    | none => false

def Field.ownSide? (field : Field) : Option (Attribute × List String) := do
  let attr ← attribute? field.attributes "relation"
  let fields ← (attr.argument? "fields").map Expression.names
  return (attr, fields)

/-- The foreign key by which fields of a model refer to another one. -/
def foreignKeyTo (d : Declarations) (model target : Model) (field : Field) (attr : Attribute)
    (fields : List String) : Constraint :=
  let references := ((attr.argument? "references").map Expression.names).getD []
  let columns := fields.map (d.column model.name)
  let onDelete := if requiresAny model fields then .restrict else .setNull
  .foreignKey ((attr.text? "map").getD (Naming.foreignKey model.databaseName columns))
    { columns := columns
      targetTable := target.databaseName
      targetColumns := references.map (d.column field.type)
      onUpdate := (actionOf? (attr.argument? "onUpdate")).getD .cascade
      onDelete := (actionOf? (attr.argument? "onDelete")).getD onDelete }

/-- The foreign key of a field, if it lists its own side.  The model that it refers to is looked up
here once more. -/
def relation? (d : Declarations) (model : Model) (field : Field) :
    Except Diagnostic (Option Constraint) :=
  match field.ownSide? with
  | none => .ok none
  | some (attr, fields) =>
    match d.model? field.type with
    | none =>
      .error (.warning ("relation " ++ model.name ++ "." ++ field.name ++
        " targets unknown model " ++ field.type) (some field.line))
    | some target => .ok (some (foreignKeyTo d model target field attr fields))

def columnOf (d : Declarations) (field : Field) : Column :=
  { name := field.databaseName
    type := columnType d field
    default :=
      ((attribute? field.attributes "default").bind Attribute.positional?).bind Expression.default?
    check := none
    notNull := !field.optional || field.has "id"
    comment := field.doc }

/-- Adds the column of a field, and the key and the index that it declares. -/
def addColumn (d : Declarations) (field : Field) (table : Table) : Table :=
  let column := columnOf d field
  let table := match attribute? field.attributes "id" with
    | some attr => table.addConstraint
        (.primaryKey ((attr.text? "map").getD (Naming.primaryKey table.name)) [column.name])
    | none => table
  let table := match attribute? field.attributes "unique" with
    | some attr => table.addIndex
        ⟨(attr.text? "map").getD (Naming.unique table.name [column.name]), true, [column.name],
          "btree"⟩
    | none => table
  table.addColumn column

/-- Adds what a field stands for, or a warning about it. -/
def addField (d : Declarations) (model : Model) (state : Table × List Diagnostic) (field : Field) :
    Table × List Diagnostic :=
  if field.has "ignore" then state
  else if (d.model? field.type).isSome then
    match relation? d model field with
    | .ok (some constraint) => (state.1.addConstraint constraint, state.2)
    | .ok none => state
    | .error warning => (state.1, state.2 ++ [warning])
  else (addColumn d field state.1, state.2)

/-! ## Tables -/

/-- Adds the key or the index that an attribute of a model declares. -/
def addAttribute (d : Declarations) (model : Model) (table : Table) (attr : Attribute) : Table :=
  let fields := (((attr.argument? "fields").or attr.positional?).map Expression.names).getD []
  let columns := fields.map (d.column model.name)
  let label := ((attr.argument? "map").or (attr.argument? "name")).bind Expression.string?
  let method := (((attr.argument? "type").bind Expression.name?).map Text.lower).getD "btree"
  match attr.name with
  | "id" =>
    let required := columns.foldl (fun found column =>
      found.update column fun column => { column with notNull := true }) table.columns
    { table with columns := required }.addConstraint
      (.primaryKey (label.getD (Naming.primaryKey table.name)) columns)
  | "unique" =>
    table.addIndex ⟨label.getD (Naming.unique table.name columns), true, columns, method⟩
  | "index" =>
    table.addIndex ⟨label.getD (Naming.index table.name columns), false, columns, method⟩
  | _ => table

def tableOf (d : Declarations) (model : Model) : Table × List Diagnostic :=
  let start := { Table.empty model.databaseName with comment := model.doc }
  let (table, warnings) := model.fields.foldl (addField d model) (start, [])
  (model.attributes.foldl (addAttribute d model) table, warnings)

/-- The enumerated type of an enum.  Of enums with one name the last one gives the database
name. -/
def enumOf (d : Declarations) (block : EnumBlock) : EnumType :=
  ⟨((d.enum? block.name).getD block).databaseName, block.values, block.doc⟩

/-- The schema that blocks declare, and the warnings about it. -/
def schemaOf (blocks : List Block) : Schema × List Diagnostic :=
  let d := Declarations.ofBlocks blocks
  let tables := d.models.map (tableOf d)
  ((tables.map Prod.fst).foldl Schema.addTable
    ((d.enums.map (enumOf d)).foldl Schema.addEnum .empty), tables.flatMap Prod.snd)

end SchemaEvolution.Prisma

namespace SchemaEvolution

def Schema.ofPrisma (text : String) : Import :=
  let (blocks, diagnostics) := Prisma.readBlocks text
  let (schema, warnings) := Prisma.schemaOf blocks
  ⟨schema, diagnostics ++ warnings⟩

end SchemaEvolution
