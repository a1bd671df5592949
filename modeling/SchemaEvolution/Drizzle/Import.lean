import SchemaEvolution.Drizzle.Declaration
import SchemaEvolution.Drizzle.Dialect
import SchemaEvolution.Numeral.Reader
import SchemaEvolution.Schema.Naming
import SchemaEvolution.Text.Search

/-!
# Reading Drizzle schemas

Tables, their columns and their options become a schema in the types of the dialect.  References
to other tables are looked up by variable; one that leads nowhere gives a warning.
-/

namespace SchemaEvolution.Drizzle

/-- The first value of an option of a column. -/
def option? (builder : Chain) (key : String) : Option Expression :=
  builder.arguments.findSome? fun argument => argument.property? key

def numberOption? (builder : Chain) (key : String) : Option String :=
  match option? builder key with
  | some (.number digits) => some digits
  | _ => none

def optionIsTrue (builder : Chain) (key : String) : Bool :=
  match option? builder key with
  | some (.boolean value) => value
  | _ => false

def withNumber (type : String) (builder : Chain) (key : String) : String :=
  match numberOption? builder key with
  | some digits => type ++ "(" ++ digits ++ ")"
  | none => type

def withPrecision (type : String) (builder : Chain) : String :=
  match numberOption? builder "precision", numberOption? builder "scale" with
  | some precision, some scale => type ++ "(" ++ precision ++ "," ++ scale ++ ")"
  | some precision, none => type ++ "(" ++ precision ++ ")"
  | none, _ => type

def postgresType (d : Declarations) (builder : Chain) : String :=
  match d.enum? builder.base with
  | some type => type.name
  | none =>
    match builder.base with
    | "varchar" | "char" => withNumber builder.base builder "length"
    | "timestamp" | "time" =>
      withNumber builder.base builder "precision" ++
        if optionIsTrue builder "withTimezone" then " with time zone" else ""
    | "numeric" | "decimal" => withPrecision "numeric" builder
    | "doublePrecision" => "double precision"
    | "vector" | "halfvec" | "bit" => withNumber builder.base builder "dimensions"
    | other => Text.lower other

/-- A value of an enumerated type between quotes. -/
def quotedValue (value : String) : String :=
  "'" ++ String.ofList (Text.replace ['\''] ['\'', '\''] value.toList) ++ "'"

def mysqlBaseType (builder : Chain) : String :=
  match builder.base with
  | "varchar" | "char" | "binary" | "varbinary" => withNumber builder.base builder "length"
  | "datetime" | "timestamp" | "time" => withNumber builder.base builder "fsp"
  | "decimal" | "double" | "float" => withPrecision builder.base builder
  | "mysqlEnum" =>
    let list := builder.arguments[1]?.or builder.arguments.head?
    let values := ((list.map Expression.items).getD []).filterMap Expression.string?
    "enum(" ++ ",".intercalate (values.map quotedValue) ++ ")"
  | other => Text.lower other

def mysqlType (builder : Chain) : String :=
  mysqlBaseType builder ++ if optionIsTrue builder "unsigned" then " unsigned" else ""

def baseType (dialect : Dialect) (d : Declarations) (builder : Chain) : String :=
  match dialect with
  | .postgres => postgresType d builder
  | .mysql => mysqlType builder

def Expression.default? : Expression → Option DefaultValue
  | .string text | .sql text => some (.text text)
  | .number digits => DefaultValue.ofNumeral? digits
  | .boolean value => some (.boolean value)
  | _ => none

def firstString? (arguments : List Expression) : Option String :=
  arguments.head?.bind Expression.string?

def applyLink (column : Column) (link : Link) : Column :=
  match link.method with
  | "notNull" | "primaryKey" | "generatedAlwaysAsIdentity" | "generatedByDefaultAsIdentity" =>
    { column with notNull := true }
  | "default" =>
    { column with default := (link.arguments.head?.bind Expression.default?).or column.default }
  | "defaultNow" => { column with default := some (.text "now()") }
  | "defaultRandom" => { column with default := some (.text "gen_random_uuid()") }
  | "autoincrement" => { column with default := some (.text "autoincrement()") }
  | "array" => { column with type := column.type ++ "[]" }
  | "comment" => { column with comment := firstString? link.arguments }
  | _ => column

def columnOf (dialect : Dialect) (d : Declarations) (declaration : ColumnDeclaration) : Column :=
  let builder := declaration.builder
  let plain := Column.plain declaration.name (baseType dialect d builder)
  let isCounter := dialect == .mysql && builder.base == "serial"
  let start := if isCounter then { plain with default := some (.text "autoincrement()") } else plain
  builder.links.foldl applyLink start

/-- The table and the column of a member of a variable, under their SQL names. -/
def foreignColumn? (d : Declarations) (variableName key : String) : Option (String × String) :=
  (d.table? variableName).map fun table => (table.name, table.columnName key)

/-- The column of the table itself that an expression names. -/
def ownColumn? (table : TableDeclaration) (expression : Expression) : Option String :=
  expression.string?.or <| expression.member?.bind fun (owner, key) =>
    if table.parameter == some owner || owner == table.variableName then
      some (table.columnName key)
    else none

def ownColumns (table : TableDeclaration) (expressions : List Expression) : List String :=
  expressions.filterMap (ownColumn? table)

def actionOf (action : Option Expression) : ForeignKeyAction :=
  ((action.bind Expression.string?).bind ForeignKeyAction.parse?).getD .noAction

/-- A text between back quotes. -/
def marked (text : String) : String := "\x60" ++ text ++ "\x60"

def warn {α : Type} (table : TableDeclaration) (message : String) : Except Diagnostic α :=
  .error (.warning message (some table.line))

/-- The foreign key of a column that refers to a member of a table. -/
def referenceOf (d : Declarations) (table : TableDeclaration) (column : String)
    (arguments : List Expression) : Except Diagnostic Constraint :=
  let target? := match arguments.head? with
    | some (.arrow _ body) => body.member?
    | _ => none
  let place := marked (table.name ++ "." ++ column)
  match target? with
  | none => warn table ("unsupported reference on " ++ place)
  | some (variableName, key) =>
    match foreignColumn? d variableName key with
    | none =>
      warn table ("unresolved reference " ++ marked (variableName ++ "." ++ key) ++ " on " ++ place)
    | some (target, targetColumn) =>
      let action (key : String) : ForeignKeyAction :=
        actionOf (arguments[1]?.bind (Expression.property? key))
      .ok <| .foreignKey
        (table.name ++ "_" ++ column ++ "_" ++ target ++ "_" ++ targetColumn ++ "_fk")
        ⟨[column], target, [targetColumn], action "onUpdate", action "onDelete"⟩

/-- The columns that a foreign key refers to, each with its table. -/
def foreignColumns (d : Declarations) (table : TableDeclaration) (expressions : List Expression) :
    List (String × String) :=
  expressions.filterMap fun expression =>
    expression.member?.bind fun (owner, key) =>
      if table.parameter == some owner then some (table.name, table.columnName key)
      else foreignColumn? d owner key

/-- The foreign key that an option with its own columns declares. -/
def foreignKeyOf (d : Declarations) (table : TableDeclaration) (chain : Chain) :
    Except Diagnostic Constraint :=
  match chain.arguments.head? with
  | none => warn table ("foreign key on " ++ marked table.name ++ " has no options")
  | some options =>
    let columns := ownColumns table (((options.property? "columns").map Expression.items).getD [])
    let targets :=
      foreignColumns d table (((options.property? "foreignColumns").map Expression.items).getD [])
    let unresolved := warn table ("unresolved foreign key on " ++ marked table.name)
    match targets.getLast? with
    | none => unresolved
    | some (target, _) =>
      if columns.isEmpty then unresolved
      else
        let targetColumns := targets.map Prod.snd
        let usual := table.name ++ "_" ++ Naming.joined columns ++ "_" ++ target ++ "_" ++
          Naming.joined targetColumns ++ "_fk"
        let name := ((options.property? "name").bind Expression.string?).getD usual
        let action (method : String) : ForeignKeyAction :=
          actionOf ((chain.link? method).bind List.head?)
        .ok (.foreignKey name
          ⟨columns, target, targetColumns, action "onUpdate", action "onDelete"⟩)

/-- The columns of an index and its access method. -/
def indexParts (table : TableDeclaration) (chain : Chain) : List String × String :=
  match chain.link? "on" with
  | some arguments => (ownColumns table arguments, "btree")
  | none =>
    match chain.link? "using" with
    | some arguments => (ownColumns table arguments.tail, (firstString? arguments).getD "btree")
    | none => ([], "btree")

/-- The name and the columns of a primary key. -/
def keyParts (table : TableDeclaration) (arguments : List Expression) :
    Option String × List String :=
  match arguments.head? with
  | some (.object entries) =>
    let options := Expression.object entries
    ((options.property? "name").bind Expression.string?,
      ownColumns table (((options.property? "columns").map Expression.items).getD []))
  | _ => (none, ownColumns table arguments)

/-- The condition of a check: a text, empty where there is none. -/
def conditionOf : Option Expression → String
  | some (.sql text) | some (.string text) => text
  | _ => ""

def addOption (d : Declarations) (declaration : TableDeclaration) (table : Table)
    (option : Expression) : Except Diagnostic Table :=
  match option.chain? with
  | none => warn declaration ("unsupported table option on " ++ marked table.name)
  | some chain =>
    let label := firstString? chain.arguments
    match chain.base with
    | "index" | "uniqueIndex" =>
      let (columns, method) := indexParts declaration chain
      if columns.isEmpty then
        warn declaration ("index on " ++ marked table.name ++ " has no columns")
      else
        .ok (table.addIndex ⟨label.getD (Naming.index table.name columns),
          chain.base == "uniqueIndex", columns, method⟩)
    | "primaryKey" =>
      let (label, columns) := keyParts declaration chain.arguments
      let required := columns.foldl (fun found column =>
        found.update column fun column => { column with notNull := true }) table.columns
      .ok ({ table with columns := required }.addConstraint
        (.primaryKey (label.getD (Naming.primaryKey table.name)) columns))
    | "unique" =>
      let columns := ((chain.link? "on").map (ownColumns declaration)).getD []
      let usual := table.name ++ "_" ++ Naming.joined columns ++ "_unique"
      .ok (table.addConstraint (.unique (label.getD usual) columns))
    | "check" =>
      .ok (table.addConstraint
        (.check (label.getD (table.name ++ "_check")) (conditionOf chain.arguments[1]?)))
    | "foreignKey" => do
      let constraint ← foreignKeyOf d declaration chain
      return table.addConstraint constraint
    | other =>
      warn declaration ("unsupported table option " ++ marked other ++ " on " ++ marked table.name)

/-! ## Tables -/

/-- The state of a conversion, changed by something that may be refused with a warning. -/
def orWarn (state : Table × List Diagnostic) (change : Table → Except Diagnostic Table) :
    Table × List Diagnostic :=
  match change state.1 with
  | .ok table => (table, state.2)
  | .error warning => (state.1, state.2 ++ [warning])

/-- Adds a column with its unique constraint and its reference. -/
def addColumn (dialect : Dialect) (d : Declarations) (table : TableDeclaration)
    (state : Table × List Diagnostic) (declaration : ColumnDeclaration) :
    Table × List Diagnostic :=
  let column := columnOf dialect d declaration
  let start := state.1.addColumn column
  let start := match declaration.builder.link? "unique" with
    | some arguments =>
      let usual := table.name ++ "_" ++ column.name ++ "_unique"
      start.addConstraint (.unique ((firstString? arguments).getD usual) [column.name])
    | none => start
  match declaration.builder.link? "references" with
  | some arguments =>
    orWarn (start, state.2) fun table' => do
      let constraint ← referenceOf d table column.name arguments
      return table'.addConstraint constraint
  | none => (start, state.2)

/-- The table that a declaration stands for, and the warnings about it. -/
def tableOf (dialect : Dialect) (d : Declarations) (declaration : TableDeclaration) :
    Table × List Diagnostic :=
  let (table, warnings) := declaration.columns.foldl (addColumn dialect d declaration)
    (Table.empty declaration.name, [])
  let keys := (declaration.columns.filter fun column => column.builder.has "primaryKey").map
    ColumnDeclaration.name
  let table :=
    if keys.isEmpty then table
    else table.addConstraint (.primaryKey (Naming.primaryKey declaration.name) keys)
  declaration.options.foldl
    (fun state option => orWarn state fun table => addOption d declaration table option)
    (table, warnings)

/-- The schema that declarations stand for, and the warnings about it. -/
def schemaOf (dialect : Dialect) (d : Declarations) : Schema × List Diagnostic :=
  let enums : List EnumType := match dialect with
    | .postgres => d.enums.map fun type => ⟨type.name, type.values, none⟩
    | .mysql => []
  let tables := d.tables.map (tableOf dialect d)
  ((tables.map Prod.fst).foldl Schema.addTable (enums.foldl Schema.addEnum .empty),
    tables.flatMap Prod.snd)

end SchemaEvolution.Drizzle

namespace SchemaEvolution

def Schema.ofDrizzle (text : String) : Import :=
  let (declarations, diagnostics) := Drizzle.readDeclarations text
  let (schema, warnings) := Drizzle.schemaOf (Drizzle.Dialect.detect text) declarations
  ⟨schema, diagnostics ++ warnings⟩

end SchemaEvolution
