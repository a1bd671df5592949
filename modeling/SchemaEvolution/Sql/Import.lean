import SchemaEvolution.Sql.ColumnDefinition

/-!
# Reading SQL scripts

A script is read one statement at a time.  Definitions of tables, indexes, enumerated types and
extensions, changes of tables and comments are understood; any other statement is skipped.  A
statement that can not be understood leaves the schema as it was and gives a diagnostic.
-/

namespace SchemaEvolution.Sql

/-- A table whose constraints await the end of its definition. -/
structure TableDefinition where
  table : Table
  clauses : List (Option String × TableClause)

namespace TableDefinition

def addClause (d : TableDefinition) (label : Option String) :
    Option TableClause → TableDefinition
  | some clause => { d with clauses := d.clauses ++ [(label, clause)] }
  | none => d

/-- One element between the parentheses of a table; `line` is that of the statement. -/
def element (line : Option Nat) (d : TableDefinition) (lexemes : List Lexeme) :
    Except Halt (Turn TableDefinition × List Lexeme) :=
  let rest := lexemes.tail
  match next lexemes with
  | .rightParen => .ok (.done d, rest)
  | .comma => .ok (.again d, rest)
  | .eof | .semicolon | .keyword .create =>
    halt ("unterminated column list in CREATE TABLE " ++ d.table.name) line lexemes
  | .keyword .constraint => do
    let (label, after) := optionalName rest
    let (clause, after) ← readTableClause after
    return (.again (d.addClause label clause), after)
  | .keyword .primary | .keyword .foreign | .keyword .unique | .keyword .check => do
    let (clause, after) ← readTableClause lexemes
    return (.again (d.addClause none clause), after)
  | token =>
    if token.isOneOf ["like", "exclude"] then
      .ok (.again d, (cutOutside (fun token => token = .comma || token = .rightParen) lexemes).2)
    else if token.name?.isSome then do
      let (definition, after) ← ColumnDefinition.read lexemes
      return (.again { d with table := definition.addTo d.table }, after)
    else .ok (.again d, rest)

/-- The table with its constraints, which are added after all of its columns. -/
def finish (d : TableDefinition) : Table :=
  d.clauses.foldl (fun table (label, clause) => clause.addTo label table) d.table

end TableDefinition

/-- What follows `CREATE TABLE`. -/
def createTable (line : Option Nat) (schema : Schema) (lexemes : List Lexeme) :
    Except Halt (Schema × List Lexeme) :=
  let lexemes := skipIfNotExists lexemes
  match qualifiedName? lexemes with
  | none => halt "CREATE TABLE without a table name" line lexemes
  | some (name, rest) =>
    match eat? .leftParen rest with
    | none => .ok (schema, skipStatement rest)
    | some inside => do
      let (d, after) ← repeatedly (TableDefinition.element line) ⟨Table.empty name, []⟩ inside
      let table := d.finish
      if table.columns.isEmpty then halt ("CREATE TABLE " ++ name ++ " has no columns") line after
      else return (schema.addTable table, skipStatement after)

/-- The element of an index that some lexemes are: a column by its name, which words may follow,
or the text of an expression. -/
def indexElement : List Lexeme → List String
  | [] => []
  | first :: more =>
    let onlyWords := more.all fun lexeme =>
      match lexeme.token with
      | .word _ => true
      | _ => false
    match first.token.name? with
    | some name => [if onlyWords then name else textOf (first :: more)]
    | none => [textOf (first :: more)]

/-- The next element of an index and the comma or parenthesis after it. -/
def indexStep (elements : List String) (lexemes : List Lexeme) :
    Except Halt (Turn (List String) × List Lexeme) :=
  let (taken, after) := cut (fun depth token => token = .eof || token = .semicolon ||
    (depth == 0 && (token = .rightParen || token = .comma))) 0 lexemes
  let elements := elements ++ indexElement taken
  match next after with
  | .comma => .ok (.again elements, after.tail)
  | .rightParen => .ok (.done elements, after.tail)
  | _ => .ok (.done elements, after)

/-- The elements of an index in parentheses; none where there are no parentheses. -/
def indexElements (lexemes : List Lexeme) : Except Halt (List String × List Lexeme) :=
  match eat? .leftParen lexemes with
  | some inside => repeatedly indexStep [] inside
  | none => .ok ([], lexemes)

def indexMethod (lexemes : List Lexeme) : String × List Lexeme :=
  match eat? (.keyword .using) lexemes with
  | some rest =>
    let (method, after) := optionalName rest
    (method.getD "btree", after)
  | none => ("btree", lexemes)

/-- What follows `CREATE`, where that is an index. -/
def createIndex (line : Option Nat) (schema : Schema) (lexemes : List Lexeme) :
    Except Halt (Schema × List Lexeme) :=
  let unique := next lexemes = .keyword .unique
  let rest := skip (.keyword .index) (skip (.keyword .unique) lexemes)
  let rest := skipIfNotExists (skipWord "concurrently" rest)
  let (label, rest) :=
    if next rest = .keyword .on then (none, rest) else optionalQualifiedName rest
  match eat? (.keyword .on) rest with
  | none => halt "CREATE INDEX without ON clause" line rest
  | some rest =>
    let rest := skip (.keyword .only) rest
    match qualifiedName? rest with
    | none => halt "CREATE INDEX without a table" line rest
    | some (owner, rest) => do
      let (method, rest) := indexMethod rest
      let (columns, rest) ← indexElements rest
      let rest := skipStatement rest
      let name := label.getD (Naming.index owner columns)
      match schema.tables.get? owner with
      | none => haltWarning ("index " ++ name ++ " references unknown table " ++ owner) line rest
      | some _ =>
        let tables := schema.tables.update owner fun table =>
          table.addIndex ⟨name, unique, columns, method⟩
        return ({ schema with tables := tables }, rest)

/-- The values of an enumerated type up to the closing parenthesis. -/
def enumValues (name : String) (line : Option Nat) :
    List Lexeme → Except Halt (List String × List Lexeme)
  | [] => halt ("malformed value list in enum " ++ name) line []
  | lexeme :: rest =>
    match lexeme.token with
    | .string value => do
      let (values, after) ← enumValues name line rest
      return (value :: values, after)
    | .comma => enumValues name line rest
    | .rightParen => .ok ([], rest)
    | _ => halt ("malformed value list in enum " ++ name) line (lexeme :: rest)

/-- What follows `CREATE TYPE`; types of other kinds are skipped. -/
def createType (line : Option Nat) (schema : Schema) (lexemes : List Lexeme) :
    Except Halt (Schema × List Lexeme) :=
  match qualifiedName? lexemes with
  | none => halt "CREATE TYPE without a name" line lexemes
  | some (name, rest) =>
    match eat? (.keyword .as) rest with
    | none => .ok (schema, skipStatement rest)
    | some rest =>
      if !(next rest).isWord "enum" then .ok (schema, skipStatement rest)
      else
        match eat? .leftParen rest.tail with
        | none => .ok (schema.addEnum ⟨name, [], none⟩, skipStatement rest.tail)
        | some inside => do
          let (values, after) ← enumValues name line inside
          return (schema.addEnum ⟨name, values, none⟩, skipStatement after)

def versionOf : Token → Option String
  | .string text | .number text | .word text | .quotedName text => some text
  | _ => none

def extensionOption (extension : Extension) (lexemes : List Lexeme) :
    Except Halt (Turn Extension × List Lexeme) :=
  let rest := lexemes.tail
  let token := next lexemes
  if token.isWord "with" || token = .keyword .cascade then .ok (.again extension, rest)
  else if token.isWord "schema" then
    let (schema, after) := optionalQualifiedName rest
    .ok (.again { extension with schema := schema }, after)
  else if token.isWord "version" then
    .ok (.again { extension with version := versionOf (next rest) }, rest.tail)
  else .ok (.done extension, lexemes)

/-- What follows `CREATE EXTENSION`. -/
def createExtension (line : Option Nat) (schema : Schema) (lexemes : List Lexeme) :
    Except Halt (Schema × List Lexeme) :=
  let lexemes := skipIfNotExists lexemes
  match qualifiedName? lexemes with
  | none => halt "CREATE EXTENSION without a name" line lexemes
  | some (name, rest) => do
    let (extension, rest) ← repeatedly extensionOption ⟨name, none, none, none⟩ rest
    return (schema.addExtension extension, skipStatement rest)

/-- What follows `CREATE` and the words that may stand before the kind of thing. -/
def create (schema : Schema) (lexemes : List Lexeme) : Except Halt (Schema × List Lexeme) :=
  let lexemes :=
    if (next lexemes).isWord "or" then skipWord "replace" lexemes.tail else lexemes
  let lexemes := lexemes.dropWhile fun lexeme =>
    lexeme.token.isOneOf ["temp", "temporary", "unlogged", "global", "local"]
  let line := line? lexemes
  match next lexemes with
  | .keyword .table => createTable line schema lexemes.tail
  | .keyword .unique | .keyword .index => createIndex line schema lexemes
  | .keyword .type => createType line schema lexemes.tail
  | .keyword .extension => createExtension line schema lexemes.tail
  | _ => .ok (schema, skipStatement lexemes)

def isTypeToken : Token → Bool
  | .word _ | .number _ | .leftParen | .rightParen | .dot => true
  | token => token.isBracket

/-- A change of one column, up to the end of the action.  A column that the table has not is not
changed. -/
def alterColumn (table : Table) (column : String) (lexemes : List Lexeme) :
    Table × List Lexeme :=
  let sets := (next lexemes).isWord "set"
  let drops := (next lexemes).isWord "drop"
  let rest := if sets then skipWord "data" lexemes.tail else if drops then lexemes.tail else lexemes
  let change (f : Column → Column) : Table :=
    { table with columns := table.columns.update column f }
  let (table, rest) :=
    if !table.columns.contains column then (table, rest)
    else
      match next rest with
      | .keyword .default =>
        if sets then
          let (value, after) := readDefault rest.tail
          (change fun column => { column with default := value }, after)
        else if drops then (change fun column => { column with default := none }, rest.tail)
        else (table, rest)
      | .keyword .not =>
        (change fun column => { column with notNull := sets }, skip (.keyword .null) rest.tail)
      | .keyword .type =>
        if drops then (table, rest)
        else
          let (taken, after) := cut (fun _ token => !isTypeToken token) 0 rest.tail
          (change fun column => { column with type := TypeName.normalize (textOf taken) }, after)
      | _ => (table, rest)
  (table, (cutOutside (fun token => token = .comma || token = .semicolon) rest).2)

/-- One action of `ALTER TABLE`, apart from the comma after it. -/
def alterAction (table : Table) (lexemes : List Lexeme) : Except Halt (Table × List Lexeme) :=
  let rest := lexemes.tail
  match next lexemes with
  | .keyword .add =>
    match next rest with
    | .keyword .constraint => do
      let (label, after) := optionalName rest.tail
      let (clause, after) ← readTableClause after
      return ((clause.map fun clause => clause.addTo label table).getD table, after)
    | .keyword .primary | .keyword .foreign | .keyword .unique | .keyword .check => do
      let (clause, after) ← readTableClause rest
      return ((clause.map fun clause => clause.addTo none table).getD table, after)
    | _ => do
      let (definition, after) ←
        ColumnDefinition.read (skipIfNotExists (skip (.keyword .column) rest))
      return (definition.addTo table, after)
  | .keyword .alter =>
    let rest := skip (.keyword .column) rest
    .ok (alterColumn table ((next rest).name?.getD "") rest.tail)
  | _ =>
    .ok (table, (cutOutside (fun token => token = .comma || token = .semicolon) lexemes).2)

/-- One action of `ALTER TABLE`; another one follows a comma. -/
def alterStep (table : Table) (lexemes : List Lexeme) :
    Except Halt (Turn Table × List Lexeme) := do
  let (table, rest) ← alterAction table lexemes
  match eat? .comma rest with
  | some rest => return (.again table, rest)
  | none => return (.done table, rest)

/-- What follows `ALTER`.  The actions change a copy of the table, which takes its place when all
of them have been read. -/
def alter (line : Option Nat) (schema : Schema) (lexemes : List Lexeme) :
    Except Halt (Schema × List Lexeme) :=
  match eat? (.keyword .table) lexemes with
  | none => .ok (schema, skipStatement lexemes)
  | some rest =>
    let rest := skip (.keyword .only) (skipIfExists rest)
    match qualifiedName? rest with
    | none => halt "ALTER TABLE without a table name" line rest
    | some (name, rest) =>
      match schema.tables.get? name with
      | none => haltWarning ("ALTER TABLE on unknown table " ++ name) line (skipStatement rest)
      | some table => do
        let (table, rest) ← repeatedly alterStep table rest
        return (schema.addTable table, skipStatement rest)

/-- The last two of some names. -/
def lastTwo : List String → Option (String × String)
  | [] | [_] => none
  | [first, second] => some (first, second)
  | _ :: rest => lastTwo rest

/-- Puts a comment on what a token and a name tell.  The error is what is not there. -/
def addComment (schema : Schema) (target : Token) (parts : List String) (comment : Option String) :
    Except String Schema :=
  match target, parts.getLast? with
  | .keyword .table, some name =>
    if schema.tables.contains name then
      let tables := schema.tables.update name fun table => { table with comment := comment }
      .ok { schema with tables := tables }
    else .error ("table " ++ name)
  | .keyword .column, some _ =>
    match lastTwo parts with
    | none => .ok schema
    | some (owner, name) =>
      match schema.tables.get? owner with
      | none => .error ("column " ++ owner ++ "." ++ name)
      | some table =>
        if table.columns.contains name then
          let columns := table.columns.update name fun column => { column with comment := comment }
          let tables := schema.tables.update owner fun table => { table with columns := columns }
          .ok { schema with tables := tables }
        else .error ("column " ++ owner ++ "." ++ name)
  | .keyword .type, some name =>
    let enums := schema.enums.update name fun type => { type with comment := comment }
    .ok { schema with enums := enums }
  | .keyword .extension, some name =>
    let extensions := schema.extensions.update name fun extension =>
      { extension with comment := comment }
    .ok { schema with extensions := extensions }
  | _, _ => .ok schema

/-- What follows `COMMENT`. -/
def comment (line : Option Nat) (schema : Schema) (lexemes : List Lexeme) :
    Except Halt (Schema × List Lexeme) :=
  match eat? (.keyword .on) lexemes with
  | none => .ok (schema, skipStatement lexemes)
  | some rest =>
    let target := next rest
    let (parts, rest) := nameParts rest.tail
    match eat? (.keyword .is) rest with
    | none => halt "COMMENT ON without IS" line (skipStatement rest)
    | some rest =>
      let text := match next rest with
        | .string value => some value
        | _ => none
      let rest := skipStatement rest
      match addComment schema target parts text with
      | .ok schema => .ok (schema, rest)
      | .error missing => haltWarning ("comment on unknown " ++ missing) line rest

/-! ## Scripts -/

def statement (schema : Schema) (lexemes : List Lexeme) : Except Halt (Schema × List Lexeme) :=
  match next lexemes with
  | .keyword .create => create schema lexemes.tail
  | .keyword .alter => alter (line? lexemes) schema lexemes.tail
  | .keyword .comment => comment (line? lexemes) schema lexemes.tail
  | _ => .ok (schema, skipStatement lexemes)

/-- Reads a statement; a fault is noted and leaves the schema as it was. -/
def scriptStep (state : Import) (lexemes : List Lexeme) :
    Except Empty (Turn Import × List Lexeme) :=
  if next lexemes = .eof then .ok (.done state, lexemes)
  else
    match statement state.schema lexemes with
    | .ok (schema, rest) => .ok (.again { state with schema := schema }, rest)
    | .error stop =>
      .ok (.again { state with diagnostics := state.diagnostics ++ [stop.diagnostic] },
        recover stop.rest)

/-- The columns that a reference to a table without a list of columns stands for: its primary key,
or `id`. -/
def keyColumns (schema : Schema) (table : String) : List String :=
  let keys := schema.tables.values.filterMap fun found =>
    found.primaryKey?.map fun key => (found.name, key.2)
  match keys.find? fun key => key.1 == table with
  | some (_, columns) => columns
  | none => ["id"]

/-- Gives every reference without a list of columns the columns it stands for. -/
def resolveReferences (schema : Schema) : Schema :=
  let resolve (constraint : Constraint) : Constraint :=
    match constraint.rule with
    | .foreignKey key =>
      if key.targetColumns.isEmpty then
        { constraint with
          rule := .foreignKey { key with targetColumns := keyColumns schema key.targetTable } }
      else constraint
    | _ => constraint
  let tables := schema.tables.map fun table =>
    { table with constraints := table.constraints.map resolve }
  { schema with tables := tables }

end SchemaEvolution.Sql

namespace SchemaEvolution

def Schema.ofSql (script : String) : Import :=
  match repeatedly Sql.scriptStep ⟨.empty, []⟩ (Sql.Lexeme.ofText script) with
  | .ok (result, _) => { result with schema := Sql.resolveReferences result.schema }

end SchemaEvolution
