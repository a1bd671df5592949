import SchemaEvolution.Sql.Import

/-!
# Handlers of statements

A statement may also be read by a handler that works on the schema as it stands: it reads on token
by token, and writes what it has understood.  A handler that fails leaves the schema with all that
it has written until then.  What a statement defines or changes is gathered outside of the schema;
a table that is changed is copied first.
-/

namespace SchemaEvolution.Sql

/-- A script that is being read: the schema as it has been written, and what is left to read. -/
structure Session where
  schema : Schema
  rest : List Lexeme

/-- Reads on and writes.  Where it fails, the session is as it was left at that point. -/
abbrev Handler (α : Type) := EStateM Diagnostic Session α

namespace Handler

variable {α β σ : Type}

def current : Handler Token := do return next (← get).rest

def line : Handler (Option Nat) := do return line? (← get).rest

def pass (skipping : List Lexeme → List Lexeme) : Handler Unit :=
  modify fun session => { session with rest := skipping session.rest }

def advance : Handler Unit := pass List.tail

/-- Passes a token if it is the next one, and tells whether it was. -/
def eat (token : Token) : Handler Bool := do
  match eat? token (← get).rest with
  | none => return false
  | some after =>
    pass fun _ => after
    return true

/-- Reads what can not be refused. -/
def taking (reader : List Lexeme → α × List Lexeme) : Handler α := do
  let (value, after) := reader (← get).rest
  pass fun _ => after
  return value

def write (change : Schema → Schema) : Handler Unit :=
  modify fun session => { session with schema := change session.schema }

/-- Repeats a step until it is done or fails, or leaves as much to read as it found. -/
def repeatedly (step : σ → Handler (Turn σ)) (state : σ) : Handler σ := fun session =>
  match step state session with
  | .error fault left => .error fault left
  | .ok (.done state) left => .ok state left
  | .ok (.again state) left =>
    if left.rest.length < session.rest.length then repeatedly step state left else .ok state left
termination_by session => session.rest.length

@[simp]
theorem bind_apply (first : Handler α) (following : α → Handler β) (session : Session) :
    (first >>= following) session =
      match first session with
      | .ok value left => following value left
      | .error fault left => .error fault left := by
  simp only [bind, EStateM.bind]
  cases first session <;> rfl

@[simp]
theorem pure_apply (value : α) (session : Session) :
    (pure value : Handler α) session = .ok value session := rfl

@[simp]
theorem get_apply (session : Session) : (get : Handler Session) session = .ok session session := rfl

@[simp]
theorem current_apply (session : Session) : current session = .ok (next session.rest) session := rfl

@[simp]
theorem line_apply (session : Session) : line session = .ok (line? session.rest) session := rfl

@[simp]
theorem pass_apply (skipping : List Lexeme → List Lexeme) (session : Session) :
    pass skipping session = .ok () { session with rest := skipping session.rest } := rfl

@[simp]
theorem advance_apply (session : Session) :
    advance session = .ok () { session with rest := session.rest.tail } := rfl

@[simp]
theorem taking_apply (reader : List Lexeme → α × List Lexeme) (session : Session) :
    taking reader session =
      .ok (reader session.rest).1 { session with rest := (reader session.rest).2 } := rfl

@[simp]
theorem write_apply (change : Schema → Schema) (session : Session) :
    write change session = .ok () { session with schema := change session.schema } := rfl

theorem eat_apply (token : Token) (session : Session) :
    eat token session =
      match eat? token session.rest with
      | none => .ok false session
      | some after => .ok true { session with rest := after } := by
  simp only [eat, bind_apply, get_apply]
  cases eat? token session.rest <;> rfl

theorem eat_eq_skip {token : Token} (htoken : token ≠ .eof) (session : Session) :
    eat token session =
      .ok (next session.rest = token) { session with rest := skip token session.rest } := by
  obtain ⟨schema, rest⟩ := session
  rw [eat_apply]
  cases rest with
  | nil => simp [eat?, skip, next, htoken.symm]
  | cons lexeme rest => by_cases hnext : lexeme.token = token <;> simp [eat?, skip, next, hnext]

def referenceOption (reference : Reference) : Handler (Turn Reference) := do
  let token ← current
  if token = .keyword .on then
    advance
    match ← current with
    | .keyword .delete =>
      advance
      let action ← taking readAction
      return .again { reference with onDelete := action }
    | .keyword .update =>
      advance
      let action ← taking readAction
      return .again { reference with onUpdate := action }
    | _ => return .done reference
  else if token.isWord "match" then
    pass fun lexemes => lexemes.tail.tail
    return .again reference
  else if token.isOneOf ["deferrable", "initially", "deferred", "immediate"] then
    advance
    return .again reference
  else if token = .keyword .not && (next (← get).rest.tail).isWord "deferrable" then
    pass fun lexemes => lexemes.tail.tail
    return .again reference
  else return .done reference

def reference : Handler Reference := do
  let line ← line
  match ← taking optionalQualifiedName with
  | none => throw (.error "REFERENCES without a target table" line)
  | some table =>
    let columns ← taking nameList
    repeatedly referenceOption ⟨table, columns, .noAction, .noAction⟩

/-- A constraint of a table; `none` for one of another kind, which is skipped. -/
def tableClause : Handler (Option TableClause) := do
  let line ← line
  match ← current with
  | .keyword .primary =>
    advance
    pass (skip (.keyword .key))
    let columns ← taking nameList
    pass skipDefinition
    return some (.primaryKey columns)
  | .keyword .unique =>
    advance
    pass (skip (.keyword .key))
    let columns ← taking nameList
    pass skipDefinition
    return some (.unique columns)
  | .keyword .foreign =>
    advance
    pass (skip (.keyword .key))
    let columns ← taking nameList
    if !(← eat (.keyword .references)) then throw (.error "FOREIGN KEY without REFERENCES" line)
    else
      let reference ← reference
      pass skipDefinition
      return some (.foreignKey columns reference)
  | .keyword .check =>
    advance
    let condition ← taking parenthesized
    pass skipDefinition
    return some (.check condition)
  | _ =>
    pass fun lexemes => (cutOutside (fun token =>
      token = .comma || token = .rightParen || token = .semicolon) lexemes).2
    return none

/-- One attribute of a column; the state also holds the name for the next constraint. -/
def attributeStep (state : ColumnDefinition × Option String) :
    Handler (Turn (ColumnDefinition × Option String)) := do
  let (d, label) := state
  match ← current with
  | .keyword .constraint =>
    advance
    let label ← taking optionalName
    return .again (d, label)
  | .keyword .primary =>
    advance
    pass (skip (.keyword .key))
    return .again ({ d.requireValue with primaryKey := some label }, none)
  | .keyword .not =>
    advance
    if ← eat (.keyword .null) then return .again (d.requireValue, label)
    else return .again (d, label)
  | .keyword .null =>
    advance
    return .again (d, label)
  | .keyword .unique =>
    advance
    return .again ({ d with unique := some label }, none)
  | .keyword .default =>
    advance
    let value ← taking readDefault
    return .again ({ d with column := { d.column with default := value } }, label)
  | .keyword .references =>
    advance
    let reference ← reference
    return .again ({ d with references := d.references ++ [(label, reference)] }, none)
  | .keyword .check =>
    advance
    let condition ← taking parenthesized
    return .again ({ d with
      column := { d.column with check := some condition }
      check := some (label, condition) }, none)
  | token =>
    if token.isWord "collate" then
      advance
      let _ ← taking optionalQualifiedName
      return .again (d, label)
    else if token.isWord "generated" then
      let taken ← taking (cutOutside fun token => token = .comma || token = .rightParen)
      let isIdentity := Text.contains (Text.lower (textOf taken)).toList "identity".toList
      return .again (if isIdentity then d.requireValue else d, label)
    else if endsDefinition token then return .done (d, label)
    else
      pass skipGroup
      return .again (d, label)

def column : Handler ColumnDefinition := do
  let line ← line
  let name := (← current).name?.getD ""
  advance
  let typeLexemes ← taking (cut endsType 0)
  let raw := textOf typeLexemes
  if raw.isEmpty then throw (.error ("column " ++ name ++ " has no type") line)
  else
    let (d, _) ← repeatedly attributeStep (.plain name (TypeName.normalize raw), none)
    return d

/-- One element between the parentheses of a table, which is not in the schema yet. -/
def element (line : Option Nat) (d : TableDefinition) : Handler (Turn TableDefinition) := do
  match ← current with
  | .rightParen =>
    advance
    return .done d
  | .comma =>
    advance
    return .again d
  | .eof | .semicolon | .keyword .create =>
    throw (.error ("unterminated column list in CREATE TABLE " ++ d.table.name) line)
  | .keyword .constraint =>
    advance
    let label ← taking optionalName
    let clause ← tableClause
    return .again (d.addClause label clause)
  | .keyword .primary | .keyword .foreign | .keyword .unique | .keyword .check =>
    let clause ← tableClause
    return .again (d.addClause none clause)
  | token =>
    if token.isOneOf ["like", "exclude"] then
      pass fun lexemes =>
        (cutOutside (fun token => token = .comma || token = .rightParen) lexemes).2
      return .again d
    else if token.name?.isSome then
      let definition ← column
      return .again { d with table := definition.addTo d.table }
    else
      advance
      return .again d

def createTable : Handler Unit := do
  let line ← line
  advance
  pass skipIfNotExists
  match ← taking optionalQualifiedName with
  | none => throw (.error "CREATE TABLE without a table name" line)
  | some name =>
    if !(← eat .leftParen) then pass skipStatement
    else
      let d ← repeatedly (element line) ⟨Table.empty name, []⟩
      if d.finish.columns.isEmpty then
        throw (.error ("CREATE TABLE " ++ name ++ " has no columns") line)
      else
        pass skipStatement
        write fun schema => schema.addTable d.finish

def indexStep (elements : List String) : Handler (Turn (List String)) := do
  let taken ← taking (cut (fun depth token => token = .eof || token = .semicolon ||
    (depth == 0 && (token = .rightParen || token = .comma))) 0)
  let elements := elements ++ indexElement taken
  match ← current with
  | .comma =>
    advance
    return .again elements
  | .rightParen =>
    advance
    return .done elements
  | _ => return .done elements

def indexElements : Handler (List String) := do
  if ← eat .leftParen then repeatedly indexStep [] else return []

def createIndex : Handler Unit := do
  let line ← line
  let unique ← eat (.keyword .unique)
  pass (skip (.keyword .index))
  pass (skipWord "concurrently")
  pass skipIfNotExists
  let label ← taking fun lexemes =>
    if next lexemes = .keyword .on then (none, lexemes) else optionalQualifiedName lexemes
  if !(← eat (.keyword .on)) then throw (.error "CREATE INDEX without ON clause" line)
  else
    pass (skip (.keyword .only))
    match ← taking optionalQualifiedName with
    | none => throw (.error "CREATE INDEX without a table" line)
    | some owner =>
      let method ← taking indexMethod
      let columns ← indexElements
      pass skipStatement
      let name := label.getD (Naming.index owner columns)
      match (← get).schema.tables.get? owner with
      | none => throw (.warning ("index " ++ name ++ " references unknown table " ++ owner) line)
      | some _ =>
        write fun schema =>
          { schema with
            tables := schema.tables.update owner fun table =>
              table.addIndex ⟨name, unique, columns, method⟩ }

def enumStep (name : String) (line : Option Nat) (values : List String) :
    Handler (Turn (List String)) := do
  match ← current with
  | .string value =>
    advance
    return .again (values ++ [value])
  | .comma =>
    advance
    return .again values
  | .rightParen =>
    advance
    return .done values
  | _ => throw (.error ("malformed value list in enum " ++ name) line)

def createType : Handler Unit := do
  let line ← line
  advance
  match ← taking optionalQualifiedName with
  | none => throw (.error "CREATE TYPE without a name" line)
  | some name =>
    if !(← eat (.keyword .as)) then pass skipStatement
    else if !(← current).isWord "enum" then pass skipStatement
    else
      advance
      let values ← if ← eat .leftParen then repeatedly (enumStep name line) [] else pure []
      pass skipStatement
      write fun schema => schema.addEnum ⟨name, values, none⟩

def extensionOption (extension : Extension) : Handler (Turn Extension) := do
  let token ← current
  if token.isWord "with" || token = .keyword .cascade then
    advance
    return .again extension
  else if token.isWord "schema" then
    advance
    let schema ← taking optionalQualifiedName
    return .again { extension with schema := schema }
  else if token.isWord "version" then
    advance
    let version := versionOf (← current)
    advance
    return .again { extension with version := version }
  else return .done extension

def createExtension : Handler Unit := do
  let line ← line
  advance
  pass skipIfNotExists
  match ← taking optionalQualifiedName with
  | none => throw (.error "CREATE EXTENSION without a name" line)
  | some name =>
    let extension ← repeatedly extensionOption ⟨name, none, none, none⟩
    pass skipStatement
    write fun schema => schema.addExtension extension

def create : Handler Unit := do
  advance
  pass fun lexemes =>
    if (next lexemes).isWord "or" then skipWord "replace" lexemes.tail else lexemes
  pass fun lexemes => lexemes.dropWhile fun lexeme =>
    lexeme.token.isOneOf ["temp", "temporary", "unlogged", "global", "local"]
  match ← current with
  | .keyword .table => createTable
  | .keyword .unique | .keyword .index => createIndex
  | .keyword .type => createType
  | .keyword .extension => createExtension
  | _ => pass skipStatement

/-- One action of a change of a table, on a copy of the table in the schema. -/
def alterAction (table : Table) : Handler Table := do
  match ← current with
  | .keyword .add =>
    advance
    match ← current with
    | .keyword .constraint =>
      advance
      let label ← taking optionalName
      let clause ← tableClause
      return (clause.map fun clause => clause.addTo label table).getD table
    | .keyword .primary | .keyword .foreign | .keyword .unique | .keyword .check =>
      let clause ← tableClause
      return (clause.map fun clause => clause.addTo none table).getD table
    | _ =>
      pass (skip (.keyword .column))
      pass skipIfNotExists
      let definition ← column
      return definition.addTo table
  | .keyword .alter =>
    advance
    pass (skip (.keyword .column))
    let column := (← current).name?.getD ""
    advance
    taking (alterColumn table column)
  | _ =>
    pass fun lexemes =>
      (cutOutside (fun token => token = .comma || token = .semicolon) lexemes).2
    return table

def alterStep (table : Table) : Handler (Turn Table) := do
  let table ← alterAction table
  if ← eat .comma then return .again table else return .done table

def alter : Handler Unit := do
  let line ← line
  advance
  if !(← eat (.keyword .table)) then pass skipStatement
  else
    pass skipIfExists
    pass (skip (.keyword .only))
    match ← taking optionalQualifiedName with
    | none => throw (.error "ALTER TABLE without a table name" line)
    | some name =>
      match (← get).schema.tables.get? name with
      | none =>
        pass skipStatement
        throw (.warning ("ALTER TABLE on unknown table " ++ name) line)
      | some table =>
        let table ← repeatedly alterStep table
        pass skipStatement
        write fun schema => schema.addTable table

/-- Fails with a warning: what a comment is on is not there. -/
def unknown (line : Option Nat) (missing : String) : Handler Unit :=
  throw (.warning ("comment on unknown " ++ missing) line)

/-- Puts a comment on what a token and a name tell. -/
def addComment (line : Option Nat) (target : Token) (parts : List String)
    (comment : Option String) : Handler Unit := do
  match target, parts.getLast? with
  | .keyword .table, some name =>
    if (← get).schema.tables.contains name then
      write fun schema =>
        { schema with
          tables := schema.tables.update name fun table => { table with comment := comment } }
    else unknown line ("table " ++ name)
  | .keyword .column, some _ =>
    match lastTwo parts with
    | none => pure ()
    | some (owner, name) =>
      match (← get).schema.tables.get? owner with
      | none => unknown line ("column " ++ owner ++ "." ++ name)
      | some table =>
        if table.columns.contains name then
          write fun schema =>
            { schema with
              tables := schema.tables.update owner fun table =>
                { table with
                  columns := table.columns.update name fun column =>
                    { column with comment := comment } } }
        else unknown line ("column " ++ owner ++ "." ++ name)
  | .keyword .type, some name =>
    write fun schema =>
      { schema with enums := schema.enums.update name fun type => { type with comment := comment } }
  | .keyword .extension, some name =>
    write fun schema =>
      { schema with
        extensions := schema.extensions.update name fun extension =>
          { extension with comment := comment } }
  | _, _ => pure ()

def comment : Handler Unit := do
  let line ← line
  advance
  if !(← eat (.keyword .on)) then pass skipStatement
  else
    let target ← current
    advance
    let parts ← taking nameParts
    if !(← eat (.keyword .is)) then
      pass skipStatement
      throw (.error "COMMENT ON without IS" line)
    else
      let text := match ← current with
        | .string value => some value
        | _ => none
      pass skipStatement
      addComment line target parts text

/-- Reads a statement and writes what it says into the schema. -/
def statement : Handler Unit := do
  match ← current with
  | .keyword .create => create
  | .keyword .alter => alter
  | .keyword .comment => comment
  | .semicolon => advance
  | _ => pass skipStatement

end Handler

end SchemaEvolution.Sql
