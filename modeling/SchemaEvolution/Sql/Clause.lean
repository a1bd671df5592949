import SchemaEvolution.Diagnostic
import SchemaEvolution.Repeated
import SchemaEvolution.Schema.Naming
import SchemaEvolution.Sql.Lexeme

/-!
# Clauses of SQL statements

Names, lists, texts, defaults, references and constraints, read from lexemes.  A reader gives
what it has read and what is left; one that can fail says where it halted.
-/

namespace SchemaEvolution.Sql

/-- Why and where the reading of a statement ended before its time. -/
structure Halt where
  diagnostic : Diagnostic
  rest : List Lexeme
  deriving DecidableEq

def halt {α : Type} (message : String) (line : Option Nat) (rest : List Lexeme) :
    Except Halt α :=
  .error ⟨.error message line, rest⟩

def haltWarning {α : Type} (message : String) (line : Option Nat) (rest : List Lexeme) :
    Except Halt α :=
  .error ⟨.warning message line, rest⟩

def optionalName (lexemes : List Lexeme) : Option String × List Lexeme :=
  match (next lexemes).name? with
  | some name => (some name, lexemes.tail)
  | none => (none, lexemes)

/-- The last name of those that follow a name after dots. -/
def lastName (name : String) : List Lexeme → String × List Lexeme
  | dot :: part :: rest =>
    if dot.token = .dot then
      match part.token.name? with
      | some inner => lastName inner rest
      | none => (name, part :: rest)
    else (name, dot :: part :: rest)
  | [dot] => (name, if dot.token = .dot then [] else [dot])
  | [] => (name, [])

/-- A name, possibly after the names of what it lies in, which are dropped. -/
def qualifiedName? (lexemes : List Lexeme) : Option (String × List Lexeme) :=
  (next lexemes).name?.map fun name => lastName name lexemes.tail

/-- As `qualifiedName?`, reading nothing where there is no name. -/
def optionalQualifiedName (lexemes : List Lexeme) : Option String × List Lexeme :=
  match qualifiedName? lexemes with
  | some (name, rest) => (some name, rest)
  | none => (none, lexemes)

def nameParts : List Lexeme → List String × List Lexeme
  | [] => ([], [])
  | [lexeme] =>
    match lexeme.token.name? with
    | some part => ([part], [])
    | none => ([], [lexeme])
  | lexeme :: dot :: rest =>
    match lexeme.token.name? with
    | some part =>
      if dot.token = .dot then
        let (parts, after) := nameParts rest
        (part :: parts, after)
      else ([part], dot :: rest)
    | none => ([], lexeme :: dot :: rest)

def skipIfNotExists (lexemes : List Lexeme) : List Lexeme :=
  match eat? (.keyword .if) lexemes with
  | some rest => skip (.keyword .exists) (skip (.keyword .not) rest)
  | none => lexemes

def skipIfExists (lexemes : List Lexeme) : List Lexeme :=
  match eat? (.keyword .if) lexemes with
  | some rest => skip (.keyword .exists) rest
  | none => lexemes

def namesInside : List Lexeme → List String × List Lexeme
  | [] => ([], [])
  | lexeme :: rest =>
    match lexeme.token with
    | .comma => namesInside rest
    | .rightParen => ([], rest)
    | .eof | .semicolon => ([], lexeme :: rest)
    | token =>
      let (names, after) := namesInside rest
      (token.name?.toList ++ names, after)

/-- A list of names in parentheses; empty where there is none. -/
def nameList (lexemes : List Lexeme) : List String × List Lexeme :=
  match eat? .leftParen lexemes with
  | some rest => namesInside rest
  | none => ([], lexemes)

/-- The text between parentheses, as it is written. -/
def parenthesized (lexemes : List Lexeme) : String × List Lexeme :=
  match eat? .leftParen lexemes with
  | some rest =>
    let (taken, after) := cut (fun depth token =>
      token = .eof || token = .semicolon || (depth == 0 && token = .rightParen)) 0 rest
    (textOf taken, skip .rightParen after)
  | none => ("", lexemes)

def endsExpression (token : Token) : Bool := token.isOneOf ["collate", "generated"]

/-- Key words that start the next clause of a column. -/
def startsClause : Token → Bool
  | .keyword word =>
    [.not, .null, .primary, .unique, .references, .check, .constraint].contains word
  | _ => false

def endsDefault (depth : Nat) (token : Token) : Bool :=
  token = .eof || token = .semicolon || token = .keyword .create ||
    (depth == 0 && (token = .rightParen || token = .comma || endsExpression token))

/-- The lexemes of a default.  The first one may be a key word, such as `NULL`. -/
def cutDefault (lexemes : List Lexeme) : List Lexeme × List Lexeme :=
  match lexemes with
  | [] => ([], [])
  | first :: rest =>
    if endsDefault 0 first.token then ([], lexemes)
    else
      let (taken, after) := cut
        (fun depth token => endsDefault depth token || (depth == 0 && startsClause token))
        (depthAfter 0 first.token) rest
      (first :: taken, after)

/-- Whether nothing or a cast follows a literal. -/
def isCast (lexemes : List Lexeme) : Bool :=
  lexemes.isEmpty || next lexemes = .operator "::"

/-- The default that some lexemes are: typed where they are a literal, their text otherwise. -/
def defaultOf : List Lexeme → Option DefaultValue
  | [] => none
  | first :: rest =>
    let written := DefaultValue.text (textOf (first :: rest))
    match first.token with
    | .keyword .null => if isCast rest then none else some written
    | .string value => some (if isCast rest then .text value else written)
    | .number digits =>
      some (if isCast rest then (DefaultValue.ofNumeral? digits).getD (.text digits) else written)
    | .word word =>
      some <|
        if !rest.isEmpty then written
        else if word.toLower == "true" then .boolean true
        else if word.toLower == "false" then .boolean false
        else written
    | _ => some written

def readDefault (lexemes : List Lexeme) : Option DefaultValue × List Lexeme :=
  let (taken, after) := cutDefault lexemes
  (defaultOf taken, after)

/-- What a foreign key refers to, and its actions. -/
structure Reference where
  table : String
  columns : List String
  onUpdate : ForeignKeyAction
  onDelete : ForeignKeyAction
  deriving DecidableEq

def Reference.key (reference : Reference) (columns : List String) : ForeignKey :=
  ⟨columns, reference.table, reference.columns, reference.onUpdate, reference.onDelete⟩

def readAction (lexemes : List Lexeme) : ForeignKeyAction × List Lexeme :=
  let rest := lexemes.tail
  match next lexemes with
  | .keyword .cascade => (.cascade, rest)
  | .keyword .restrict => (.restrict, rest)
  | token =>
    if token.isWord "set" then
      let afterGroup := if next rest.tail = .leftParen then skipGroup rest.tail else rest.tail
      match next rest with
      | .keyword .null => (.setNull, afterGroup)
      | .keyword .default => (.setDefault, afterGroup)
      | _ => (.noAction, rest)
    else if token.isWord "no" then (.noAction, skipWord "action" rest)
    else (.noAction, lexemes)

def referenceOption (reference : Reference) (lexemes : List Lexeme) :
    Except Halt (Turn Reference × List Lexeme) :=
  let rest := lexemes.tail
  let token := next lexemes
  if token = .keyword .on then
    match next rest with
    | .keyword .delete =>
      let (action, after) := readAction rest.tail
      .ok (.again { reference with onDelete := action }, after)
    | .keyword .update =>
      let (action, after) := readAction rest.tail
      .ok (.again { reference with onUpdate := action }, after)
    | _ => .ok (.done reference, rest)
  else if token.isWord "match" then .ok (.again reference, rest.tail)
  else if token.isOneOf ["deferrable", "initially", "deferred", "immediate"] then
    .ok (.again reference, rest)
  else if token = .keyword .not && (next rest).isWord "deferrable" then
    .ok (.again reference, rest.tail)
  else .ok (.done reference, lexemes)

/-- `table (column, …) ON DELETE action ON UPDATE action`, and other options. -/
def readReference (lexemes : List Lexeme) : Except Halt (Reference × List Lexeme) :=
  match qualifiedName? lexemes with
  | none => halt "REFERENCES without a target table" (line? lexemes) lexemes
  | some (table, rest) =>
    let (columns, rest) := nameList rest
    repeatedly referenceOption ⟨table, columns, .noAction, .noAction⟩ rest

/-! ## Constraints of tables -/

/-- A constraint of a table before it has a name. -/
inductive TableClause where
  | primaryKey (columns : List String)
  | unique (columns : List String)
  | foreignKey (columns : List String) (reference : Reference)
  | check (condition : String)
  deriving DecidableEq

/-- Tokens before which the definition of a column or of a constraint ends. -/
def endsDefinition : Token → Bool
  | .comma | .rightParen | .semicolon | .eof | .keyword .create => true
  | _ => false

/-- Skips groups and tokens up to the end of a definition. -/
def skipDefinition (lexemes : List Lexeme) : List Lexeme :=
  (cut (fun depth token => token = .eof || (depth == 0 && endsDefinition token)) 0 lexemes).2

/-- A constraint of a table; `none` for one of another kind, which is skipped. -/
def readTableClause (lexemes : List Lexeme) :
    Except Halt (Option TableClause × List Lexeme) :=
  let rest := lexemes.tail
  match next lexemes with
  | .keyword .primary =>
    let (columns, after) := nameList (skip (.keyword .key) rest)
    .ok (some (.primaryKey columns), skipDefinition after)
  | .keyword .unique =>
    let (columns, after) := nameList (skip (.keyword .key) rest)
    .ok (some (.unique columns), skipDefinition after)
  | .keyword .foreign =>
    let (columns, after) := nameList (skip (.keyword .key) rest)
    match eat? (.keyword .references) after with
    | none => halt "FOREIGN KEY without REFERENCES" (line? lexemes) after
    | some after => do
      let (reference, after) ← readReference after
      return (some (.foreignKey columns reference), skipDefinition after)
  | .keyword .check =>
    let (condition, after) := parenthesized rest
    .ok (some (.check condition), skipDefinition after)
  | _ =>
    .ok (none, (cutOutside (fun token =>
      token = .comma || token = .rightParen || token = .semicolon) lexemes).2)

/-- Gives a constraint its name, or the usual one, and adds it to a table.  The columns of a
primary key are never null. -/
def TableClause.addTo (clause : TableClause) (name : Option String) (table : Table) : Table :=
  match clause with
  | .primaryKey columns =>
    let required := columns.foldl (fun found column =>
      found.update column fun column => { column with notNull := true }) table.columns
    { table with columns := required }.addConstraint
      (.primaryKey (name.getD (Naming.primaryKey table.name)) columns)
  | .unique columns =>
    table.addConstraint (.unique (name.getD (Naming.unique table.name columns)) columns)
  | .foreignKey columns reference =>
    table.addConstraint
      (.foreignKey (name.getD (Naming.foreignKey table.name columns)) (reference.key columns))
  | .check condition =>
    table.addConstraint (.check (name.getD (Naming.tableCheck table)) condition)

end SchemaEvolution.Sql
