import SchemaEvolution.Diagnostic
import SchemaEvolution.Drizzle.Expression
import SchemaEvolution.Repeated

/-!
# Declarations of Drizzle schemas

Variables whose values are tables or enumerated types, in the order of the source.  A declaration
of a table that can not be understood gives a warning, and reading goes on where it failed.
-/

namespace SchemaEvolution.Drizzle

/-- A column: the property that holds it, its SQL name, and the calls that make it. -/
structure ColumnDeclaration where
  key : String
  name : String
  builder : Chain
  deriving DecidableEq

/-- A table: the variable that holds it, its SQL name, its columns, and its options with the name
that stands for the table in them. -/
structure TableDeclaration where
  variableName : String
  name : String
  columns : List ColumnDeclaration
  parameter : Option String
  options : List Expression
  line : Nat
  deriving DecidableEq

structure EnumDeclaration where
  variableName : String
  name : String
  values : List String
  deriving DecidableEq

structure Declarations where
  tables : List TableDeclaration
  enums : List EnumDeclaration
  deriving DecidableEq

namespace TableDeclaration

def column? (table : TableDeclaration) (key : String) : Option ColumnDeclaration :=
  table.columns.find? fun column => column.key == key

/-- The SQL name of the column that a property holds. -/
def columnName (table : TableDeclaration) (key : String) : String :=
  ((table.column? key).map ColumnDeclaration.name).getD key

end TableDeclaration

namespace Declarations

def empty : Declarations := ⟨[], []⟩

def table? (d : Declarations) (variableName : String) : Option TableDeclaration :=
  d.tables.reverse.find? fun table => table.variableName == variableName

/-- The last enumerated type that a variable holds. -/
def enum? (d : Declarations) (variableName : String) : Option EnumDeclaration :=
  d.enums.reverse.find? fun type => type.variableName == variableName

end Declarations

def tableFunctions : List String := ["pgTable", "mysqlTable", "sqliteTable"]

def enumFunctions : List String := ["pgEnum", "mysqlEnum"]

/-- The function that a callee stands for, directly or as a member of a schema. -/
def functionOf? : Expression → Option String
  | .word name => some name
  | .member _ "table" => some "pgTable"
  | .member _ "enum" => some "pgEnum"
  | _ => none

def columnOf? (entry : String × Expression) : Option ColumnDeclaration :=
  entry.2.chain?.map fun builder =>
    ⟨entry.1, (builder.arguments.head?.bind Expression.string?).getD entry.1, builder⟩

/-- The columns that the second argument of a table declares, as an object or as a function. -/
def columnsOf? : Option Expression → Option (List ColumnDeclaration)
  | some (.object entries) => some (entries.filterMap columnOf?)
  | some (.arrow _ (.object entries)) => some (entries.filterMap columnOf?)
  | some (.arrow _ _) => some []
  | _ => none

/-- The options that the third argument of a table gives, and the name of its parameter. -/
def optionsOf : Option Expression → Option String × List Expression
  | some (.arrow parameters (.list items)) => (parameters.head?, items)
  | some (.arrow parameters (.object entries)) => (parameters.head?, entries.map Prod.snd)
  | some (.arrow parameters _) => (parameters.head?, [])
  | _ => (none, [])

def addEnum (d : Declarations) (variableName : String) (arguments : List Expression) :
    Declarations :=
  match arguments.head?.bind Expression.string? with
  | none => d
  | some name =>
    let values := ((arguments[1]?.map Expression.items).getD []).filterMap Expression.string?
    { d with enums := d.enums ++ [⟨variableName, name, values⟩] }

def addTable (d : Declarations) (variableName : String) (line : Nat)
    (arguments : List Expression) : Except Diagnostic Declarations :=
  match arguments.head?.bind Expression.string? with
  | none =>
    .error (.warning ("table \x60" ++ variableName ++ "\x60 has no literal name") (some line))
  | some name =>
    match columnsOf? arguments[1]? with
    | none => .error (.warning ("table \x60" ++ name ++ "\x60 has no column object") (some line))
    | some columns =>
      let (parameter, options) := optionsOf arguments[2]?
      .ok { d with tables := d.tables ++ [⟨variableName, name, columns, parameter, options, line⟩] }

/-- Adds what the value of a variable declares; most values declare nothing. -/
def addValue (d : Declarations) (variableName : String) (line : Nat) :
    Expression → Except Diagnostic Declarations
  | .call callee arguments =>
    match functionOf? callee with
    | none => .ok d
    | some function =>
      if enumFunctions.contains function then .ok (addEnum d variableName arguments)
      else if tableFunctions.contains function then addTable d variableName line arguments
      else .ok d
  | _ => .ok d

/-- Whether a function that makes tables is named before the end of a statement. -/
def namesTable (lexemes : List Lexeme) : Bool :=
  (lexemes.takeWhile fun lexeme => !(lexeme.token == .semicolon || lexeme.token == .eof)).any
    fun lexeme => tableFunctions.any fun name => lexeme.token == .word name

def declares (lexeme : Lexeme) : Bool :=
  lexeme.mayDeclare && [Token.word "const", .word "let", .word "var"].contains lexeme.token

/-- What follows the equals sign of a declaration, or what is left where there is none. -/
def initializer (lexemes : List Lexeme) : Except (List Lexeme) (List Lexeme) :=
  let ends (lexeme : Lexeme) : Bool := [.equals, .semicolon, .eof].contains lexeme.token
  match lexemes.dropWhile fun lexeme => !ends lexeme with
  | [] => .error []
  | lexeme :: rest => if lexeme.token = .equals then .ok rest else .error (lexeme :: rest)

/-- Declarations that have been read, and what was reported. -/
abbrev Extract := Declarations × List Diagnostic

/-- Reads a declaration of a variable, or skips a token that starts none. -/
def sourceStep (state : Extract) (lexemes : List Lexeme) :
    Except Empty (Turn Extract × List Lexeme) :=
  let (d, diagnostics) := state
  match lexemes with
  | [] => .ok (.done state, [])
  | lexeme :: rest =>
    if !declares lexeme then .ok (.again state, rest)
    else
      match next rest with
      | .word variableName =>
        match initializer rest.tail with
        | .error after => .ok (.again state, after)
        | .ok value =>
          match readExpression value with
          | (some expression, after) =>
            match addValue d variableName lexeme.line expression with
            | .ok d => .ok (.again (d, diagnostics), after)
            | .error warning => .ok (.again (d, diagnostics ++ [warning]), after)
          | (none, after) =>
            let warning := Diagnostic.warning
              ("could not interpret table definition \x60" ++ variableName ++ "\x60")
              (some lexeme.line)
            .ok (.again (d, if namesTable value then diagnostics ++ [warning] else diagnostics),
              after)
      | _ => .ok (.again state, rest)

/-- The declarations of a source, and what was reported. -/
def readDeclarations (text : String) : Extract :=
  match repeatedly sourceStep (.empty, []) (Lexeme.ofText text) with
  | .ok (state, _) => state

end SchemaEvolution.Drizzle
