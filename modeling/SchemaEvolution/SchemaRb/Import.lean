import SchemaEvolution.Diagnostic
import SchemaEvolution.SchemaRb.Definition

/-!
# Reading schema files

Calls that define tables and what belongs to them are understood, wherever they start a line;
other lines are skipped.  A table whose block has no end is reported and left out.
-/

namespace SchemaEvolution.SchemaRb

def isWord (name : String) (lexemes : List Lexeme) : Bool := next lexemes == .word name

def skipBlock (lexemes : List Lexeme) : List Lexeme :=
  if isWord "do" lexemes then
    let closes (lexeme : Lexeme) : Bool := lexeme.token == .word "end" || lexeme.token == .eof
    match lexemes.dropWhile fun lexeme => !closes lexeme with
    | [] => []
    | lexeme :: rest => if lexeme.token = .word "end" then rest else lexeme :: rest
  else lexemes

/-- The name to which the calls of a block are addressed, and what follows it. -/
def blockReceiver (lexemes : List Lexeme) : String × List Lexeme :=
  if next lexemes = .pipe then
    let rest := lexemes.tail
    let name := match next rest with
      | .word name => name
      | _ => "t"
    (name, skip .pipe rest.tail)
  else ("t", lexemes)

/-- The next call of a block.  Fails where the block has no end. -/
def blockStep (receiver : String) (calls : List Call) (lexemes : List Lexeme) :
    Except (List Lexeme) (Turn (List Call) × List Lexeme) :=
  let rest := lexemes.tail
  let startsLine := (lexemes.head?.map Lexeme.startsLine).getD false
  match next lexemes with
  | .eof => .error lexemes
  | .word name =>
    if name == "end" then .ok (.done calls, rest)
    else if name == "create_table" && startsLine then .error lexemes
    else if name == receiver && next rest = .dot then
      let (call, after) := Call.read rest.tail
      .ok (.again (calls ++ [call]), after)
    else .ok (.again calls, rest)
  | _ => .ok (.again calls, rest)

/-- A table and its block; what follows it is read on even where the table is left out. -/
def readTable (state : Import) (lexemes : List Lexeme) : Import × List Lexeme :=
  let (call, rest) := Call.read lexemes
  let report (message : String) : Import :=
    { state with diagnostics := state.diagnostics ++ [.error message (some call.line)] }
  match call.argumentText? 0 with
  | none => (report "create_table without a table name", skipBlock rest)
  | some name =>
    let define (receiver : String) (body : List Call) : Import :=
      let (table, warnings) := tableOf name receiver call body
      ⟨state.schema.addTable table, state.diagnostics ++ warnings⟩
    if isWord "do" rest then
      let (receiver, inside) := blockReceiver rest.tail
      match repeatedly (blockStep receiver) [] inside with
      | .ok (body, after) => (define receiver body, after)
      | .error after => (report ("create_table \"" ++ name ++ "\" is missing \x60end\x60"), after)
    else (define "t" [], rest)

/-- Calls outside tables that are understood. -/
def topLevelCalls : List String :=
  ["add_foreign_key", "add_index", "enable_extension", "create_enum", "add_check_constraint"]

/-- Reads from a token that starts a line, or skips a token that does not. -/
def fileStep (state : Import) (lexemes : List Lexeme) :
    Except Empty (Turn Import × List Lexeme) :=
  match lexemes with
  | [] => .ok (.done state, [])
  | lexeme :: rest =>
    match lexeme.token with
    | .eof => .ok (.done state, lexemes)
    | .word name =>
      if !lexeme.startsLine then .ok (.again state, rest)
      else if name == "create_table" then
        let (state, after) := readTable state lexemes
        .ok (.again state, after)
      else if topLevelCalls.contains name then
        let (call, after) := Call.read lexemes
        .ok (.again (match addToSchema state.schema call with
          | .ok schema => { state with schema := schema }
          | .error diagnostic =>
            { state with diagnostics := state.diagnostics ++ [diagnostic] }), after)
      else .ok (.again state, lexemes.dropWhile fun lexeme =>
        !(lexeme.token == .newline || lexeme.token == .eof))
    | _ => .ok (.again state, rest)

end SchemaEvolution.SchemaRb

namespace SchemaEvolution

def Schema.ofSchemaRb (text : String) : Import :=
  match repeatedly SchemaRb.fileStep ⟨.empty, []⟩ (SchemaRb.Lexeme.ofText text) with
  | .ok (result, _) => result

end SchemaEvolution
