import SchemaEvolution.Diagnostic
import SchemaEvolution.Prisma.Expression
import SchemaEvolution.Repeated

/-!
# Blocks of Prisma schemas

A schema is a list of models and enums; blocks of other kinds are skipped.  A block that is not
closed is reported and left out, and reading goes on with the next one.
-/

namespace SchemaEvolution.Prisma

structure Field where
  name : String
  type : String
  typeArguments : List Argument
  optional : Bool
  list : Bool
  attributes : List Attribute
  doc : Option String
  line : Nat

structure Model where
  name : String
  fields : List Field
  attributes : List Attribute
  doc : Option String

structure EnumBlock where
  name : String
  values : List String
  mapped : Option String
  doc : Option String

inductive Block where
  | model (model : Model)
  | enum (block : EnumBlock)

def Field.databaseName (field : Field) : String := (mappedName? field.attributes).getD field.name

def Model.databaseName (model : Model) : String := (mappedName? model.attributes).getD model.name

def EnumBlock.databaseName (block : EnumBlock) : String := block.mapped.getD block.name

def Field.has (field : Field) (name : String) : Bool := (attribute? field.attributes name).isSome

def Model.has (model : Model) (name : String) : Bool := (attribute? model.attributes name).isSome

/-- What follows the type of a field on its line. -/
def fieldStep (field : Field) (lexemes : List Lexeme) :
    Except Empty (Turn Field × List Lexeme) :=
  let rest := lexemes.tail
  match next lexemes with
  | .at =>
    match Attribute.read? rest with
    | some (attr, after) =>
      .ok (.again { field with attributes := field.attributes ++ [attr] }, after)
    | none => .ok (.again field, skipLine rest)
  | .doc text => .ok (.again { field with doc := some (field.doc.getD text) }, rest)
  | .newline | .eof | .rightBrace => .ok (.done field, lexemes)
  | _ => .ok (.again field, rest)

/-- The field with a given name whose type comes next.  The error is what is left where there is
no type. -/
def Field.read (name : String) (doc : Option String) (line : Nat) (lexemes : List Lexeme) :
    Except (List Lexeme) (Field × List Lexeme) :=
  match word? lexemes with
  | none => .error lexemes
  | some (type, rest) =>
    let (type, rest) := dottedName type rest
    let (typeArguments, rest) := optionalArguments rest
    let (list, rest) := match eat? .leftBracket rest with
      | some after => (true, (eat? .rightBracket after).getD after)
      | none => (false, rest)
    let (isOptional, rest) := match eat? .question rest with
      | some after => (true, after)
      | none => (false, rest)
    let field := ⟨name, type, typeArguments, isOptional, list, [], doc, line⟩
    match repeatedly fieldStep field rest with
    | .ok result => .ok result

/-- A block that could not be read: why, what was reported before, and what is left. -/
structure BrokenBlock where
  diagnostics : List Diagnostic
  rest : List Lexeme

/-- Whether a block of its own begins here. -/
def opensBlock : List Lexeme → Bool
  | ⟨.word kind, _, _⟩ :: _ :: ⟨.leftBrace, _, _⟩ :: _ => kind == "model" || kind == "enum"
  | _ => false

/-- Skips to the next line that starts a block. -/
def skipToBlock (lexemes : List Lexeme) : List Lexeme :=
  lexemes.dropWhile fun lexeme =>
    match lexeme.token with
    | .eof => false
    | .word kind =>
      !(lexeme.startsLine && ["model", "enum", "datasource", "generator"].contains kind)
    | _ => true

/-- One line of a model that starts at `line`; the state also holds what was reported. -/
def modelStep (line : Nat) (state : Model × List Diagnostic) (lexemes : List Lexeme) :
    Except BrokenBlock (Turn (Model × List Diagnostic) × List Lexeme) :=
  let (model, diagnostics) := state
  let (doc, lexemes) := documentation lexemes
  let here := some (lineOf lexemes)
  let rest := lexemes.tail
  let unclosed := BrokenBlock.mk
    (diagnostics ++ [.error ("model " ++ model.name ++ " is missing its closing brace") line])
    lexemes
  match next lexemes with
  | .rightBrace => .ok (.done state, rest)
  | .eof => .error unclosed
  | .atAt =>
    match Attribute.read? rest with
    | some (attr, after) =>
      .ok (.again ({ model with attributes := model.attributes ++ [attr] }, diagnostics), after)
    | none => .ok (.again state, skipLine rest)
  | .word name =>
    if opensBlock lexemes then .error unclosed
    else
      match Field.read name doc (lineOf lexemes) rest with
      | .ok (field, after) =>
        .ok (.again ({ model with fields := model.fields ++ [field] }, diagnostics), after)
      | .error after =>
        .ok (.again (model, diagnostics ++ [.error ("field " ++ name ++ " has no type") here]),
          skipLine after)
  | _ =>
    .ok (.again (model, diagnostics ++
      [.warning ("unexpected token in model " ++ model.name) here]), skipLine lexemes)

/-- The header of a block: its name and its opening brace. -/
def readHeader (kind : String) (line : Nat) (lexemes : List Lexeme) :
    Except BrokenBlock (String × List Lexeme) :=
  match word? lexemes with
  | none => .error ⟨[.error (kind ++ " without a name") line], skipToBlock lexemes⟩
  | some (name, rest) =>
    match eat? .leftBrace rest with
    | none => .error ⟨[.error (kind ++ " " ++ name ++ " has no body") line], skipToBlock rest⟩
    | some inside => .ok (name, inside)

/-- A model, what was reported in it, and what is left. -/
def Model.read (doc : Option String) (line : Nat) (lexemes : List Lexeme) :
    Except BrokenBlock ((Model × List Diagnostic) × List Lexeme) := do
  let (name, inside) ← readHeader "model" line lexemes
  repeatedly (modelStep line) (⟨name, [], [], doc⟩, []) inside

/-- The next value or attribute of an enum that starts at `line`. -/
def enumStep (line : Nat) (block : EnumBlock) (lexemes : List Lexeme) :
    Except BrokenBlock (Turn EnumBlock × List Lexeme) :=
  let rest := lexemes.tail
  match next lexemes with
  | .rightBrace => .ok (.done block, rest)
  | .eof =>
    .error ⟨[.error ("enum " ++ block.name ++ " is missing its closing brace") line], lexemes⟩
  | .atAt =>
    match Attribute.read? rest with
    | some (attr, after) =>
      let block :=
        if attr.name == "map" then
          { block with mapped := attr.positional?.bind Expression.string? }
        else block
      .ok (.again block, after)
    | none => .ok (.again block, rest)
  | .word value =>
    .ok (.again { block with values := block.values ++ [value] }, skipLine lexemes)
  | _ => .ok (.again block, rest)

def EnumBlock.read (doc : Option String) (line : Nat) (lexemes : List Lexeme) :
    Except BrokenBlock (EnumBlock × List Lexeme) := do
  let (name, inside) ← readHeader "enum" line lexemes
  repeatedly (enumStep line) ⟨name, [], none, doc⟩ inside

/-! ## Schemas -/

/-- Skips a block of another kind to the brace that closes it; `none` where there is none. -/
def skipBraces? (depth : Nat) : List Lexeme → Option (List Lexeme)
  | [] => none
  | lexeme :: rest =>
    match lexeme.token with
    | .leftBrace => skipBraces? (depth + 1) rest
    | .rightBrace => if depth ≤ 1 then some rest else skipBraces? (depth - 1) rest
    | .eof => none
    | _ => skipBraces? depth rest

/-- The next block, what was reported in it, and what is left; no block where one was skipped. -/
def readBlock (kind : String) (doc : Option String) (line : Nat) (lexemes : List Lexeme) :
    Except BrokenBlock ((Option Block × List Diagnostic) × List Lexeme) :=
  match kind with
  | "model" => do
    let ((model, diagnostics), rest) ← Model.read doc line lexemes
    return ((some (.model model), diagnostics), rest)
  | "enum" => do
    let (block, rest) ← EnumBlock.read doc line lexemes
    return ((some (.enum block), []), rest)
  | "datasource" | "generator" | "type" | "view" =>
    match skipBraces? 0 (((word? lexemes).map Prod.snd).getD lexemes) with
    | some rest => .ok ((none, []), rest)
    | none => .error ⟨[.error "unterminated block" line], []⟩
  | other =>
    .error ⟨[.warning ("unknown top-level keyword " ++ other) line], skipLine lexemes⟩

/-- Blocks that have been read, and what was reported. -/
abbrev Blocks := List Block × List Diagnostic

/-- Reads a block and the documentation before it. -/
def schemaStep (state : Blocks) (lexemes : List Lexeme) :
    Except Empty (Turn Blocks × List Lexeme) :=
  let (blocks, diagnostics) := state
  let (doc, lexemes) := documentation lexemes
  let line := lineOf lexemes
  match next lexemes with
  | .eof => .ok (.done state, lexemes)
  | .word kind =>
    match readBlock kind doc line lexemes.tail with
    | .ok ((block, found), rest) =>
      .ok (.again (blocks ++ block.toList, diagnostics ++ found), rest)
    | .error broken => .ok (.again (blocks, diagnostics ++ broken.diagnostics), broken.rest)
  | _ =>
    .ok (.again (blocks, diagnostics ++ [.error "unexpected token at top level" line]),
      skipLine lexemes)

/-- The blocks of a schema, and what was reported. -/
def readBlocks (text : String) : Blocks :=
  match repeatedly schemaStep ([], []) (Lexeme.ofText text) with
  | .ok (blocks, _) => blocks

end SchemaEvolution.Prisma
