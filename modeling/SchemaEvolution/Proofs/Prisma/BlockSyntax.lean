import SchemaEvolution.Prisma.Block

/-!
# The syntax of models and enums

Models and enums are given by what they consist of, with the tokens that spell them and the value
that they stand for.  Every line ends by itself, with a comment or without one, and comments and
empty lines may stand between lines; commas and ends of lines may stand anywhere among arguments.
Values are those of blocks apart from the lines that fields stand on.
-/

namespace SchemaEvolution.Prisma

/-- A name, with the names after its dots. -/
structure Path where
  head : String
  parts : List String

namespace Path

def tokens (path : Path) : List Token :=
  .word path.head :: path.parts.flatMap fun part => [.dot, .word part]

def name (path : Path) : String := path.parts.foldl (fun done part => done ++ "." ++ part) path.head

end Path

mutual

/-- What an argument or an item may be. -/
inductive Term where
  | word (path : Path)
  | string (value : String)
  | number (digits : String)
  | list (items : Terms)
  | call (path : Path) (arguments : Arguments)

/-- What stands between the brackets of a list. -/
inductive Terms where
  | done
  | comma (more : Terms)
  | newline (more : Terms)
  | item (term : Term) (more : Terms)

/-- What stands between the parentheses of a call or an attribute. -/
inductive Arguments where
  | done
  | comma (more : Arguments)
  | newline (more : Arguments)
  | argument (name : Option String) (term : Term) (more : Arguments)

end

mutual

def Term.tokens : Term → List Token
  | .word path => path.tokens
  | .string value => [.string value]
  | .number digits => [.number digits]
  | .list items => .leftBracket :: items.tokens
  | .call path arguments => path.tokens ++ .leftParen :: arguments.tokens

/-- The tokens up to and with the closing bracket. -/
def Terms.tokens : Terms → List Token
  | .done => [.rightBracket]
  | .comma more => .comma :: more.tokens
  | .newline more => .newline :: more.tokens
  | .item term more => term.tokens ++ more.tokens

/-- The tokens up to and with the closing parenthesis. -/
def Arguments.tokens : Arguments → List Token
  | .done => [.rightParen]
  | .comma more => .comma :: more.tokens
  | .newline more => .newline :: more.tokens
  | .argument none term more => term.tokens ++ more.tokens
  | .argument (some name) term more => .word name :: .colon :: (term.tokens ++ more.tokens)

end

mutual

def Term.value : Term → Expression
  | .word path => .word path.name
  | .string value => .string value
  | .number digits => .number digits
  | .list items => .list items.values
  | .call path arguments => .call path.name arguments.values

def Terms.values : Terms → List Expression
  | .done => []
  | .comma more | .newline more => more.values
  | .item term more => term.value :: more.values

def Arguments.values : Arguments → List Argument
  | .done => []
  | .comma more | .newline more => more.values
  | .argument name term more => (name, term.value) :: more.values

end

def groupTokens (arguments : Option Arguments) : List Token :=
  (arguments.map fun arguments => .leftParen :: arguments.tokens).getD []

def groupValues (arguments : Option Arguments) : List Argument :=
  (arguments.map Arguments.values).getD []

/-- An attribute after its sign. -/
structure AttributeSyntax where
  path : Path
  arguments : Option Arguments

namespace AttributeSyntax

def tokens (attr : AttributeSyntax) : List Token := attr.path.tokens ++ groupTokens attr.arguments

def value (attr : AttributeSyntax) : Attribute := ⟨attr.path.name, groupValues attr.arguments⟩

end AttributeSyntax

/-- A field after its name. -/
structure FieldSyntax where
  type : Path
  typeArguments : Option Arguments
  isList : Bool
  isOptional : Bool
  attributes : List AttributeSyntax

namespace FieldSyntax

def marks (field : FieldSyntax) : List Token :=
  (if field.isList then [.leftBracket, .rightBracket] else []) ++
    if field.isOptional then [.question] else []

def attributeTokens (field : FieldSyntax) : List Token :=
  field.attributes.flatMap fun attr => .at :: attr.tokens

def tokens (field : FieldSyntax) : List Token :=
  field.type.tokens ++ (groupTokens field.typeArguments ++ (field.marks ++ field.attributeTokens))

def value (field : FieldSyntax) (name : String) (doc : Option String) : Field :=
  ⟨name, field.type.name, groupValues field.typeArguments, field.isOptional, field.isList,
    field.attributes.map AttributeSyntax.value, doc, 0⟩

end FieldSyntax

/-- What may stand between lines. -/
inductive Filler where
  | newline
  | comment (text : String)

def Filler.token : Filler → Token
  | .newline => .newline
  | .comment text => .doc text

def Filler.comment? : Filler → Option String
  | .newline => none
  | .comment text => some text

/-- The documentation that some comments give to what follows them. -/
def docOf (fillers : List Filler) : Option String :=
  let lines := fillers.filterMap Filler.comment?
  if lines.isEmpty then none else some ("\n".intercalate lines)

/-- The end of a line, with its comment if it has one, and what stands before the next one. -/
structure Ending where
  comment : Option String
  behind : List Filler

def Ending.fillers (ending : Ending) : List Filler :=
  (ending.comment.map Filler.comment).toList ++ .newline :: ending.behind

/-- The token may stand anywhere within a line: it is no brace, starts no attribute of a block and
is not the end. -/
structure IsCalm (token : Token) : Prop where
  leftBrace : token ≠ .leftBrace
  rightBrace : token ≠ .rightBrace
  atAt : token ≠ .atAt
  eof : token ≠ .eof

inductive ModelContent where
  | field (name : String) (declared : FieldSyntax)
  | attr (declared : AttributeSyntax)

/-- A value of an enum may have anything behind it on its line. -/
inductive EnumContent where
  | value (name : String) (behind : List Token)
      (hbehind : ∀ token ∈ behind, IsCalm token ∧ token ≠ .newline)
  | attr (declared : AttributeSyntax)

def ModelContent.tokens : ModelContent → List Token
  | .field name declared => .word name :: declared.tokens
  | .attr declared => .atAt :: declared.tokens

def EnumContent.tokens : EnumContent → List Token
  | .value name behind _ => .word name :: behind
  | .attr declared => .atAt :: declared.tokens

def lineTokens {α : Type} (tokens : α → List Token) (lines : List (α × Ending)) : List Token :=
  lines.flatMap fun line => tokens line.1 ++ line.2.fillers.map Filler.token

/-! ## Blocks -/

inductive BodySyntax where
  | model (lines : List (ModelContent × Ending))
  | enum (lines : List (EnumContent × Ending))

/-- A model or an enum, with what stands before it. -/
structure BlockSyntax where
  lead : List Filler
  name : String
  opening : Ending
  body : BodySyntax

/-- A model after some of its lines.  The comments before a field document it; where there are
none, its own comment does. -/
def extendModel (model : Model) (pending : List Filler) : List (ModelContent × Ending) → Model
  | [] => model
  | (.field name declared, ending) :: more =>
    let doc := (docOf pending).or ending.comment
    extendModel { model with fields := model.fields ++ [declared.value name doc] } ending.behind more
  | (.attr declared, ending) :: more =>
    extendModel { model with attributes := model.attributes ++ [declared.value] } ending.fillers more

def extendEnum (block : EnumBlock) : List (EnumContent × Ending) → EnumBlock
  | [] => block
  | (.value name _ _, _) :: more => extendEnum { block with values := block.values ++ [name] } more
  | (.attr declared, _) :: more =>
    extendEnum (if declared.value.name == "map" then
      { block with mapped := declared.value.positional?.bind Expression.string? } else block) more

namespace BlockSyntax

def isModel (block : BlockSyntax) : Bool :=
  match block.body with
  | .model _ => true
  | .enum _ => false

def kind (block : BlockSyntax) : String := if block.isModel then "model" else "enum"

def documentation (block : BlockSyntax) : Option String := docOf block.lead

/-- The block without what stands before it. -/
def undocumented (block : BlockSyntax) : BlockSyntax := { block with lead := [] }

def bodyTokens (block : BlockSyntax) : List Token :=
  match block.body with
  | .model lines => lineTokens ModelContent.tokens lines
  | .enum lines => lineTokens EnumContent.tokens lines

/-- The tokens from the name on and up to the closing brace. -/
def innerTokens (block : BlockSyntax) : List Token :=
  .word block.name :: .leftBrace ::
    (block.opening.fillers.map Filler.token ++ block.bodyTokens)

/-- The tokens of the block without its closing brace. -/
def openTokens (block : BlockSyntax) : List Token :=
  block.lead.map Filler.token ++ .word block.kind :: block.innerTokens

def tokens (block : BlockSyntax) : List Token := block.openTokens ++ [.rightBrace]

def value (block : BlockSyntax) : Block :=
  match block.body with
  | .model lines =>
    .model (extendModel ⟨block.name, [], [], block.documentation⟩ block.opening.fillers lines)
  | .enum lines => .enum (extendEnum ⟨block.name, [], none, block.documentation⟩ lines)

end BlockSyntax

/-- The tokens of a source: blocks one after the other, and the end. -/
def sourceTokens (blocks : List BlockSyntax) (trailing : List Filler) : List Token :=
  blocks.flatMap BlockSyntax.tokens ++ (trailing.map Filler.token ++ [.eof])

end SchemaEvolution.Prisma
