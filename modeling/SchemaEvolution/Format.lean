import SchemaEvolution.Json.Reader
import SchemaEvolution.Text.Blank
import SchemaEvolution.Text.LetterCase
import SchemaEvolution.Text.Search

/-!
# Source formats

The formats in which a schema may be written, their names, and how the format of a source
is told from its text.
-/

namespace SchemaEvolution

inductive Format where
  | auto
  | postgres
  | prisma
  | schemaRb
  | drizzle
  | tbls
  | native
  deriving DecidableEq, Repr

namespace Format

def label : Format → String
  | .auto => "auto"
  | .postgres => "postgres"
  | .prisma => "prisma"
  | .schemaRb => "schemarb"
  | .drizzle => "drizzle"
  | .tbls => "tbls"
  | .native => "native"

def ofName? (name : String) : Option Format :=
  match Text.lower name with
  | "auto" => some .auto
  | "postgres" | "postgresql" | "sql" => some .postgres
  | "prisma" => some .prisma
  | "schemarb" | "schema.rb" | "rails" => some .schemaRb
  | "drizzle" => some .drizzle
  | "tbls" => some .tbls
  | "native" | "json" => some .native
  | _ => none

def opensBlock (line : List Char) : Bool :=
  let line := Text.trimStart line
  ("model ".toList.isPrefixOf line || "enum ".toList.isPrefixOf line) &&
    (Text.trimEnd line).getLast? == some '\x7b'

def listsTables (source : List Char) : Bool :=
  match Json.parse (String.ofList source) with
  | .ok document =>
    match document.member? "tables" with
    | some (.array _) => true
    | _ => false
  | .error _ => false

/-- The format that a source looks like: an object by its tables, any other text by the words in
it. -/
def detect (source : String) : Format :=
  let chars := source.toList
  let has (word : String) : Bool := Text.contains chars word.toList
  let trimmed := Text.trimStart chars
  if trimmed.head? == some '\x7b' then
    if listsTables trimmed then .tbls else .native
  else if has "ActiveRecord::Schema" || has "create_table " then .schemaRb
  else if has "datasource " || has "generator " || (Text.cutAt '\n' chars).any opensBlock then
    .prisma
  else if has "drizzle-orm" || has "pgTable(" || has "mysqlTable(" then .drizzle
  else .postgres

/-- The format itself, or the one that the source looks like. -/
def resolve (format : Format) (source : String) : Format :=
  match format with
  | .auto => detect source
  | other => other

end Format

end SchemaEvolution
