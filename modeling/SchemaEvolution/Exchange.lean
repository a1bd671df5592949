import SchemaEvolution.Patch.Apply
import SchemaEvolution.Source
import SchemaEvolution.Sql.Migration

/-!
# Exchange in JSON

The three jobs of the library as functions from text to text: documents come in and go out,
and a refusal is a message.
-/

namespace SchemaEvolution.Exchange

def readSchema (document : String) : Except String Schema :=
  (Schema.shape.parse document).mapError fun fault => "invalid schema JSON: " ++ fault.message

/-- Reads a source in a named format, or in whatever format it looks like, to a document of its
schema and diagnostics. -/
def parseSchema (source : String) (format : Option String) : Except String String :=
  match format with
  | none => .ok (importSource .auto source).toJson.compact
  | some name =>
    match Format.ofName? name with
    | some format => .ok (importSource format source).toJson.compact
    | none => .error ("unknown format: " ++ name)

/-- Applies a document of operations to a document of a schema. -/
def applyOperations (schema ops : String) : Except String String := do
  let schema ← readSchema schema
  let ops ← (Patch.Operation.parseAll ops).mapError fun fault =>
    "invalid operations JSON: " ++ fault.message
  let outcome := Patch.applyAll schema ops
  let warnings := outcome.refusals.map fun refusal => Json.string refusal.message
  return (Json.object [("schema", outcome.schema.toJson), ("warnings", .array warnings)]).compact

/-- The migration between the schemas of two documents. -/
def migrate (before after : String) : Except String String := do
  let before ← readSchema before
  let after ← readSchema after
  let migration := Sql.migrationBetween before after
  return (Json.object [("ddl", .string migration.script),
    ("errors", .array (migration.messages.map .string))]).compact

end SchemaEvolution.Exchange
