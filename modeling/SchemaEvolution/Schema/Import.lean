import SchemaEvolution.Diagnostic

/-!
# Reading schema documents

A document that has the shape of a schema is that schema.  Any other document is taken
apart: each entry of each section stands or falls alone, and the entries that can not be
understood are reported.
-/

namespace SchemaEvolution.Schema

open Json (Shape)

def toDocument (schema : Schema) : String := schema.toJson.indented

/-- One section of a document: the entries that can be decoded, and a diagnostic for each of the
others. -/
def importSection {α : Type} (shape : Shape α) (name : String) (document : Json) :
    Keyed α × List Diagnostic :=
  match document.member? name with
  | none => (∅, [])
  | some .null => (∅, [])
  | some (.object members) =>
    members.foldl (fun (done, diagnostics) (key, value) =>
      match shape.decode .document value with
      | .ok entry => (done.insert key entry, diagnostics)
      | .error fault =>
        (done, diagnostics ++ [.error (name ++ "/" ++ key ++ ": " ++ fault.message) none]))
      (∅, [])
  | some _ => (∅, [.error ("`" ++ name ++ "` must be an object keyed by name") none])

/-- Every section of a document, entry by entry. -/
def importSections (document : Json) : Import :=
  let (tables, tableFaults) := importSection Table.shape "tables" document
  let (enums, enumFaults) := importSection EnumType.shape "enums" document
  let (extensions, extensionFaults) := importSection Extension.shape "extensions" document
  ⟨⟨tables, enums, extensions⟩, tableFaults ++ enumFaults ++ extensionFaults⟩

/-- Reads a document, entry by entry where it does not have the shape of a schema. -/
def ofDocument (text : String) : Import :=
  match shape.parse text with
  | .ok schema => ⟨schema, []⟩
  | .error _ =>
    match Json.parse text with
    | .error fault => .failure ("invalid JSON: " ++ fault.message) (some fault.line)
    | .ok (.object members) => importSections (.object members)
    | .ok _ => .failure "schema JSON must be an object" none

end SchemaEvolution.Schema
