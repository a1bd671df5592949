import SchemaEvolution.Patch.Apply

/-!
# Versions

A version is a numbered patch.  A history continues a schema of known number with versions
numbered one after the other.
-/

namespace SchemaEvolution.History

open Patch (Operation Refusal)

structure Version where
  number : UInt32
  operations : List Operation

def Version.toJson (version : Version) : Json :=
  .object [("number", .number (.integer version.number.toNat)),
    ("operations", .array (version.operations.map Operation.toJson))]

open Json (Shape) in
def Version.shape : Shape Version :=
  .record "struct Version"
    (.cons "number" .word none (.cons "operations" (.list Operation.shape) (some []) .nil))
    fun (number, operations, ()) => ⟨number, operations⟩

open Json (Shape) in
def Version.parseAll (text : String) : Except Json.ReadFault (List Version) :=
  (Shape.list Version.shape).parse text

inductive HistoryError where
  | outOfOrder (previous found : UInt32)
  | conflict (schemaId : String) (number : UInt32)
  | missingSnapshot (schemaId : String)
  deriving DecidableEq

def HistoryError.message : HistoryError → String
  | .outOfOrder previous found =>
    "version " ++ toString found ++ " cannot follow version " ++ toString previous
  | .conflict schemaId number =>
    "version " ++ toString number ++ " already exists for schema " ++ schemaId
  | .missingSnapshot schemaId => "no snapshot stored for " ++ schemaId

/-- The number after a number; there is none after the last one of 32 bits. -/
def successor? (number : UInt32) : Option UInt32 :=
  if number.toNat + 1 < UInt32.size then some (number + 1) else none

/-- A schema, the number of its version, and the refusals on the way with their versions. -/
structure Folded where
  schema : Schema
  number : UInt32
  refusals : List (UInt32 × Refusal)

/-- The number of the last version, if every version follows the one before it. -/
def lastNumber (previous : UInt32) : List Version → Except HistoryError UInt32
  | [] => .ok previous
  | version :: rest =>
    if successor? previous = some version.number then lastNumber version.number rest
    else .error (.outOfOrder previous version.number)

/-- One version on top of what was folded so far. -/
def Folded.step (folded : Folded) (version : Version) : Folded :=
  let outcome := Patch.applyAll folded.schema version.operations
  { schema := outcome.schema
    number := version.number
    refusals := folded.refusals ++ outcome.refusals.map fun refusal => (version.number, refusal) }

/-- Applies versions to a schema; nothing is applied unless all are in order. -/
def fold (base : Schema) (number : UInt32) (versions : List Version) :
    Except HistoryError Folded := do
  let _ ← lastNumber number versions
  return versions.foldl Folded.step ⟨base, number, []⟩

end SchemaEvolution.History
