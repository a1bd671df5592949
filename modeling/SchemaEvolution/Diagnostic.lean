import SchemaEvolution.Schema.Document

/-!
# Diagnostics

Reading a source never fails outright: it gives the schema of everything that could be
understood, and a diagnostic for everything that could not.
-/

namespace SchemaEvolution

inductive Severity where
  | warning
  | error
  deriving DecidableEq, Repr

def Severity.label : Severity → String
  | .warning => "warning"
  | .error => "error"

/-- A fragment of a source that could not be understood, with its line if that is known. -/
structure Diagnostic where
  severity : Severity
  message : String
  line : Option Nat
  deriving DecidableEq, Repr

namespace Diagnostic

def error (message : String) (line : Option Nat) : Diagnostic := ⟨.error, message, line⟩

def warning (message : String) (line : Option Nat) : Diagnostic := ⟨.warning, message, line⟩

def display (d : Diagnostic) : String :=
  let place := match d.line with
    | some line => " at line " ++ toString line
    | none => ""
  d.severity.label ++ place ++ ": " ++ d.message

def toJson (d : Diagnostic) : Json :=
  .object [("severity", .string d.severity.label), ("message", .string d.message),
    ("line", match d.line with
      | some line => .number (.integer line)
      | none => .null)]

end Diagnostic

/-- What a source gave: a schema, and diagnostics in the order of the source. -/
structure Import where
  schema : Schema
  diagnostics : List Diagnostic

namespace Import

def hasErrors (result : Import) : Bool := result.diagnostics.any fun d => d.severity == .error

def toJson (result : Import) : Json :=
  .object [("schema", result.schema.toJson),
    ("errors", .array (result.diagnostics.map Diagnostic.toJson))]

/-- Nothing but one error. -/
def failure (message : String) (line : Option Nat) : Import :=
  ⟨.empty, [.error message line]⟩

end Import

end SchemaEvolution
