import SchemaEvolution.Json.Fault
import SchemaEvolution.Patch.Operation

/-!
# Why an operation is refused

Its text is no path for it, its value does not fit what the path leads to, or what the path
leads to is not there.
-/

namespace SchemaEvolution.Patch

/-- Why a path does not suit an operation. -/
inductive PathReason where
  | unreadable (fault : PathFault)
  | required (field : String)
  | endOnlyForAdd
  deriving DecidableEq

def PathReason.message : PathReason → String
  | .unreadable fault => fault.message
  | .required field => field ++ " is required and cannot be removed"
  | .endOnlyForAdd => "'-' is only valid for add"

/-- Why a value does not fit. -/
inductive ValueReason where
  | undecodable (fault : Json.Fault)
  | nameTaken (name : String)
  | noSuchField (kind : String)
  | noSuchList (kind : String)

def ValueReason.message : ValueReason → String
  | .undecodable fault => fault.message
  | .nameTaken name => name ++ " already exists"
  | .noSuchField kind => "field does not exist on a " ++ kind ++ " constraint"
  | .noSuchList kind => "a " ++ kind ++ " constraint has no such list"

inductive Missing where
  | table (name : String)
  | column (table name : String)
  | index (table name : String)
  | constraint (table name : String)
  | enumType (name : String)
  | extension (name : String)
  | position (index length : Nat)
  | item (index : Nat)
  deriving DecidableEq

def Missing.message : Missing → String
  | .table name => "table " ++ name
  | .column owner name => "column " ++ owner ++ "." ++ name
  | .index owner name => "index " ++ owner ++ "." ++ name
  | .constraint owner name => "constraint " ++ owner ++ "." ++ name
  | .enumType name => "enum " ++ name
  | .extension name => "extension " ++ name
  | .position i length => "index " ++ Nat.repr i ++ " of a list of " ++ Nat.repr length
  | .item i => "index " ++ Nat.repr i

/-- What stands in the way of an operation, apart from where. -/
inductive Obstacle where
  | path (verb : Verb) (reason : PathReason)
  | value (reason : ValueReason)
  | missing (what : Missing)

/-- A refused operation: the text of its path, and the obstacle. -/
structure Refusal where
  path : String
  obstacle : Obstacle

def Refusal.message (refusal : Refusal) : String :=
  match refusal.obstacle with
  | .path verb reason =>
    "invalid path " ++ Text.quoted refusal.path ++ " for " ++ verb.label ++ ": " ++ reason.message
  | .value reason => "invalid value at " ++ Text.quoted refusal.path ++ ": " ++ reason.message
  | .missing what =>
    "target of " ++ Text.quoted refusal.path ++ " does not exist: " ++ what.message

end SchemaEvolution.Patch
