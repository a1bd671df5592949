import SchemaEvolution.Keyed
import SchemaEvolution.Numeral.Binary64

/-!
# JSON values

Objects keep their members in the order of the text, repeated names included; `distinct`
keeps the last value of each name, at the place of the first.  Numbers within 64 bits are
integers; every other number is a double.
-/

namespace SchemaEvolution

/-- An integer of 64 bits, signed or unsigned, or a double. -/
inductive Json.Number where
  | integer (value : Int)
  | double (value : Binary64)
  deriving DecidableEq, Repr

inductive Json where
  | null
  | bool (value : Bool)
  | number (value : Json.Number)
  | string (value : String)
  | array (items : List Json)
  | object (members : List (String × Json))
  deriving Inhabited

namespace Json

/-- Integers and doubles differ even when they denote the same number; the zeros are alike. -/
def Number.same : Number → Number → Bool
  | .integer x, .integer y => x == y
  | .double x, .double y => x.same y
  | _, _ => false

instance : BEq Number := ⟨Number.same⟩

mutual

/-- Keeps the last value of each repeated name, at the place of the first. -/
def distinct : Json → Json
  | .array items => .array (distinctItems items)
  | .object members => .object (distinctMembers [] members)
  | value => value

def distinctItems : List Json → List Json
  | [] => []
  | item :: rest => item.distinct :: distinctItems rest

def distinctMembers (done : List (String × Json)) : List (String × Json) → List (String × Json)
  | [] => done
  | (name, value) :: rest => distinctMembers (Keyed.put name value.distinct done) rest

end

def member? (name : String) : Json → Option Json
  | .object members => Keyed.find? name members
  | _ => none

end Json

end SchemaEvolution
