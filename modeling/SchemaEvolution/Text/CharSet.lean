/-!
# Sets of characters

A set of code points is written as the increasing list of the places where membership
changes.  Sets that belong to a standard's character property are given in full; a
question about a character of the ASCII range never reaches the table.
-/

namespace SchemaEvolution.Text

/-- A set of code points: the increasing list of the code points at which membership changes,
the first of them being the least member. -/
structure CharSet where
  changes : List Nat

namespace CharSet

/-- Whether the number of changes up to `code` is odd. -/
def containsFrom (inside : Bool) : List Nat → Nat → Bool
  | [], _ => inside
  | change :: rest, code => if code < change then inside else containsFrom (!inside) rest code

def contains (set : CharSet) (c : Char) : Bool := containsFrom false set.changes c.toNat

end CharSet

/-- The ASCII range, below which every property is decided without a table. -/
def isAscii (c : Char) : Bool := c.toNat < 128

end SchemaEvolution.Text
