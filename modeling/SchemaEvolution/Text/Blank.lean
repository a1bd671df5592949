import SchemaEvolution.Text.CharSet

/-!
# White space

The character property White_Space, and the cutting of text at white space.
-/

namespace SchemaEvolution.Text

/-- Characters with the property White_Space. -/
def blankSet : CharSet := .mk
   [9, 14, 32, 33, 133, 134, 160, 161, 5760, 5761, 8192, 8203, 8232, 8234, 8239, 8240, 8287, 8288,
    12288, 12289]

def isBlank (c : Char) : Bool := blankSet.contains c

def trimStart (cs : List Char) : List Char := cs.dropWhile isBlank

def trimEnd (cs : List Char) : List Char := (cs.reverse.dropWhile isBlank).reverse

def trim (cs : List Char) : List Char := trimEnd (trimStart cs)

/-- The maximal runs of characters that are not white space. -/
def words (cs : List Char) : List (List Char) :=
  let (done, last) := cs.foldr
    (fun c (acc : List (List Char) × List Char) =>
      if isBlank c then (if acc.2.isEmpty then acc.1 else acc.2 :: acc.1, [])
      else (acc.1, c :: acc.2))
    ([], [])
  if last.isEmpty then done else last :: done

end SchemaEvolution.Text
