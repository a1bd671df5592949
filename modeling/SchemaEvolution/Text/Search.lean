/-!
# Searching text

Occurrences of one list in another, their replacement, and the cutting of text at a separator.
-/

namespace SchemaEvolution.Text

def contains (whole part : List Char) : Bool :=
  part.isPrefixOf whole ||
    match whole with
    | [] => false
    | _ :: rest => contains rest part

def cutAt (separator : Char) : List Char → List (List Char)
  | [] => [[]]
  | c :: rest =>
    if c = separator then [] :: cutAt separator rest
    else
      match cutAt separator rest with
      | [] => [[c]]
      | piece :: others => (c :: piece) :: others

/-- Skips a number of characters, then puts `new` for every occurrence of `part`, from left to
right. -/
def replaceAfter (part new : List Char) : Nat → List Char → List Char
  | _, [] => []
  | skipped + 1, _ :: rest => replaceAfter part new skipped rest
  | 0, c :: rest =>
    if part.isPrefixOf (c :: rest) then new ++ replaceAfter part new (part.length - 1) rest
    else c :: replaceAfter part new 0 rest

/-- Puts `new` for every occurrence of `part`, from left to right; `part` is not empty. -/
def replace (part new cs : List Char) : List Char := replaceAfter part new 0 cs

def stripEnd? (part whole : List Char) : Option (List Char) :=
  if part.isSuffixOf whole then some (whole.take (whole.length - part.length)) else none

/-- Removes every leading and trailing occurrence of a character. -/
def stripChar (c : Char) (cs : List Char) : List Char :=
  ((cs.dropWhile (· == c)).reverse.dropWhile (· == c)).reverse

end SchemaEvolution.Text
