import SchemaEvolution.Json.Value
import SchemaEvolution.Numeral.Shortest

/-!
# Printing JSON

The compact form has no white space at all.  The indented form puts every member and item
on a line of its own, two spaces deeper than what encloses it, and keeps empty brackets
together.
-/

namespace SchemaEvolution.Json

def hexDigit (n : Nat) : Char := Nat.digitChar n

/-- One character of a string: quotes, backslashes and controls are escaped. -/
def escapedChar (c : Char) : List Char :=
  match c with
  | '"' => ['\\', '"']
  | '\\' => ['\\', '\\']
  | '\n' => ['\\', 'n']
  | '\r' => ['\\', 'r']
  | '\t' => ['\\', 't']
  | '\x08' => ['\\', 'b']
  | '\x0c' => ['\\', 'f']
  | c =>
    if c.toNat < 32 then ['\\', 'u', '0', '0', hexDigit (c.toNat / 16), hexDigit (c.toNat % 16)]
    else [c]

def stringChars (text : String) : List Char :=
  '"' :: text.toList.flatMap escapedChar ++ ['"']

def Number.text : Number → String
  | .integer value => toString value
  | .double value => Numeral.text value

mutual

def compactChars : Json → List Char
  | .null => "null".toList
  | .bool true => "true".toList
  | .bool false => "false".toList
  | .number value => value.text.toList
  | .string value => stringChars value
  | .array items => '[' :: compactItems items ++ [']']
  | .object members => '\x7b' :: compactMembers members ++ ['\x7d']

def compactItems : List Json → List Char
  | [] => []
  | [item] => item.compactChars
  | item :: rest => item.compactChars ++ ',' :: compactItems rest

def compactMembers : List (String × Json) → List Char
  | [] => []
  | [(name, value)] => stringChars name ++ ':' :: value.compactChars
  | (name, value) :: rest =>
    stringChars name ++ ':' :: value.compactChars ++ ',' :: compactMembers rest

end

/-- The text without white space. -/
def compact (value : Json) : String := String.ofList value.compactChars

def newLine (depth : Nat) : List Char := '\n' :: List.replicate (2 * depth) ' '

mutual

def indentedChars (depth : Nat) : Json → List Char
  | .array [] => ['[', ']']
  | .array items => '[' :: indentedItems (depth + 1) items ++ newLine depth ++ [']']
  | .object [] => ['\x7b', '\x7d']
  | .object members => '\x7b' :: indentedMembers (depth + 1) members ++ newLine depth ++ ['\x7d']
  | .null => compactChars .null
  | .bool value => compactChars (.bool value)
  | .number value => compactChars (.number value)
  | .string value => compactChars (.string value)

def indentedItems (depth : Nat) : List Json → List Char
  | [] => []
  | [item] => newLine depth ++ item.indentedChars depth
  | item :: rest => newLine depth ++ item.indentedChars depth ++ ',' :: indentedItems depth rest

def indentedMembers (depth : Nat) : List (String × Json) → List Char
  | [] => []
  | [(name, value)] => newLine depth ++ stringChars name ++ ':' :: ' ' :: value.indentedChars depth
  | (name, value) :: rest =>
    newLine depth ++ stringChars name ++ ':' :: ' ' :: value.indentedChars depth ++
      ',' :: indentedMembers depth rest

end

/-- The text with one member or item a line. -/
def indented (value : Json) : String := String.ofList (value.indentedChars 0)

end SchemaEvolution.Json
