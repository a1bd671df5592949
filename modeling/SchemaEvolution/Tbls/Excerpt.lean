import SchemaEvolution.Schema.ForeignKeyAction
import SchemaEvolution.Text.Blank
import SchemaEvolution.Text.Search
import SchemaEvolution.Text.WordChar

/-!
# Excerpts from definitions

Some details of an index or a constraint are only in the text of its definition.  They are found
by the key words before them, in any case; a key word starts where a word starts.
-/

namespace SchemaEvolution.Tbls

/-- Whether a character is a small letter or its capital.  The long s and the sign of the kelvin
are such letters too. -/
def isLetter (letter c : Char) : Bool :=
  c.toLower == letter || (letter == 's' && c == 'ſ') || (letter == 'k' && c == '\u212a')

/-- What follows a word, given in small letters. -/
def afterLetters? : List Char → List Char → Option (List Char)
  | [], cs => some cs
  | _ :: _, [] => none
  | letter :: letters, c :: rest => if isLetter letter c then afterLetters? letters rest else none

def afterWord? (word : String) (cs : List Char) : Option (List Char) :=
  afterLetters? word.toList cs

/-- What follows white space, if there is any. -/
def afterBlanks? (cs : List Char) : Option (List Char) :=
  if (cs.head?.map Text.isBlank).getD false then some (Text.trimStart cs) else none

/-- What follows two words with white space between them. -/
def afterWords? (first second : String) (cs : List Char) : Option (List Char) := do
  let rest ← afterWord? first cs
  let rest ← afterBlanks? rest
  afterWord? second rest

/-- The rests of a text that start with a word; `inWord` tells that a word has begun before. -/
def wordStarts (inWord : Bool) : List Char → List (List Char)
  | [] => []
  | c :: rest =>
    let later := wordStarts (Text.isWordChar c) rest
    if Text.isWordChar c && !inWord then (c :: rest) :: later else later

/-- The text of a referential action at the front, if there is one. -/
def actionText? (cs : List Char) : Option String :=
  let rest? := (afterWord? "cascade" cs).or <| (afterWord? "restrict" cs).or <|
    (afterWords? "set" "null" cs).or <| (afterWords? "set" "default" cs).or <|
    afterWords? "no" "action" cs
  rest?.map fun rest => String.ofList (cs.take (cs.length - rest.length))

/-- `ON DELETE action` or `ON UPDATE action`: whether it is about deletion, and the action. -/
def actionClause? (cs : List Char) : Option (Bool × ForeignKeyAction) := do
  let rest ← afterWord? "on" cs
  let rest ← afterBlanks? rest
  let (isDelete, rest) ←
    ((afterWord? "delete" rest).map (true, ·)).or ((afterWord? "update" rest).map (false, ·))
  let rest ← afterBlanks? rest
  let text ← actionText? rest
  let action ← ForeignKeyAction.parse? text
  return (isDelete, action)

/-- The last action in a definition for deletion or for updates. -/
def actionFor (isDelete : Bool) (definition : String) : ForeignKeyAction :=
  let found := (wordStarts false definition.toList).filterMap actionClause?
  (((found.filter fun clause => clause.1 == isDelete).getLast?).map Prod.snd).getD .noAction

def isTargetChar (c : Char) : Bool := Text.isWordChar c || c == '.' || c == '"'

/-- `REFERENCES table (columns)`: the table and the text of the columns. -/
def targetClause? (cs : List Char) : Option (List Char × List Char) := do
  let rest ← afterWord? "references" cs
  let rest ← afterBlanks? rest
  let name := rest.takeWhile isTargetChar
  guard !name.isEmpty
  match Text.trimStart (rest.drop name.length) with
  | '(' :: inside =>
    let columns := inside.takeWhile (· != ')')
    guard (columns.length < inside.length)
    return (name, columns)
  | _ => none

/-- The first reference in a definition: the table without quotes, and the columns. -/
def target? (definition : String) : Option (String × List String) :=
  ((wordStarts false definition.toList).findSome? targetClause?).map fun (name, columns) =>
    (String.ofList (name.filter (· != '"')),
      ((Text.cutAt ',' columns).map fun column =>
        String.ofList (Text.stripChar '"' (Text.trim column))).filter (!·.isEmpty))

/-- `USING method`: the method. -/
def methodClause? (cs : List Char) : Option String := do
  let rest ← afterWord? "using" cs
  let rest ← afterBlanks? rest
  let method := rest.takeWhile Text.isWordChar
  guard !method.isEmpty
  return String.ofList method

def method? (definition : String) : Option String :=
  (wordStarts false definition.toList).findSome? methodClause?

/-- The condition of a definition that is nothing but a check in parentheses. -/
def condition? (definition : String) : Option String := do
  let rest ← afterWord? "check" (Text.trimStart definition.toList)
  match Text.trimStart rest with
  | '(' :: inside =>
    let inside := Text.trimEnd inside
    guard (inside.getLast? == some ')')
    return String.ofList (Text.trim inside.dropLast)
  | _ => none

end SchemaEvolution.Tbls
