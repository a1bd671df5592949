import SchemaEvolution.Prisma.Lexeme

/-!
# Expressions and attributes of Prisma schemas

The arguments of attributes are literals, names, lists and calls.  Whatever is none of these is
skipped token by token.
-/

namespace SchemaEvolution.Prisma

inductive Expression where
  | word (name : String)
  | string (value : String)
  | number (digits : String)
  | list (items : List Expression)
  | call (name : String) (arguments : List (Option String × Expression))

namespace Expression

def name? : Expression → Option String
  | .word name => some name
  | _ => none

def string? : Expression → Option String
  | .string value => some value
  | _ => none

def number? : Expression → Option String
  | .number digits => some digits
  | _ => none

/-- The name that an item of a list gives: its own, or that of the call that it is. -/
def itemName? : Expression → Option String
  | .word name => some name
  | .call name _ => some name
  | _ => none

def names : Expression → List String
  | .list items => items.filterMap itemName?
  | .word name => [name]
  | _ => []

end Expression

abbrev Argument := Option String × Expression

/-- A name with the words that follow it after dots; dots without a word after them are
skipped. -/
def dottedName (name : String) : List Lexeme → String × List Lexeme
  | [] => (name, [])
  | [lexeme] => (name, if lexeme.token = .dot then [] else [lexeme])
  | lexeme :: part :: rest =>
    if lexeme.token = .dot then
      match part.token with
      | .word inner => dottedName (name ++ "." ++ inner) rest
      | _ => dottedName name (part :: rest)
    else (name, lexeme :: part :: rest)

theorem length_dottedName_le (name : String) (lexemes : List Lexeme) :
    (dottedName name lexemes).2.length ≤ lexemes.length := by
  fun_induction dottedName name lexemes with
  | case1 => simp
  | case2 _ lexeme => dsimp only; split <;> simp
  | case3 _ _ _ _ _ _ _ ih => simp only [List.length_cons] at ih ⊢; omega
  | case4 _ _ _ _ _ _ ih => simp only [List.length_cons] at ih ⊢; omega
  | case5 => simp

def argumentName? : List Lexeme → Option (String × List Lexeme)
  | ⟨.word name, _, _⟩ :: ⟨.colon, _, _⟩ :: rest => some (name, rest)
  | _ => none

theorem length_of_argumentName? {lexemes rest : List Lexeme} {name : String}
    (h : argumentName? lexemes = some (name, rest)) : rest.length < lexemes.length := by
  unfold argumentName? at h
  split at h
  · obtain ⟨-, rfl⟩ := Prod.mk.inj (Option.some.inj h)
    simp only [List.length_cons]
    omega
  · exact absurd h (by simp)

mutual

def readExpression? (lexemes : List Lexeme) : Option (Expression × List Lexeme) :=
  match lexemes with
  | [] => none
  | lexeme :: rest =>
    match lexeme.token with
    | .string value => some (.string value, rest)
    | .number digits => some (.number digits, rest)
    | .word name =>
      let path := (dottedName name rest).1
      match _h : (dottedName name rest).2 with
      | [] => some (.word path, [])
      | opening :: inside =>
        if opening.token = .leftParen then
          let (arguments, after) := readArguments inside
          some (.call path arguments, after)
        else some (.word path, opening :: inside)
    | .leftBracket =>
      let (items, after) := readItems rest
      some (.list items, after)
    | _ => none
termination_by (lexemes.length, 0)
decreasing_by
  · have hlength := length_dottedName_le name rest
    rw [_h] at hlength
    simp only [List.length_cons] at hlength ⊢
    exact Prod.Lex.left _ _ (by omega)
  · exact Prod.Lex.left _ _ (by simp)

/-- Reads arguments up to a closing parenthesis. -/
def readArguments (lexemes : List Lexeme) : List Argument × List Lexeme :=
  match lexemes with
  | [] => ([], [])
  | lexeme :: rest =>
    match lexeme.token with
    | .rightParen => ([], rest)
    | .comma | .newline => readArguments rest
    | .eof => ([], lexeme :: rest)
    | _ =>
      match _h : argumentName? (lexeme :: rest) with
      | some (name, value) =>
        match readExpression? value with
        | some (value, after) =>
          if after.length < (lexeme :: rest).length then
            let (arguments, after) := readArguments after
            ((some name, value) :: arguments, after)
          else ([(some name, value)], after)
        | none => readArguments value.tail
      | none =>
        match readExpression? (lexeme :: rest) with
        | some (value, after) =>
          if after.length < (lexeme :: rest).length then
            let (arguments, after) := readArguments after
            ((none, value) :: arguments, after)
          else ([(none, value)], after)
        | none => readArguments rest
termination_by (lexemes.length, 1)
decreasing_by
  · exact Prod.Lex.left _ _ (by simp)
  · exact Prod.Lex.left _ _ (length_of_argumentName? _h)
  · exact Prod.Lex.left _ _ (by assumption)
  · have hlength := length_of_argumentName? _h
    exact Prod.Lex.left _ _ (by simp only [List.length_tail]; omega)
  · exact Prod.Lex.right _ (by omega)
  · exact Prod.Lex.left _ _ (by assumption)
  · exact Prod.Lex.left _ _ (by simp)

/-- Reads the items of a list up to its closing bracket. -/
def readItems (lexemes : List Lexeme) : List Expression × List Lexeme :=
  match lexemes with
  | [] => ([], [])
  | lexeme :: rest =>
    match lexeme.token with
    | .rightBracket => ([], rest)
    | .comma | .newline => readItems rest
    | .eof => ([], lexeme :: rest)
    | _ =>
      match readExpression? (lexeme :: rest) with
      | some (item, after) =>
        if after.length < (lexeme :: rest).length then
          let (items, after) := readItems after
          (item :: items, after)
        else ([item], after)
      | none => readItems rest
termination_by (lexemes.length, 1)

end

/-- Reads arguments in parentheses; none where there are no parentheses. -/
def optionalArguments (lexemes : List Lexeme) : List Argument × List Lexeme :=
  match eat? .leftParen lexemes with
  | some inside => readArguments inside
  | none => ([], lexemes)

/-! ## Attributes -/

/-- An attribute of a field or a block: its name, with dots, and its arguments. -/
structure Attribute where
  name : String
  arguments : List Argument

namespace Attribute

/-- The first argument with a name. -/
def argument? (attr : Attribute) (name : String) : Option Expression :=
  (attr.arguments.find? fun argument => argument.1 == some name).map Prod.snd

/-- The first argument without a name. -/
def positional? (attr : Attribute) : Option Expression :=
  (attr.arguments.find? fun argument => argument.1.isNone).map Prod.snd

def read? (lexemes : List Lexeme) : Option (Attribute × List Lexeme) := do
  let (name, rest) ← word? lexemes
  let (name, rest) := dottedName name rest
  let (arguments, rest) := optionalArguments rest
  return (⟨name, arguments⟩, rest)

end Attribute

/-- The first attribute with a name. -/
def attribute? (attributes : List Attribute) (name : String) : Option Attribute :=
  attributes.find? fun candidate => candidate.name == name

def mappedName? (attributes : List Attribute) : Option String :=
  ((attribute? attributes "map").bind Attribute.positional?).bind Expression.string?

end SchemaEvolution.Prisma
