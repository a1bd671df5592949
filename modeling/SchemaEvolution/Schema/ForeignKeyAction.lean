import SchemaEvolution.Text.Letter
import SchemaEvolution.Text.LetterCase

/-!
# Referential actions

What happens to a referencing row when the referenced one is updated or deleted, with the
spellings that sources use for it.
-/

namespace SchemaEvolution

inductive ForeignKeyAction where
  | cascade
  | restrict
  | setNull
  | setDefault
  | noAction
  deriving DecidableEq, Repr, Inhabited

namespace ForeignKeyAction

def sql : ForeignKeyAction → String
  | .cascade => "CASCADE"
  | .restrict => "RESTRICT"
  | .setNull => "SET NULL"
  | .setDefault => "SET DEFAULT"
  | .noAction => "NO ACTION"

/-- The spelling as one word, used in documents. -/
def label : ForeignKeyAction → String
  | .cascade => "CASCADE"
  | .restrict => "RESTRICT"
  | .setNull => "SET_NULL"
  | .setDefault => "SET_DEFAULT"
  | .noAction => "NO_ACTION"

def all : List ForeignKeyAction := [.cascade, .restrict, .setNull, .setDefault, .noAction]

/-- Reads any spelling of the words, whatever their case and whatever stands between them. -/
def parse? (text : String) : Option ForeignKeyAction :=
  match Text.lower (String.ofList (text.toList.filter Text.isAlphanumeric)) with
  | "cascade" => some .cascade
  | "restrict" => some .restrict
  | "setnull" => some .setNull
  | "nullify" => some .setNull
  | "setdefault" => some .setDefault
  | "noaction" => some .noAction
  | _ => none

end ForeignKeyAction

end SchemaEvolution
