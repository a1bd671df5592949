import SchemaEvolution.Schema.Basic

/-!
# Default names

The names that constraints and indexes have when a source gives them none: the table, the
columns, and what the thing is.
-/

namespace SchemaEvolution.Naming

def joined (columns : List String) : String := "_".intercalate columns

def primaryKey (table : String) : String := table ++ "_pkey"

def unique (table : String) (columns : List String) : String :=
  table ++ "_" ++ joined columns ++ "_key"

def foreignKey (table : String) (columns : List String) : String :=
  table ++ "_" ++ joined columns ++ "_fkey"

def check (table column : String) : String := table ++ "_" ++ column ++ "_check"

def index (table : String) (columns : List String) : String :=
  table ++ "_" ++ joined columns ++ "_idx"

/-- A name with a number after it; zero stands for no number. -/
def numbered (base : String) : Nat → String
  | 0 => base
  | n + 1 => base ++ toString (n + 1)

/-- The first of the names `base`, `base1`, `base2`, … under which nothing is stored.  One more
name than there are entries is enough to find it. -/
def firstFree {α : Type} (entries : Keyed α) (base : String) : String :=
  let candidates := (List.range (entries.size + 1)).map (numbered base)
  (candidates.find? fun candidate => !entries.contains candidate).getD base

/-- The name of a check of a whole table: the first free one. -/
def tableCheck (table : Table) : String := firstFree table.constraints (table.name ++ "_check")

end SchemaEvolution.Naming
