import SchemaEvolution.Proofs.Parts
import SchemaEvolution.Sql.Statement

/-!
# Scripts over the objects of a database

A statement names an object that has to be there, or one that must not be there, and leaves the
objects as it makes them.  A script runs over the objects that exist when every statement finds
what it names.
-/

namespace SchemaEvolution.Sql

/-- What a script may create and drop. -/
inductive Object where
  | table (name : String)
  | column (table name : String)
  | constraint (table name : String)
  | type (name : String)
  deriving DecidableEq

abbrev Objects := Object → Bool

def Object.table? : Object → Option String
  | .table name | .column name _ | .constraint name _ => some name
  | .type _ => none

def Object.moveTo (table : String) : Object → Object
  | .table _ => .table table
  | .column _ key => .column table key
  | .constraint _ key => .constraint table key
  | .type key => .type key

def Objects.ofSchema (schema : Schema) : Objects
  | .table name => schema.tables.contains name
  | .column table name => (schema.tables.get? table).any fun owner => owner.columns.contains name
  | .constraint table name =>
    (schema.tables.get? table).any fun owner => owner.constraints.contains name
  | .type name => schema.enums.contains name

/-- What creating a table makes: the table, its columns and the constraints they carry. -/
def createdBy (table : Table) : Objects
  | .table _ => true
  | .column _ name => table.columns.values.any fun column => column.name == name
  | .constraint _ name =>
    table.constraints.values.any fun constraint =>
      constraint.name == name && table.isInline constraint
  | .type _ => false

namespace Statement

/-- The object that a statement names, and whether it has to be there. -/
def named? : Statement → Option (Object × Bool)
  | .createTable table => some (.table table.name, false)
  | .dropTable name => some (.table name, true)
  | .alterTable table (.addColumn column) => some (.column table column.name, false)
  | .alterTable table (.dropColumn name) => some (.column table name, true)
  | .alterTable table (.addConstraint constraint) =>
    some (.constraint table constraint.name, false)
  | .alterTable table (.dropConstraint name) => some (.constraint table name, true)
  | .dropType name => some (.type name, true)
  | _ => none

/-- Whether an object is there after a statement that creates or drops it. -/
def decides? (statement : Statement) (object : Object) : Option Bool :=
  match statement with
  | .createTable table => if object.table? = some table.name then createdBy table object else none
  | .dropTable name => if object.table? = some name then some false else none
  | .createEnum type => if object = .type type.name then some true else none
  | statement =>
    match statement.named? with
    | some (named, present) => if object = named then some !present else none
    | none => none

/-- The statement gives something another name. -/
def renames : Statement → Bool
  | .renameType _ _ | .renameIndex _ _ | .alterTable _ (.rename _)
  | .alterTable _ (.renameColumn _ _) | .alterTable _ (.renameConstraint _ _) => true
  | _ => false

/-- Moves what was known of an object to another one. -/
def moved (objects : Objects) (source target : Object) : Objects := fun object =>
  if object = target then objects source else if object = source then false else objects object

def leaves (objects : Objects) (statement : Statement) : Objects :=
  match statement with
  | .renameType name target => moved objects (.type name) (.type target)
  | .alterTable table (.renameColumn name target) =>
    moved objects (.column table name) (.column table target)
  | .alterTable table (.renameConstraint name target) =>
    moved objects (.constraint table name) (.constraint table target)
  | .alterTable table (.rename target) => fun object =>
    if object.table? = some target then objects (object.moveTo table)
    else if object.table? = some table then false
    else objects object
  | statement => fun object => (statement.decides? object).getD (objects object)

def run? (objects : Objects) (statement : Statement) : Option Objects :=
  match statement.named? with
  | some (object, present) =>
    if objects object = present then some (statement.leaves objects) else none
  | none => some (statement.leaves objects)

end Statement

/-- Runs a script from start to end, if every statement finds what it names. -/
def runScript? (objects : Objects) (statements : List Statement) : Option Objects :=
  statements.foldlM Statement.run? objects

namespace Statement

def touches (object : Object) (statement : Statement) : Bool :=
  (statement.decides? object).isSome

def effect (object : Object) (present : Bool) (statement : Statement) : Option Bool :=
  if statement.named? = some (object, !present) then none
  else some ((statement.decides? object).getD present)

theorem touches_of_named {statement : Statement} {object : Object} {present : Bool}
    (hnamed : statement.named? = some (object, present)) : statement.touches object = true := by
  cases statement with
  | createTable | dropTable =>
    cases hnamed
    simp [touches, decides?, Object.table?]
  | createEnum type => cases hnamed
  | _ => simp [touches, decides?, hnamed]

theorem leaves_of_not_renames {statement : Statement} (hrenames : statement.renames = false)
    (objects : Objects) (object : Object) :
    statement.leaves objects object = (statement.decides? object).getD (objects object) := by
  unfold leaves
  split <;> first | rfl | cases hrenames

/-- A statement that gives no names does to each object what it does to it alone. -/
theorem run?_agrees {statement : Statement} (hrenames : statement.renames = false)
    (objects : Objects) :
    Parts.Agrees (fun (object : Object) (objects : Objects) => objects object) touches effect
      statement objects (statement.run? objects) := by
  have hleaves : ∀ object, (∀ present, statement.named? = some (object, present) →
      objects object = present) →
      if touches object statement then
        effect object (objects object) statement = some (statement.leaves objects object)
      else statement.leaves objects object = objects object := by
    intro object hfound
    rw [leaves_of_not_renames hrenames]
    have hpresent : statement.named? ≠ some (object, !objects object) := by
      intro hnamed
      have := hfound _ hnamed
      cases hobject : objects object <;> simp [hobject] at this
    rw [effect, if_neg hpresent, touches]
    cases statement.decides? object <;> rfl
  rw [run?]
  cases hnamed : statement.named? with
  | none =>
    intro object
    exact hleaves object fun present h => by rw [hnamed] at h; cases h
  | some named =>
    obtain ⟨object, present⟩ := named
    by_cases hfound : objects object = present
    · simp only [hfound, if_true]
      intro other
      refine hleaves other fun present h => ?_
      rw [hnamed] at h
      cases h
      exact hfound
    · simp only [hfound, if_false]
      refine ⟨object, touches_of_named hnamed, ?_⟩
      have hnot : present = !objects object := by
        cases present <;> cases hobject : objects object <;> simp_all
      rw [effect, if_pos (by rw [hnamed, hnot])]

end Statement

end SchemaEvolution.Sql
