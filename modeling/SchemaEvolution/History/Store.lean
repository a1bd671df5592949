import SchemaEvolution.History.Version

/-!
# Stores

A store keeps, for each schema, the latest snapshot and the versions appended since, and
takes a version only if it comes right after the latest number.
-/

namespace SchemaEvolution.History

/-- What is stored for one schema. -/
structure Stored where
  snapshot : Option (Schema × UInt32)
  versions : List Version

namespace Stored

def empty : Stored := ⟨none, []⟩

/-- The greater of the numbers of the snapshot and of the last version; zero without either. -/
def latest (stored : Stored) : UInt32 :=
  let base := match stored.snapshot with
    | some (_, number) => number
    | none => 0
  match stored.versions.getLast? with
  | some version => max version.number base
  | none => base

def since (stored : Stored) (number : UInt32) : List Version :=
  stored.versions.filter fun version => number < version.number

end Stored

/-- What is stored, under the names of the schemas. -/
structure Store where
  schemas : Keyed Stored

namespace Store

def empty : Store := ⟨∅⟩

def entry (store : Store) (id : String) : Stored := (store.schemas.get? id).getD .empty

def saveSnapshot (store : Store) (id : String) (schema : Schema) (number : UInt32) : Store :=
  ⟨store.schemas.insert id { store.entry id with snapshot := some (schema, number) }⟩

/-- The latest number of a schema that the store has heard of. -/
def latestNumber? (store : Store) (id : String) : Option UInt32 :=
  (store.schemas.get? id).map Stored.latest

def snapshot? (store : Store) (id : String) : Option (Schema × UInt32) :=
  (store.schemas.get? id).bind Stored.snapshot

def versionsSince (store : Store) (id : String) (number : UInt32) : List Version :=
  (store.entry id).since number

def appendError? (id : String) (stored : Stored) (version : Version) : Option HistoryError :=
  if version.number ≤ stored.latest then some (.conflict id version.number)
  else if successor? stored.latest ≠ some version.number then
    some (.outOfOrder stored.latest version.number)
  else none

/-- Appends a version.  The store has heard of the schema from then on, even if it refuses. -/
def append (store : Store) (id : String) (version : Version) : Store × Option HistoryError :=
  let stored := store.entry id
  match appendError? id stored version with
  | some error => (⟨store.schemas.insert id stored⟩, some error)
  | none =>
    (⟨store.schemas.insert id { stored with versions := stored.versions ++ [version] }⟩, none)

/-- The latest snapshot brought up to the latest version. -/
def reconstruct (store : Store) (id : String) : Except HistoryError Folded :=
  match store.snapshot? id with
  | none => .error (.missingSnapshot id)
  | some (schema, number) => fold schema number (store.versionsSince id number)

end Store

end SchemaEvolution.History
