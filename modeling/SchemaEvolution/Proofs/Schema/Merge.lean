import SchemaEvolution.Proofs.Keyed.Lookup
import SchemaEvolution.Schema.Merge

/-!
# Merged schemas as unions

The union of a newer and an older collection begins with the entries of the newer one, in their
order, and goes on with those that only the older one has, in theirs.  What stands under a name of
both is put together from the two values.  A union is known by its names and its look-ups, and the
laws of putting values together are laws of unions.

Merging forms unions at two levels.  Enumerated types and extensions of both schemas are those of
the newer one; tables of both are merged, so that their columns, indexes and constraints are unions
again.  The laws of merging are the laws of unions, first of tables and then of schemas.
-/

namespace SchemaEvolution.Keyed

universe u

variable {α : Type u}

/-- Stores an entry of the older collection: changed by what is under its name, if anything is. -/
def join (combine : α → α → α) (done : Keyed α) (entry : String × α) : Keyed α :=
  done.insert entry.1 <|
    match done.get? entry.1 with
    | some current => combine current entry.2
    | none => entry.2

/-- The newer collection, joined by the entries of the older one in order. -/
def unionWith (combine : α → α → α) (newer older : Keyed α) : Keyed α :=
  older.toList.foldl (join combine) newer

section Views

variable (combine : α → α → α)

theorem keys_join (done : Keyed α) (entry : String × α) :
    (join combine done entry).keys =
      if entry.1 ∈ done.keys then done.keys else done.keys ++ [entry.1] :=
  keys_insert ..

theorem get?_join (done : Keyed α) (entry : String × α) (key : String) :
    (join combine done entry).get? key =
      Option.merge combine (done.get? key) (if entry.1 = key then some entry.2 else none) := by
  rw [join, get?_insert]
  split
  · next heq =>
    subst heq
    cases done.get? entry.1 <;> rfl
  · cases done.get? key <;> rfl

/-- Joining adds the names that are new behind those that are there. -/
theorem keys_foldl_join (pairs : List (String × α)) (hdistinct : (pairs.map Prod.fst).Nodup)
    (done : Keyed α) :
    (pairs.foldl (join combine) done).keys =
      done.keys ++ (pairs.map Prod.fst).filter fun name => name ∉ done.keys := by
  induction pairs generalizing done with
  | nil => simp
  | cons entry rest ih =>
    rw [List.map_cons, List.nodup_cons] at hdistinct
    -- the name of the entry does not come again, so that storing it hides none of the rest
    have hrest : ((rest.map Prod.fst).filter fun name => name ∉ (join combine done entry).keys) =
        (rest.map Prod.fst).filter fun name => name ∉ done.keys := by
      refine List.filter_congr fun name hname => ?_
      have hne : name ≠ entry.1 := fun heq => hdistinct.1 (heq ▸ hname)
      rw [keys_join]
      split <;> simp [hne]
    rw [List.foldl_cons, ih hdistinct.2, hrest, keys_join, List.map_cons, List.filter_cons]
    by_cases hmem : entry.1 ∈ done.keys
    · simp [hmem]
    · simp [hmem]

/-- Joining finds the combination where both sides have the name. -/
theorem get?_foldl_join (pairs : List (String × α)) (hdistinct : (pairs.map Prod.fst).Nodup)
    (done : Keyed α) (key : String) :
    (pairs.foldl (join combine) done).get? key =
      Option.merge combine (done.get? key) (find? key pairs) := by
  induction pairs generalizing done with
  | nil =>
    rw [List.foldl_nil, find?]
    cases done.get? key <;> rfl
  | cons entry rest ih =>
    rw [List.map_cons, List.nodup_cons] at hdistinct
    rw [List.foldl_cons, ih hdistinct.2, get?_join, find?]
    split
    · next heq =>
      have hnone : find? key rest = none := find?_eq_none_iff.2 (heq ▸ hdistinct.1)
      rw [hnone]
      cases done.get? key <;> rfl
    · cases done.get? key <;> rfl

theorem keys_unionWith (newer older : Keyed α) :
    (unionWith combine newer older).keys =
      newer.keys ++ older.keys.filter fun name => name ∉ newer.keys :=
  keys_foldl_join combine older.toList older.distinct newer

theorem get?_unionWith (newer older : Keyed α) (key : String) :
    (unionWith combine newer older).get? key =
      Option.merge combine (newer.get? key) (older.get? key) :=
  get?_foldl_join combine older.toList older.distinct newer key

theorem mem_keys_unionWith {newer older : Keyed α} {name : String} :
    name ∈ (unionWith combine newer older).keys ↔ name ∈ newer.keys ∨ name ∈ older.keys := by
  rw [keys_unionWith, List.mem_append, List.mem_filter, decide_eq_true_iff]
  by_cases hname : name ∈ newer.keys <;> simp [hname]

end Views

theorem empty_unionWith (combine : α → α → α) (entries : Keyed α) :
    unionWith combine ∅ entries = entries := by
  refine ext_get? ?_ fun key => ?_
  · rw [keys_unionWith]
    exact List.filter_eq_self.2 fun _ _ => rfl
  · rw [get?_unionWith, get?_empty]
    cases entries.get? key <;> rfl

theorem unionWith_self {combine : α → α → α} (hsame : ∀ value, combine value value = value)
    (entries : Keyed α) : unionWith combine entries entries = entries := by
  refine ext_get? ?_ fun key => ?_
  · have hnone : (entries.keys.filter fun name => name ∉ entries.keys) = [] :=
      List.filter_eq_nil_iff.2 fun name hmem => by simp [hmem]
    rw [keys_unionWith, hnone, List.append_nil]
  · rw [get?_unionWith]
    cases entries.get? key with
    | none => rfl
    | some value => exact congrArg some (hsame value)

/-- A union of unions does not depend on which of them is formed first. -/
theorem unionWith_assoc {combine : α → α → α}
    (hassoc : ∀ new middle old, combine (combine new middle) old = combine new (combine middle old))
    (newest middle oldest : Keyed α) :
    unionWith combine (unionWith combine newest middle) oldest =
      unionWith combine newest (unionWith combine middle oldest) := by
  refine ext_get? ?_ fun key => ?_
  · -- the oldest names are sifted by the newest and the middle ones, in either order
    have hsifted : (oldest.keys.filter fun name => name ∉ (unionWith combine newest middle).keys) =
        (oldest.keys.filter fun name => name ∉ middle.keys).filter
          fun name => name ∉ newest.keys := by
      rw [List.filter_filter]
      refine List.filter_congr fun name _ => ?_
      rw [Bool.eq_iff_iff, Bool.and_eq_true, decide_eq_true_iff, decide_eq_true_iff,
        decide_eq_true_iff, mem_keys_unionWith, not_or]
    rw [keys_unionWith, hsifted, keys_unionWith, keys_unionWith, keys_unionWith,
      List.filter_append, List.append_assoc]
  · simp only [get?_unionWith]
    cases newest.get? key <;> cases middle.get? key <;> cases oldest.get? key <;>
      simp [Option.merge, hassoc]

end SchemaEvolution.Keyed

namespace SchemaEvolution

/-- All names of two collections are in the union, once each: those of the newer one, and after
them those that only the older one has.  What only one of them has is unchanged; what both have
meets in the union. -/
structure Keyed.IsUnion {α : Type} (meets : α → α → α → Prop) (newer older union : Keyed α) :
    Prop where
  keys : union.keys = newer.keys ++ older.keys.filter fun name => name ∉ newer.keys
  onlyNewer : ∀ name value, newer.get? name = some value → older.get? name = none →
    union.get? name = some value
  onlyOlder : ∀ name value, newer.get? name = none → older.get? name = some value →
    union.get? name = some value
  both : ∀ name value previous, newer.get? name = some value → older.get? name = some previous →
    ∃ merged, union.get? name = some merged ∧ meets value previous merged

/-- The union in which the newer collection wins on every common name. -/
def Keyed.Favours {α : Type} (newer older union : Keyed α) : Prop :=
  Keyed.IsUnion (fun value _ merged => merged = value) newer older union

structure Table.IsUnion (newer older union : Table) : Prop where
  name : union.name = newer.name
  comment : union.comment = newer.comment
  columns : Keyed.Favours newer.columns older.columns union.columns
  indexes : Keyed.Favours newer.indexes older.indexes union.indexes
  constraints : Keyed.Favours newer.constraints older.constraints union.constraints

/-- The newer schema, with what only the older one has in it and in the tables of both. -/
structure Schema.IsUnion (newer older union : Schema) : Prop where
  tables : Keyed.IsUnion Table.IsUnion newer.tables older.tables union.tables
  enums : Keyed.Favours newer.enums older.enums union.enums
  extensions : Keyed.Favours newer.extensions older.extensions union.extensions

theorem Keyed.isUnion_unionWith {α : Type} {combine : α → α → α} {meets : α → α → α → Prop}
    (hmeets : ∀ value previous, meets value previous (combine value previous))
    (newer older : Keyed α) : Keyed.IsUnion meets newer older (unionWith combine newer older) where
  keys := keys_unionWith combine newer older
  onlyNewer name value hnewer holder := by rw [get?_unionWith, hnewer, holder]; rfl
  onlyOlder name value hnewer holder := by rw [get?_unionWith, hnewer, holder]; rfl
  both name value previous hnewer holder :=
    ⟨combine value previous, by rw [get?_unionWith, hnewer, holder]; rfl, hmeets value previous⟩

section Backfill

variable {α : Type}

/-- To fill a collection up is to form the union in which its own entries stay. -/
theorem Keyed.backfill_eq_unionWith (newer older : Keyed α) :
    newer.backfill older = unionWith (fun value _ => value) newer older := by
  have hstep : (fun (done : Keyed α) (entry : String × α) =>
      if done.contains entry.1 then done else done.insert entry.1 entry.2) =
        join fun value _ => value := by
    funext done entry
    rw [join, contains]
    cases hvalue : done.get? entry.1 with
    | none => rfl
    | some value => exact (insert_eq_self hvalue).symm
  exact congrArg (fun step => older.toList.foldl step newer) hstep

theorem Keyed.backfill_favours (newer older : Keyed α) :
    Keyed.Favours newer older (newer.backfill older) := by
  rw [Favours, backfill_eq_unionWith]
  refine isUnion_unionWith ?_ newer older
  exact fun _ _ => rfl

theorem Keyed.backfill_assoc (newest middle oldest : Keyed α) :
    (newest.backfill middle).backfill oldest = newest.backfill (middle.backfill oldest) := by
  simp only [backfill_eq_unionWith]
  exact unionWith_assoc (fun _ _ _ => rfl) newest middle oldest

theorem Keyed.empty_backfill (entries : Keyed α) : (∅ : Keyed α).backfill entries = entries := by
  rw [backfill_eq_unionWith, empty_unionWith]

theorem Keyed.backfill_self (entries : Keyed α) : entries.backfill entries = entries := by
  rw [backfill_eq_unionWith, unionWith_self fun _ => rfl]

end Backfill

theorem Table.backfill_isUnion (newer older : Table) : newer.IsUnion older (newer.backfill older) :=
  ⟨rfl, rfl, Keyed.backfill_favours _ _, Keyed.backfill_favours _ _, Keyed.backfill_favours _ _⟩

theorem Table.backfill_assoc (newest middle oldest : Table) :
    (newest.backfill middle).backfill oldest = newest.backfill (middle.backfill oldest) := by
  simp only [backfill, Keyed.backfill_assoc]

theorem Table.backfill_self (table : Table) : table.backfill table = table := by
  simp only [backfill, Keyed.backfill_self]

/-! ## Merging -/

theorem Schema.merge_tables (older newer : Schema) :
    (older.merge newer).tables = Keyed.unionWith Table.backfill newer.tables older.tables := by
  rw [merge, Keyed.unionWith]
  refine List.foldl_ext _ _ _ fun done (name, table) _ => ?_
  dsimp only [Keyed.join]
  cases done.get? name <;> rfl

theorem Schema.merge_eq (older newer : Schema) : older.merge newer =
    ⟨Keyed.unionWith Table.backfill newer.tables older.tables,
      newer.enums.backfill older.enums, newer.extensions.backfill older.extensions⟩ := by
  rw [← merge_tables]
  rfl

theorem Schema.merge_isUnion (older newer : Schema) :
    newer.IsUnion older (older.merge newer) where
  tables := by
    rw [merge_tables]
    exact Keyed.isUnion_unionWith Table.backfill_isUnion newer.tables older.tables
  enums := Keyed.backfill_favours newer.enums older.enums
  extensions := Keyed.backfill_favours newer.extensions older.extensions

/-- Merging is associative, the empty schema changes nothing on either side, and merging a schema
with itself gives it back, each up to the order of all entries; and the merger of two schemas is
their union, in which the newer one wins. -/
theorem Schema.merge_laws :
    (∀ first second third : Schema,
      (first.merge second).merge third = first.merge (second.merge third)) ∧
    (∀ schema : Schema, Schema.empty.merge schema = schema ∧ schema.merge Schema.empty = schema ∧
      schema.merge schema = schema) ∧
    ∀ before after : Schema, after.IsUnion before (before.merge after) := by
  refine ⟨fun first second third => ?_, fun schema => ⟨?_, ?_, ?_⟩, fun before after => ?_⟩
  · simp only [merge_eq, Keyed.backfill_assoc, Keyed.unionWith_assoc Table.backfill_assoc]
  · rfl
  · rw [merge_eq]
    simp only [empty, Keyed.empty_unionWith, Keyed.empty_backfill]
  · rw [merge_eq, Keyed.unionWith_self Table.backfill_self, Keyed.backfill_self,
      Keyed.backfill_self]
  · exact merge_isUnion before after

end SchemaEvolution
