import SchemaEvolution.Proofs.Patch.Status

/-!
# Differences that only add

Where a difference only adds, nothing is gone and nothing that both schemas have is different.  So
the new schema is the old one with more entries, and the difference is what these entries are
added by, in the order of the new schema.
-/

namespace SchemaEvolution

/-- Everything is still there, and `Same` holds of what it was and what it is. -/
def Keyed.Grows {α : Type} (Same : α → α → Prop) (old new : Keyed α) : Prop :=
  ∀ name previous, old.get? name = some previous →
    ∃ value, new.get? name = some value ∧ Same previous value

theorem Keyed.Grows.of_get? {α : Type} {Same : α → α → Prop} {old new : Keyed α}
    (hgrows : old.Grows Same new) {name : String} {previous value : α}
    (hprevious : old.get? name = some previous) (hvalue : new.get? name = some value) :
    Same previous value := by
  obtain ⟨other, hother, hsame⟩ := hgrows name previous hprevious
  cases hvalue.symm.trans hother
  exact hsame

def Keyed.newValues {α : Type} (old new : Keyed α) : List α :=
  (new.toList.filter fun entry => !old.contains entry.1).map Prod.snd

/-- The new table is the old one with more columns, indexes and constraints. -/
structure Table.Grows (old new : Table) : Prop where
  comment : old.comment = new.comment
  columns : old.columns.Grows (fun previous value => (previous == value) = true) new.columns
  indexes : old.indexes.Grows Eq new.indexes
  constraints : old.constraints.Grows Eq new.constraints

/-- The new schema is the old one with more in it. -/
structure Schema.Grows (old new : Schema) : Prop where
  tables : old.tables.Grows Table.Grows new.tables
  enums : old.enums.Grows Eq new.enums
  extensions : old.extensions.Grows Eq new.extensions

theorem Keyed.mem_newValues_iff {α : Type} {old new : Keyed α} {value : α} :
    value ∈ old.newValues new ↔
      ∃ name, new.get? name = some value ∧ old.get? name = none := by
  simp only [newValues, List.mem_map, List.mem_filter, Prod.exists, exists_eq_right,
    ← Keyed.get?_eq_some_iff, Keyed.contains, Bool.not_eq_true', Option.isSome_eq_false_iff,
    Option.isNone_iff_eq_none]

theorem Keyed.mem_values_of_mem_newValues {α : Type} {old new : Keyed α} {value : α}
    (hmem : value ∈ old.newValues new) : value ∈ new.values := by
  obtain ⟨key, hvalue, -⟩ := Keyed.mem_newValues_iff.1 hmem
  exact Keyed.mem_values_iff.2 ⟨key, hvalue⟩

theorem Keyed.Grows.beq {α : Type} [BEq α] [ReflBEq α] {old new : Keyed α}
    (hgrows : old.Grows Eq new) :
    old.Grows (fun previous value => (previous == value) = true) new := by
  intro key previous hprevious
  obtain ⟨value, hvalue, rfl⟩ := hgrows key previous hprevious
  exact ⟨previous, hvalue, BEq.rfl⟩

/-- To store what is new beside what a collection has grown from gives the collection. -/
theorem Keyed.Grows.foldl_insert_beq {α : Type} [BEq α] [ReflBEq α] {name : α → String}
    {items : List α} {old new : Keyed α} (hnamed : new.Named name)
    (hgrows : old.Grows (fun previous value => (previous == value) = true) new)
    (hitems : ∀ value, value ∈ items ↔ value ∈ old.newValues new) :
    (items.foldl (fun found item => found.insert (name item) item) old == new) = true := by
  refine Keyed.foldl_insert_beq (fun item hmem => ?_) fun key hother => ?_
  · obtain ⟨key, hvalue, -⟩ := Keyed.mem_newValues_iff.1 ((hitems item).1 hmem)
    rw [hnamed.of_get? hvalue, hvalue]
  · cases hold : old.get? key with
    | some previous =>
      obtain ⟨value, hvalue, hsame⟩ := hgrows key previous hold
      rw [hvalue]
      exact hsame
    | none =>
      cases hvalue : new.get? key with
      | none => rfl
      | some value =>
        have hmem := (hitems value).2 (Keyed.mem_newValues_iff.2 ⟨key, hvalue, hold⟩)
        exact absurd (hnamed.of_get? hvalue) (hother value hmem)

@[simp]
theorem Keyed.newValues_empty {α : Type} (new : Keyed α) :
    (∅ : Keyed α).newValues new = new.values := by
  have hall : new.toList.filter (fun entry => !(∅ : Keyed α).contains entry.1) = new.toList :=
    List.filter_eq_self.2 fun _ _ => rfl
  rw [newValues, hall]
  rfl

theorem Keyed.grows_empty {α : Type} (Same : α → α → Prop) (new : Keyed α) :
    (∅ : Keyed α).Grows Same new := nofun

theorem Schema.grows_empty (new : Schema) : Schema.empty.Grows new :=
  ⟨Keyed.grows_empty _ _, Keyed.grows_empty _ _, Keyed.grows_empty _ _⟩

end SchemaEvolution

namespace SchemaEvolution.Patch

theorem AllOf.eq_nil {verb other : Verb} {ops : List Operation} (hverb : AllOf verb ops)
    (hother : AllOf other ops) (hne : verb ≠ other) : ops = [] := by
  rw [List.eq_nil_iff_forall_not_mem]
  exact fun op hop => hne ((hverb op hop).symm.trans (hother op hop))

theorem AllOf.left {verb : Verb} {front back : List Operation} (hall : AllOf verb (front ++ back)) :
    AllOf verb front := fun op hop => hall op (List.mem_append_left back hop)

theorem AllOf.right {verb : Verb} {front back : List Operation}
    (hall : AllOf verb (front ++ back)) : AllOf verb back :=
  fun op hop => hall op (List.mem_append_right front hop)

theorem AllOf.flatMap {α : Type} {verb : Verb} {items : List α} {part : α → List Operation}
    (hpart : ∀ item ∈ items, AllOf verb (part item)) : AllOf verb (items.flatMap part) := by
  intro op hop
  obtain ⟨item, hitem, hmem⟩ := List.mem_flatMap.1 hop
  exact hpart item hitem op hmem

theorem AllOf.removes (names : List String) (path : String → Path) :
    AllOf .remove (names.map fun name => .remove (path name)) := by
  intro op hop
  obtain ⟨name, -, rfl⟩ := List.mem_map.1 hop
  rfl

theorem removals_verbs (old new : Schema) : AllOf .remove (removals old new) := by
  rw [removals_eq]
  refine ((AllOf.append ?_ (.removes _ _)).append (.removes _ _)).append (.removes _ _)
  refine .flatMap fun entry _ => ?_
  cases new.tables.get? entry.1 with
  | none => nofun
  | some table => exact ((AllOf.removes _ _).append (.removes _ _)).append (.removes _ _)

section Entries

variable {α : Type} {old new : Keyed α} {added : String → α → List Operation}
  {changed : String → α → α → List Operation}

/-- What an entry of both collections changes by is part of all changes. -/
theorem changed_subset {name : String} {previous value : α}
    (hprevious : old.get? name = some previous) (hvalue : new.get? name = some value) :
    changed name previous value ⊆ entryChanges old new added changed := by
  intro op hop
  refine List.mem_flatMap.2 ⟨(name, value), Keyed.get?_eq_some_iff.1 hvalue, ?_⟩
  simp only [hprevious]
  exact hop

/-- Adds alone leave nothing for an entry that only changes. -/
theorem changed_eq_nil (hadds : AllOf .add (entryChanges old new added changed)) {name : String}
    {previous value : α} (hprevious : old.get? name = some previous)
    (hvalue : new.get? name = some value) (hverbs : AllOf .replace (changed name previous value)) :
    changed name previous value = [] :=
  AllOf.eq_nil (fun op hop => hadds op (changed_subset hprevious hvalue hop)) hverbs (by decide)

theorem verb_ne_remove_entryChanges (hadded : ∀ name value, AllOf .add (added name value))
    (hchanged : ∀ name previous value, ∀ op ∈ changed name previous value, op.verb ≠ .remove) :
    ∀ op ∈ entryChanges old new added changed, op.verb ≠ .remove := by
  intro op hop
  obtain ⟨name, value, -, ⟨-, hmem⟩ | ⟨previous, -, hmem⟩⟩ := mem_entryChanges hop
  · rw [hadded name value op hmem]
    nofun
  · exact hchanged name previous value op hmem

end Entries

/-- What is not a removal is added or replaced in its turn. -/
theorem mem_arranged_of_changes {removals changes : List Operation} {op : Operation}
    (hop : op ∈ changes) (hverb : op.verb ≠ .remove) : op ∈ arranged removals changes := by
  cases hcase : op.verb with
  | add =>
    have hadd : op ∈ changes.filter fun op => op.verb == .add :=
      List.mem_filter.2 ⟨hop, beq_iff_eq.2 hcase⟩
    exact List.mem_append_left _ (List.mem_append_right _ hadd)
  | remove => exact absurd hcase hverb
  | replace => exact List.mem_append_right _ (List.mem_filter.2 ⟨hop, beq_iff_eq.2 hcase⟩)

theorem AllOf.ne_remove {ops : List Operation} (hall : AllOf .replace ops) :
    ∀ op ∈ ops, op.verb ≠ .remove := by
  intro op hop
  rw [hall op hop]
  nofun

/-- The changes of a table remove nothing. -/
theorem tableChanges_verb_ne_remove (name : String) (old new : Table) :
    ∀ op ∈ tableChanges name old new, op.verb ≠ .remove := by
  intro op hop
  rcases List.mem_append.1 hop with hop | hop
  · rcases List.mem_append.1 hop with hop | hop
    · rcases List.mem_append.1 hop with hop | hop
      · exact (AllOf.replaceField _ _ _ _).ne_remove op hop
      · exact verb_ne_remove_entryChanges (fun _ _ => .add _ _)
          (fun _ _ _ => (columnChanges_verbs _ _ _ _).ne_remove) op hop
    · exact verb_ne_remove_entryChanges (fun _ _ => .add _ _)
        (fun _ _ _ => (indexChanges_verbs _ _ _ _).ne_remove) op hop
  · refine verb_ne_remove_entryChanges (fun _ _ => .add _ _) (fun key previous value => ?_) op hop
    rcases constraintChanges_sameVerb name key previous value with hverbs | hverbs
    · exact hverbs.ne_remove
    · intro op hop
      rw [hverbs op hop]
      nofun

/-- The changes remove nothing. -/
theorem changes_verb_ne_remove (old new : Schema) : ∀ op ∈ changes old new, op.verb ≠ .remove := by
  intro op hop
  rcases List.mem_append.1 hop with hop | hop
  · rcases List.mem_append.1 hop with hop | hop
    · exact verb_ne_remove_entryChanges (fun _ _ => .add _ _)
        (fun _ _ _ => (extensionChanges_verbs _ _ _).ne_remove) op hop
    · exact verb_ne_remove_entryChanges (fun _ _ => .add _ _)
        (fun _ _ _ => (enumChanges_verbs _ _ _).ne_remove) op hop
  · exact verb_ne_remove_entryChanges (fun _ _ => .add _ _)
      (fun _ _ _ => tableChanges_verb_ne_remove _ _ _) op hop

/-! ## Growth -/

section Diff

variable {old new : Schema} (hadds : AllOf .add (diff old new))

include hadds

theorem removals_eq_nil : removals old new = [] :=
  AllOf.eq_nil hadds.left.left (removals_verbs old new) (by decide)

theorem changes_adds : AllOf .add (changes old new) := by
  have hverbs : AllOf .replace ((changes old new).filter fun op => op.verb == .replace) :=
    fun op hop => beq_iff_eq.1 (List.mem_filter.1 hop).2
  have hreplaces := AllOf.eq_nil hadds.right hverbs (by decide)
  intro op hop
  cases hverb : op.verb with
  | add => rfl
  | remove => exact absurd hverb (changes_verb_ne_remove old new op hop)
  | replace => exact absurd (beq_iff_eq.2 hverb) (List.filter_eq_nil_iff.1 hreplaces op hop)

/-- A difference that only adds is what it adds, in the order of the new schema. -/
theorem diff_eq_changes : diff old new = changes old new := by
  rw [diff_eq_arranged, removals_eq_nil hadds, arranged_adds _ (changes_adds hadds),
    List.nil_append]

end Diff

/-- From the empty schema everything is added. -/
theorem diff_empty_adds (new : Schema) : AllOf .add (diff .empty new) := by
  have hchanges : AllOf .add (changes .empty new) :=
    ((AllOf.flatMap fun _ _ => .add _ _).append (.flatMap fun _ _ => .add _ _)).append
      (.flatMap fun _ _ => .add _ _)
  have hremovals : removals .empty new = [] := rfl
  rw [diff_eq_arranged, arranged_adds _ hchanges, hremovals]
  exact hchanges

theorem exists_of_goneNames_eq_nil {α : Type} {old new : Keyed α} (hnone : goneNames old new = [])
    {name : String} {previous : α} (hprevious : old.get? name = some previous) :
    ∃ value, new.get? name = some value := by
  have hkept := List.filter_eq_nil_iff.1 hnone name (Keyed.mem_keys_iff.2 ⟨previous, hprevious⟩)
  rw [Bool.not_eq_true, Bool.not_eq_false'] at hkept
  exact Option.isSome_iff_exists.1 hkept

theorem exists_of_goneConstraints_eq_nil {old new : Keyed Constraint}
    (hnone : goneConstraints old new = []) {name : String} {previous : Constraint}
    (hprevious : old.get? name = some previous) :
    ∃ value, new.get? name = some value ∧ previous.rule.kind = value.rule.kind := by
  have hkept := List.filter_eq_nil_iff.1 (List.map_eq_nil_iff.1 hnone) _
    (Keyed.get?_eq_some_iff.1 hprevious)
  cases hvalue : new.get? name with
  | none => simp [hvalue] at hkept
  | some value =>
    have hkind : value.rule.kind = previous.rule.kind := by simpa [hvalue] using hkept
    exact ⟨value, rfl, hkind.symm⟩

/-- A kept table whose changes only add has grown. -/
theorem table_grows {name : String} {old new : Table} (hold : old.WellKeyed) (hnew : new.WellKeyed)
    (hremovals : tableRemovals name old new = []) (hadds : AllOf .add (tableChanges name old new)) :
    old.Grows new := by
  obtain ⟨hgone, hgoneColumns⟩ := List.append_eq_nil_iff.1 hremovals
  obtain ⟨hgoneConstraints, hgoneIndexes⟩ := List.append_eq_nil_iff.1 hgone
  refine ⟨?_, ?_, ?_, ?_⟩
  · have hcomment := AllOf.eq_nil hadds.left.left.left (.replaceField _ _ _ _) (by decide)
    exact beq_iff_eq.1 (replaceField_eq_nil_iff.1 hcomment)
  · intro key previous hprevious
    obtain ⟨value, hvalue⟩ :=
      exists_of_goneNames_eq_nil (List.map_eq_nil_iff.1 hgoneColumns) hprevious
    refine ⟨value, hvalue, (columnChanges_eq_nil_iff name key ?_).1
      (changed_eq_nil hadds.left.left.right hprevious hvalue (columnChanges_verbs _ _ _ _))⟩
    rw [hold.1.of_get? hprevious, hnew.1.of_get? hvalue]
  · intro key previous hprevious
    obtain ⟨value, hvalue⟩ :=
      exists_of_goneNames_eq_nil (List.map_eq_nil_iff.1 hgoneIndexes) hprevious
    refine ⟨value, hvalue, beq_iff_eq.1 ((indexChanges_eq_nil_iff name key ?_).1
      (changed_eq_nil hadds.left.right hprevious hvalue (indexChanges_verbs _ _ _ _)))⟩
    rw [hold.2.1.of_get? hprevious, hnew.2.1.of_get? hvalue]
  · intro key previous hprevious
    obtain ⟨value, hvalue, hkind⟩ :=
      exists_of_goneConstraints_eq_nil (List.map_eq_nil_iff.1 hgoneConstraints) hprevious
    refine ⟨value, hvalue, beq_iff_eq.1 ((constraintChanges_eq_nil_iff name key ?_).1
      (changed_eq_nil hadds.right hprevious hvalue (constraintChanges_verbs _ _ hkind)))⟩
    rw [hold.2.2.of_get? hprevious, hnew.2.2.of_get? hvalue]

/-- Where the difference only adds, the new schema is the old one with more in it. -/
theorem grows_of_adds {old new : Schema} (hold : old.WellKeyed) (hnew : new.WellKeyed)
    (hadds : AllOf .add (diff old new)) : old.Grows new := by
  have hchanges := changes_adds hadds
  have hremovals := removals_eq_nil hadds
  rw [removals_eq] at hremovals
  obtain ⟨hgone, hgoneExtensions⟩ := List.append_eq_nil_iff.1 hremovals
  obtain ⟨hgone, hgoneEnums⟩ := List.append_eq_nil_iff.1 hgone
  obtain ⟨hinside, hgoneTables⟩ := List.append_eq_nil_iff.1 hgone
  refine ⟨?_, ?_, ?_⟩
  · intro name previous hprevious
    obtain ⟨value, hvalue⟩ :=
      exists_of_goneNames_eq_nil (List.map_eq_nil_iff.1 hgoneTables) hprevious
    refine ⟨value, hvalue, table_grows (hold.2.2.2.of_get? hprevious)
      (hnew.2.2.2.of_get? hvalue) ?_ fun op hop =>
        hchanges.right op (changed_subset hprevious hvalue hop)⟩
    have hnone := List.flatMap_eq_nil_iff.1 hinside _ (Keyed.get?_eq_some_iff.1 hprevious)
    simpa only [hvalue] using hnone
  · intro name previous hprevious
    obtain ⟨value, hvalue⟩ :=
      exists_of_goneNames_eq_nil (List.map_eq_nil_iff.1 hgoneEnums) hprevious
    have hnone := changed_eq_nil hchanges.left.right hprevious hvalue (enumChanges_verbs _ _ _)
    -- names are not compared, but both are the key
    obtain ⟨label, values, comment⟩ := previous
    obtain ⟨label', values', comment'⟩ := value
    have hlabel : label = label' :=
      (hold.2.1.of_get? hprevious).trans (hnew.2.1.of_get? hvalue).symm
    simp only [enumChanges, List.append_eq_nil_iff, replaceField_eq_nil_iff, beq_iff_eq] at hnone
    obtain ⟨rfl, rfl⟩ := hnone
    exact ⟨_, hvalue, by rw [hlabel]⟩
  · intro name previous hprevious
    obtain ⟨value, hvalue⟩ :=
      exists_of_goneNames_eq_nil (List.map_eq_nil_iff.1 hgoneExtensions) hprevious
    have hnone := changed_eq_nil hchanges.left.left hprevious hvalue
      (extensionChanges_verbs _ _ _)
    obtain ⟨label, place, version, comment⟩ := previous
    obtain ⟨label', place', version', comment'⟩ := value
    have hlabel : label = label' :=
      (hold.2.2.1.of_get? hprevious).trans (hnew.2.2.1.of_get? hvalue).symm
    simp only [extensionChanges, List.append_eq_nil_iff, replaceField_eq_nil_iff,
      beq_iff_eq] at hnone
    obtain ⟨⟨rfl, rfl⟩, rfl⟩ := hnone
    exact ⟨_, hvalue, by rw [hlabel]⟩

end SchemaEvolution.Patch
