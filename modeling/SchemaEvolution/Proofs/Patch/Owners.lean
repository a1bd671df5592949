import SchemaEvolution.Proofs.Patch.Slices

/-!
# Differences owner by owner

The tables, enumerated types and extensions of a schema own the paths into them.  What a
difference does for one owner depends only on what the two schemas have under its name.
-/

namespace SchemaEvolution.Patch

/-- What of a schema an operation may touch without touching the rest. -/
inductive Owner where
  | table (name : String)
  | enumType (name : String)
  | extension (name : String)
  deriving DecidableEq

def Path.owner : Path → Owner
  | .table name _ => .table name
  | .enumType name _ => .enumType name
  | .extension name _ => .extension name

def Owner.contains (owner : Owner) (path : Path) : Bool := decide (path.owner = owner)

theorem Owner.contains_table (name : String) : (Owner.table name).contains = Path.inTable name := by
  funext path
  rw [contains, Path.inTable, Bool.eq_iff_iff]
  cases path <;> simp [Path.owner, Path.table?]

def Edit.For (owner : Owner) (edit : Edit) : Prop :=
  edit.path.isName = false ∧ edit.path.owner = owner

theorem Edit.For.onlyIn {owner : Owner} {edit : Edit} (hfor : edit.For owner) :
    edit.OnlyIn Owner.contains owner := by
  intro other
  rw [Owner.contains, hfor.2]

theorem Edit.Inside.for_table {table : String} {part : TablePart} {edit : Edit}
    (hinside : edit.Inside table part) : edit.For (.table table) := by
  obtain ⟨hname, change, rfl, -⟩ := hinside
  exact ⟨hname, rfl⟩

theorem EditsIn.onlyFor {owner : Owner} {ops : List Operation}
    (hedits : EditsIn (Edit.For owner) ops) : EditsIn (Edit.OnlyIn Owner.contains owner) ops :=
  hedits.mono fun _ hfor => hfor.onlyIn

def ownerRemovals (old new : Schema) : Owner → List Operation
  | .table name =>
    match old.tables.get? name, new.tables.get? name with
    | some previous, some table => tableRemovals name previous table
    | some _, none => [.remove (.table name .whole)]
    | none, _ => []
  | .enumType name =>
    removalOf (old.enums.get? name) (new.enums.get? name) (.remove (.enumType name .whole))
  | .extension name =>
    removalOf (old.extensions.get? name) (new.extensions.get? name)
      (.remove (.extension name .whole))

def ownerChanges (old new : Schema) : Owner → List Operation
  | .table name =>
    changesOf (old.tables.get? name) (new.tables.get? name)
      (fun value => [.add (.table name .whole) value.toJson]) (tableChanges name)
  | .enumType name =>
    changesOf (old.enums.get? name) (new.enums.get? name)
      (fun value => [.add (.enumType name .whole) value.toJson]) (enumChanges name)
  | .extension name =>
    changesOf (old.extensions.get? name) (new.extensions.get? name)
      (fun value => [.add (.extension name .whole) value.toJson]) (extensionChanges name)

section Edits

variable {name : String} (hname : name ≠ "")

include hname

theorem tableRemoval_edits : EditsIn (Edit.For (.table name)) [.remove (.table name .whole)] :=
  .singleton (.removeTable name) ⟨⟨hname, trivial⟩, trivial⟩ ⟨rfl, rfl⟩

theorem enumRemoval_edits :
    EditsIn (Edit.For (.enumType name)) [.remove (.enumType name .whole)] :=
  .singleton (.removeEnum name) ⟨⟨hname, trivial⟩, trivial⟩ ⟨rfl, rfl⟩

theorem extensionRemoval_edits :
    EditsIn (Edit.For (.extension name)) [.remove (.extension name .whole)] :=
  .singleton (.removeExtension name) ⟨hname, trivial⟩ ⟨rfl, rfl⟩

theorem tableAdded_edits {value : Table} (hkey : value.name = name) :
    EditsIn (Edit.For (.table name)) [.add (.table name .whole) value.toJson] :=
  .singleton (.putTable name value) ⟨⟨hname, trivial⟩, hkey⟩ ⟨rfl, rfl⟩

theorem enumAdded_edits {value : EnumType} (hkey : value.name = name) :
    EditsIn (Edit.For (.enumType name)) [.add (.enumType name .whole) value.toJson] :=
  .singleton (.putEnum name value) ⟨⟨hname, trivial⟩, hkey⟩ ⟨rfl, rfl⟩

theorem extensionAdded_edits {value : Extension} (hkey : value.name = name) :
    EditsIn (Edit.For (.extension name)) [.add (.extension name .whole) value.toJson] :=
  .singleton (.putExtension name value) ⟨hname, hkey⟩ ⟨rfl, rfl⟩

theorem enumChanges_edits (old new : EnumType) :
    EditsIn (Edit.For (.enumType name)) (enumChanges name old new) := by
  have hvalues : (Edit.enumType name (.values new.values)).Writable := ⟨⟨hname, trivial⟩, trivial⟩
  have hcomment : (Edit.enumType name (.comment new.comment)).Writable :=
    ⟨⟨hname, trivial⟩, trivial⟩
  exact (EditsIn.replaceField (.enumType name (.values new.values)) (by rfl) hvalues
    ⟨rfl, rfl⟩).append
    (.replaceField (.enumType name (.comment new.comment)) (by rfl) hcomment ⟨rfl, rfl⟩)

theorem extensionChanges_edits (old new : Extension) :
    EditsIn (Edit.For (.extension name)) (extensionChanges name old new) := by
  have hwritable : ∀ change, (Edit.extension name change).Writable := fun _ => ⟨hname, trivial⟩
  exact ((EditsIn.replaceField (.extension name (.schema new.schema)) (by rfl) (hwritable _)
    ⟨rfl, rfl⟩).append
    (.replaceField (.extension name (.version new.version)) (by rfl) (hwritable _)
      ⟨rfl, rfl⟩)).append
    (.replaceField (.extension name (.comment new.comment)) (by rfl) (hwritable _) ⟨rfl, rfl⟩)

end Edits

theorem keptTableRemovals_edits {name : String} (hname : name ≠ "") {previous : Table}
    (hold : previous.NoEmptyName) (kept : Option Table) :
    EditsIn (Edit.For (.table name))
      (match kept with
        | some table => tableRemovals name previous table
        | none => []) := by
  cases kept with
  | none => exact .nil
  | some table =>
    exact (tableRemovals_edits hname hold table).mono fun _ ⟨_, hinside⟩ => hinside.for_table

def keptTableRemovals (old new : Schema) : List Operation :=
  old.tables.toList.flatMap fun entry =>
    match new.tables.get? entry.1 with
    | some table => tableRemovals entry.1 entry.2 table
    | none => []

theorem removals_eq (old new : Schema) :
    removals old new = keptTableRemovals old new ++
      (goneNames old.tables new.tables).map (fun name => .remove (.table name .whole)) ++
      (goneNames old.enums new.enums).map (fun name => .remove (.enumType name .whole)) ++
      (goneNames old.extensions new.extensions).map fun name => .remove (.extension name .whole) :=
  rfl

section Slices

variable {old : Schema} (hold : old.NoEmptyName) (new : Schema)

include hold

/-- Of the removals inside of kept tables an owner has those of its table. -/
theorem selectPaths_keptTableRemovals (owner : Owner) :
    selectPaths owner.contains (keptTableRemovals old new) =
      match owner with
      | .table name =>
        match old.tables.get? name, new.tables.get? name with
        | some previous, some table => tableRemovals name previous table
        | _, _ => []
      | _ => [] := by
  have hkept : ∀ entry ∈ old.tables.toList, EditsIn (Edit.OnlyIn Owner.contains (.table entry.1))
      (match new.tables.get? entry.1 with
        | some table => tableRemovals entry.1 entry.2 table
        | none => []) := fun entry hmem =>
    have hvalue := Keyed.get?_eq_some_iff.2 hmem
    (keptTableRemovals_edits (Keyed.ne_empty_of_get? hold.1 hvalue) (hold.2.2.2.of_get? hvalue)
      _).onlyFor
  have houtside : (∀ name, Owner.table name ≠ owner) →
      selectPaths owner.contains (keptTableRemovals old new) = [] := by
    intro hother
    refine selectPaths_of_outside ?_
    intro op hop
    obtain ⟨entry, hentry, hmem⟩ := List.mem_flatMap.1 hop
    exact (hkept entry hentry).mono (fun _ honly => ⟨_, hother entry.1, honly⟩) op hmem
  cases owner with
  | enumType | extension => exact houtside (by simp)
  | table name =>
    rw [keptTableRemovals, selectPaths_flatMap_toList name]
    · cases hvalue : old.tables.get? name with
      | none => simp only [hvalue]
      | some previous =>
        have hself := selectPaths_of_onlyIn
          (hkept (name, previous) (Keyed.get?_eq_some_iff.1 hvalue))
        cases hnew : new.tables.get? name with
        | none => simpa only [hvalue, hnew] using hself
        | some table => simpa only [hvalue, hnew] using hself
    · intro entry hmem hname
      exact selectPaths_of_outside ((hkept entry hmem).mono
        fun _ honly => ⟨_, fun heq => hname (Owner.table.inj heq), honly⟩)

/-- For one owner, the removals remove what it has lost. -/
theorem selectPaths_removals (owner : Owner) :
    selectPaths owner.contains (removals old new) = ownerRemovals old new owner := by
  have htable : ∀ name ∈ old.tables.keys, EditsIn (Edit.OnlyIn Owner.contains (.table name))
      [.remove (.table name .whole)] :=
    fun name hmem => (tableRemoval_edits (ne_empty_of_mem hold.1 hmem)).onlyFor
  have henum : ∀ name ∈ old.enums.keys, EditsIn (Edit.OnlyIn Owner.contains (.enumType name))
      [.remove (.enumType name .whole)] :=
    fun name hmem => (enumRemoval_edits (ne_empty_of_mem hold.2.1 hmem)).onlyFor
  have hextension : ∀ name ∈ old.extensions.keys,
      EditsIn (Edit.OnlyIn Owner.contains (.extension name)) [.remove (.extension name .whole)] :=
    fun name hmem => (extensionRemoval_edits (ne_empty_of_mem hold.2.2.1 hmem)).onlyFor
  have htables : (∀ name, Owner.table name ≠ owner) →
      selectPaths owner.contains ((goneNames old.tables new.tables).map fun name =>
        .remove (.table name .whole)) = [] := fun hother =>
    selectPaths_map_outside hother fun name hmem => htable name (mem_goneNames hmem)
  have henums : (∀ name, Owner.enumType name ≠ owner) →
      selectPaths owner.contains ((goneNames old.enums new.enums).map fun name =>
        .remove (.enumType name .whole)) = [] := fun hother =>
    selectPaths_map_outside hother fun name hmem => henum name (mem_goneNames hmem)
  have hextensions : (∀ name, Owner.extension name ≠ owner) →
      selectPaths owner.contains ((goneNames old.extensions new.extensions).map fun name =>
        .remove (.extension name .whole)) = [] := fun hother =>
    selectPaths_map_outside hother fun name hmem => hextension name (mem_goneNames hmem)
  rw [removals_eq, selectPaths_append, selectPaths_append, selectPaths_append,
    selectPaths_keptTableRemovals hold]
  cases owner with
  | table name =>
    rw [henums (by simp), hextensions (by simp), List.append_nil, List.append_nil,
      selectPaths_goneNames (fun _ _ => Owner.table.inj) old.tables new.tables htable]
    cases hprevious : old.tables.get? name <;> cases htable : new.tables.get? name <;>
      simp [ownerRemovals, removalOf, hprevious, htable]
  | enumType name =>
    rw [htables (by simp), hextensions (by simp),
      selectPaths_goneNames (fun _ _ => Owner.enumType.inj) old.enums new.enums henum,
      List.append_nil]
    rfl
  | extension name =>
    rw [htables (by simp), henums (by simp),
      selectPaths_goneNames (fun _ _ => Owner.extension.inj) old.extensions new.extensions
        hextension]
    rfl

/-- The removals are edits that give no names. -/
theorem removals_edits : EditsIn (fun edit => edit.path.isName = false) (removals old new) := by
  refine ((EditsIn.append ?_ ?_).append ?_).append ?_
  · intro op hop
    obtain ⟨entry, hentry, hmem⟩ := List.mem_flatMap.1 hop
    have hvalue := Keyed.get?_eq_some_iff.2 hentry
    exact (keptTableRemovals_edits (Keyed.ne_empty_of_get? hold.1 hvalue)
      (hold.2.2.2.of_get? hvalue) _).mono (fun _ hfor => hfor.1) op hmem
  · exact .map_names .removeTable fun name hmem =>
      ⟨rfl, ⟨⟨ne_empty_of_mem hold.1 (mem_goneNames hmem), trivial⟩, trivial⟩, rfl⟩
  · exact .map_names .removeEnum fun name hmem =>
      ⟨rfl, ⟨⟨ne_empty_of_mem hold.2.1 (mem_goneNames hmem), trivial⟩, trivial⟩, rfl⟩
  · exact .map_names .removeExtension fun name hmem =>
      ⟨rfl, ⟨ne_empty_of_mem hold.2.2.1 (mem_goneNames hmem), trivial⟩, rfl⟩

end Slices

section Changes

variable (old : Schema) {new : Schema} (hnew : new.NoEmptyName) (hkeyed : new.WellKeyed)

include hnew hkeyed

theorem tableChanges_for {name : String} {value : Table}
    (hvalue : new.tables.get? name = some value) (previous : Table) :
    EditsIn (Edit.For (.table name)) (tableChanges name previous value) :=
  (tableChanges_edits (Keyed.ne_empty_of_get? hnew.1 hvalue) previous (hnew.2.2.2.of_get? hvalue)
    (hkeyed.2.2.2.of_get? hvalue)).mono fun _ ⟨_, hinside⟩ => hinside.for_table

/-- For one owner, the changes bring it up to date. -/
theorem selectPaths_changes (owner : Owner) :
    selectPaths owner.contains (changes old new) = ownerChanges old new owner := by
  have htable := fun name value (hvalue : new.tables.get? name = some value) =>
    (tableAdded_edits (Keyed.ne_empty_of_get? hnew.1 hvalue) (hkeyed.1.of_get? hvalue)).onlyFor
  have htable' := fun name previous value (_ : old.tables.get? name = some previous)
      (hvalue : new.tables.get? name = some value) =>
    (tableChanges_for hnew hkeyed hvalue previous).onlyFor
  have henum := fun name value (hvalue : new.enums.get? name = some value) =>
    (enumAdded_edits (Keyed.ne_empty_of_get? hnew.2.1 hvalue) (hkeyed.2.1.of_get? hvalue)).onlyFor
  have henum' := fun name previous value (_ : old.enums.get? name = some previous)
      (hvalue : new.enums.get? name = some value) =>
    (enumChanges_edits (Keyed.ne_empty_of_get? hnew.2.1 hvalue) previous value).onlyFor
  have hextension := fun name value (hvalue : new.extensions.get? name = some value) =>
    (extensionAdded_edits (Keyed.ne_empty_of_get? hnew.2.2.1 hvalue)
      (hkeyed.2.2.1.of_get? hvalue)).onlyFor
  have hextension' := fun name previous value (_ : old.extensions.get? name = some previous)
      (hvalue : new.extensions.get? name = some value) =>
    (extensionChanges_edits (Keyed.ne_empty_of_get? hnew.2.2.1 hvalue) previous value).onlyFor
  have htables := fun hother : ∀ name, Owner.table name ≠ owner =>
    selectPaths_entryChanges_outside hother htable htable'
  have henums := fun hother : ∀ name, Owner.enumType name ≠ owner =>
    selectPaths_entryChanges_outside hother henum henum'
  have hextensions := fun hother : ∀ name, Owner.extension name ≠ owner =>
    selectPaths_entryChanges_outside hother hextension hextension'
  rw [changes, selectPaths_append, selectPaths_append]
  cases owner with
  | table name =>
    rw [hextensions (by simp), henums (by simp),
      selectPaths_entryChanges (fun _ _ => Owner.table.inj) htable htable']
    rfl
  | enumType name =>
    rw [hextensions (by simp), htables (by simp),
      selectPaths_entryChanges (fun _ _ => Owner.enumType.inj) henum henum', List.append_nil]
    rfl
  | extension name =>
    rw [henums (by simp), htables (by simp),
      selectPaths_entryChanges (fun _ _ => Owner.extension.inj) hextension hextension',
      List.append_nil, List.append_nil]
    rfl

/-- The changes are edits that give no names. -/
theorem changes_edits : EditsIn (fun edit => edit.path.isName = false) (changes old new) := by
  refine (EditsIn.append (.entryChanges ?_ ?_) (.entryChanges ?_ ?_)).append
    (.entryChanges ?_ ?_)
  · intro name value hvalue
    exact (extensionAdded_edits (Keyed.ne_empty_of_get? hnew.2.2.1 hvalue)
      (hkeyed.2.2.1.of_get? hvalue)).mono fun _ hfor => hfor.1
  · intro name previous value _ hvalue
    exact (extensionChanges_edits (Keyed.ne_empty_of_get? hnew.2.2.1 hvalue) previous value).mono
      fun _ hfor => hfor.1
  · intro name value hvalue
    exact (enumAdded_edits (Keyed.ne_empty_of_get? hnew.2.1 hvalue)
      (hkeyed.2.1.of_get? hvalue)).mono fun _ hfor => hfor.1
  · intro name previous value _ hvalue
    exact (enumChanges_edits (Keyed.ne_empty_of_get? hnew.2.1 hvalue) previous value).mono
      fun _ hfor => hfor.1
  · intro name value hvalue
    exact (tableAdded_edits (Keyed.ne_empty_of_get? hnew.1 hvalue)
      (hkeyed.1.of_get? hvalue)).mono fun _ hfor => hfor.1
  · intro name previous value _ hvalue
    exact (tableChanges_for hnew hkeyed hvalue previous).mono fun _ hfor => hfor.1

end Changes

/-! ## The whole difference -/

/-- Removals, then adds, then replacements. -/
def arranged (removals changes : List Operation) : List Operation :=
  removals ++ changes.filter (fun op => op.verb == .add) ++
    changes.filter fun op => op.verb == .replace

theorem diff_eq_arranged (old new : Schema) :
    diff old new = arranged (removals old new) (changes old new) := rfl

theorem selectPaths_arranged (keep : Path → Bool) (removals changes : List Operation) :
    selectPaths keep (arranged removals changes) =
      arranged (selectPaths keep removals) (selectPaths keep changes) := by
  rw [arranged, arranged, selectPaths_append, selectPaths_append, selectPaths_filter,
    selectPaths_filter]

/-- A difference is made of edits that give no names. -/
theorem diff_edits {old new : Schema} (hold : old.NoEmptyName) (hnew : new.NoEmptyName)
    (hkeyed : new.WellKeyed) :
    EditsIn (fun edit => edit.path.isName = false) (diff old new) :=
  ((removals_edits hold new).append ((changes_edits old hnew hkeyed).filter _)).append
    ((changes_edits old hnew hkeyed).filter _)

/-- For one owner, a difference does what that owner has lost, gained and changed. -/
theorem selectPaths_diff {old new : Schema} (hold : old.NoEmptyName) (hnew : new.NoEmptyName)
    (hkeyed : new.WellKeyed) (owner : Owner) :
    selectPaths owner.contains (diff old new) =
      arranged (ownerRemovals old new owner) (ownerChanges old new owner) := by
  rw [diff_eq_arranged, selectPaths_arranged, selectPaths_removals hold,
    selectPaths_changes old hnew hkeyed]

/-- In a part of a table of both schemas, a difference does what that part has lost, gained and
changed. -/
theorem selectPaths_tableDiff {table : String} (htable : table ≠ "") {old new : Table}
    (hold : old.NoEmptyName) (hnew : new.NoEmptyName) (hkeyed : new.WellKeyed)
    (part : TablePart) :
    selectPaths (part.contains table)
        (arranged (tableRemovals table old new) (tableChanges table old new)) =
      arranged (partRemovals table old new part) (partChanges table old new part) := by
  rw [selectPaths_arranged, selectPaths_tableRemovals htable hold,
    selectPaths_tableChanges htable old hnew hkeyed]

/-- The operations inside a table of both schemas lie in its parts. -/
theorem tableDiff_edits {table : String} (htable : table ≠ "") {old new : Table}
    (hold : old.NoEmptyName) (hnew : new.NoEmptyName) (hkeyed : new.WellKeyed) :
    EditsIn (fun edit => ∃ part, edit.Inside table part)
      (arranged (tableRemovals table old new) (tableChanges table old new)) :=
  ((tableRemovals_edits htable hold new).append
    ((tableChanges_edits htable old hnew hkeyed).filter _)).append
    ((tableChanges_edits htable old hnew hkeyed).filter _)

end SchemaEvolution.Patch
