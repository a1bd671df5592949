import SchemaEvolution.Proofs.Patch.Growth

/-!
# The order of a difference

A difference removes first, adds next and replaces last.  Among the removals and among the
additions, what is removed or added gives each operation a rank.  The ranks never decrease as
long as no table is dealt with too early: the tables that both schemas have are gone through one
by one, each with its constraints, its indexes and its columns.
-/

namespace SchemaEvolution.Patch

/-- The segments of a text, whether they lead anywhere or not. -/
def segmentsOf (text : String) : List String :=
  (Text.cutAt '/' text.toList.tail).map fun segment => String.ofList (unescape segment)

/-- What is added or removed as a whole. -/
inductive Entity where
  | constraint
  | index
  | column
  | table
  | enumType
  | extension
  deriving DecidableEq, Repr

namespace Entity

/-- What some segments lead to, if that is no part of an entity. -/
def ofSegments? : List String → Option Entity
  | ["tables", _, "constraints", _] => some .constraint
  | ["tables", _, "indexes", _] => some .index
  | ["tables", _, "columns", _] => some .column
  | ["tables", _] => some .table
  | ["enums", _] => some .enumType
  | ["extensions", _] => some .extension
  | _ => none

/-- The place of an entity in the order in which entities are removed. -/
def place : Entity → Nat
  | .constraint => 0
  | .index => 1
  | .column => 2
  | .table => 3
  | .enumType => 4
  | .extension => 5

/-- Entities are added in the opposite order, after all that is removed. -/
def rank (entity : Entity) : Verb → Nat
  | .remove => entity.place
  | .add => 11 - entity.place
  | .replace => 12

theorem rank_add_le_iff (entity later : Entity) :
    entity.rank .add ≤ later.rank .add ↔ later.place ≤ entity.place := by
  cases entity <;> cases later <;> decide

end Entity

/-- The place of an operation in the order of a difference; what neither adds nor removes an
entity is last. -/
def Operation.rank (op : Operation) : Nat :=
  (Entity.ofSegments? (segmentsOf op.path)).elim 12 fun entity => entity.rank op.verb

/-- Removals are before adds, and these before replacements. -/
def Verb.phase : Verb → Nat
  | .remove => 0
  | .add => 1
  | .replace => 2

/-- The table has an entity that the other one has not; of constraints, also one that is of
another kind there. -/
def Exceeds (table other : Table) : Entity → Prop
  | .constraint => goneConstraints table.constraints other.constraints ≠ []
  | .index => goneNames table.indexes other.indexes ≠ []
  | .column => goneNames table.columns other.columns ≠ []
  | _ => False

def Loses (old new : Schema) (name : String) (entity : Entity) : Prop :=
  ∃ table other, old.tables.get? name = some table ∧ new.tables.get? name = some other ∧
    Exceeds table other entity

def Gains (old new : Schema) (name : String) (entity : Entity) : Prop :=
  ∃ table, new.tables.get? name = some table ∧
    match old.tables.get? name with
    | none => entity = .table
    | some previous => Exceeds table previous entity

theorem segmentsOf_text (path : Path) : segmentsOf path.text = path.segments := by
  obtain ⟨chars, hchars, hcut⟩ := path.cutAt_text
  rw [segmentsOf, hchars]
  exact hcut

section Whole

variable {path : Path} {entity : Entity} (hentity : Entity.ofSegments? path.segments = some entity)

include hentity

theorem rank_remove : (Operation.remove path).rank = entity.rank .remove := by
  have hpath : segmentsOf (Operation.remove path).path = path.segments := segmentsOf_text path
  rw [Operation.rank, hpath, hentity]
  rfl

theorem rank_add (value : Json) : (Operation.add path value).rank = entity.rank .add := by
  have hpath : segmentsOf (Operation.add path value).path = path.segments := segmentsOf_text path
  rw [Operation.rank, hpath, hentity]
  rfl

end Whole

theorem rank_of_replace {op : Operation} (hverb : op.verb = .replace) : op.rank = 12 := by
  rw [Operation.rank, hverb]
  cases Entity.ofSegments? (segmentsOf op.path) <;> rfl

/-- The ranks of the operations never decrease. -/
def Ordered (ops : List Operation) : Prop :=
  ops.Pairwise fun op other => op.rank ≤ other.rank

section Ordered

variable {front back ops : List Operation} {rank : Nat}

theorem ordered_append_iff (rank : Nat) (hfront : ∀ op ∈ front, op.rank ≤ rank)
    (hback : ∀ op ∈ back, rank ≤ op.rank) :
    Ordered (front ++ back) ↔ Ordered front ∧ Ordered back := by
  rw [Ordered, List.pairwise_append, ← and_assoc]
  exact and_iff_left fun op hop other hother => (hfront op hop).trans (hback other hother)

theorem ordered_of_rank (hrank : ∀ op ∈ ops, op.rank = rank) : Ordered ops := by
  refine List.pairwise_of_forall_mem_list fun op hop other hother => ?_
  rw [hrank op hop, hrank other hother]

end Ordered

/-- The operations are in order, and their ranks are those of the entities. -/
structure Ranks (verb : Verb) (ops : List Operation) (entities : Entity → Prop) : Prop where
  ordered : Ordered ops
  exists_iff : ∀ rank, (∃ op ∈ ops, op.rank = rank) ↔
    ∃ entity, entities entity ∧ entity.rank verb = rank

namespace Ranks

variable {verb : Verb} {ops others : List Operation} {entities more : Entity → Prop}

theorem nil : Ranks verb [] fun _ => False where
  ordered := .nil
  exists_iff rank := by simp

theorem of_rank (entity : Entity) (hrank : ∀ op ∈ ops, op.rank = entity.rank verb) :
    Ranks verb ops fun other => other = entity ∧ ops ≠ [] where
  ordered := ordered_of_rank hrank
  exists_iff rank := by
    constructor
    · rintro ⟨op, hop, rfl⟩
      exact ⟨entity, ⟨rfl, List.ne_nil_of_mem hop⟩, (hrank op hop).symm⟩
    · rintro ⟨_, ⟨rfl, hsome⟩, rfl⟩
      obtain ⟨op, hop⟩ := List.exists_mem_of_ne_nil ops hsome
      exact ⟨op, hop, hrank op hop⟩

theorem exists_entity (hranks : Ranks verb ops entities) {op : Operation} (hop : op ∈ ops) :
    ∃ entity, entities entity ∧ entity.rank verb = op.rank :=
  (hranks.exists_iff op.rank).1 ⟨op, hop, rfl⟩

/-- The operations of one list are ranked before those of another where their entities are. -/
theorem forall_le_iff (hranks : Ranks verb ops entities) (hothers : Ranks verb others more) :
    (∀ op ∈ ops, ∀ other ∈ others, op.rank ≤ other.rank) ↔
      ∀ entity later, entities entity → more later → entity.rank verb ≤ later.rank verb := by
  constructor
  · intro hle entity later hentity hlater
    obtain ⟨op, hop, hrank⟩ := (hranks.exists_iff _).2 ⟨entity, hentity, rfl⟩
    obtain ⟨other, hother, hrank'⟩ := (hothers.exists_iff _).2 ⟨later, hlater, rfl⟩
    rw [← hrank, ← hrank']
    exact hle op hop other hother
  · intro hle op hop other hother
    obtain ⟨entity, hentity, hrank⟩ := hranks.exists_entity hop
    obtain ⟨later, hlater, hrank'⟩ := hothers.exists_entity hother
    rw [← hrank, ← hrank']
    exact hle entity later hentity hlater

theorem append (hranks : Ranks verb ops entities) (hothers : Ranks verb others more)
    (hle : ∀ entity later, entities entity → more later → entity.rank verb ≤ later.rank verb) :
    Ranks verb (ops ++ others) fun entity => entities entity ∨ more entity where
  ordered := List.pairwise_append.2
    ⟨hranks.ordered, hothers.ordered, (hranks.forall_le_iff hothers).2 hle⟩
  exists_iff rank := by
    simp only [List.mem_append, or_and_right, exists_or, hranks.exists_iff, hothers.exists_iff]

theorem congr (hranks : Ranks verb ops entities) (hiff : ∀ entity, entities entity ↔ more entity) :
    Ranks verb ops more := by
  have hsame : entities = more := funext fun entity => propext (hiff entity)
  exact hsame ▸ hranks

end Ranks

/-- Parts that are in order are in order one after the other, if their entities are. -/
theorem ordered_flatMap_iff {α : Type} {verb : Verb} {items : List α} {part : α → List Operation}
    {entities : α → Entity → Prop}
    (hparts : ∀ item ∈ items, Ranks verb (part item) (entities item)) :
    Ordered (items.flatMap part) ↔ items.Pairwise fun item other =>
      ∀ entity later, entities item entity → entities other later →
        entity.rank verb ≤ later.rank verb := by
  refine List.pairwise_flatMap.trans
    ((and_iff_right fun item hmem => (hparts item hmem).ordered).trans ?_)
  refine List.Pairwise.iff_of_mem fun {item other} hitem hother => ?_
  exact (hparts item hitem).forall_le_iff (hparts other hother)

theorem exceeds_iff {table other : Table} (entity : Entity) :
    Exceeds table other entity ↔
      ((entity = .constraint ∧ goneConstraints table.constraints other.constraints ≠ []) ∨
        entity = .index ∧ goneNames table.indexes other.indexes ≠ []) ∨
      entity = .column ∧ goneNames table.columns other.columns ≠ [] := by
  cases entity <;> simp [Exceeds]

theorem ranks_removals {path : String → Path} {entity : Entity} (names : List String)
    (hentity : ∀ name, Entity.ofSegments? (path name).segments = some entity) :
    Ranks .remove (names.map fun name => .remove (path name)) fun other =>
      other = entity ∧ names ≠ [] := by
  refine (Ranks.of_rank entity ?_).congr fun other => ?_
  · intro op hop
    obtain ⟨name, -, rfl⟩ := List.mem_map.1 hop
    exact rank_remove (hentity name)
  · rw [Ne, List.map_eq_nil_iff]

/-- Inside a table, constraints are removed before indexes, and these before columns. -/
theorem ranks_tableRemovals (name : String) (old new : Table) :
    Ranks .remove (tableRemovals name old new) (Exceeds old new) := by
  refine (((ranks_removals _ fun _ => rfl).append (ranks_removals _ fun _ => rfl) ?_).append
    (ranks_removals _ fun _ => rfl) ?_).congr fun entity => (exceeds_iff entity).symm
  · rintro _ _ ⟨rfl, -⟩ ⟨rfl, -⟩
    decide
  · rintro _ _ (⟨rfl, -⟩ | ⟨rfl, -⟩) ⟨rfl, -⟩ <;> decide

/-- Of the changes of all entries, what is new is added. -/
theorem filter_add_entryChanges {α : Type} {old new : Keyed α} {path : String → Path}
    {view : α → Json} {changed : String → α → α → List Operation} (chosen : String × α → Bool)
    (hnone : ∀ entry ∈ new.toList, old.get? entry.1 = none → chosen entry = true)
    (hsome : ∀ entry ∈ new.toList, ∀ previous, old.get? entry.1 = some previous →
      (changed entry.1 previous entry.2).filter (fun op => op.verb == .add) =
        if chosen entry then [.add (path entry.1) (view entry.2)] else []) :
    (entryChanges old new (fun name value => [.add (path name) (view value)]) changed).filter
        (fun op => op.verb == .add) =
      (new.toList.filter chosen).map fun entry => .add (path entry.1) (view entry.2) := by
  rw [entryChanges, List.filter_flatMap, map_filter_eq_flatMap]
  refine List.flatMap_congr fun entry hmem => ?_
  cases hold : old.get? entry.1 with
  | none =>
    rw [hnone entry hmem hold]
    simp only [hold]
    rfl
  | some previous =>
    simp only [hold]
    exact hsome entry hmem previous hold

theorem AllOf.filter_add {ops : List Operation} (hall : AllOf .replace ops) :
    ops.filter (fun op => op.verb == .add) = [] :=
  List.filter_eq_nil_iff.2 fun op hop => by rw [hall op hop]; decide

section Additions

variable {α : Type} {old new : Keyed α} {view : α → Json}
  {changed : String → α → α → List Operation} (entity : Entity) (path : String → Path)
  (hentity : ∀ name, Entity.ofSegments? (path name).segments = some entity)

include hentity

theorem ranks_additions (entries : List (String × α)) :
    Ranks .add (entries.map fun entry => .add (path entry.1) (view entry.2)) fun other =>
      other = entity ∧ entries ≠ [] := by
  refine (Ranks.of_rank entity ?_).congr fun other => ?_
  · intro op hop
    obtain ⟨entry, -, rfl⟩ := List.mem_map.1 hop
    exact rank_add (hentity entry.1) _
  · rw [Ne, List.map_eq_nil_iff]

/-- Where what both have is only replaced, the adds are those of the new names. -/
theorem ranks_entryChanges (hchanged : ∀ name previous value,
    AllOf .replace (changed name previous value)) :
    Ranks .add ((entryChanges old new (fun name value => [.add (path name) (view value)])
      changed).filter fun op => op.verb == .add) fun other =>
        other = entity ∧ goneNames new old ≠ [] := by
  rw [filter_add_entryChanges fun entry => !old.contains entry.1]
  · refine (ranks_additions entity path hentity _).congr fun other => ?_
    rw [goneNames_eq, Ne, Ne, List.map_eq_nil_iff]
  · intro entry _ hnone
    rw [Keyed.contains, hnone]
    rfl
  · intro entry _ previous hprevious
    rw [(hchanged _ _ _).filter_add, Keyed.contains, hprevious]
    rfl

end Additions

theorem goneConstraints_eq (old new : Keyed Constraint) :
    goneConstraints old new = (old.toList.filter fun entry => (new.get? entry.1).elim true
      fun other => other.rule.kind != entry.2.rule.kind).map Prod.fst := by
  rw [goneConstraints]
  refine congrArg (List.map Prod.fst) (List.filter_congr fun entry _ => ?_)
  obtain ⟨name, constraint⟩ := entry
  cases hnew : new.get? name <;> simp [hnew]

/-- The additions of constraints are in order, and there are some exactly if a constraint is new. -/
theorem ranks_constraintChanges (name : String) (old new : Keyed Constraint) :
    Ranks .add ((entryChanges old new
      (fun constraint value => [.add (.table name (.constraint constraint .whole)) value.toJson])
      (constraintChanges name)).filter fun op => op.verb == .add) fun other =>
        other = .constraint ∧ goneConstraints new old ≠ [] := by
  rw [filter_add_entryChanges fun entry => (old.get? entry.1).elim true
    fun other => other.rule.kind != entry.2.rule.kind]
  · refine (ranks_additions .constraint
      (fun constraint => .table name (.constraint constraint .whole)) (fun _ => rfl) _).congr
      fun other => ?_
    rw [goneConstraints_eq, Ne, Ne, List.map_eq_nil_iff]
  · intro entry _ hnone
    simp only [hnone, Option.elim_none]
  · intro entry _ previous hprevious
    simp only [hprevious, Option.elim_some]
    by_cases hkind : previous.rule.kind = entry.2.rule.kind
    · rw [(constraintChanges_verbs name entry.1 hkind).filter_add, hkind, bne_self_eq_false]
      rfl
    · rw [constraintChanges_of_kind_ne name entry.1 hkind, bne_iff_ne.2 hkind]
      rfl

/-- Inside a table, columns are added before indexes, and these before constraints. -/
theorem ranks_tableChanges (name : String) (old new : Table) :
    Ranks .add ((tableChanges name old new).filter fun op => op.verb == .add)
      (Exceeds new old) := by
  rw [tableChanges, List.filter_append, List.filter_append, List.filter_append,
    (AllOf.replaceField _ _ _ _).filter_add, List.nil_append]
  refine (((ranks_entryChanges .column (fun column => .table name (.column column .whole))
      (fun _ => rfl) (columnChanges_verbs name)).append
    (ranks_entryChanges .index (fun index => .table name (.index index .whole))
      (fun _ => rfl) (indexChanges_verbs name)) ?_).append
    (ranks_constraintChanges name old.constraints new.constraints) ?_).congr fun entity => ?_
  · rintro _ _ ⟨rfl, -⟩ ⟨rfl, -⟩
    decide
  · rintro _ _ (⟨rfl, -⟩ | ⟨rfl, -⟩) ⟨rfl, -⟩ <;> decide
  · rw [exceeds_iff]
    tauto

section Diff

variable (old new : Schema)

/-- What an entry of the old tables loses. -/
theorem ranks_losses {entry : String × Table} (hmem : entry ∈ old.tables.toList) :
    Ranks .remove
      (match new.tables.get? entry.1 with
        | some table => tableRemovals entry.1 entry.2 table
        | none => [])
      (Loses old new entry.1) := by
  have hentry := Keyed.get?_eq_some_iff.2 hmem
  cases hnew : new.tables.get? entry.1 with
  | none => exact Ranks.nil.congr fun entity => by simp [Loses, hnew]
  | some table =>
    exact (ranks_tableRemovals entry.1 entry.2 table).congr fun entity => by
      simp [Loses, hentry, hnew]

def tableAdditions (entry : String × Table) : List Operation :=
  List.filter (fun op => op.verb == .add) <|
    match old.tables.get? entry.1 with
    | none => [.add (.table entry.1 .whole) entry.2.toJson]
    | some previous => tableChanges entry.1 previous entry.2

theorem filter_add_tables : (entryChanges old.tables new.tables
    (fun name value => [.add (.table name .whole) value.toJson]) tableChanges).filter
      (fun op => op.verb == .add) = new.tables.toList.flatMap (tableAdditions old) := by
  rw [entryChanges, List.filter_flatMap]
  refine List.flatMap_congr fun entry _ => ?_
  cases hold : old.tables.get? entry.1 <;> simp only [tableAdditions, hold]

/-- What is added of a table is in order, and its ranks are those of the parts that are gained. -/
theorem ranks_gains {entry : String × Table} (hmem : entry ∈ new.tables.toList) :
    Ranks .add (tableAdditions old entry) (Gains old new entry.1) := by
  have hentry := Keyed.get?_eq_some_iff.2 hmem
  rw [tableAdditions]
  cases hold : old.tables.get? entry.1 with
  | none =>
    have hsingle : Ranks .add ([entry].map fun added => .add (.table added.1 .whole)
        added.2.toJson) fun other => other = .table ∧ [entry] ≠ [] :=
      ranks_additions .table (fun name => .table name .whole) (fun _ => rfl) [entry]
    exact hsingle.congr fun entity => by simp [Gains, hentry, hold]
  | some previous =>
    exact (ranks_tableChanges entry.1 previous entry.2).congr fun entity => by
      simp [Gains, hentry, hold]

/-- Whole tables, then enumerated types, then extensions are removed. -/
def wholeRemovals : List Operation :=
  (goneNames old.tables new.tables).map (fun name => .remove (.table name .whole)) ++
    (goneNames old.enums new.enums).map (fun name => .remove (.enumType name .whole)) ++
    (goneNames old.extensions new.extensions).map fun name => .remove (.extension name .whole)

theorem removals_eq_append :
    removals old new = keptTableRemovals old new ++ wholeRemovals old new := by
  simp only [removals_eq, wholeRemovals, List.append_assoc]

theorem ranks_wholeRemovals : Ranks .remove (wholeRemovals old new) fun entity =>
      ((entity = .table ∧ goneNames old.tables new.tables ≠ []) ∨
        entity = .enumType ∧ goneNames old.enums new.enums ≠ []) ∨
      entity = .extension ∧ goneNames old.extensions new.extensions ≠ [] := by
  refine ((ranks_removals _ fun _ => rfl).append (ranks_removals _ fun _ => rfl) ?_).append
    (ranks_removals _ fun _ => rfl) ?_
  · rintro _ _ ⟨rfl, -⟩ ⟨rfl, -⟩
    decide
  · rintro _ _ (⟨rfl, -⟩ | ⟨rfl, -⟩) ⟨rfl, -⟩ <;> decide

/-- Extensions, then enumerated types are added. -/
theorem ranks_wholeAdditions : Ranks .add
    ((entryChanges old.extensions new.extensions
        (fun name value => [.add (.extension name .whole) value.toJson]) extensionChanges ++
      entryChanges old.enums new.enums
        (fun name value => [.add (.enumType name .whole) value.toJson]) enumChanges).filter
          fun op => op.verb == .add)
    fun entity => (entity = .extension ∧ goneNames new.extensions old.extensions ≠ []) ∨
      entity = .enumType ∧ goneNames new.enums old.enums ≠ [] := by
  rw [List.filter_append]
  refine (ranks_entryChanges .extension (fun name => .extension name .whole) (fun _ => rfl)
    extensionChanges_verbs).append (ranks_entryChanges .enumType (fun name => .enumType name .whole)
    (fun _ => rfl) enumChanges_verbs) ?_
  rintro _ _ ⟨rfl, -⟩ ⟨rfl, -⟩
  decide

variable {old new}

theorem Exceeds.place_le {table other : Table} {entity : Entity}
    (hexceeds : Exceeds table other entity) : entity.place ≤ Entity.column.place := by
  rcases (exceeds_iff entity).1 hexceeds with (⟨rfl, -⟩ | ⟨rfl, -⟩) | ⟨rfl, -⟩ <;> decide

theorem Loses.place_le {name : String} {entity : Entity} (hloses : Loses old new name entity) :
    entity.place ≤ Entity.column.place := by
  obtain ⟨table, other, -, -, hexceeds⟩ := hloses
  exact hexceeds.place_le

theorem Gains.place_le {name : String} {entity : Entity} (hgains : Gains old new name entity) :
    entity.place ≤ Entity.table.place := by
  obtain ⟨table, -, hgains⟩ := hgains
  cases hold : old.tables.get? name with
  | none =>
    rw [hold] at hgains
    rw [hgains]
  | some previous =>
    rw [hold] at hgains
    exact (Exceeds.place_le hgains).trans (by decide)

/-! ## The removals and the adds -/

theorem rank_of_kept {op : Operation} (hop : op ∈ keptTableRemovals old new) :
    ∃ entity : Entity, entity.place ≤ Entity.column.place ∧ op.rank = entity.rank .remove := by
  obtain ⟨entry, hmem, hpart⟩ := List.mem_flatMap.1 hop
  obtain ⟨entity, hloses, hrank⟩ := (ranks_losses old new hmem).exists_entity hpart
  exact ⟨entity, hloses.place_le, hrank.symm⟩

theorem rank_of_tables {op : Operation}
    (hop : op ∈ new.tables.toList.flatMap (tableAdditions old)) :
    ∃ entity : Entity, entity.place ≤ Entity.table.place ∧ op.rank = entity.rank .add := by
  obtain ⟨entry, hmem, hpart⟩ := List.mem_flatMap.1 hop
  obtain ⟨entity, hgains, hrank⟩ := (ranks_gains old new hmem).exists_entity hpart
  exact ⟨entity, hgains.place_le, hrank.symm⟩

/-- The removals are in order if those inside tables are. -/
theorem ordered_removals_iff : Ordered (removals old new) ↔
    old.tables.keys.Pairwise fun name other => ∀ lost later, Loses old new name lost →
      Loses old new other later → lost.place ≤ later.place := by
  rw [removals_eq_append, ordered_append_iff Entity.column.place,
    and_iff_left (ranks_wholeRemovals old new).ordered, Keyed.keys, List.pairwise_map]
  · exact ordered_flatMap_iff fun entry hmem => ranks_losses old new hmem
  · intro op hop
    obtain ⟨entity, hplace, hrank⟩ := rank_of_kept hop
    exact hrank ▸ hplace
  · intro op hop
    obtain ⟨entity, hentity, hrank⟩ := (ranks_wholeRemovals old new).exists_entity hop
    rcases hentity with (⟨rfl, -⟩ | ⟨rfl, -⟩) | ⟨rfl, -⟩ <;> exact hrank ▸ by decide

/-- The adds are in order if those of tables and inside them are. -/
theorem ordered_additions_iff :
    Ordered ((changes old new).filter fun op => op.verb == .add) ↔
      new.tables.keys.Pairwise fun name other => ∀ gained later, Gains old new name gained →
        Gains old new other later → later.place ≤ gained.place := by
  rw [changes, List.filter_append, filter_add_tables,
    ordered_append_iff (Entity.enumType.rank .add),
    and_iff_right (ranks_wholeAdditions old new).ordered, Keyed.keys, List.pairwise_map]
  · simp only [← Entity.rank_add_le_iff]
    exact ordered_flatMap_iff fun entry hmem => ranks_gains old new hmem
  · intro op hop
    obtain ⟨entity, hentity, hrank⟩ := (ranks_wholeAdditions old new).exists_entity hop
    rcases hentity with ⟨rfl, -⟩ | ⟨rfl, -⟩ <;> exact hrank ▸ by decide
  · intro op hop
    obtain ⟨entity, hplace, hrank⟩ := rank_of_tables hop
    rw [hrank, Entity.rank_add_le_iff]
    exact hplace.trans (by decide)

theorem rank_of_removal {op : Operation} (hop : op ∈ removals old new) :
    ∃ entity : Entity, op.rank = entity.rank .remove := by
  rw [removals_eq_append] at hop
  rcases List.mem_append.1 hop with hkept | hwhole
  · obtain ⟨entity, -, hrank⟩ := rank_of_kept hkept
    exact ⟨entity, hrank⟩
  · obtain ⟨entity, -, hrank⟩ := (ranks_wholeRemovals old new).exists_entity hwhole
    exact ⟨entity, hrank.symm⟩

theorem rank_of_addition {op : Operation}
    (hop : op ∈ (changes old new).filter fun op => op.verb == .add) :
    ∃ entity : Entity, op.rank = entity.rank .add := by
  rw [changes, List.filter_append, filter_add_tables] at hop
  rcases List.mem_append.1 hop with hwhole | htables
  · obtain ⟨entity, -, hrank⟩ := (ranks_wholeAdditions old new).exists_entity hwhole
    exact ⟨entity, hrank.symm⟩
  · obtain ⟨entity, -, hrank⟩ := rank_of_tables htables
    exact ⟨entity, hrank⟩

/-! ## Removals, adds and replacements -/

theorem Entity.rank_bounds (entity : Entity) :
    entity.rank .remove < 6 ∧ 6 ≤ entity.rank .add ∧ entity.rank .add < 12 := by
  cases entity <;> decide

theorem rank_of_replacement {ops : List Operation} {op : Operation}
    (hop : op ∈ ops.filter fun op => op.verb == .replace) : op.rank = 12 :=
  rank_of_replace (beq_iff_eq.1 (List.mem_filter.1 hop).2)

variable (old new)

/-- A difference is in order if its removals and its additions are. -/
theorem ordered_diff_iff : Ordered (diff old new) ↔
    Ordered (removals old new) ∧ Ordered ((changes old new).filter fun op => op.verb == .add) := by
  have hreplacements :
      Ordered ((changes old new).filter fun op => op.verb == .replace) :=
    ordered_of_rank fun op hop => rank_of_replacement hop
  rw [diff_eq_arranged, arranged, ordered_append_iff 12, and_iff_left hreplacements,
    ordered_append_iff 6]
  · intro op hop
    obtain ⟨entity, hrank⟩ := rank_of_removal hop
    exact hrank ▸ entity.rank_bounds.1.le
  · intro op hop
    obtain ⟨entity, hrank⟩ := rank_of_addition hop
    exact hrank ▸ entity.rank_bounds.2.1
  · intro op hop
    rcases List.mem_append.1 hop with hremoval | haddition
    · obtain ⟨entity, hrank⟩ := rank_of_removal hremoval
      exact hrank ▸ entity.rank_bounds.1.le.trans (by decide)
    · obtain ⟨entity, hrank⟩ := rank_of_addition haddition
      exact hrank ▸ entity.rank_bounds.2.2.le
  · exact fun op hop => (rank_of_replacement hop).ge

/-- A difference removes, then adds, then replaces. -/
theorem pairwise_phase_diff :
    (diff old new).Pairwise fun op other => op.verb.phase ≤ other.verb.phase := by
  have hconst : ∀ {verb : Verb} {ops : List Operation}, AllOf verb ops →
      ops.Pairwise fun op other => op.verb.phase ≤ other.verb.phase := by
    intro verb ops hall
    refine List.pairwise_of_forall_mem_list fun op hop other hother => ?_
    rw [hall op hop, hall other hother]
  have hremovals := removals_verbs old new
  have hchosen : ∀ verb, AllOf verb ((changes old new).filter fun op => op.verb == verb) :=
    fun verb op hop => beq_iff_eq.1 (List.mem_filter.1 hop).2
  refine List.pairwise_append.2 ⟨List.pairwise_append.2 ⟨hconst hremovals, hconst (hchosen .add),
    fun op hop other _ => ?_⟩, hconst (hchosen .replace), fun op hop other hother => ?_⟩
  · rw [hremovals op hop]
    exact Nat.zero_le _
  · rw [hchosen .replace other hother]
    cases op.verb <;> decide

/-- The ranks of a difference never decrease exactly when, of two tables of both schemas, the
former loses nothing that is removed after what the latter loses, and, of two tables of the new
schema, the former gains nothing that is added after what the latter gains.  A difference removes,
then adds, then replaces in any case. -/
theorem diff_order :
    ((diff old new).Pairwise fun op other => op.verb.phase ≤ other.verb.phase) ∧
      (((diff old new).Pairwise fun op other => op.rank ≤ other.rank) ↔
        (old.tables.keys.Pairwise fun name other => ∀ lost later, Loses old new name lost →
          Loses old new other later → lost.place ≤ later.place) ∧
        new.tables.keys.Pairwise fun name other => ∀ gained later, Gains old new name gained →
          Gains old new other later → later.place ≤ gained.place) :=
  ⟨pairwise_phase_diff old new, (ordered_diff_iff old new).trans
    (and_congr ordered_removals_iff ordered_additions_iff)⟩

end Diff

/-- A table that loses a column stands before one that loses a constraint. -/
example :
    let kept := (Schema.empty.addTable (Table.empty "a")).addTable (Table.empty "b")
    let first := (Table.empty "a").addColumn (Column.plain "x" "text")
    let second := (Table.empty "b").addConstraint ⟨"k", .check "true"⟩
    (diff ((Schema.empty.addTable first).addTable second) kept).map Operation.rank = [2, 0] := by
  decide

end SchemaEvolution.Patch
