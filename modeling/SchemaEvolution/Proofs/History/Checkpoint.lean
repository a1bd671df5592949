import SchemaEvolution.Proofs.History.Reconstruction

/-!
# Checkpoints

A checkpoint saves what is read back from a store as its new snapshot.  The snapshot then stands
for a front of the versions and the rest is folded on top of it, so a history may be checkpointed
at any time: what is read back stays the same.
-/

namespace SchemaEvolution.History

/-- What happens to a store after its first snapshot. -/
inductive Event where
  | append (id : String) (version : Version)
  | checkpoint (id : String)

def Event.isAppend : Event → Bool
  | .append _ _ => true
  | .checkpoint _ => false

namespace Store

/-- Saves what is read back as the snapshot; there is nothing to save where nothing is read. -/
def checkpoint (store : Store) (id : String) : Store :=
  match store.reconstruct id with
  | .ok folded => store.saveSnapshot id folded.schema folded.number
  | .error _ => store

def follow (store : Store) : Event → Store
  | .append id version => (store.append id version).1
  | .checkpoint id => store.checkpoint id

/-- A new store after a first snapshot and some events. -/
def started (id : String) (base : Schema) (number : UInt32) (events : List Event) : Store :=
  events.foldl follow (empty.saveSnapshot id base number)

theorem started_snoc (id : String) (base : Schema) (number : UInt32) (events : List Event)
    (event : Event) :
    started id base number (events ++ [event]) = (started id base number events).follow event :=
  List.foldl_concat _ _ _ _

end Store

/-- What is stored continues a base: its versions come right after the number of the base, and
its snapshot is what a front of them makes of the base. -/
structure Stored.Continues (base : Schema) (number : UInt32) (stored : Stored) : Prop where
  consecutive : Consecutive number stored.versions
  folds : ∃ front back folded, stored.versions = front ++ back ∧
    fold base number front = .ok folded ∧ stored.snapshot = some (folded.schema, folded.number)

theorem Stored.Continues.start (base : Schema) (number : UInt32) :
    Stored.Continues base number ⟨some (base, number), []⟩ where
  consecutive := rfl
  folds := ⟨[], [], ⟨base, number, []⟩, rfl, rfl, rfl⟩

namespace Store

section Continues

variable {store : Store} {id : String} {base : Schema} {number : UInt32}

/-- What is read back is what all versions make of the base. -/
theorem Continues.reconstruct (hstored : (store.entry id).Continues base number) :
    ∃ folded whole, store.reconstruct id = .ok folded ∧
      fold base number (store.entry id).versions = .ok whole ∧
      folded.schema = whole.schema ∧ folded.number = whole.number := by
  obtain ⟨hconsecutive, front, back, first, hsplit, hfirst, hsnapshot⟩ := hstored
  obtain ⟨last, hlast⟩ := hconsecutive.exists_lastNumber
  have hwhole := fold_of_lastNumber hlast base
  obtain ⟨middle, hmiddle, rfl⟩ := lastNumber_of_fold hfirst
  rw [← snapshot?_eq] at hsnapshot
  have hsince : store.versionsSince id middle = back := by
    rw [versionsSince, Stored.since, hsplit]
    rw [hsplit] at hconsecutive
    exact hconsecutive.filter_append hmiddle
  rw [reconstruct_of_snapshot? hsnapshot, hsince]
  have happend := fold_append base number front back
  rw [← hsplit, hwhole, hfirst] at happend
  cases hback : fold (Patch.applyAll base (allOperations front)).schema middle back with
  | error error =>
    simp only [bind, Except.bind, hback] at happend
    cases happend
  | ok second =>
    simp only [bind, Except.bind, hback, pure, Except.pure] at happend
    refine ⟨second, _, rfl, hwhole, ?_, ?_⟩
    · rw [Except.ok.inj happend]
      rfl
    · rw [Except.ok.inj happend]
      rfl

theorem Continues.latestNumber? (hstored : (store.entry id).Continues base number)
    {folded : Folded} (hfolded : store.reconstruct id = .ok folded) :
    store.latestNumber? id = some folded.number :=
  latestNumber?_of_reconstruct hstored.consecutive.sorted hfolded

/-- The latest number counts the versions on from the base. -/
theorem Continues.latest (hstored : (store.entry id).Continues base number) :
    (store.latest id).toNat = number.toNat + (store.entry id).versions.length := by
  obtain ⟨folded, whole, hfolded, hwhole, -, hnumber⟩ := Continues.reconstruct hstored
  rw [Store.latest, Continues.latestNumber? hstored hfolded, Option.getD_some, hnumber]
  obtain ⟨last, hlast, rfl⟩ := lastNumber_of_fold hwhole
  exact (lastNumber_eq_ok_iff.1 hlast).2

/-- Appending to a schema, or to another one, keeps its entry one that continues the base. -/
theorem Continues.append (hstored : (store.entry id).Continues base number) (key : String)
    (version : Version) : ((store.append key version).1.entry id).Continues base number := by
  have hversions := entry_after store id (.append key version)
  obtain ⟨front, back, folded, hsplit, hfolded, hsnapshot⟩ := hstored.folds
  change ((store.append key version).1.entry id).versions = _ at hversions
  refine ⟨?_, front, back ++ store.added id (.append key version), folded, ?_, hfolded, ?_⟩
  · rw [hversions, added]
    split
    · next haccepted =>
      obtain ⟨rfl, haccepted⟩ := haccepted
      rw [append_eq_none_iff, Continues.latest hstored] at haccepted
      exact hstored.consecutive.snoc haccepted
    · rw [List.append_nil]
      exact hstored.consecutive
  · rw [hversions, hsplit, List.append_assoc]
  · rw [snapshot_append, hsnapshot]

theorem entry_checkpoint_versions (store : Store) (key id : String) :
    ((store.checkpoint key).entry id).versions = (store.entry id).versions := by
  rw [checkpoint]
  cases store.reconstruct key with
  | error error => rfl
  | ok folded =>
    refine (entry_after store id (.save key folded.schema folded.number)).trans ?_
    rw [added, List.append_nil]

/-- After a checkpoint the entry of a schema continues its base. -/
theorem Continues.checkpoint (hstored : (store.entry id).Continues base number) (key : String) :
    ((store.checkpoint key).entry id).Continues base number := by
  by_cases hkey : key = id
  · subst hkey
    obtain ⟨folded, whole, hfolded, hwhole, hschema, hnumber⟩ := Continues.reconstruct hstored
    have hentry : (store.checkpoint key).entry key =
        { store.entry key with snapshot := some (whole.schema, whole.number) } := by
      rw [Store.checkpoint, hfolded, ← hschema, ← hnumber]
      exact (entry_insert ..).trans (if_pos rfl)
    rw [hentry]
    exact ⟨hstored.consecutive, (store.entry key).versions, [], whole,
      (List.append_nil _).symm, hwhole, rfl⟩
  · have hentry : (store.checkpoint key).entry id = store.entry id := by
      rw [Store.checkpoint]
      cases store.reconstruct key with
      | error error => rfl
      | ok folded => exact (entry_insert ..).trans (if_neg hkey)
    rw [hentry]
    exact hstored

theorem Continues.follow (hstored : (store.entry id).Continues base number) (event : Event) :
    ((store.follow event).entry id).Continues base number := by
  cases event with
  | append key version => exact Continues.append hstored key version
  | checkpoint key => exact Continues.checkpoint hstored key

end Continues

/-! ## Runs -/

/-- After any events the entry of a schema still continues its base. -/
theorem continues_started (id : String) (base : Schema) (number : UInt32) (events : List Event) :
    ((started id base number events).entry id).Continues base number := by
  induction events using List.reverseRecOn with
  | nil =>
    have hentry : (started id base number []).entry id = ⟨some (base, number), []⟩ :=
      (entry_insert ..).trans (if_pos rfl)
    rw [hentry]
    exact Stored.Continues.start base number
  | append_singleton events event ih =>
    rw [started_snoc]
    exact Continues.follow ih event

/-- Stores with the same versions after the same base accept the same versions. -/
theorem added_congr {left right : Store} {id : String} {base : Schema} {number : UInt32}
    (hleft : (left.entry id).Continues base number)
    (hright : (right.entry id).Continues base number)
    (hversions : (left.entry id).versions = (right.entry id).versions) (key : String)
    (version : Version) :
    left.added id (.append key version) = right.added id (.append key version) := by
  rw [added, added]
  by_cases hkey : key = id
  · subst hkey
    simp only [append_eq_none_iff, Continues.latest hleft, Continues.latest hright, hversions]
  · rw [if_neg (fun h => hkey h.1), if_neg (fun h => hkey h.1)]

/-- Checkpoints have no influence on which versions are accepted. -/
theorem versions_started (id : String) (base : Schema) (number : UInt32) (events : List Event) :
    ((started id base number (events.filter Event.isAppend)).entry id).versions =
      ((started id base number events).entry id).versions := by
  induction events using List.reverseRecOn with
  | nil => rfl
  | append_singleton events event ih =>
    rw [List.filter_append, started_snoc]
    cases event with
    | checkpoint key =>
      rw [List.filter_cons_of_neg (by simp [Event.isAppend]), List.filter_nil, List.append_nil, ih]
      exact (entry_checkpoint_versions ..).symm
    | append key version =>
      rw [List.filter_cons_of_pos (by rfl), List.filter_nil, started_snoc]
      have hplain := entry_after (started id base number (events.filter Event.isAppend)) id
        (.append key version)
      have hmixed := entry_after (started id base number events) id (.append key version)
      refine hplain.trans (Eq.trans ?_ hmixed.symm)
      rw [ih, added_congr (continues_started id base number _)
        (continues_started id base number events) ih]

/-- Whatever versions are appended to a store after its first snapshot, accepted or refused, and
whenever it is checkpointed: it can be read back, up to the latest number, and what is read back
is what would be read back without the checkpoints. -/
theorem reconstruct_checkpoints (id : String) (base : Schema) (number : UInt32)
    (events : List Event) :
    ∃ folded plain, (started id base number events).reconstruct id = .ok folded ∧
      (started id base number events).latestNumber? id = some folded.number ∧
      (started id base number (events.filter Event.isAppend)).reconstruct id = .ok plain ∧
      folded.schema = plain.schema ∧ folded.number = plain.number := by
  have hmixed := continues_started id base number events
  obtain ⟨folded, whole, hfolded, hwhole, hschema, hnumber⟩ := Continues.reconstruct hmixed
  obtain ⟨plain, whole', hplain, hwhole', hschema', hnumber'⟩ :=
    Continues.reconstruct (continues_started id base number (events.filter Event.isAppend))
  rw [versions_started, hwhole, Except.ok.injEq] at hwhole'
  subst hwhole'
  exact ⟨folded, plain, hfolded, Continues.latestNumber? hmixed hfolded, hplain,
    hschema.trans hschema'.symm, hnumber.trans hnumber'.symm⟩

end Store

end SchemaEvolution.History
