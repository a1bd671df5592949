import SchemaEvolution.Proofs.History.Reconstruction

/-!
# Refused appends

A store that refuses a version keeps every snapshot and every version as it was.  It has heard of
the schema from then on, though: a schema of which it had not heard before has the latest number
zero, where there was none.  Of a store that has taken some calls this is so exactly if none of
them was about that schema.
-/

namespace SchemaEvolution.History.Store

theorem latestNumber?_eq_none_iff (store : Store) (id : String) :
    store.latestNumber? id = none ↔ store.schemas.get? id = none := Option.map_eq_none_iff

/-- A store has heard of the schema of every call that reaches it, whatever comes of the call. -/
theorem exists_get?_after (store : Store) (call : Call) :
    ∃ stored, (store.after call).schemas.get? call.id = some stored := by
  cases call with
  | save id schema number => exact ⟨_, (Keyed.get?_insert ..).trans (if_pos rfl)⟩
  | append id version =>
    rw [after, append]
    cases appendError? id (store.entry id) version with
    | none => exact ⟨_, (Keyed.get?_insert ..).trans (if_pos rfl)⟩
    | some error => exact ⟨_, (Keyed.get?_insert ..).trans (if_pos rfl)⟩

/-- A new store has heard of the schemas of the calls that it has taken, and of no others. -/
theorem latestNumber?_run_ne_none_iff (calls : List Call) (id : String) :
    (run calls).latestNumber? id ≠ none ↔ ∃ call ∈ calls, call.id = id := by
  rw [Ne, latestNumber?_eq_none_iff]
  induction calls using List.reverseRecOn with
  | nil => exact iff_of_false (fun hne => hne rfl) nofun
  | append_singleton calls call ih =>
    rw [run_append]
    change (((run calls).after call).schemas.get? id ≠ none) ↔ _
    by_cases hid : call.id = id
    · subst hid
      obtain ⟨stored, hstored⟩ := exists_get?_after (run calls) call
      rw [hstored]
      exact iff_of_true nofun ⟨call, List.mem_append_right _ List.mem_cons_self, rfl⟩
    · rw [get?_after_of_ne _ hid, Ne, ih]
      simp only [List.mem_append, List.mem_singleton, or_and_right, exists_or, exists_eq_left, hid,
        or_false]

section Refused

variable {store : Store} {id : String} {version : Version} {error : HistoryError}
  (hrefused : (store.append id version).2 = some error)

include hrefused

/-- A refused version leaves the entry of its schema, which is there from then on. -/
theorem get?_after_refused :
    (store.after (.append id version)).schemas.get? id = some (store.entry id) := by
  rw [append_snd] at hrefused
  rw [after, append, hrefused]
  exact (Keyed.get?_insert ..).trans (if_pos rfl)

theorem entry_after_refused (other : String) :
    (store.after (.append id version)).entry other = store.entry other := by
  by_cases hid : id = other
  · subst hid
    rw [entry, get?_after_refused hrefused, Option.getD_some]
  · have hcall : (Call.append id version).id ≠ other := hid
    rw [entry, entry, get?_after_of_ne store hcall]

/-- A version is refused because its number is not above the latest one or not right after it. -/
theorem error_of_refused :
    error = .conflict id version.number ∨
      error = .outOfOrder (store.latest id) version.number := by
  rw [append_snd, appendError?, ← latest_eq] at hrefused
  split at hrefused
  · exact .inl (Option.some.inj hrefused).symm
  · split at hrefused
    · exact .inr (Option.some.inj hrefused).symm
    · cases hrefused

/-- Every answer about the schema stays as it was exactly if the store had heard of it. -/
theorem sameAnswers_after_refused_iff :
    SameAnswers id (store.after (.append id version)) store ↔ store.latestNumber? id ≠ none := by
  constructor
  · intro hsame hnone
    have hlatest := hsame.1
    rw [hnone, latestNumber?_eq_none_iff, get?_after_refused hrefused] at hlatest
    cases hlatest
  · intro hknown
    obtain ⟨stored, hstored⟩ :=
      Option.ne_none_iff_exists'.1 (mt (latestNumber?_eq_none_iff store id).2 hknown)
    refine sameAnswers_of_get? ?_
    rw [get?_after_refused hrefused, entry, hstored, Option.getD_some]

end Refused

/-- A refused version leaves every snapshot and every version as it was, and every answer about
other schemas.  The latest number of its own schema changes exactly if the store had not heard of
the schema: then it is zero, where there was none.  That is so after some calls on a new store
exactly if none of them was about the schema. -/
theorem refused_append_unnoticed_iff (store : Store) (id : String) (version : Version)
    (error : HistoryError) (hrefused : (store.append id version).2 = some error) :
    (error = .conflict id version.number ∨
      error = .outOfOrder (store.latest id) version.number) ∧
    (∀ other, (store.after (.append id version)).snapshot? other = store.snapshot? other ∧
      ∀ number, (store.after (.append id version)).versionsSince other number =
        store.versionsSince other number) ∧
    (∀ other, other ≠ id → SameAnswers other (store.after (.append id version)) store) ∧
    (SameAnswers id (store.after (.append id version)) store ↔ store.latestNumber? id ≠ none) ∧
    (store.latestNumber? id = none →
      (store.after (.append id version)).latestNumber? id = some 0) ∧
    (∀ calls, store = run calls →
      (store.latestNumber? id ≠ none ↔ ∃ call ∈ calls, call.id = id)) := by
  have hentry := entry_after_refused hrefused
  refine ⟨error_of_refused hrefused, fun other => ⟨?_, fun number => ?_⟩, fun other hother => ?_,
    sameAnswers_after_refused_iff hrefused, fun hnone => ?_, ?_⟩
  · rw [snapshot?_eq, snapshot?_eq, hentry]
  · rw [versionsSince, versionsSince, hentry]
  · exact sameAnswers_of_get? (get?_after_of_ne store (Ne.symm hother))
  · have hempty : store.entry id = .empty := by
      rw [entry, (latestNumber?_eq_none_iff store id).1 hnone, Option.getD_none]
    rw [latestNumber?, get?_after_refused hrefused, hempty]
    rfl
  · rintro calls rfl
    exact latestNumber?_run_ne_none_iff calls id

/-- A new store refuses version 5 of a schema of which it has not heard.  Then it has heard of the
schema, at number zero. -/
theorem refused_append_unnoticed_iff_newStore :
    (empty.append "app" ⟨5, []⟩).2 = some (.outOfOrder 0 5) ∧
    empty.latestNumber? "app" = none ∧
    (empty.after (.append "app" ⟨5, []⟩)).latestNumber? "app" = some 0 ∧
    ¬ SameAnswers "app" (empty.after (.append "app" ⟨5, []⟩)) empty := by
  have hrefused : (empty.append "app" ⟨5, []⟩).2 = some (.outOfOrder 0 5) := rfl
  obtain ⟨-, -, -, hsame, hlatest, -⟩ :=
    refused_append_unnoticed_iff empty "app" ⟨5, []⟩ _ hrefused
  exact ⟨hrefused, rfl, hlatest rfl, fun hall => hsame.1 hall rfl⟩

end SchemaEvolution.History.Store
