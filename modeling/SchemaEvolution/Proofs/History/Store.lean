import Mathlib.Data.List.Induction
import SchemaEvolution.History.Store
import SchemaEvolution.Proofs.History.Fold
import SchemaEvolution.Proofs.Keyed.Lookup

/-!
# Stores under concurrent calls

Calls reach a store one at a time, whoever makes them, so an interleaving of the calls of several
clients is a list of calls.  The versions that a store accepts for a schema have increasing
numbers, each of them right after the latest one at that moment, and schemas do not interfere.
-/

namespace SchemaEvolution.History

/-- A call that changes a store. -/
inductive Call where
  | save (id : String) (schema : Schema) (number : UInt32)
  | append (id : String) (version : Version)

def Call.id : Call → String
  | .save id _ _ | .append id _ => id

namespace Store

def after (store : Store) : Call → Store
  | .save id schema number => store.saveSnapshot id schema number
  | .append id version => (store.append id version).1

/-- A new store after some calls, in the order in which they reach it. -/
def run (calls : List Call) : Store := calls.foldl after empty

/-- The latest number of a schema, zero where the store has not heard of it. -/
def latest (store : Store) (id : String) : UInt32 := (store.latestNumber? id).getD 0

def added (store : Store) (id : String) : Call → List Version
  | .save _ _ _ => []
  | .append key version =>
    if key = id ∧ (store.append key version).2 = none then [version] else []

/-- The versions of a schema that are accepted from some calls, in the order of acceptance. -/
def acceptedFrom (store : Store) (id : String) : List Call → List Version
  | [] => []
  | call :: rest => store.added id call ++ (store.after call).acceptedFrom id rest

/-- The versions of a schema that a new store accepts, in the order of acceptance. -/
def accepted (id : String) (calls : List Call) : List Version := empty.acceptedFrom id calls

/-- Two stores answer every question about a schema alike. -/
def SameAnswers (id : String) (left right : Store) : Prop :=
  left.latestNumber? id = right.latestNumber? id ∧ left.snapshot? id = right.snapshot? id ∧
    (∀ number, left.versionsSince id number = right.versionsSince id number) ∧
    left.reconstruct id = right.reconstruct id ∧
    ∀ version, (left.append id version).2 = (right.append id version).2

theorem run_append (front back : List Call) :
    run (front ++ back) = back.foldl after (run front) := List.foldl_append

theorem acceptedFrom_append (front back : List Call) (store : Store) (id : String) :
    store.acceptedFrom id (front ++ back) =
      store.acceptedFrom id front ++ (front.foldl after store).acceptedFrom id back := by
  induction front generalizing store with
  | nil => rfl
  | cons call rest ih =>
    rw [List.cons_append, acceptedFrom, acceptedFrom, ih, List.append_assoc, List.foldl_cons]

theorem accepted_snoc (id : String) (calls : List Call) (call : Call) :
    accepted id (calls ++ [call]) = accepted id calls ++ (run calls).added id call := by
  rw [accepted, acceptedFrom_append, acceptedFrom, acceptedFrom, List.append_nil]
  rfl

theorem latest_eq (store : Store) (id : String) : store.latest id = (store.entry id).latest := by
  rw [latest, latestNumber?, entry]
  cases store.schemas.get? id <;> rfl

theorem entry_insert (store : Store) (key id : String) (stored : Stored) :
    entry ⟨store.schemas.insert key stored⟩ id = if key = id then stored else store.entry id := by
  rw [entry, Keyed.get?_insert]
  split <;> rfl

/-- Why an append is refused, in terms of the latest number. -/
theorem append_snd (store : Store) (id : String) (version : Version) :
    (store.append id version).2 = appendError? id (store.entry id) version := by
  rw [append]
  cases appendError? id (store.entry id) version <;> rfl

/-- A version is accepted exactly if it has the number after the latest one. -/
theorem appendError?_eq_none_iff {id : String} {stored : Stored} {version : Version} :
    appendError? id stored version = none ↔
      version.number.toNat = stored.latest.toNat + 1 := by
  rw [appendError?]
  by_cases hconflict : version.number ≤ stored.latest
  · rw [if_pos hconflict]
    rw [UInt32.le_iff_toNat_le] at hconflict
    simp only [reduceCtorEq, false_iff]
    omega
  · rw [if_neg hconflict]
    by_cases hfollows : successor? stored.latest = some version.number
    · simp [hfollows, successor?_eq_some_iff.1 hfollows]
    · simp [hfollows, mt successor?_eq_some_iff.2 hfollows]

/-- An append is accepted exactly when its number is right after the latest one. -/
theorem append_eq_none_iff (store : Store) (id : String) (version : Version) :
    (store.append id version).2 = none ↔
      version.number.toNat = (store.latest id).toNat + 1 := by
  rw [append_snd, appendError?_eq_none_iff, latest_eq]

theorem append_eq_conflict {store : Store} {id : String} {version : Version}
    (hconflict : version.number.toNat ≤ (store.latest id).toNat) :
    (store.append id version).2 = some (.conflict id version.number) := by
  rw [latest_eq] at hconflict
  rw [append_snd, appendError?, if_pos (UInt32.le_iff_toNat_le.2 hconflict)]

/-- What a call makes of the entry of a schema. -/
theorem entry_after (store : Store) (id : String) (call : Call) :
    ((store.after call).entry id).versions = (store.entry id).versions ++ store.added id call := by
  cases call with
  | save key schema number =>
    rw [after, saveSnapshot, entry_insert, added, List.append_nil]
    split
    · next heq => rw [heq]
    · rfl
  | append key version =>
    have hrefusal := append_snd store key version
    rw [after, added, hrefusal, append]
    cases appendError? key (store.entry key) version with
    | none =>
      rw [entry_insert]
      by_cases hkey : key = id
      · simp [hkey]
      · simp [hkey]
    | some error =>
      rw [entry_insert]
      by_cases hkey : key = id
      · simp [hkey]
      · simp [hkey]

/-- A store holds the versions that it has accepted. -/
theorem entry_run (calls : List Call) (id : String) :
    ((run calls).entry id).versions = accepted id calls := by
  induction calls using List.reverseRecOn with
  | nil => rfl
  | append_singleton calls call ih =>
    rw [accepted_snoc, run_append]
    exact (entry_after (run calls) id call).trans (by rw [ih])

theorem le_max_number (left right : UInt32) : left ≤ max left right := by
  change left ≤ if left ≤ right then right else left
  split
  · assumption
  · exact UInt32.le_refl _

/-- No stored version has a number above the latest one. -/
theorem number_le_latest {stored : Stored}
    (hsorted : (stored.versions.map Version.number).Pairwise (· < ·)) {version : Version}
    (hmem : version ∈ stored.versions) : version.number ≤ stored.latest := by
  cases hlast : stored.versions.getLast? with
  | none =>
    rw [List.getLast?_eq_none_iff] at hlast
    rw [hlast] at hmem
    cases hmem
  | some last =>
    have hle : version.number ≤ last.number := by
      obtain ⟨front, hfront⟩ := List.getLast?_eq_some_iff.1 hlast
      rw [hfront, List.map_append, List.pairwise_append] at hsorted
      rw [hfront, List.mem_append, List.mem_singleton] at hmem
      rcases hmem with hmem | rfl
      · exact UInt32.le_of_lt
          (hsorted.2.2 _ (List.mem_map_of_mem hmem) _ (by simp))
      · exact UInt32.le_refl _
    rw [Stored.latest, hlast]
    exact UInt32.le_trans hle (le_max_number _ _)

/-- The accepted versions have increasing numbers, whatever snapshots are saved between them. -/
theorem accepted_sorted (id : String) (calls : List Call) :
    ((accepted id calls).map Version.number).Pairwise (· < ·) := by
  induction calls using List.reverseRecOn with
  | nil => exact List.Pairwise.nil
  | append_singleton calls call ih =>
    rw [accepted_snoc, List.map_append, List.pairwise_append]
    refine ⟨ih, ?_, ?_⟩
    · cases call with
      | save key schema number => exact List.Pairwise.nil
      | append key version =>
        rw [added]
        split
        · exact List.pairwise_singleton _ _
        · exact List.Pairwise.nil
    · intro number hnumber other hother
      cases call with
      | save key schema number => cases hother
      | append key version =>
        rw [added] at hother
        split at hother
        · next haccepted =>
          obtain ⟨rfl, haccepted⟩ := haccepted
          rw [append_eq_none_iff, latest_eq] at haccepted
          rw [List.map_singleton, List.mem_singleton] at hother
          obtain ⟨earlier, hmem, rfl⟩ := List.mem_map.1 hnumber
          have hle : earlier.number ≤ ((run calls).entry key).latest :=
            number_le_latest (by rw [entry_run]; exact ih) (by rw [entry_run]; exact hmem)
          rw [UInt32.le_iff_toNat_le] at hle
          rw [hother, UInt32.lt_iff_toNat_lt]
          omega
        · cases hother

/-- Of a list with increasing numbers, at most one item has a given number. -/
theorem length_filter_number_le {versions : List Version}
    (hsorted : (versions.map Version.number).Pairwise (· < ·)) (number : UInt32) :
    (versions.filter fun version => version.number == number).length ≤ 1 := by
  induction versions with
  | nil => exact Nat.zero_le 1
  | cons version rest ih =>
    rw [List.map_cons, List.pairwise_cons] at hsorted
    rw [List.filter_cons]
    split
    · next heq =>
      have hnone : (rest.filter fun version => version.number == number) = [] := by
        rw [List.filter_eq_nil_iff]
        intro other hmem hother
        have hlt := hsorted.1 other.number (List.mem_map_of_mem hmem)
        rw [beq_iff_eq.1 heq, beq_iff_eq.1 hother] at hlt
        exact UInt32.lt_irrefl _ hlt
      rw [hnone]
      exact Nat.le_refl 1
    · exact ih hsorted.2

theorem get?_after_of_ne (store : Store) {id : String} {call : Call} (hne : call.id ≠ id) :
    (store.after call).schemas.get? id = store.schemas.get? id := by
  cases call with
  | save key schema number => exact (Keyed.get?_insert ..).trans (if_neg hne)
  | append key version =>
    rw [after, append]
    cases appendError? key (store.entry key) version with
    | none => exact (Keyed.get?_insert ..).trans (if_neg hne)
    | some error => exact (Keyed.get?_insert ..).trans (if_neg hne)

/-- What a store has of a schema after a call depends on what it had of the schema before. -/
theorem get?_after_congr {left right : Store} {call : Call}
    (hsame : left.schemas.get? call.id = right.schemas.get? call.id) :
    (left.after call).schemas.get? call.id = (right.after call).schemas.get? call.id := by
  have hentry : left.entry call.id = right.entry call.id := by rw [entry, entry, hsame]
  cases call with
  | save id schema number =>
    rw [Call.id] at hentry ⊢
    simp only [after, saveSnapshot, Keyed.get?_insert, hentry, if_true]
  | append id version =>
    rw [Call.id] at hentry ⊢
    simp only [after, append, hentry]
    cases appendError? id (right.entry id) version <;> simp only [Keyed.get?_insert, if_true]

theorem sameAnswers_of_get? {id : String} {left right : Store}
    (hsame : left.schemas.get? id = right.schemas.get? id) : SameAnswers id left right := by
  have hentry : left.entry id = right.entry id := by rw [entry, entry, hsame]
  have hsince : ∀ number, left.versionsSince id number = right.versionsSince id number :=
    fun number => by rw [versionsSince, versionsSince, hentry]
  refine ⟨by rw [latestNumber?, latestNumber?, hsame], by rw [snapshot?, snapshot?, hsame],
    hsince, ?_, fun version => by rw [append_snd, append_snd, hentry]⟩
  simp only [reconstruct, snapshot?, hsame, hsince]

/-- A run without the calls on other schemas has the same of a schema. -/
theorem get?_run_filter (calls : List Call) (id : String) :
    (run (calls.filter fun call => call.id = id)).schemas.get? id =
      (run calls).schemas.get? id := by
  induction calls using List.reverseRecOn with
  | nil => rfl
  | append_singleton calls call ih =>
    rw [List.filter_append, run_append, run_append]
    by_cases hid : call.id = id
    · subst hid
      rw [List.filter_cons_of_pos (by simp), List.filter_nil]
      exact get?_after_congr ih
    · rw [List.filter_cons_of_neg (by simp [hid]), List.filter_nil]
      exact ih.trans (get?_after_of_ne _ hid).symm

/-! ## Runs -/

/-- Whatever calls a store has taken, in whatever order they arrived: the versions accepted for a
schema have increasing numbers, no number twice; an append is accepted exactly when its number is
right after the latest one; after the last number of 32 bits every append is a conflict, and the
number after the latest one is asked for only where there is one; the versions above a number are
the accepted ones above it, in their order; and calls on other schemas have no influence. -/
theorem run_serializes (calls : List Call) (id : String) :
    ((accepted id calls).map Version.number).Pairwise (· < ·) ∧
    (∀ number, ((accepted id calls).filter fun version => version.number == number).length ≤ 1) ∧
    (∀ version, ((run calls).append id version).2 = none ↔
      version.number.toNat = ((run calls).latest id).toNat + 1) ∧
    (∀ version, accepted id (calls ++ [.append id version]) = accepted id calls ++
      if version.number.toNat = ((run calls).latest id).toNat + 1 then [version] else []) ∧
    (∀ version, ((run calls).latest id).toNat + 1 = UInt32.size →
      ((run calls).append id version).2 = some (.conflict id version.number)) ∧
    (∀ version, ((run calls).append id version).2 ≠ some (.conflict id version.number) →
      ((run calls).latest id).toNat + 1 < UInt32.size) ∧
    (∀ number, (run calls).versionsSince id number =
      (accepted id calls).filter fun version => number < version.number) ∧
    (∀ call, call.id ≠ id → SameAnswers id ((run calls).after call) (run calls)) ∧
    SameAnswers id (run (calls.filter fun call => call.id = id)) (run calls) := by
  refine ⟨accepted_sorted id calls, length_filter_number_le (accepted_sorted id calls),
    append_eq_none_iff (run calls) id, ?_, ?_, ?_, ?_, ?_,
    sameAnswers_of_get? (get?_run_filter ..)⟩
  · intro version
    rw [accepted_snoc, added]
    simp only [true_and, append_eq_none_iff]
  · intro version hlast
    have hnumber := version.number.toNat_lt_size
    exact append_eq_conflict (by omega)
  · intro version hno
    by_contra hlast
    have hnumber := version.number.toNat_lt_size
    exact hno (append_eq_conflict (by omega))
  · intro number
    rw [versionsSince, Stored.since, entry_run]
  · intro call hne
    exact sameAnswers_of_get? (get?_after_of_ne _ hne)

end Store

end SchemaEvolution.History
