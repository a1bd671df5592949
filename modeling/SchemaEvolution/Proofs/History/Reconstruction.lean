import SchemaEvolution.Proofs.History.Store

/-!
# Reading stores back

A store gives back the latest snapshot with the versions above it.  That succeeds exactly when
the numbers of these versions have no gap, and then it leads to the latest number.  A gap arises
where a version follows a snapshot that was ahead of the versions, and it comes to light when a
snapshot with a lower number takes the place of that one.
-/

namespace SchemaEvolution.History

/-- Every version above the number follows it or another version. -/
def Unbroken (number : UInt32) (versions : List Version) : Prop :=
  ∀ version ∈ versions, number < version.number →
    version.number.toNat = number.toNat + 1 ∨
      ∃ earlier ∈ versions, version.number.toNat = earlier.number.toNat + 1

theorem Unbroken.of_le {low high : UInt32} {versions : List Version}
    (hunbroken : Unbroken low versions) (hle : low ≤ high) : Unbroken high versions := by
  intro version hmem habove
  rw [UInt32.le_iff_toNat_le] at hle
  rw [UInt32.lt_iff_toNat_lt] at habove
  have hlow : low < version.number := UInt32.lt_iff_toNat_lt.2 (by omega)
  rcases hunbroken version hmem hlow with hnext | hearlier
  · exact .inl (by omega)
  · exact .inr hearlier

/-- A version that follows the number or the last version leaves no gap. -/
theorem Unbroken.snoc {number : UInt32} {versions : List Version} {version : Version}
    (hunbroken : Unbroken number versions)
    (hfollows : version.number.toNat = number.toNat + 1 ∨
      ∃ earlier ∈ versions, version.number.toNat = earlier.number.toNat + 1) :
    Unbroken number (versions ++ [version]) := by
  intro other hmem habove
  have hother : other.number.toNat = number.toNat + 1 ∨
      ∃ earlier ∈ versions, other.number.toNat = earlier.number.toNat + 1 := by
    rcases List.mem_append.1 hmem with hold | hnew
    · exact hunbroken other hold habove
    · rw [List.mem_singleton.1 hnew]
      exact hfollows
  rcases hother with hnext | ⟨earlier, hearlier, hnext⟩
  · exact .inl hnext
  · exact .inr ⟨earlier, List.mem_append_left _ hearlier, hnext⟩

/-- Increasing numbers above a given one are consecutive when there is no gap among them. -/
theorem consecutive_iff_unbroken {number : UInt32} {versions : List Version}
    (hsorted : (versions.map Version.number).Pairwise (· < ·))
    (habove : ∀ version ∈ versions, number < version.number) :
    Consecutive number versions ↔ Unbroken number versions := by
  induction versions generalizing number with
  | nil => exact iff_of_true rfl fun version hmem => nomatch hmem
  | cons first rest ih =>
    rw [List.map_cons, List.pairwise_cons] at hsorted
    have hlater : ∀ version ∈ rest, first.number < version.number := fun version hmem =>
      hsorted.1 _ (List.mem_map_of_mem hmem)
    have hfirst := UInt32.lt_iff_toNat_lt.1 (habove first List.mem_cons_self)
    rw [consecutive_cons, ih hsorted.2 hlater]
    constructor
    · rintro ⟨hnext, hrest⟩ version hmem -
      rcases List.mem_cons.1 hmem with rfl | hmem
      · exact .inl hnext
      · rcases hrest version hmem (hlater version hmem) with hsecond | ⟨earlier, hearlier, heq⟩
        · exact .inr ⟨first, List.mem_cons_self, hsecond⟩
        · exact .inr ⟨earlier, List.mem_cons_of_mem _ hearlier, heq⟩
    · intro hunbroken
      constructor
      · -- nothing comes before the first version, so it can only follow the number itself
        rcases hunbroken first List.mem_cons_self (habove first List.mem_cons_self) with
          hnext | ⟨earlier, hearlier, heq⟩
        · exact hnext
        · rcases List.mem_cons.1 hearlier with rfl | hearlier
          · omega
          · have hlt := UInt32.lt_iff_toNat_lt.1 (hlater earlier hearlier)
            omega
      · intro version hmem hlt
        rw [UInt32.lt_iff_toNat_lt] at hlt
        rcases hunbroken version (List.mem_cons_of_mem _ hmem)
          (habove version (List.mem_cons_of_mem _ hmem)) with hnext | ⟨earlier, hearlier, heq⟩
        · omega
        · rcases List.mem_cons.1 hearlier with rfl | hearlier
          · exact .inl heq
          · exact .inr ⟨earlier, hearlier, heq⟩

theorem exists_fold_iff {base : Schema} {number : UInt32} {versions : List Version} :
    (∃ folded, fold base number versions = .ok folded) ↔ Consecutive number versions := by
  constructor
  · rintro ⟨folded, hfolded⟩
    obtain ⟨last, hlast, -⟩ := lastNumber_of_fold hfolded
    exact (lastNumber_eq_ok_iff.1 hlast).1
  · intro hconsecutive
    obtain ⟨last, hlast⟩ := hconsecutive.exists_lastNumber
    exact ⟨_, fold_of_lastNumber hlast base⟩

/-- A version with a gap below it is above the number together with the one that it follows. -/
theorem unbroken_filter_iff (number : UInt32) (versions : List Version) :
    Unbroken number (versions.filter fun version => number < version.number) ↔
      Unbroken number versions := by
  constructor
  · intro hunbroken version hmem habove
    have hkept : version ∈ versions.filter fun version => number < version.number :=
      List.mem_filter.2 ⟨hmem, decide_eq_true habove⟩
    rcases hunbroken version hkept habove with hnext | ⟨earlier, hearlier, heq⟩
    · exact .inl hnext
    · exact .inr ⟨earlier, List.mem_of_mem_filter hearlier, heq⟩
  · intro hunbroken version hmem habove
    rcases hunbroken version (List.mem_of_mem_filter hmem) habove with
      hnext | ⟨earlier, hearlier, heq⟩
    · exact .inl hnext
    · by_cases hlow : number < earlier.number
      · exact .inr ⟨earlier, List.mem_filter.2 ⟨hearlier, decide_eq_true hlow⟩, heq⟩
      · rw [UInt32.lt_iff_toNat_lt] at hlow habove
        exact .inl (by omega)

/-- The number of the snapshot, zero where there is none. -/
def Stored.base (stored : Stored) : UInt32 := (stored.snapshot.map Prod.snd).getD 0

theorem Stored.latest_eq_base (stored : Stored) :
    stored.latest = match stored.versions.getLast? with
      | some version => max version.number stored.base
      | none => stored.base := by
  rw [latest, base]
  cases stored.snapshot <;> rfl

theorem max_eq_left_of_lt {left right : UInt32} (hlt : right < left) : max left right = left := by
  change (if left ≤ right then right else left) = left
  rw [if_neg (UInt32.not_le.2 hlt)]

theorem max_eq_right_of_le {left right : UInt32} (hle : left ≤ right) : max left right = right := by
  change (if left ≤ right then right else left) = right
  rw [if_pos hle]

/-- Versions without a gap above the snapshot lead from its number to the latest one. -/
theorem Stored.latest_of_lastNumber {stored : Stored} {schema : Schema} {number last : UInt32}
    (hsnapshot : stored.snapshot = some (schema, number))
    (hsorted : (stored.versions.map Version.number).Pairwise (· < ·))
    (hlast : lastNumber number (stored.since number) = .ok last) : stored.latest = last := by
  have hbase : stored.base = number := by rw [base, hsnapshot]; rfl
  rw [← getLast?_number hlast, latest_eq_base, since, hbase]
  rcases List.eq_nil_or_concat stored.versions with hnil | ⟨front, version, hversions⟩
  · rw [hnil]
    rfl
  · rw [List.concat_eq_append] at hversions
    rw [hversions, List.map_append, List.pairwise_append] at hsorted
    simp only [hversions, List.getLast?_concat, List.filter_append]
    by_cases habove : number < version.number
    · simp [habove, max_eq_left_of_lt habove]
    · have hle : version.number ≤ number := UInt32.not_lt.1 habove
      have hnone : front.filter (fun version => number < version.number) = [] := by
        rw [List.filter_eq_nil_iff]
        intro earlier hmem hearlier
        have hlt : earlier.number < version.number :=
          hsorted.2.2 _ (List.mem_map_of_mem hmem) _ (by simp)
        exact habove (UInt32.lt_trans (of_decide_eq_true hearlier) hlt)
      simp [habove, hnone, max_eq_right_of_le hle]

namespace Store

theorem snapshot?_eq (store : Store) (id : String) :
    store.snapshot? id = (store.entry id).snapshot := by
  rw [snapshot?, entry]
  cases store.schemas.get? id <;> rfl

/-- A store that has a snapshot of a schema has heard of the schema. -/
theorem latestNumber?_of_snapshot? {store : Store} {id : String} {saved : Schema × UInt32}
    (hsnapshot : store.snapshot? id = some saved) :
    store.latestNumber? id = some (store.entry id).latest := by
  rw [snapshot?] at hsnapshot
  rw [latestNumber?, entry]
  cases hfound : store.schemas.get? id with
  | none => rw [hfound] at hsnapshot; cases hsnapshot
  | some stored => rfl

theorem reconstruct_of_snapshot? {store : Store} {id : String} {schema : Schema}
    {number : UInt32} (hsnapshot : store.snapshot? id = some (schema, number)) :
    store.reconstruct id = fold schema number (store.versionsSince id number) := by
  rw [reconstruct, hsnapshot]

/-- What is read back has the latest number. -/
theorem latestNumber?_of_reconstruct {store : Store} {id : String} {folded : Folded}
    (hsorted : ((store.entry id).versions.map Version.number).Pairwise (· < ·))
    (hfolded : store.reconstruct id = .ok folded) :
    store.latestNumber? id = some folded.number := by
  cases hsnapshot : store.snapshot? id with
  | none =>
    rw [reconstruct, hsnapshot] at hfolded
    cases hfolded
  | some saved =>
    obtain ⟨schema, number⟩ := saved
    rw [reconstruct_of_snapshot? hsnapshot] at hfolded
    obtain ⟨last, hlast, rfl⟩ := lastNumber_of_fold hfolded
    rw [latestNumber?_of_snapshot? hsnapshot]
    rw [snapshot?_eq] at hsnapshot
    rw [Stored.latest_of_lastNumber hsnapshot hsorted hlast]

/-! ## Runs -/

/-- The numbers under which snapshots of a schema are saved, in order. -/
def saved (id : String) (calls : List Call) : List UInt32 :=
  calls.filterMap fun
    | .save key _ number => if key = id then some number else none
    | .append _ _ => none

theorem saved_snoc (id : String) (calls : List Call) (call : Call) :
    saved id (calls ++ [call]) = saved id calls ++ saved id [call] := List.filterMap_append

theorem base_save (store : Store) (key id : String) (schema : Schema) (number : UInt32) :
    ((store.after (.save key schema number)).entry id).base =
      if key = id then number else (store.entry id).base := by
  rw [after, saveSnapshot, entry_insert]
  split <;> rfl

/-- An append leaves the snapshots as they are. -/
theorem snapshot_append (store : Store) (key id : String) (version : Version) :
    ((store.append key version).1.entry id).snapshot = (store.entry id).snapshot := by
  rw [append]
  cases appendError? key (store.entry key) version with
  | none =>
    rw [entry_insert]
    split
    · next heq => rw [heq]
    · rfl
  | some error =>
    rw [entry_insert]
    split
    · next heq => rw [heq]
    · rfl

theorem base_append (store : Store) (key id : String) (version : Version) :
    ((store.after (.append key version)).entry id).base = (store.entry id).base := by
  rw [Stored.base, Stored.base, after, snapshot_append]

/-- The number of the snapshot is the one that was saved last. -/
theorem base_run (calls : List Call) (id : String) :
    ((run calls).entry id).base = (saved id calls).getLast?.getD 0 := by
  induction calls using List.reverseRecOn with
  | nil => rfl
  | append_singleton calls call ih =>
    rw [run_append, saved_snoc]
    cases call with
    | save key schema number =>
      refine (base_save ..).trans ?_
      by_cases hkey : key = id
      · simp [saved, hkey]
      · simpa [saved, hkey] using ih
    | append key version =>
      refine (base_append ..).trans ?_
      simpa [saved] using ih

/-- The latest number is that of the snapshot or that of a version. -/
theorem latest_eq_base_or_mem (store : Store) (id : String) :
    store.latest id = (store.entry id).base ∨
      ∃ version ∈ (store.entry id).versions, store.latest id = version.number := by
  rw [latest_eq, Stored.latest_eq_base]
  cases hlast : (store.entry id).versions.getLast? with
  | none => exact .inl rfl
  | some version =>
    by_cases hle : version.number ≤ (store.entry id).base
    · exact .inl (max_eq_right_of_le hle)
    · exact .inr ⟨version, List.mem_of_getLast? hlast, max_eq_left_of_lt (UInt32.not_le.1 hle)⟩

/-- Snapshots whose numbers never go down keep the versions above them without a gap. -/
theorem unbroken_of_ascending {calls : List Call} {id : String}
    (hascending : (saved id calls).Pairwise (· ≤ ·)) :
    Unbroken ((run calls).entry id).base (accepted id calls) := by
  induction calls using List.reverseRecOn with
  | nil => exact fun version hmem => nomatch hmem
  | append_singleton calls call ih =>
    rw [saved_snoc, List.pairwise_append] at hascending
    obtain ⟨hbefore, -, hstep⟩ := hascending
    have hunbroken := ih hbefore
    rw [accepted_snoc, run_append]
    cases call with
    | save key schema number =>
      change Unbroken (((run calls).after (.save key schema number)).entry id).base _
      rw [base_save, added, List.append_nil]
      by_cases hkey : key = id
      · rw [if_pos hkey]
        refine hunbroken.of_le ?_
        rw [base_run]
        cases hlast : (saved id calls).getLast? with
        | none => exact UInt32.zero_le
        | some low => exact hstep low (List.mem_of_getLast? hlast) number (by simp [saved, hkey])
      · rw [if_neg hkey]
        exact hunbroken
    | append key version =>
      change Unbroken (((run calls).after (.append key version)).entry id).base _
      rw [base_append, added]
      split
      · next haccepted =>
        obtain ⟨rfl, haccepted⟩ := haccepted
        rw [append_eq_none_iff] at haccepted
        refine hunbroken.snoc ?_
        rcases latest_eq_base_or_mem (run calls) key with hbase | ⟨last, hmem, hlast⟩
        · exact .inl (by rw [haccepted, hbase])
        · rw [entry_run] at hmem
          exact .inr ⟨last, hmem, by rw [haccepted, hlast]⟩
      · rw [List.append_nil]
        exact hunbroken

/-- The versions above the snapshot can be read back exactly when they have no gap. -/
theorem reconstruct_ok_iff_unbroken {calls : List Call} {id : String} {schema : Schema}
    {number : UInt32} (hsnapshot : (run calls).snapshot? id = some (schema, number)) :
    (∃ folded, (run calls).reconstruct id = .ok folded) ↔ Unbroken number (accepted id calls) := by
  have hsince : (run calls).versionsSince id number =
      (accepted id calls).filter fun version => number < version.number := by
    rw [versionsSince, Stored.since, entry_run]
  have hsorted : (((accepted id calls).filter fun version => number < version.number).map
      Version.number).Pairwise (· < ·) :=
    (accepted_sorted id calls).sublist (List.filter_sublist.map _)
  rw [reconstruct_of_snapshot? hsnapshot, exists_fold_iff, hsince]
  rw [consecutive_iff_unbroken hsorted fun version hmem =>
    of_decide_eq_true (List.mem_filter.1 hmem).2]
  exact unbroken_filter_iff number (accepted id calls)

/-- A store can be read back, whatever calls it has taken, exactly when the versions above its
snapshot have no gap; then it gives the latest number, and otherwise it reports the gap.  There
is no gap as long as no snapshot takes the place of one with a higher number. -/
theorem run_readable (calls : List Call) (id : String) (schema : Schema) (number : UInt32)
    (hsnapshot : (run calls).snapshot? id = some (schema, number)) :
    ((∃ folded, (run calls).reconstruct id = .ok folded) ↔
      Unbroken number (accepted id calls)) ∧
    (∀ folded, (run calls).reconstruct id = .ok folded →
      (run calls).latestNumber? id = some folded.number) ∧
    (∀ error, (run calls).reconstruct id = .error error →
      ∃ previous found, error = .outOfOrder previous found) ∧
    ((saved id calls).Pairwise (· ≤ ·) → ∃ folded, (run calls).reconstruct id = .ok folded) := by
  have hreadable := reconstruct_ok_iff_unbroken hsnapshot
  refine ⟨hreadable, ?_, ?_, ?_⟩
  · intro folded hfolded
    refine latestNumber?_of_reconstruct ?_ hfolded
    rw [entry_run]
    exact accepted_sorted id calls
  · intro error herror
    rw [reconstruct_of_snapshot? hsnapshot, fold_eq_error_iff] at herror
    obtain ⟨-, version, -, previous, -, -, -, -, rfl⟩ := lastNumber_eq_error_iff.1 herror
    exact ⟨previous, version.number, rfl⟩
  · intro hascending
    have hbase : ((run calls).entry id).base = number := by
      rw [Stored.base, ← snapshot?_eq, hsnapshot]
      rfl
    have hunbroken := unbroken_of_ascending hascending
    rw [hbase] at hunbroken
    exact hreadable.2 hunbroken

/-- A version that follows a snapshot ahead of the others is read back from that snapshot. -/
theorem run_readable_ahead :
    (∃ folded, (run [.save "app" .empty 0, .append "app" ⟨1, []⟩, .save "app" .empty 5,
      .append "app" ⟨6, []⟩]).reconstruct "app" = .ok folded) ∧
    (run [.save "app" .empty 0, .append "app" ⟨1, []⟩, .save "app" .empty 5,
      .append "app" ⟨6, []⟩]).snapshot? "app" = some (.empty, 5) :=
  have hsnapshot : (run [.save "app" .empty 0, .append "app" ⟨1, []⟩, .save "app" .empty 5,
      .append "app" ⟨6, []⟩]).snapshot? "app" = some (.empty, 5) := by rfl
  ⟨(run_readable _ _ _ _ hsnapshot).2.2.2 (by decide), hsnapshot⟩

/-- A snapshot that goes back below a version which followed a snapshot ahead of the others leaves
a gap: the store has accepted every call and can not be read back. -/
theorem reconstruct_rolledBack :
    (run [.save "app" .empty 5, .append "app" ⟨6, []⟩, .save "app" .empty 0]).snapshot? "app" =
      some (.empty, 0) ∧
    (run [.save "app" .empty 5, .append "app" ⟨6, []⟩, .save "app" .empty 0]).latestNumber? "app" =
      some 6 ∧
    (run [.save "app" .empty 5, .append "app" ⟨6, []⟩, .save "app" .empty 0]).reconstruct "app" =
      .error (.outOfOrder 0 6) :=
  ⟨rfl, rfl, rfl⟩

end Store

end SchemaEvolution.History
