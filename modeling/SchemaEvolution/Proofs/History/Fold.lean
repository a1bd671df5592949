import SchemaEvolution.History.Version
import SchemaEvolution.Proofs.Patch.Acceptance

/-!
# Folding versions

Versions whose numbers follow one another are folded as one long patch, and a fold may be
interrupted and taken up again.  Any other list is refused at the first number that does not
follow the one before it.
-/

namespace SchemaEvolution.History

open Patch (Operation Refusal applyAll)

/-- The versions have the numbers after a given one, without a gap.  As the numbers have 32 bits,
none of them lies behind the last number of 32 bits. -/
def Consecutive (number : UInt32) (versions : List Version) : Prop :=
  versions.map (fun version => version.number.toNat) =
    List.range' (number.toNat + 1) versions.length

instance (number : UInt32) (versions : List Version) : Decidable (Consecutive number versions) :=
  inferInstanceAs (Decidable (_ = _))

/-- A number has a successor within 32 bits exactly if that is one more. -/
theorem successor?_eq_some_iff {number other : UInt32} :
    successor? number = some other ↔ other.toNat = number.toNat + 1 := by
  rw [successor?]
  split
  · next hsize =>
    rw [Option.some.injEq, ← UInt32.toNat_inj, UInt32.toNat_add]
    change (number.toNat + 1) % UInt32.size = _ ↔ _
    rw [Nat.mod_eq_of_lt hsize]
    exact eq_comm
  · next hsize =>
    have hother := other.toNat_lt_size
    simp only [reduceCtorEq, false_iff]
    omega

theorem consecutive_cons {number : UInt32} {version : Version} {rest : List Version} :
    Consecutive number (version :: rest) ↔
      version.number.toNat = number.toNat + 1 ∧ Consecutive version.number rest := by
  rw [Consecutive, Consecutive, List.map_cons, List.length_cons, List.range'_succ,
    List.cons.injEq]
  constructor
  · rintro ⟨hfirst, hrest⟩
    exact ⟨hfirst, by rw [hrest, hfirst]⟩
  · rintro ⟨hfirst, hrest⟩
    exact ⟨hfirst, by rw [hrest, hfirst]⟩

theorem lastNumber_cons_of_follows {number : UInt32} {version : Version}
    (hfollows : version.number.toNat = number.toNat + 1) (rest : List Version) :
    lastNumber number (version :: rest) = lastNumber version.number rest := by
  rw [lastNumber, if_pos (successor?_eq_some_iff.2 hfollows)]

theorem lastNumber_cons_of_not_follows {number : UInt32} {version : Version}
    (hfollows : version.number.toNat ≠ number.toNat + 1) (rest : List Version) :
    lastNumber number (version :: rest) = .error (.outOfOrder number version.number) := by
  rw [lastNumber, if_neg (mt successor?_eq_some_iff.1 hfollows)]

/-- The last number is found exactly if every version has the number after the one before it. -/
theorem lastNumber_eq_ok_iff {versions : List Version} {number last : UInt32} :
    lastNumber number versions = .ok last ↔
      Consecutive number versions ∧ last.toNat = number.toNat + versions.length := by
  induction versions generalizing number with
  | nil =>
    rw [lastNumber, Except.ok.injEq, ← UInt32.toNat_inj]
    exact ⟨fun heq => ⟨rfl, heq.symm⟩, fun h => h.2.symm⟩
  | cons version rest ih =>
    rw [consecutive_cons]
    by_cases hfollows : version.number.toNat = number.toNat + 1
    · rw [lastNumber_cons_of_follows hfollows, ih, List.length_cons, hfollows]
      have hlength : number.toNat + 1 + rest.length = number.toNat + (rest.length + 1) := by omega
      rw [hlength]
      simp only [true_and]
    · rw [lastNumber_cons_of_not_follows hfollows]
      simp [hfollows]

theorem Consecutive.exists_lastNumber {versions : List Version} {number : UInt32}
    (hconsecutive : Consecutive number versions) :
    ∃ last, lastNumber number versions = .ok last := by
  induction versions generalizing number with
  | nil => exact ⟨number, rfl⟩
  | cons version rest ih =>
    obtain ⟨hfollows, hrest⟩ := consecutive_cons.1 hconsecutive
    rw [lastNumber_cons_of_follows hfollows]
    exact ih hrest

/-- The first number that does not follow is reported with the one before it. -/
theorem lastNumber_eq_error_iff {versions : List Version} {number : UInt32}
    {error : HistoryError} :
    lastNumber number versions = .error error ↔
      ∃ front version back previous, versions = front ++ version :: back ∧
        Consecutive number front ∧ previous.toNat = number.toNat + front.length ∧
        version.number.toNat ≠ previous.toNat + 1 ∧
        error = .outOfOrder previous version.number := by
  induction versions generalizing number with
  | nil => simp [lastNumber]
  | cons first rest ih =>
    by_cases hfollows : first.number.toNat = number.toNat + 1
    · rw [lastNumber_cons_of_follows hfollows, ih]
      constructor
      · rintro ⟨front, version, back, previous, rfl, hfront, hprevious, hbreaks, rfl⟩
        refine ⟨first :: front, version, back, previous, rfl,
          consecutive_cons.2 ⟨hfollows, hfront⟩, ?_, hbreaks, rfl⟩
        rw [hprevious, List.length_cons]
        omega
      · rintro ⟨front, version, back, previous, heq, hfront, hprevious, hbreaks, rfl⟩
        cases front with
        | nil =>
          cases heq
          rw [List.length_nil, Nat.add_zero] at hprevious
          exact absurd (hprevious ▸ hfollows) hbreaks
        | cons other front =>
          cases heq
          rw [List.length_cons] at hprevious
          exact ⟨front, version, back, previous, rfl, (consecutive_cons.1 hfront).2,
            by omega, hbreaks, rfl⟩
    · rw [lastNumber_cons_of_not_follows hfollows, Except.error.injEq]
      constructor
      · rintro rfl
        exact ⟨[], first, rest, number, rfl, rfl, rfl, hfollows, rfl⟩
      · rintro ⟨front, version, back, previous, heq, hfront, hprevious, hbreaks, rfl⟩
        cases front with
        | nil =>
          cases heq
          rw [List.length_nil, Nat.add_zero, UInt32.toNat_inj] at hprevious
          rw [hprevious]
        | cons other front =>
          cases heq
          exact absurd (consecutive_cons.1 hfront).1 hfollows

/-- The last number of joined versions is that of the second part, counted on from the first. -/
theorem lastNumber_append (front back : List Version) (number : UInt32) :
    lastNumber number (front ++ back) =
      (lastNumber number front).bind fun middle => lastNumber middle back := by
  induction front generalizing number with
  | nil => rfl
  | cons version rest ih =>
    rw [List.cons_append]
    by_cases hfollows : version.number.toNat = number.toNat + 1
    · rw [lastNumber_cons_of_follows hfollows, lastNumber_cons_of_follows hfollows, ih]
    · rw [lastNumber_cons_of_not_follows hfollows, lastNumber_cons_of_not_follows hfollows]
      rfl

theorem Consecutive.mem_bounds {number : UInt32} {versions : List Version}
    (hconsecutive : Consecutive number versions) {version : Version} (hmem : version ∈ versions) :
    number.toNat < version.number.toNat ∧
      version.number.toNat ≤ number.toNat + versions.length := by
  have hrange : version.number.toNat ∈ List.range' (number.toNat + 1) versions.length := by
    rw [← hconsecutive]
    exact List.mem_map_of_mem hmem
  rw [List.mem_range'_1] at hrange
  omega

theorem Consecutive.sorted {number : UInt32} {versions : List Version}
    (hconsecutive : Consecutive number versions) :
    (versions.map Version.number).Pairwise (· < ·) := by
  have hrange : (versions.map fun version => version.number.toNat).Pairwise (· < ·) := by
    rw [hconsecutive]
    exact List.pairwise_lt_range'
  rw [List.pairwise_map] at hrange ⊢
  exact hrange.imp UInt32.lt_iff_toNat_lt.2

theorem Consecutive.snoc {number : UInt32} {versions : List Version} {version : Version}
    (hconsecutive : Consecutive number versions)
    (hnext : version.number.toNat = number.toNat + versions.length + 1) :
    Consecutive number (versions ++ [version]) := by
  rw [Consecutive, List.map_append, hconsecutive, List.length_append, List.length_singleton,
    List.range'_concat, List.map_singleton, hnext]
  congr 2
  omega

/-- The versions above the number that a front leads to are those after the front. -/
theorem Consecutive.filter_append {number middle : UInt32} {front back : List Version}
    (hconsecutive : Consecutive number (front ++ back))
    (hmiddle : lastNumber number front = .ok middle) :
    ((front ++ back).filter fun version => middle < version.number) = back := by
  obtain ⟨hfront, hcount⟩ := lastNumber_eq_ok_iff.1 hmiddle
  have hback : Consecutive middle back := by
    obtain ⟨last, hlast⟩ := hconsecutive.exists_lastNumber
    rw [lastNumber_append, hmiddle] at hlast
    exact (lastNumber_eq_ok_iff.1 hlast).1
  have hnone : front.filter (fun version => middle < version.number) = [] := by
    rw [List.filter_eq_nil_iff]
    intro version hmem habove
    have hlt := UInt32.lt_iff_toNat_lt.1 (of_decide_eq_true habove)
    have hle := (hfront.mem_bounds hmem).2
    omega
  have hall : back.filter (fun version => middle < version.number) = back := by
    rw [List.filter_eq_self]
    intro version hmem
    exact decide_eq_true (UInt32.lt_iff_toNat_lt.2 (hback.mem_bounds hmem).1)
  rw [List.filter_append, hnone, hall, List.nil_append]

/-- The refusals of a tolerant run of labelled operations, each under the label of the operation
that it is about. -/
def labelledRefusals {α : Type} (schema : Schema) : List (α × Operation) → List (α × Refusal)
  | [] => []
  | (label, op) :: rest =>
    match op.apply schema with
    | .ok next => labelledRefusals next rest
    | .error refusal => (label, refusal) :: labelledRefusals schema rest

/-- Without their labels the refusals are those of the tolerant run. -/
theorem map_snd_labelledRefusals {α : Type} (items : List (α × Operation)) (schema : Schema) :
    (labelledRefusals schema items).map Prod.snd =
      (applyAll schema (items.map Prod.snd)).refusals := by
  induction items generalizing schema with
  | nil => rfl
  | cons item rest ih =>
    obtain ⟨label, op⟩ := item
    rw [labelledRefusals, List.map_cons]
    cases happly : op.apply schema with
    | ok next => rw [Patch.applyAll_cons_of_ok happly, ← ih]
    | error refusal => rw [Patch.applyAll_cons_of_error happly, ← ih, List.map_cons]

/-- The refusals of joined items are those of the first, and those of the second from what the first
leave. -/
theorem labelledRefusals_append {α : Type} (front back : List (α × Operation)) (schema : Schema) :
    labelledRefusals schema (front ++ back) = labelledRefusals schema front ++
      labelledRefusals (applyAll schema (front.map Prod.snd)).schema back := by
  induction front generalizing schema with
  | nil => rfl
  | cons item rest ih =>
    obtain ⟨label, op⟩ := item
    rw [List.cons_append, labelledRefusals, labelledRefusals, List.map_cons]
    cases happly : op.apply schema with
    | ok next => rw [Patch.applyAll_cons_of_ok happly, ← ih]
    | error refusal => rw [Patch.applyAll_cons_of_error happly, ih, List.cons_append]

/-- Where all labels are the same, the refusals are those of the run under that label. -/
theorem labelledRefusals_const {α : Type} (label : α) (ops : List Operation) (schema : Schema) :
    labelledRefusals schema (ops.map fun op => (label, op)) =
      (applyAll schema ops).refusals.map fun refusal => (label, refusal) := by
  induction ops generalizing schema with
  | nil => rfl
  | cons op rest ih =>
    rw [List.map_cons, labelledRefusals]
    cases happly : op.apply schema with
    | ok next => rw [Patch.applyAll_cons_of_ok happly, ← ih]
    | error refusal => rw [Patch.applyAll_cons_of_error happly, ih, List.map_cons]

/-! ## Folds -/

def allOperations (versions : List Version) : List Operation :=
  versions.flatMap Version.operations

/-- All operations of some versions, each with the number of its version. -/
def numbered (versions : List Version) : List (UInt32 × Operation) :=
  versions.flatMap fun version => version.operations.map fun op => (version.number, op)

theorem map_snd_numbered (versions : List Version) :
    (numbered versions).map Prod.snd = allOperations versions := by
  rw [numbered, allOperations, List.map_flatMap]
  simp [Function.comp_def]

/-- Versions are folded one by one as their operations are applied at once. -/
theorem foldl_step (versions : List Version) (schema : Schema) (number : UInt32)
    (refusals : List (UInt32 × Refusal)) :
    versions.foldl Folded.step ⟨schema, number, refusals⟩ =
      { schema := (applyAll schema (allOperations versions)).schema
        number := (versions.getLast?.map Version.number).getD number
        refusals := refusals ++ labelledRefusals schema (numbered versions) } := by
  induction versions generalizing schema number refusals with
  | nil => simp [allOperations, numbered, labelledRefusals]
  | cons version rest ih =>
    have hlast : ((version :: rest).getLast?.map Version.number).getD number =
        (rest.getLast?.map Version.number).getD version.number := by
      rw [List.getLast?_cons]
      cases rest.getLast? <;> rfl
    have hops : allOperations (version :: rest) = version.operations ++ allOperations rest := rfl
    have hnumbered : numbered (version :: rest) =
        version.operations.map (fun op => (version.number, op)) ++ numbered rest := rfl
    have hmap : (version.operations.map fun op => (version.number, op)).map Prod.snd =
        version.operations := by simp [Function.comp_def]
    rw [List.foldl_cons, Folded.step, ih, hlast, hops, Patch.applyAll_append, hnumbered,
      labelledRefusals_append, labelledRefusals_const, hmap, List.append_assoc]

/-- The last number is that of the last version, or of the base where there is none. -/
theorem getLast?_number {versions : List Version} {number last : UInt32}
    (hlast : lastNumber number versions = .ok last) :
    (versions.getLast?.map Version.number).getD number = last := by
  induction versions generalizing number with
  | nil => exact Except.ok.inj hlast
  | cons version rest ih =>
    by_cases hfollows : version.number.toNat = number.toNat + 1
    · rw [lastNumber_cons_of_follows hfollows] at hlast
      rw [← ih hlast, List.getLast?_cons]
      cases rest.getLast? <;> rfl
    · rw [lastNumber_cons_of_not_follows hfollows] at hlast
      cases hlast

theorem fold_of_lastNumber {versions : List Version} {number last : UInt32}
    (hlast : lastNumber number versions = .ok last) (base : Schema) :
    fold base number versions =
      .ok ⟨(applyAll base (allOperations versions)).schema, last,
        labelledRefusals base (numbered versions)⟩ := by
  rw [fold, hlast]
  simp only [bind, Except.bind, pure, Except.pure, foldl_step, getLast?_number hlast,
    List.nil_append]

theorem fold_of_error {versions : List Version} {number : UInt32} {error : HistoryError}
    (herror : lastNumber number versions = .error error) (base : Schema) :
    fold base number versions = .error error := by
  rw [fold, herror]
  rfl

theorem lastNumber_of_fold {versions : List Version} {number : UInt32} {base : Schema}
    {folded : Folded} (hfolded : fold base number versions = .ok folded) :
    ∃ last, lastNumber number versions = .ok last ∧
      folded = ⟨(applyAll base (allOperations versions)).schema, last,
        labelledRefusals base (numbered versions)⟩ := by
  cases hlast : lastNumber number versions with
  | ok last =>
    rw [fold_of_lastNumber hlast, Except.ok.injEq] at hfolded
    exact ⟨last, rfl, hfolded.symm⟩
  | error error =>
    rw [fold_of_error hlast] at hfolded
    cases hfolded

theorem fold_eq_error_iff {versions : List Version} {number : UInt32} {base : Schema}
    {error : HistoryError} :
    fold base number versions = .error error ↔ lastNumber number versions = .error error := by
  cases hlast : lastNumber number versions with
  | ok last =>
    rw [fold_of_lastNumber hlast]
    constructor <;> intro heq <;> cases heq
  | error other =>
    rw [fold_of_error hlast, Except.error.injEq, Except.error.injEq]

/-- A fold that continues another one. -/
def Folded.after (first second : Folded) : Folded :=
  { second with refusals := first.refusals ++ second.refusals }

/-- A fold may be interrupted and taken up again. -/
theorem fold_append (base : Schema) (number : UInt32) (front back : List Version) :
    fold base number (front ++ back) = do
      let first ← fold base number front
      let second ← fold first.schema first.number back
      return first.after second := by
  have happend := lastNumber_append front back number
  cases hfront : lastNumber number front with
  | error error =>
    rw [hfront] at happend
    rw [fold_of_error hfront, fold_of_error happend]
    rfl
  | ok middle =>
    rw [hfront] at happend
    rw [fold_of_lastNumber hfront]
    change _ = (do
      let second ← fold (applyAll base (allOperations front)).schema middle back
      return Folded.after ⟨(applyAll base (allOperations front)).schema, middle,
        labelledRefusals base (numbered front)⟩ second)
    cases hback : lastNumber middle back with
    | error error =>
      rw [fold_of_error hback, fold_of_error (happend.trans hback)]
      rfl
    | ok last =>
      have hops : allOperations (front ++ back) = allOperations front ++ allOperations back :=
        List.flatMap_append
      have hnumbered : numbered (front ++ back) = numbered front ++ numbered back :=
        List.flatMap_append
      rw [fold_of_lastNumber hback, fold_of_lastNumber (happend.trans hback), hops,
        Patch.applyAll_append, hnumbered, labelledRefusals_append, map_snd_numbered]
      rfl

/-- A fold succeeds exactly when every version has the number after that of the one before it;
then it applies all operations as one patch, with every refusal under the number of its version.
Otherwise it reports the first number that does not follow and the one before it.  It may be
interrupted anywhere and taken up again. -/
theorem fold_iff_consecutive (base : Schema) (number : UInt32) (versions : List Version) :
    ((∃ folded, fold base number versions = .ok folded) ↔ Consecutive number versions) ∧
    (∀ folded, fold base number versions = .ok folded →
      folded.schema = (applyAll base (allOperations versions)).schema ∧
      folded.number.toNat = number.toNat + versions.length ∧
      folded.refusals = labelledRefusals base (numbered versions) ∧
      folded.refusals.map Prod.snd = (applyAll base (allOperations versions)).refusals) ∧
    (∀ error, fold base number versions = .error error ↔
      ∃ front version back previous, versions = front ++ version :: back ∧
        Consecutive number front ∧ previous.toNat = number.toNat + front.length ∧
        version.number.toNat ≠ previous.toNat + 1 ∧
        error = .outOfOrder previous version.number) ∧
    ∀ front back, versions = front ++ back →
      fold base number versions = do
        let first ← fold base number front
        let second ← fold first.schema first.number back
        return first.after second := by
  refine ⟨⟨?_, ?_⟩, ?_, ?_, ?_⟩
  · rintro ⟨folded, hfolded⟩
    obtain ⟨last, hlast, -⟩ := lastNumber_of_fold hfolded
    exact (lastNumber_eq_ok_iff.1 hlast).1
  · intro hconsecutive
    obtain ⟨last, hlast⟩ := hconsecutive.exists_lastNumber
    exact ⟨_, fold_of_lastNumber hlast base⟩
  · intro folded hfolded
    obtain ⟨last, hlast, rfl⟩ := lastNumber_of_fold hfolded
    refine ⟨rfl, (lastNumber_eq_ok_iff.1 hlast).2, rfl, ?_⟩
    rw [map_snd_labelledRefusals, map_snd_numbered]
  · intro error
    rw [fold_eq_error_iff, lastNumber_eq_error_iff]
  · rintro front back rfl
    exact fold_append base number front back

end SchemaEvolution.History
