import SchemaEvolution.Proofs.Patch.Status

/-!
# Statuses from tier to tier

Every status of a table, and of what is in it, is read off the operations that lead into the table.
It depends neither on their order nor on operations that lead elsewhere.  What comes into being or
ceases to be takes everything in it along, and a change shows in all that it lies in.
-/

namespace SchemaEvolution.Patch

namespace ChangeStatus

/-- What a pass finds depends only on which verbs occur. -/
theorem scan_eq (adds removes : Bool) (ops : List Operation) :
    scan adds removes ops =
      if ops.any fun op => op.verb == .replace then .modified
      else ofLifecycle (adds || ops.any fun op => op.verb == .add)
        (removes || ops.any fun op => op.verb == .remove) := by
  induction ops generalizing adds removes with
  | nil => simp [scan]
  | cons op rest ih =>
    have hadd : (Verb.add == Verb.remove) = false := rfl
    have hremove : (Verb.remove == Verb.add) = false := rfl
    cases hverb : op.verb <;> simp [scan, hverb, ih, hadd, hremove]

theorem ofOperations_perm {ops more : List Operation} (hperm : ops.Perm more) :
    ofOperations ops = ofOperations more := by
  simp only [ofOperations, scan_eq, hperm.any_eq]

theorem isLifecycle_iff {status : ChangeStatus} :
    status.isLifecycle = true ↔ status = .added ∨ status = .removed := by
  cases status <;> simp [isLifecycle]

end ChangeStatus

/-- The operation does not lead into the table: its path cannot be read, or leads into another
table, an enumerated type or an extension. -/
def Operation.LeadsPast (op : Operation) (table : String) : Prop :=
  ∀ path, op.path? = some path → path.table? ≠ some table

instance (op : Operation) (table : String) : Decidable (op.LeadsPast table) :=
  decidable_of_iff (∀ path ∈ op.path?, path.table? ≠ some table) Iff.rfl

/-- Two lists of operations give the table, and all that may be in it, the same statuses. -/
structure SameStatuses (table : String) (ops more : List Operation) : Prop where
  whole : tableStatus table ops = tableStatus table more
  columns : ∀ column, columnStatus table column ops = columnStatus table column more
  indexes : ∀ index, indexStatus table index ops = indexStatus table index more
  constraints : ∀ constraint,
    constraintStatus table constraint ops = constraintStatus table constraint more
  attributes : ∀ column field,
    attributeStatus table column field ops = attributeStatus table column field more

theorem selectPaths_leadsPast {table : String} {keep : Path → Bool} {extra : List Operation}
    (hkeep : ∀ path, keep path = true → Path.inTable table path = true)
    (hextra : ∀ op ∈ extra, op.LeadsPast table) : selectPaths keep extra = [] := by
  rw [selectPaths, List.filter_eq_nil_iff]
  intro op hop hchosen
  obtain ⟨path, hpath, hkept⟩ := (Option.any_eq_true _ _).1 hchosen
  exact hextra op hop path hpath (beq_iff_eq.1 (hkeep path hkept))

section Inserted

variable {table : String} {ops extra more : List Operation}
  (hextra : ∀ op ∈ extra, op.LeadsPast table) (hperm : more.Perm (ops ++ extra))

include hextra hperm

theorem selectPaths_perm {keep : Path → Bool}
    (hkeep : ∀ path, keep path = true → Path.inTable table path = true) :
    (selectPaths keep ops).Perm (selectPaths keep more) := by
  have hmore : (selectPaths keep more).Perm (selectPaths keep (ops ++ extra)) := hperm.filter _
  rw [selectPaths_append, selectPaths_leadsPast hkeep hextra, List.append_nil] at hmore
  exact hmore.symm

theorem statusAt_inserted (spot : TableSpot) :
    statusAt (.table table spot) ops = statusAt (.table table spot) more := by
  refine ChangeStatus.ofOperations_perm (selectPaths_perm hextra hperm fun path hpath => ?_)
  rw [beq_iff_eq.1 hpath]
  exact beq_self_eq_true _

theorem entryStatus_inserted (spot : TableSpot) (part : TablePart) :
    entryStatus table (.table table spot) (part.contains table) ops =
      entryStatus table (.table table spot) (part.contains table) more := by
  have hinside := selectPaths_perm hextra hperm (part.inTable_of_contains table)
  rw [entryStatus, entryStatus, statusAt_inserted hextra hperm, statusAt_inserted hextra hperm,
    hinside.isEmpty_eq]

/-- In whatever order the operations stand, and among whatever operations that lead elsewhere, they
give the same statuses. -/
theorem sameStatuses_inserted : SameStatuses table ops more where
  whole := by
    have hinside := selectPaths_perm hextra hperm fun _ => id
    rw [tableStatus, tableStatus, statusAt_inserted hextra hperm, hinside.isEmpty_eq]
  columns column := entryStatus_inserted hextra hperm (.column column .whole) (.column column)
  indexes index := entryStatus_inserted hextra hperm (.index index .whole) (.index index)
  constraints constraint :=
    entryStatus_inserted hextra hperm (.constraint constraint .whole) (.constraint constraint)
  attributes column field := by
    simp only [attributeStatus, statusAt_inserted hextra hperm]

end Inserted

/-- The status is that of the table, for everything that may be in the table. -/
structure FollowsTable (table : String) (ops : List Operation) : Prop where
  columns : ∀ column, columnStatus table column ops = tableStatus table ops
  indexes : ∀ index, indexStatus table index ops = tableStatus table ops
  constraints : ∀ constraint, constraintStatus table constraint ops = tableStatus table ops
  attributes : ∀ column field, attributeStatus table column field ops = tableStatus table ops

section Tiers

variable {table : String} {ops : List Operation}

/-- A table is added or removed by operations on the table as a whole. -/
theorem statusAt_of_isLifecycle (hlifecycle : (tableStatus table ops).isLifecycle = true) :
    statusAt (.table table .whole) ops = tableStatus table ops := by
  rw [tableStatus] at hlifecycle ⊢
  split
  · rfl
  · next hkept =>
    rw [if_neg hkept] at hlifecycle
    split at hlifecycle <;> cases hlifecycle

theorem followsTable_of_isLifecycle (hlifecycle : (tableStatus table ops).isLifecycle = true) :
    FollowsTable table ops := by
  have hwhole := statusAt_of_isLifecycle hlifecycle
  have hentry : ∀ spot inside, entryStatus table spot inside ops = tableStatus table ops := by
    intro spot inside
    rw [entryStatus, hwhole, if_pos hlifecycle]
  refine ⟨fun _ => hentry _ _, fun _ => hentry _ _, fun _ => hentry _ _, fun column field => ?_⟩
  rw [attributeStatus, hwhole, if_pos hlifecycle]

theorem statusAt_of_inside_eq_nil {inside : Path → Bool} {path : Path}
    (hinside : inside path = true) (hnil : selectPaths inside ops = []) :
    statusAt path ops = .unchanged := by
  rw [← statusAt_selectPaths hinside, hnil]
  rfl

/-- An entry is unchanged exactly when its table is neither added nor removed, and no operation
leads into the entry. -/
theorem entryStatus_eq_unchanged_iff {spot : TableSpot} {inside : Path → Bool}
    (hinside : inside (.table table spot) = true) :
    entryStatus table (.table table spot) inside ops = .unchanged ↔
      (statusAt (.table table .whole) ops).isLifecycle = false ∧ selectPaths inside ops = [] := by
  constructor
  · intro hunchanged
    dsimp only [entryStatus] at hunchanged
    split at hunchanged
    · next hlifecycle =>
      rw [hunchanged] at hlifecycle
      cases hlifecycle
    · next hkept =>
      split at hunchanged
      · next hchanged =>
        rw [hunchanged] at hchanged
        cases hchanged
      · split at hunchanged
        · next hempty => exact ⟨Bool.eq_false_iff.2 hkept, List.isEmpty_iff.1 hempty⟩
        · cases hunchanged
  · rintro ⟨hkept, hnil⟩
    rw [entryStatus, if_neg (Bool.eq_false_iff.1 hkept), statusAt_of_inside_eq_nil hinside hnil,
      hnil]
    rfl

/-- A table is unchanged exactly when no operation leads into it. -/
theorem tableStatus_eq_unchanged_iff :
    tableStatus table ops = .unchanged ↔ selectPaths (Path.inTable table) ops = [] := by
  constructor
  · intro hunchanged
    rw [tableStatus] at hunchanged
    split at hunchanged
    · next hlifecycle =>
      rw [hunchanged] at hlifecycle
      cases hlifecycle
    · split at hunchanged
      · next hempty => exact List.isEmpty_iff.1 hempty
      · cases hunchanged
  · intro hnil
    have hwhole : Path.inTable table (.table table .whole) = true := beq_self_eq_true _
    rw [tableStatus, statusAt_of_inside_eq_nil hwhole hnil, hnil]
    rfl

/-- In an unchanged table every entry is unchanged. -/
theorem entryStatus_of_tableStatus (spot : TableSpot) {part : TablePart}
    (hspot : spot.part? = some part) (htable : tableStatus table ops = .unchanged) :
    entryStatus table (.table table spot) (part.contains table) ops = .unchanged := by
  have hinside : part.contains table (.table table spot) = true := by
    rw [TablePart.contains_table, hspot, beq_self_eq_true]
  have hwhole : Path.inTable table (.table table .whole) = true := beq_self_eq_true _
  have hnil := tableStatus_eq_unchanged_iff.1 htable
  refine (entryStatus_eq_unchanged_iff hinside).2 ⟨?_, ?_⟩
  · rw [statusAt_of_inside_eq_nil hwhole hnil]
    rfl
  · rw [← selectPaths_selectPaths (part.inTable_of_contains table), hnil]
    rfl

/-- In an unchanged column every attribute is unchanged. -/
theorem attributeStatus_of_columnStatus {column : String} (field : ColumnField)
    (hcolumn : columnStatus table column ops = .unchanged) :
    attributeStatus table column field ops = .unchanged := by
  have hinside : ∀ spot,
      Path.inColumn table column (.table table (.column column spot)) = true := by
    intro spot
    simp [Path.inColumn]
  obtain ⟨hkept, hnil⟩ := (entryStatus_eq_unchanged_iff (hinside .whole)).1 hcolumn
  rw [attributeStatus, if_neg (Bool.eq_false_iff.1 hkept),
    statusAt_of_inside_eq_nil (hinside .whole) hnil,
    statusAt_of_inside_eq_nil (hinside (.field field)) hnil]
  rfl

end Tiers

/-! ## All tiers -/

/-- The statuses that a list of operations gives depend neither on its order nor on operations that
lead past the table.  Where the table is added or removed, everything in it is.  An attribute that
changes shows in its column, and a column, an index or a constraint that changes in its table. -/
theorem statuses_coherent (table : String) (ops : List Operation) :
    (∀ extra more : List Operation, (∀ op ∈ extra, op.LeadsPast table) →
      more.Perm (ops ++ extra) → SameStatuses table ops more) ∧
    (tableStatus table ops = .added ∨ tableStatus table ops = .removed →
      FollowsTable table ops) ∧
    (∀ column field, attributeStatus table column field ops ≠ .unchanged →
      columnStatus table column ops ≠ .unchanged) ∧
    (∀ column, columnStatus table column ops ≠ .unchanged → tableStatus table ops ≠ .unchanged) ∧
    (∀ index, indexStatus table index ops ≠ .unchanged → tableStatus table ops ≠ .unchanged) ∧
    ∀ constraint, constraintStatus table constraint ops ≠ .unchanged →
      tableStatus table ops ≠ .unchanged := by
  refine ⟨fun extra more hextra hperm => sameStatuses_inserted hextra hperm, ?_, ?_, ?_, ?_, ?_⟩
  · intro hstatus
    exact followsTable_of_isLifecycle (ChangeStatus.isLifecycle_iff.2 hstatus)
  · intro column field
    exact mt (attributeStatus_of_columnStatus field)
  · intro column
    exact mt (entryStatus_of_tableStatus (.column column .whole) rfl)
  · intro index
    exact mt (entryStatus_of_tableStatus (.index index .whole) rfl)
  · intro constraint
    exact mt (entryStatus_of_tableStatus (.constraint constraint .whole) rfl)

/-- A new table, and a column of it that may no longer be null. -/
def notesAdded : List Operation :=
  [.add (.table "notes" .whole) (.object [("name", .string "notes")]),
    .replace (.table "notes" (.column "body" (.field .notNull))) (.bool true)]

/-- An operation at no path, and one on an enumerated type. -/
def besideNotes : List Operation := [⟨"notes", .remove⟩, .remove (.enumType "notes" .whole)]

/-- Everything in a new table is new, whatever else is done to it and beside it. -/
theorem statuses_coherent_notes :
    ((∀ op ∈ besideNotes, op.LeadsPast "notes") ∧
      (besideNotes ++ notesAdded.reverse).Perm (notesAdded ++ besideNotes) ∧
      tableStatus "notes" notesAdded = .added) ∧
    SameStatuses "notes" notesAdded (besideNotes ++ notesAdded.reverse) ∧
    FollowsTable "notes" notesAdded ∧
    (attributeStatus "notes" "body" .notNull notesAdded ≠ .unchanged ∧
      columnStatus "notes" "body" notesAdded ≠ .unchanged) ∧
    (indexStatus "notes" "notes_body_idx" notesAdded ≠ .unchanged ∧
      constraintStatus "notes" "notes_pkey" notesAdded ≠ .unchanged) ∧
    tableStatus "notes" notesAdded ≠ .unchanged := by
  have hpast : ∀ op ∈ besideNotes, op.LeadsPast "notes" := by decide
  have hperm : (besideNotes ++ notesAdded.reverse).Perm (notesAdded ++ besideNotes) :=
    List.perm_append_comm.trans ((List.reverse_perm notesAdded).append_right besideNotes)
  have hadded : tableStatus "notes" notesAdded = .added := by decide
  have hattribute : attributeStatus "notes" "body" .notNull notesAdded ≠ .unchanged := by decide
  have hindex : indexStatus "notes" "notes_body_idx" notesAdded ≠ .unchanged := by decide
  have hconstraint : constraintStatus "notes" "notes_pkey" notesAdded ≠ .unchanged := by decide
  obtain ⟨hsame, hfollows, hcolumn, hofColumn, -, -⟩ :=
    statuses_coherent "notes" notesAdded
  have hcolumn' := hcolumn "body" .notNull hattribute
  refine ⟨⟨hpast, hperm, hadded⟩, hsame _ _ hpast hperm, hfollows (.inl hadded),
    ⟨hattribute, hcolumn'⟩, ⟨hindex, hconstraint⟩, ?_⟩
  exact hofColumn "body" hcolumn'

end SchemaEvolution.Patch
