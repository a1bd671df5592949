import SchemaEvolution.Proofs.Patch.Reach

/-!
# Applying a difference

The difference between two schemas turns the one into the other, tolerantly and strictly, and
is empty exactly when they are equal.
-/

namespace SchemaEvolution.Patch

theorem applyStrictly_toOption (ops : List Operation) (schema : Schema) :
    (applyStrictly schema ops).toOption = ops.foldlM Operation.outcome? schema := by
  induction ops generalizing schema with
  | nil => rfl
  | cons op rest ih =>
    rw [applyStrictly, List.foldlM_cons, List.foldlM_cons, Operation.outcome?]
    cases op.apply schema with
    | error refusal => rfl
    | ok next => exact ih next

theorem applyStrictly_eq_ok {ops : List Operation} {schema result : Schema}
    (hrun : ops.foldlM Operation.outcome? schema = some result) :
    applyStrictly schema ops = .ok result := by
  rw [← applyStrictly_toOption] at hrun
  cases hstrict : applyStrictly schema ops with
  | error refusal => rw [hstrict] at hrun; cases hrun
  | ok other => rw [hstrict] at hrun; cases hrun; rfl

/-- A run without refusals gives the schema of the strict run. -/
theorem foldl_step_of_foldlM {ops : List Operation} {schema result : Schema}
    (hrun : ops.foldlM Operation.outcome? schema = some result) (refusals : List Refusal) :
    ops.foldl Outcome.step ⟨schema, refusals⟩ = ⟨result, refusals⟩ := by
  induction ops generalizing schema with
  | nil => cases hrun; rfl
  | cons op rest ih =>
    rw [List.foldlM_cons, Operation.outcome?] at hrun
    rw [List.foldl_cons]
    cases hop : op.apply schema with
    | error refusal => rw [hop] at hrun; cases hrun
    | ok next =>
      rw [hop] at hrun
      have hstep : Outcome.step ⟨schema, refusals⟩ op = ⟨next, refusals⟩ := by
        rw [Outcome.step, hop]
      rw [hstep]
      exact ih hrun

theorem replaceField_of_beq {α : Type} [BEq α] {path : Path} {view : α → Json} {old new : α}
    (hsame : (old == new) = true) : replaceField path view old new = [] := by
  rw [replaceField, if_pos hsame]

theorem columnChanges_of_beq (table name : String) {old new : Column}
    (hsame : (old == new) = true) : columnChanges table name old new = [] := by
  obtain ⟨-, htype, hdefault, hcheck, hnotNull, hcomment⟩ := (Column.beq_iff old new).1 hsame
  rw [columnChanges, htype, hcheck, hnotNull, hcomment]
  simp only [replaceField_of_beq hdefault, replaceField_of_beq (BEq.refl _), List.append_nil]

theorem indexChanges_of_beq (table name : String) {old new : Index}
    (hsame : (old == new) = true) : indexChanges table name old new = [] := by
  rw [eq_of_beq hsame, indexChanges]
  simp only [replaceField_of_beq (BEq.refl _), List.append_nil]

theorem constraintChanges_of_beq (table name : String) {old new : Constraint}
    (hsame : (old == new) = true) : constraintChanges table name old new = [] := by
  rw [eq_of_beq hsame, constraintChanges]
  cases new.rule <;> simp only [replaceField_of_beq (BEq.refl _), List.append_nil]

theorem enumChanges_of_beq (name : String) {old new : EnumType} (hsame : (old == new) = true) :
    enumChanges name old new = [] := by
  rw [eq_of_beq hsame, enumChanges]
  simp only [replaceField_of_beq (BEq.refl _), List.append_nil]

theorem extensionChanges_of_beq (name : String) {old new : Extension}
    (hsame : (old == new) = true) : extensionChanges name old new = [] := by
  rw [eq_of_beq hsame, extensionChanges]
  simp only [replaceField_of_beq (BEq.refl _), List.append_nil]

section Collections

variable {α : Type} [BEq α] {old new : Keyed α} (hsame : (old == new) = true)

include hsame

/-- From equal collections no name is gone. -/
theorem goneNames_of_beq : goneNames old new = [] := by
  rw [goneNames, List.filter_eq_nil_iff]
  intro name hmem
  obtain ⟨value, hvalue⟩ := Keyed.mem_keys_iff.1 hmem
  have hname := (Keyed.beq_iff_get? old new).1 hsame name
  rw [hvalue] at hname
  cases hnew : new.get? name with
  | none => rw [hnew] at hname; cases hname
  | some other => simp [Keyed.contains, hnew]

/-- Equal entries are not changed, whatever the order they come in. -/
theorem entryChanges_of_beq {added : String → α → List Operation}
    {changed : String → α → α → List Operation}
    (hchanged : ∀ name previous value, (previous == value) = true →
      changed name previous value = []) :
    entryChanges old new added changed = [] := by
  rw [entryChanges, List.flatMap_eq_nil_iff]
  intro entry hmem
  have hvalue := Keyed.get?_eq_some_iff.2 hmem
  have hname := (Keyed.beq_iff_get? old new).1 hsame entry.1
  rw [hvalue] at hname
  cases hold : old.get? entry.1 with
  | none => rw [hold] at hname; cases hname
  | some previous =>
    rw [hold] at hname
    simp only [hold]
    exact hchanged _ _ _ hname

end Collections

theorem goneConstraints_of_beq {old new : Keyed Constraint} (hsame : (old == new) = true) :
    goneConstraints old new = [] := by
  rw [goneConstraints, List.map_eq_nil_iff, List.filter_eq_nil_iff]
  intro entry hmem
  have hvalue := Keyed.get?_eq_some_iff.2 hmem
  have hname := beq_iff_eq.1 ((Keyed.beq_iff_get? old new).1 hsame entry.1)
  rw [hvalue] at hname
  simp only [← hname]
  simp

theorem tableRemovals_of_beq (name : String) {old new : Table} (hsame : (old == new) = true) :
    tableRemovals name old new = [] := by
  obtain ⟨-, -, hcolumns, hindexes, hconstraints⟩ := (Table.beq_iff old new).1 hsame
  rw [tableRemovals, goneConstraints_of_beq hconstraints, goneNames_of_beq hindexes,
    goneNames_of_beq hcolumns]
  rfl

theorem tableChanges_of_beq (name : String) {old new : Table} (hsame : (old == new) = true) :
    tableChanges name old new = [] := by
  obtain ⟨-, hcomment, hcolumns, hindexes, hconstraints⟩ := (Table.beq_iff old new).1 hsame
  rw [tableChanges, hcomment, replaceField_of_beq (BEq.refl _),
    entryChanges_of_beq hcolumns fun _ _ _ => columnChanges_of_beq name _,
    entryChanges_of_beq hindexes fun _ _ _ => indexChanges_of_beq name _,
    entryChanges_of_beq hconstraints fun _ _ _ => constraintChanges_of_beq name _]
  rfl

/-- From equal schemas nothing is removed. -/
theorem removals_of_beq {old new : Schema} (hsame : (old == new) = true) :
    removals old new = [] := by
  obtain ⟨htables, henums, hextensions⟩ := (Schema.beq_iff old new).1 hsame
  have hkept : keptTableRemovals old new = [] := by
    rw [keptTableRemovals, List.flatMap_eq_nil_iff]
    intro entry hmem
    have hvalue := Keyed.get?_eq_some_iff.2 hmem
    have hname := (Keyed.beq_iff_get? old.tables new.tables).1 htables entry.1
    rw [hvalue] at hname
    cases hnew : new.tables.get? entry.1 with
    | none => rfl
    | some table =>
      rw [hnew] at hname
      exact tableRemovals_of_beq entry.1 hname
  rw [removals_eq, hkept, goneNames_of_beq htables, goneNames_of_beq henums,
    goneNames_of_beq hextensions]
  rfl

theorem changes_of_beq {old new : Schema} (hsame : (old == new) = true) :
    changes old new = [] := by
  obtain ⟨htables, henums, hextensions⟩ := (Schema.beq_iff old new).1 hsame
  rw [changes, entryChanges_of_beq hextensions fun _ _ _ => extensionChanges_of_beq _,
    entryChanges_of_beq henums fun _ _ _ => enumChanges_of_beq _,
    entryChanges_of_beq htables fun _ _ _ => tableChanges_of_beq _]
  rfl

theorem diff_of_beq {old new : Schema} (hsame : (old == new) = true) : diff old new = [] := by
  rw [diff_eq_arranged, removals_of_beq hsame, changes_of_beq hsame]
  rfl

/-! ## Applying a difference -/

/-- The difference between two well-keyed schemas without empty names is applied without a
refusal and gives the second one, in the tolerant run as in the strict one; there is nothing to
do exactly when the two are equal. -/
theorem apply_diff (before after : Schema) (hbefore : before.WellKeyed) (hafter : after.WellKeyed)
    (hnames : before.NoEmptyName) (hnames' : after.NoEmptyName) :
    (applyAll before (diff before after)).refusals = [] ∧
      ((applyAll before (diff before after)).schema == after) = true ∧
      applyStrictly before (diff before after) =
        .ok (applyAll before (diff before after)).schema ∧
      (diff before after = [] ↔ (before == after) = true) := by
  obtain ⟨result, hrun, hresult⟩ := diff_reach hnames hnames' hbefore hafter
  have hall : applyAll before (diff before after) = ⟨result, []⟩ := foldl_step_of_foldlM hrun []
  rw [hall]
  refine ⟨rfl, hresult, applyStrictly_eq_ok hrun, ?_, diff_of_beq⟩
  intro hempty
  rw [hempty] at hrun
  cases hrun
  exact hresult

/-- A table whose name needs escapes, with one constraint. -/
def slashed (rule : Rule) : Schema :=
  Schema.empty.addTable
    (((Table.empty "a/~b").addColumn (Column.plain "id" "bigint")).addConstraint ⟨"key", rule⟩)

theorem apply_diff_slashed :
    ((slashed (.primaryKey ["id"])).WellKeyed ∧ (slashed (.unique ["id"])).WellKeyed ∧
      (slashed (.primaryKey ["id"])).NoEmptyName ∧ (slashed (.unique ["id"])).NoEmptyName) ∧
    ((applyAll (slashed (.primaryKey ["id"]))
      (diff (slashed (.primaryKey ["id"])) (slashed (.unique ["id"])))).schema ==
        slashed (.unique ["id"])) = true := by
  have hhyps : (slashed (.primaryKey ["id"])).WellKeyed ∧ (slashed (.unique ["id"])).WellKeyed ∧
      (slashed (.primaryKey ["id"])).NoEmptyName ∧ (slashed (.unique ["id"])).NoEmptyName := by
    decide
  obtain ⟨hbefore, hafter, hnames, hnames'⟩ := hhyps
  exact ⟨⟨hbefore, hafter, hnames, hnames'⟩,
    (apply_diff _ _ hbefore hafter hnames hnames').2.1⟩

end SchemaEvolution.Patch
