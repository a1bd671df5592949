import SchemaEvolution.Proofs.Patch.Locality

/-!
# A difference leads to its target

Every part of every table, every enumerated type and every extension is brought by its slice of
the difference to what the target has there; so the whole difference leads to the target.
-/

namespace SchemaEvolution.Patch

theorem foldlM_single {σ : Type} (step : σ → Operation → Option σ) (op : Operation) (state : σ) :
    [op].foldlM step state = step state op := by
  rw [List.foldlM_cons]
  cases step state op <;> rfl

theorem foldlM_replaceField {σ α : Type} [BEq α] (step : σ → Operation → Option σ) (edit : Edit)
    (view : α → Json) (old : α) {new : α} (haction : edit.action = .replace (view new))
    (state : σ) :
    (replaceField edit.path view old new).foldlM step state =
      if old == new then some state else step state edit.operation := by
  have hop : Operation.replace edit.path (view new) = edit.operation := by
    rw [Operation.replace, Edit.operation, haction]
  rw [replaceField]
  split
  · rfl
  · rw [hop, foldlM_single]

theorem foldlM_append_of {σ : Type} {step : σ → Operation → Option σ} {front back : List Operation}
    {first second third : σ} (hfront : front.foldlM step first = some second)
    (hback : back.foldlM step second = some third) :
    (front ++ back).foldlM step first = some third := by
  rw [List.foldlM_append, hfront]
  exact hback

def AllOf (verb : Verb) (ops : List Operation) : Prop := ∀ op ∈ ops, op.verb = verb

theorem AllOf.append {verb : Verb} {front back : List Operation} (hfront : AllOf verb front)
    (hback : AllOf verb back) : AllOf verb (front ++ back) := by
  intro op hop
  rcases List.mem_append.1 hop with hmem | hmem
  · exact hfront op hmem
  · exact hback op hmem

theorem AllOf.replaceField {α : Type} [BEq α] (path : Path) (view : α → Json) (old new : α) :
    AllOf .replace (replaceField path view old new) := by
  rw [Patch.replaceField]
  split
  · intro op hop
    cases hop
  · intro op hop
    rw [List.mem_singleton.1 hop]
    rfl

theorem arranged_replacements (removals : List Operation) {changes : List Operation}
    (hchanges : AllOf .replace changes) : arranged removals changes = removals ++ changes := by
  have hadds : changes.filter (fun op => op.verb == .add) = [] :=
    List.filter_eq_nil_iff.2 fun op hop => by rw [hchanges op hop]; decide
  have hreplacements : (changes.filter fun op => op.verb == .replace) = changes :=
    List.filter_eq_self.2 fun op hop => by rw [hchanges op hop]; decide
  rw [arranged, hadds, hreplacements, List.append_nil]

theorem arranged_adds (removals : List Operation) {changes : List Operation}
    (hchanges : AllOf .add changes) : arranged removals changes = removals ++ changes := by
  have hadds : changes.filter (fun op => op.verb == .add) = changes :=
    List.filter_eq_self.2 fun op hop => by rw [hchanges op hop]; decide
  have hreplacements : (changes.filter fun op => op.verb == .replace) = [] :=
    List.filter_eq_nil_iff.2 fun op hop => by rw [hchanges op hop]; decide
  rw [arranged, hadds, hreplacements, List.append_nil]

theorem AllOf.add (path : Path) (value : Json) : AllOf .add [.add path value] := by
  intro op hop
  rw [List.mem_singleton.1 hop]
  rfl

theorem columnChanges_verbs (table name : String) (old new : Column) :
    AllOf .replace (columnChanges table name old new) :=
  ((((AllOf.replaceField _ _ _ _).append (.replaceField _ _ _ _)).append
    (.replaceField _ _ _ _)).append (.replaceField _ _ _ _)).append (.replaceField _ _ _ _)

theorem indexChanges_verbs (table name : String) (old new : Index) :
    AllOf .replace (indexChanges table name old new) :=
  ((AllOf.replaceField _ _ _ _).append (.replaceField _ _ _ _)).append (.replaceField _ _ _ _)

/-- A constraint of the same kind is changed by replacements alone. -/
theorem constraintChanges_verbs (table name : String) {old new : Constraint}
    (hkind : old.rule.kind = new.rule.kind) :
    AllOf .replace (constraintChanges table name old new) := by
  unfold constraintChanges
  split
  · exact .replaceField _ _ _ _
  · exact .replaceField _ _ _ _
  · exact .replaceField _ _ _ _
  · exact ((((AllOf.replaceField _ _ _ _).append (.replaceField _ _ _ _)).append
      (.replaceField _ _ _ _)).append (.replaceField _ _ _ _)).append (.replaceField _ _ _ _)
  · next hprimary hunique hcheck hforeign =>
    cases hold : old.rule <;> cases hnew : new.rule <;> simp_all [Rule.kind]

theorem enumChanges_verbs (name : String) (old new : EnumType) :
    AllOf .replace (enumChanges name old new) :=
  (AllOf.replaceField _ _ _ _).append (.replaceField _ _ _ _)

theorem extensionChanges_verbs (name : String) (old new : Extension) :
    AllOf .replace (extensionChanges name old new) :=
  ((AllOf.replaceField _ _ _ _).append (.replaceField _ _ _ _)).append (.replaceField _ _ _ _)

/-- What an operation makes of a column that may be absent. -/
def columnStep (value : Option Column) (op : Operation) : Option (Option Column) :=
  op.tableEdit?.bind (TableEdit.onColumn value)

/-- What an operation makes of an index that may be absent. -/
def indexStep (value : Option Index) (op : Operation) : Option (Option Index) :=
  op.tableEdit?.bind (TableEdit.onIndex value)

/-- What an operation makes of a constraint that may be absent. -/
def constraintStep (value : Option Constraint) (op : Operation) : Option (Option Constraint) :=
  op.tableEdit?.bind (TableEdit.onConstraint value)

section Steps

variable {table : String} {edit : TableEdit} (hedit : (Edit.table table edit).Writable)

include hedit

theorem columnStep_operation (value : Option Column) :
    columnStep value (Edit.table table edit).operation = edit.onColumn value := by
  rw [columnStep, tableEdit?_operation hedit, Option.bind_some]

theorem indexStep_operation (value : Option Index) :
    indexStep value (Edit.table table edit).operation = edit.onIndex value := by
  rw [indexStep, tableEdit?_operation hedit, Option.bind_some]

theorem constraintStep_operation (value : Option Constraint) :
    constraintStep value (Edit.table table edit).operation = edit.onConstraint value := by
  rw [constraintStep, tableEdit?_operation hedit, Option.bind_some]

end Steps

section Entries

variable {table name : String} (htable : table ≠ "") (hname : name ≠ "")

include htable hname

theorem columnStep_replaceField {α : Type} [BEq α] (view : α → Json) (old : α) {new : α}
    (change : ColumnEdit) (hdocument : change.document = view new) (column : Column) :
    (replaceField (.table table (.column name (.field change.field))) view old new).foldlM
      columnStep (some column) =
      some (some (if old == new then column else change.apply column)) := by
  have hwritable : (Edit.table table (.column name change)).Writable :=
    ⟨⟨htable, hname⟩, trivial⟩
  refine (foldlM_replaceField columnStep (.table table (.column name change)) view old
    (congrArg Action.replace hdocument) _).trans ?_
  rw [columnStep_operation hwritable]
  split <;> rfl

/-- The field by field changes of a column lead to the new column. -/
theorem columnChanges_reach (old new : Column) (hkey : old.name = new.name) :
    ∃ column, (columnChanges table name old new).foldlM columnStep (some old) =
        some (some column) ∧ (column == new) = true := by
  let typed := if old.type == new.type then old else (ColumnEdit.type new.type).apply old
  let defaulted := if old.default == new.default then typed
    else (ColumnEdit.default new.default).apply typed
  let required := if old.notNull == new.notNull then defaulted
    else (ColumnEdit.notNull new.notNull).apply defaulted
  let checked := if old.check == new.check then required
    else (ColumnEdit.check new.check).apply required
  let commented := if old.comment == new.comment then checked
    else (ColumnEdit.comment new.comment).apply checked
  refine ⟨commented, ?_, ?_⟩
  · exact foldlM_append_of (foldlM_append_of (foldlM_append_of (foldlM_append_of
      (columnStep_replaceField htable hname .string _ (.type new.type) rfl _)
      (columnStep_replaceField htable hname optionalDefault _ (.default new.default) rfl _))
      (columnStep_replaceField htable hname .bool _ (.notNull new.notNull) rfl _))
      (columnStep_replaceField htable hname optionalText _ (.check new.check) rfl _))
      (columnStep_replaceField htable hname optionalText _ (.comment new.comment) rfl _)
  · simp only [Column.beq_iff, commented, checked, required, defaulted, typed, ColumnEdit.apply,
      apply_ite Column.name, apply_ite Column.type, apply_ite Column.default,
      apply_ite Column.check, apply_ite Column.notNull, apply_ite Column.comment, ite_self,
      beq_iff_eq]
    refine ⟨hkey, ?_, ?_, ?_, ?_, ?_⟩
    · split <;> simp_all
    · split <;> simp_all
    · split <;> simp_all
    · split <;> simp_all
    · split <;> simp_all

theorem indexStep_replaceField {α : Type} [BEq α] [LawfulBEq α] (view : α → Json) (old : α) {new : α}
    (change : IndexEdit) (hfits : change.spot.Fits) (haction : change.action = .replace (view new))
    {index after : Index} (hafter : change.apply index = .ok after)
    (hsame : old = new → index = after) :
    (replaceField (.table table (.index name change.spot)) view old new).foldlM
      indexStep (some index) = some (some after) := by
  have hwritable : (Edit.table table (.index name change)).Writable :=
    ⟨⟨htable, hname, hfits⟩, trivial⟩
  refine (foldlM_replaceField indexStep (.table table (.index name change)) view old haction
    _).trans ?_
  split
  · next heq => rw [hsame (eq_of_beq heq)]
  · rw [indexStep_operation hwritable, TableEdit.onIndex, Option.bind_some, hafter]
    rfl

/-- The field by field changes of an index lead to the new index. -/
theorem indexChanges_reach (old new : Index) (hkey : old.name = new.name) :
    (indexChanges table name old new).foldlM indexStep (some old) = some (some new) := by
  obtain ⟨_, unique, columns, type⟩ := old
  obtain ⟨_, unique', columns', type'⟩ := new
  cases hkey
  exact foldlM_append_of (foldlM_append_of
    (indexStep_replaceField htable hname .bool _ (.unique unique') trivial rfl rfl (by rintro rfl; rfl))
    (indexStep_replaceField htable hname .string _ (.type type') trivial rfl rfl (by rintro rfl; rfl)))
    (indexStep_replaceField htable hname texts _ (.columns columns') trivial rfl rfl
      (by rintro rfl; rfl))

theorem constraintStep_replaceField {α : Type} [BEq α] [LawfulBEq α] (view : α → Json) (old : α)
    {new : α} (change : ConstraintEdit) (hfits : change.spot.Fits)
    (haction : change.action = .replace (view new)) {constraint after : Constraint}
    (hafter : change.apply constraint = .ok after) (hsame : old = new → constraint = after) :
    (replaceField (.table table (.constraint name change.spot)) view old new).foldlM
      constraintStep (some constraint) = some (some after) := by
  have hwritable : (Edit.table table (.constraint name change)).Writable :=
    ⟨⟨htable, hname, hfits⟩, trivial⟩
  refine (foldlM_replaceField constraintStep (.table table (.constraint name change)) view old
    haction _).trans ?_
  split
  · next heq => rw [hsame (eq_of_beq heq)]
  · rw [constraintStep_operation hwritable, TableEdit.onConstraint, Option.bind_some, hafter]
    rfl

/-- The field by field changes of a constraint lead to the new constraint of the same kind. -/
theorem constraintChanges_reach (old new : Constraint) (hkey : old.name = new.name)
    (hkind : old.rule.kind = new.rule.kind) :
    (constraintChanges table name old new).foldlM constraintStep (some old) = some (some new) := by
  obtain ⟨label, rule⟩ := old
  obtain ⟨_, rule'⟩ := new
  cases hkey
  cases rule with
  | primaryKey columns =>
    cases rule' with
    | primaryKey columns' =>
      exact constraintStep_replaceField htable hname texts _ (.columns columns') trivial rfl rfl
        (by rintro rfl; rfl)
    | _ => simp [Rule.kind] at hkind
  | unique columns =>
    cases rule' with
    | unique columns' =>
      exact constraintStep_replaceField htable hname texts _ (.columns columns') trivial rfl rfl
        (by rintro rfl; rfl)
    | _ => simp [Rule.kind] at hkind
  | check condition =>
    cases rule' with
    | check condition' =>
      exact constraintStep_replaceField htable hname .string _ (.condition condition') trivial rfl
        rfl (by rintro rfl; rfl)
    | _ => simp [Rule.kind] at hkind
  | foreignKey key =>
    cases rule' with
    | foreignKey key' =>
      obtain ⟨columns, target, targetColumns, onUpdate, onDelete⟩ := key
      obtain ⟨columns', target', targetColumns', onUpdate', onDelete'⟩ := key'
      exact foldlM_append_of (foldlM_append_of (foldlM_append_of (foldlM_append_of
        (constraintStep_replaceField htable hname texts _ (.columns columns') trivial rfl rfl
          (by rintro rfl; rfl))
        (constraintStep_replaceField htable hname .string _ (.targetTable target') trivial rfl rfl
          (by rintro rfl; rfl)))
        (constraintStep_replaceField htable hname texts _ (.targetColumns targetColumns') trivial
          rfl rfl (by rintro rfl; rfl)))
        (constraintStep_replaceField htable hname ForeignKeyAction.toJson _ (.onUpdate onUpdate')
          trivial rfl rfl (by rintro rfl; rfl)))
        (constraintStep_replaceField htable hname ForeignKeyAction.toJson _ (.onDelete onDelete')
          trivial rfl rfl (by rintro rfl; rfl))
    | _ => simp [Rule.kind] at hkind

omit htable hname in
/-- A constraint of another kind is added as a whole. -/
theorem constraintChanges_of_kind_ne (table name : String) {old new : Constraint}
    (hkind : old.rule.kind ≠ new.rule.kind) :
    constraintChanges table name old new =
      [.add (.table table (.constraint name .whole)) new.toJson] := by
  obtain ⟨_, rule⟩ := old
  obtain ⟨_, rule'⟩ := new
  cases rule <;> cases rule' <;> first | rfl | exact absurd rfl hkind

end Entries

/-- An entry that is removed, added or brought up to date is as the target has it, when each of
the three does what it should. -/
theorem arranged_reach {α : Type} {step : Option α → Operation → Option (Option α)}
    (alike : Option α → Option α → Prop) {old new : Option α} {removal : Operation}
    {added : α → List Operation} {changed : α → α → List Operation} (hnone : alike none none)
    (hremoved : ∀ previous, old = some previous → step (some previous) removal = some none)
    (hadded : ∀ value, new = some value → AllOf .add (added value) ∧
      ∃ result, (added value).foldlM step none = some result ∧ alike result (some value))
    (hchanged : ∀ previous value, old = some previous → new = some value →
      AllOf .replace (changed previous value) ∧
      ∃ result, (changed previous value).foldlM step (some previous) = some result ∧
        alike result (some value)) :
    ∃ result, (arranged (removalOf old new removal) (changesOf old new added changed)).foldlM step
      old = some result ∧ alike result new := by
  cases old with
  | none =>
    cases new with
    | none => exact ⟨none, rfl, hnone⟩
    | some value =>
      obtain ⟨hverbs, hresult⟩ := hadded value rfl
      simp only [removalOf, changesOf]
      rw [arranged_adds _ hverbs, List.nil_append]
      exact hresult
  | some previous =>
    cases new with
    | none =>
      refine ⟨none, ?_, hnone⟩
      change [removal].foldlM step (some previous) = some none
      rw [foldlM_single, hremoved previous rfl]
    | some value =>
      obtain ⟨hverbs, hresult⟩ := hchanged previous value rfl rfl
      simp only [removalOf, changesOf]
      rw [arranged_replacements _ hverbs, List.nil_append]
      exact hresult

/-! ## Parts of a table -/

def TablePart.Alike : (part : TablePart) → part.Value → part.Value → Prop
  | .column _ => fun left right : Option Column => (left == right) = true
  | .name | .comment | .index _ | .constraint _ => Eq

section Parts

variable {table : String} (htable : table ≠ "") {old new : Table} (hold : old.NoEmptyName)
  (hnew : new.NoEmptyName) (hold' : old.WellKeyed) (hnew' : new.WellKeyed)

include htable hold hnew hold' hnew'

/-- Its own operations lead a column to the one that the new table has. -/
theorem column_reach (name : String) :
    ∃ value, (arranged (partRemovals table old new (.column name))
        (partChanges table old new (.column name))).foldlM columnStep (old.columns.get? name) =
      some value ∧ (value == new.columns.get? name) = true := by
  refine arranged_reach (fun left right => (left == right) = true) rfl ?_ ?_ ?_
  · intro previous hprevious
    have hwritable : (Edit.table table (.removeColumn name)).Writable :=
      ⟨⟨htable, Keyed.ne_empty_of_get? hold.1 hprevious⟩, trivial⟩
    exact columnStep_operation hwritable _
  · intro value hvalue
    have hwritable : (Edit.table table (.putColumn name value)).Writable :=
      ⟨⟨htable, Keyed.ne_empty_of_get? hnew.1 hvalue⟩, hnew'.1.of_get? hvalue⟩
    refine ⟨.add _ _, some value, ?_, by simp⟩
    exact (foldlM_single ..).trans (columnStep_operation hwritable _)
  · intro previous value hprevious hvalue
    have hkey : previous.name = value.name :=
      (hold'.1.of_get? hprevious).trans (hnew'.1.of_get? hvalue).symm
    obtain ⟨column, hrun, halike⟩ := columnChanges_reach htable
      (Keyed.ne_empty_of_get? hnew.1 hvalue) previous value hkey
    exact ⟨columnChanges_verbs _ _ _ _, some column, hrun, halike⟩

/-- Its own operations lead an index to exactly the one that the new table has. -/
theorem index_reach (name : String) :
    (arranged (partRemovals table old new (.index name))
        (partChanges table old new (.index name))).foldlM indexStep (old.indexes.get? name) =
      some (new.indexes.get? name) := by
  obtain ⟨value, hrun, rfl⟩ : ∃ value, (arranged (partRemovals table old new (.index name))
      (partChanges table old new (.index name))).foldlM indexStep (old.indexes.get? name) =
        some value ∧ value = new.indexes.get? name := by
    refine arranged_reach Eq rfl ?_ ?_ ?_
    · intro previous hprevious
      have hwritable : (Edit.table table (.removeIndex name)).Writable :=
        ⟨⟨htable, Keyed.ne_empty_of_get? hold.2.1 hprevious, trivial⟩, trivial⟩
      exact indexStep_operation hwritable _
    · intro value hvalue
      have hwritable : (Edit.table table (.putIndex name value)).Writable :=
        ⟨⟨htable, Keyed.ne_empty_of_get? hnew.2.1 hvalue, trivial⟩, hnew'.2.1.of_get? hvalue⟩
      refine ⟨.add _ _, some value, ?_, rfl⟩
      exact (foldlM_single ..).trans (indexStep_operation hwritable _)
    · intro previous value hprevious hvalue
      have hkey : previous.name = value.name :=
        (hold'.2.1.of_get? hprevious).trans (hnew'.2.1.of_get? hvalue).symm
      exact ⟨indexChanges_verbs _ _ _ _, some value, indexChanges_reach htable
        (Keyed.ne_empty_of_get? hnew.2.1 hvalue) previous value hkey, rfl⟩
  exact hrun

/-- A constraint of another kind is removed and added; one of the same kind is kept. -/
theorem constraint_reach (name : String) :
    (arranged (partRemovals table old new (.constraint name))
        (partChanges table old new (.constraint name))).foldlM constraintStep
          (old.constraints.get? name) =
      some (new.constraints.get? name) := by
  rw [partRemovals, partChanges]
  have hadd : ∀ value, new.constraints.get? name = some value → ∀ previous,
      constraintStep previous (.add (.table table (.constraint name .whole)) value.toJson) =
        some (some value) := by
    intro value hvalue previous
    have hwritable : (Edit.table table (.putConstraint name value)).Writable :=
      ⟨⟨htable, Keyed.ne_empty_of_get? hnew.2.2 hvalue, trivial⟩, hnew'.2.2.of_get? hvalue⟩
    exact constraintStep_operation hwritable _
  have hremove : ∀ previous, old.constraints.get? name = some previous →
      constraintStep (some previous) (.remove (.table table (.constraint name .whole))) =
        some none := by
    intro previous hprevious
    have hwritable : (Edit.table table (.removeConstraint name)).Writable :=
      ⟨⟨htable, Keyed.ne_empty_of_get? hold.2.2 hprevious, trivial⟩, trivial⟩
    exact constraintStep_operation hwritable _
  cases hprevious : old.constraints.get? name with
  | none =>
    cases hvalue : new.constraints.get? name with
    | none => rfl
    | some value =>
      simp only [constraintRemoval, changesOf]
      rw [arranged_adds _ (.add _ _), List.nil_append, foldlM_single, hadd value hvalue]
  | some previous =>
    cases hvalue : new.constraints.get? name with
    | none =>
      change [_].foldlM constraintStep (some previous) = some none
      rw [foldlM_single, hremove previous hprevious]
    | some value =>
      simp only [constraintRemoval, changesOf]
      by_cases hkind : previous.rule.kind = value.rule.kind
      · rw [if_neg (by simp [hkind]), arranged_replacements _ (constraintChanges_verbs _ _ hkind),
          List.nil_append]
        exact constraintChanges_reach htable (Keyed.ne_empty_of_get? hnew.2.2 hvalue) previous value
          ((hold'.2.2.of_get? hprevious).trans (hnew'.2.2.of_get? hvalue).symm) hkind
      · rw [if_pos (by simpa using Ne.symm hkind), constraintChanges_of_kind_ne table name hkind,
          arranged_adds _ (.add _ _)]
        exact foldlM_append_of ((foldlM_single ..).trans (hremove previous hprevious))
          ((foldlM_single ..).trans (hadd value hvalue none))

omit hold hnew hold' hnew' in
theorem comment_reach :
    (arranged (partRemovals table old new .comment) (partChanges table old new .comment)).foldlM
      (TablePart.effect .comment) old.comment = some new.comment := by
  have hwritable : (Edit.table table (.comment new.comment)).Writable :=
    ⟨⟨htable, trivial⟩, trivial⟩
  have hrun := foldlM_replaceField (TablePart.effect .comment)
    (.table table (.comment new.comment)) optionalText old.comment rfl old.comment
  rw [partRemovals, partChanges, arranged_replacements _ (.replaceField _ _ _ _), List.nil_append]
  refine hrun.trans ?_
  split
  · next heq =>
    have hsame : old.comment = new.comment := eq_of_beq heq
    exact congrArg some hsame
  · exact effect_operation hwritable .comment _

/-- The operations inside a table lead to the table of the target. -/
theorem tableDiff_reach (hkey : old.name = new.name) :
    ∃ after, (arranged (tableRemovals table old new) (tableChanges table old new)).foldlM
        (Operation.applyInside table) old = some after ∧ (after == new) = true := by
  have hparts : ∀ part : TablePart, ∃ value, Parts.runPart (TablePart.touches table)
      TablePart.effect part (arranged (tableRemovals table old new) (tableChanges table old new))
      (part.view old) = some value ∧ part.Alike value (part.view new) := by
    intro part
    have hslice := selectPaths_tableDiff htable hold hnew hnew' part
    rw [Parts.runPart]
    change ∃ value, (selectPaths (part.contains table) _).foldlM part.effect _ = some value ∧ _
    rw [hslice]
    cases part with
    | name => exact ⟨old.name, rfl, hkey⟩
    | comment => exact ⟨new.comment, comment_reach htable, rfl⟩
    | column name => exact column_reach htable hold hnew hold' hnew' name
    | index name => exact ⟨_, index_reach htable hold hnew hold' hnew' name, rfl⟩
    | constraint name => exact ⟨_, constraint_reach htable hold hnew hold' hnew' name, rfl⟩
  have hedits := tableDiff_edits htable hold hnew hnew'
  obtain ⟨after, hrun, hviews⟩ := Parts.exists_foldlM_eq_some TablePart.view
    (TablePart.touches table) TablePart.effect (Operation.applyInside table) _ (by
      intro op hop state
      obtain ⟨edit, rfl, hwritable, part, hplace, change, rfl, hpart⟩ := hedits op hop
      exact TableEdit.agrees hwritable hplace state)
    fun part => (hparts part).imp fun _ h => h.1
  refine ⟨after, hrun, ?_⟩
  have halike : ∀ part : TablePart, part.Alike (part.view after) (part.view new) := by
    intro part
    obtain ⟨value, hvalue, halike⟩ := hparts part
    cases (hviews part).symm.trans hvalue
    exact halike
  rw [Table.beq_iff, Keyed.beq_iff_get?, Keyed.beq_iff_get?, Keyed.beq_iff_get?]
  refine ⟨halike .name, halike .comment, fun name => halike (.column name), fun name => ?_,
    fun name => ?_⟩
  · exact beq_iff_eq.2 (halike (.index name))
  · exact beq_iff_eq.2 (halike (.constraint name))

end Parts

/-! ## Owners -/

def tableStep (name : String) (value : Option Table) (op : Operation) : Option (Option Table) :=
  op.edit.toOption.bind (Edit.onTable name value)

def enumStep (value : Option EnumType) (op : Operation) : Option (Option EnumType) :=
  op.edit.toOption.bind (Edit.onEnum value)

def extensionStep (value : Option Extension) (op : Operation) : Option (Option Extension) :=
  op.edit.toOption.bind (Edit.onExtension value)

def Owner.Alike : (owner : Owner) → owner.Value → owner.Value → Prop
  | .table _ => fun left right : Option Table => (left == right) = true
  | .enumType _ | .extension _ => Eq

section Steps

variable {edit : Edit} (hedit : edit.Writable)

include hedit

theorem tableStep_operation (name : String) (value : Option Table) :
    tableStep name value edit.operation = edit.onTable name value := by
  rw [tableStep, Edit.edit_operation hedit]
  rfl

theorem enumStep_operation (value : Option EnumType) :
    enumStep value edit.operation = edit.onEnum value := by
  rw [enumStep, Edit.edit_operation hedit]
  rfl

theorem extensionStep_operation (value : Option Extension) :
    extensionStep value edit.operation = edit.onExtension value := by
  rw [extensionStep, Edit.edit_operation hedit]
  rfl

end Steps

/-- Operations inside a table that is there are a run on that table. -/
theorem foldlM_tableStep {name : String} {ops : List Operation}
    (hedits : EditsIn (fun edit => ∃ part, edit.Inside name part) ops) (table : Table) :
    ops.foldlM (tableStep name) (some table) =
      (ops.foldlM (Operation.applyInside name) table).map some := by
  induction ops generalizing table with
  | nil => rfl
  | cons op rest ih =>
    obtain ⟨edit, rfl, hwritable, part, -, change, rfl, -⟩ := hedits op List.mem_cons_self
    have hrest := fun table => ih (fun op hop => hedits op (List.mem_cons_of_mem _ hop)) table
    rw [List.foldlM_cons, List.foldlM_cons, tableStep_operation hwritable,
      applyInside_operation hwritable, Edit.onTable]
    cases hchange : (change.apply table name).toOption with
    | none => rfl
    | some next => exact hrest next

section Owned

variable {name : String} (hname : name ≠ "")

include hname

theorem enumStep_replaceField {α : Type} [BEq α] [LawfulBEq α] (view : α → Json) (old : α)
    {new : α} (change : EnumEdit) (hfits : change.spot.Fits)
    (haction : change.action = .replace (view new)) {type after : EnumType}
    (hafter : change.apply type = .ok after) (hsame : old = new → type = after) :
    (replaceField (.enumType name change.spot) view old new).foldlM enumStep (some type) =
      some (some after) := by
  have hwritable : (Edit.enumType name change).Writable := ⟨⟨hname, hfits⟩, trivial⟩
  refine (foldlM_replaceField enumStep (.enumType name change) view old haction _).trans ?_
  split
  · next heq => rw [hsame (eq_of_beq heq)]
  · rw [enumStep_operation hwritable, Edit.onEnum, Option.bind_some, hafter]
    rfl

/-- The field by field changes of an enumerated type lead to the new one. -/
theorem enumChanges_reach (old new : EnumType) (hkey : old.name = new.name) :
    (enumChanges name old new).foldlM enumStep (some old) = some (some new) := by
  obtain ⟨_, values, comment⟩ := old
  obtain ⟨_, values', comment'⟩ := new
  cases hkey
  exact foldlM_append_of
    (enumStep_replaceField hname texts _ (.values values') trivial rfl rfl (by rintro rfl; rfl))
    (enumStep_replaceField hname optionalText _ (.comment comment') trivial rfl rfl
      (by rintro rfl; rfl))

theorem extensionStep_replaceField (old : Option String) {new : Option String}
    (change : ExtensionEdit) (hdocument : change.document = optionalText new)
    {extension : Extension} (hsame : old = new → extension = change.apply extension) :
    (replaceField (.extension name (.field change.field)) optionalText old new).foldlM
      extensionStep (some extension) = some (some (change.apply extension)) := by
  have hwritable : (Edit.extension name change).Writable := ⟨hname, trivial⟩
  refine (foldlM_replaceField extensionStep (.extension name change) optionalText old
    (congrArg Action.replace hdocument) _).trans ?_
  split
  · next heq => rw [← hsame (eq_of_beq heq)]
  · rw [extensionStep_operation hwritable]
    rfl

/-- The field by field changes of an extension lead to the new one. -/
theorem extensionChanges_reach (old new : Extension) (hkey : old.name = new.name) :
    (extensionChanges name old new).foldlM extensionStep (some old) = some (some new) := by
  obtain ⟨_, schema, version, comment⟩ := old
  obtain ⟨_, schema', version', comment'⟩ := new
  cases hkey
  exact foldlM_append_of (foldlM_append_of
    (extensionStep_replaceField hname _ (.schema schema') rfl (by rintro rfl; rfl))
    (extensionStep_replaceField hname _ (.version version') rfl (by rintro rfl; rfl)))
    (extensionStep_replaceField hname _ (.comment comment') rfl (by rintro rfl; rfl))

end Owned

section Schemas

variable {before after : Schema} (hbefore : before.NoEmptyName) (hafter : after.NoEmptyName)
  (hbefore' : before.WellKeyed) (hafter' : after.WellKeyed)

include hbefore hafter hbefore' hafter'

theorem enum_reach (name : String) :
    (arranged (ownerRemovals before after (.enumType name))
        (ownerChanges before after (.enumType name))).foldlM enumStep (before.enums.get? name) =
      some (after.enums.get? name) := by
  obtain ⟨value, hrun, rfl⟩ : ∃ value, (arranged (ownerRemovals before after (.enumType name))
      (ownerChanges before after (.enumType name))).foldlM enumStep (before.enums.get? name) =
        some value ∧ value = after.enums.get? name := by
    refine arranged_reach Eq rfl ?_ ?_ ?_
    · intro previous hprevious
      have hwritable : (Edit.removeEnum name).Writable :=
        ⟨⟨Keyed.ne_empty_of_get? hbefore.2.1 hprevious, trivial⟩, trivial⟩
      exact enumStep_operation hwritable _
    · intro value hvalue
      have hwritable : (Edit.putEnum name value).Writable :=
        ⟨⟨Keyed.ne_empty_of_get? hafter.2.1 hvalue, trivial⟩, hafter'.2.1.of_get? hvalue⟩
      refine ⟨.add _ _, some value, ?_, rfl⟩
      exact (foldlM_single ..).trans (enumStep_operation hwritable _)
    · intro previous value hprevious hvalue
      have hname := Keyed.ne_empty_of_get? hafter.2.1 hvalue
      have hkey : previous.name = value.name :=
        (hbefore'.2.1.of_get? hprevious).trans (hafter'.2.1.of_get? hvalue).symm
      exact ⟨enumChanges_verbs _ _ _, some value, enumChanges_reach hname previous value hkey, rfl⟩
  exact hrun

theorem extension_reach (name : String) :
    (arranged (ownerRemovals before after (.extension name))
        (ownerChanges before after (.extension name))).foldlM extensionStep
          (before.extensions.get? name) =
      some (after.extensions.get? name) := by
  obtain ⟨value, hrun, rfl⟩ : ∃ value, (arranged (ownerRemovals before after (.extension name))
      (ownerChanges before after (.extension name))).foldlM extensionStep
        (before.extensions.get? name) = some value ∧ value = after.extensions.get? name := by
    refine arranged_reach Eq rfl ?_ ?_ ?_
    · intro previous hprevious
      have hwritable : (Edit.removeExtension name).Writable :=
        ⟨Keyed.ne_empty_of_get? hbefore.2.2.1 hprevious, trivial⟩
      exact extensionStep_operation hwritable _
    · intro value hvalue
      have hwritable : (Edit.putExtension name value).Writable :=
        ⟨Keyed.ne_empty_of_get? hafter.2.2.1 hvalue, hafter'.2.2.1.of_get? hvalue⟩
      refine ⟨.add _ _, some value, ?_, rfl⟩
      exact (foldlM_single ..).trans (extensionStep_operation hwritable _)
    · intro previous value hprevious hvalue
      have hname := Keyed.ne_empty_of_get? hafter.2.2.1 hvalue
      have hkey : previous.name = value.name :=
        (hbefore'.2.2.1.of_get? hprevious).trans (hafter'.2.2.1.of_get? hvalue).symm
      exact ⟨extensionChanges_verbs _ _ _, some value,
        extensionChanges_reach hname previous value hkey, rfl⟩
  exact hrun

/-- Its own operations lead a table to one equal to that of the new schema. -/
theorem table_reach (name : String) :
    ∃ value, (arranged (ownerRemovals before after (.table name))
        (ownerChanges before after (.table name))).foldlM (tableStep name)
          (before.tables.get? name) = some value ∧
      (value == after.tables.get? name) = true := by
  rw [ownerRemovals, ownerChanges]
  cases hprevious : before.tables.get? name with
  | none =>
    cases hvalue : after.tables.get? name with
    | none => exact ⟨none, rfl, rfl⟩
    | some value =>
      have hwritable : (Edit.putTable name value).Writable :=
        ⟨⟨Keyed.ne_empty_of_get? hafter.1 hvalue, trivial⟩, hafter'.1.of_get? hvalue⟩
      refine ⟨some value, ?_, by simp⟩
      simp only [changesOf]
      rw [arranged_adds _ (.add _ _), List.nil_append]
      exact (foldlM_single ..).trans (tableStep_operation hwritable name none)
  | some previous =>
    have hname := Keyed.ne_empty_of_get? hbefore.1 hprevious
    cases hvalue : after.tables.get? name with
    | none =>
      have hwritable : (Edit.removeTable name).Writable := ⟨⟨hname, trivial⟩, trivial⟩
      exact ⟨none, (foldlM_single ..).trans (tableStep_operation hwritable name _), rfl⟩
    | some value =>
      have hold := hbefore.2.2.2.of_get? hprevious
      have hnew := hafter.2.2.2.of_get? hvalue
      have hnew' := hafter'.2.2.2.of_get? hvalue
      obtain ⟨result, hrun, halike⟩ := tableDiff_reach hname hold hnew
        (hbefore'.2.2.2.of_get? hprevious) hnew'
        ((hbefore'.1.of_get? hprevious).trans (hafter'.1.of_get? hvalue).symm)
      refine ⟨some result, ?_, halike⟩
      exact (foldlM_tableStep (tableDiff_edits hname hold hnew hnew') previous).trans
        (congrArg _ hrun)

/-- The operations of a difference are all applied, and lead to the target. -/
theorem diff_reach :
    ∃ result, (diff before after).foldlM Operation.outcome? before = some result ∧
      (result == after) = true := by
  have howners : ∀ owner : Owner, ∃ value, Parts.runPart Owner.touches Owner.effect owner
      (diff before after) (owner.view before) = some value ∧
        owner.Alike value (owner.view after) := by
    intro owner
    rw [Parts.runPart]
    change ∃ value, (selectPaths owner.contains _).foldlM owner.effect _ = some value ∧ _
    rw [selectPaths_diff hbefore hafter hafter' owner]
    cases owner with
    | table name => exact table_reach hbefore hafter hbefore' hafter' name
    | enumType name => exact ⟨_, enum_reach hbefore hafter hbefore' hafter' name, rfl⟩
    | extension name => exact ⟨_, extension_reach hbefore hafter hbefore' hafter' name, rfl⟩
  have hedits := diff_edits hbefore hafter hafter'
  obtain ⟨result, hrun, hviews⟩ := Parts.exists_foldlM_eq_some Owner.view Owner.touches
    Owner.effect Operation.outcome? (diff before after) (by
      intro op hop state
      obtain ⟨edit, rfl, hwritable, hplace⟩ := hedits op hop
      exact Edit.agrees hwritable hplace state)
    fun owner => (howners owner).imp fun _ h => h.1
  refine ⟨result, hrun, ?_⟩
  have halike : ∀ owner : Owner, owner.Alike (owner.view result) (owner.view after) := by
    intro owner
    obtain ⟨value, hvalue, halike⟩ := howners owner
    cases (hviews owner).symm.trans hvalue
    exact halike
  rw [Schema.beq_iff, Keyed.beq_iff_get?, Keyed.beq_iff_get?, Keyed.beq_iff_get?]
  refine ⟨fun name => halike (.table name), fun name => ?_, fun name => ?_⟩
  · exact beq_iff_eq.2 (halike (.enumType name))
  · exact beq_iff_eq.2 (halike (.extension name))

end Schemas

end SchemaEvolution.Patch
