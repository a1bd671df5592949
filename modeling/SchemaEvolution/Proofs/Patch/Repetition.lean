import SchemaEvolution.Proofs.Overwriting
import SchemaEvolution.Proofs.Patch.Asked
import SchemaEvolution.Proofs.Patch.Locality

/-!
# Patches that are applied twice

An operation that neither gives a name nor changes an item of a list overwrites what earlier ones
have done where it is done, and does nothing elsewhere.  So a patch of such operations may be
applied again without any effect, even if other operations are refused the second time.
-/

namespace SchemaEvolution.Patch

def IndexSpot.isItem : IndexSpot → Bool
  | .item _ => true
  | _ => false

def ConstraintSpot.isItem : ConstraintSpot → Bool
  | .item _ _ => true
  | _ => false

def EnumSpot.isItem : EnumSpot → Bool
  | .item _ => true
  | _ => false

/-- The path leads to a position in a list. -/
def Path.isItem : Path → Bool
  | .table _ (.index _ spot) => spot.isItem
  | .table _ (.constraint _ spot) => spot.isItem
  | .enumType _ spot => spot.isItem
  | _ => false

/-- Makes a change, or leaves the value as it is if there is an obstacle. -/
def orSame {α : Type} (change : α → Except Obstacle α) (value : α) : α :=
  (change value).toOption.getD value

def ColumnEdit.effects : Set (Column → Column) := Set.range ColumnEdit.apply

def IndexEdit.effects : Set (Index → Index) :=
  { f | ∃ edit : IndexEdit, edit.spot.isItem = false ∧ f = orSame edit.apply }

def ConstraintEdit.effects : Set (Constraint → Constraint) :=
  { f | ∃ edit : ConstraintEdit, edit.spot.isItem = false ∧ f = orSame edit.apply }

def EnumEdit.effects : Set (EnumType → EnumType) :=
  { f | ∃ edit : EnumEdit, edit.spot.isItem = false ∧ f = orSame edit.apply }

def ExtensionEdit.effects : Set (Extension → Extension) := Set.range ExtensionEdit.apply

theorem ColumnEdit.overwriting : Overwriting effects where
  again := by
    rintro _ ⟨edit, rfl⟩ column
    cases edit <;> rfl
  later := by
    rintro _ ⟨edit, rfl⟩ _ ⟨other, rfl⟩ column
    cases edit <;> cases other <;> rfl

theorem IndexEdit.overwriting : Overwriting effects where
  again := by
    rintro _ ⟨edit, hedit, rfl⟩ index
    cases edit with
    | item edit => cases hedit
    | _ => rfl
  later := by
    rintro _ ⟨edit, hedit, rfl⟩ _ ⟨other, hother, rfl⟩ index
    cases other with
    | item other => cases hother
    | _ =>
      cases edit with
      | item edit => cases hedit
      | _ => rfl

/-- A rule stays of its kind, so that an edit which does not go with the kind never does. -/
theorem ConstraintEdit.overwriting : Overwriting effects where
  again := by
    rintro _ ⟨edit, hedit, rfl⟩ ⟨name, rule⟩
    cases edit with
    | item list edit => cases hedit
    | _ => cases rule <;> rfl
  later := by
    rintro _ ⟨edit, hedit, rfl⟩ _ ⟨other, hother, rfl⟩ ⟨name, rule⟩
    cases other with
    | item list other => cases hother
    | _ =>
      cases edit with
      | item list edit => cases hedit
      | _ => cases rule <;> rfl

theorem EnumEdit.overwriting : Overwriting effects where
  again := by
    rintro _ ⟨edit, hedit, rfl⟩ type
    cases edit with
    | item edit => cases hedit
    | _ => rfl
  later := by
    rintro _ ⟨edit, hedit, rfl⟩ _ ⟨other, hother, rfl⟩ type
    cases other with
    | item other => cases hother
    | _ =>
      cases edit with
      | item edit => cases hedit
      | _ => rfl

theorem ExtensionEdit.overwriting : Overwriting effects where
  again := by
    rintro _ ⟨edit, rfl⟩ extension
    cases edit <;> rfl
  later := by
    rintro _ ⟨edit, rfl⟩ _ ⟨other, rfl⟩ extension
    cases edit <;> cases other <;> rfl

def TablePart.effects : (part : TablePart) → Set (part.Value → part.Value)
  | .name => {id}
  | .comment => orAbsent {id}
  | .column _ => orAbsent (insert id ColumnEdit.effects)
  | .index _ => orAbsent (insert id IndexEdit.effects)
  | .constraint _ => orAbsent (insert id ConstraintEdit.effects)

theorem overwriting_id (α : Type) : Overwriting ({id} : Set (α → α)) where
  again := by
    rintro _ rfl value
    rfl
  later := by
    rintro _ rfl _ rfl value
    rfl

theorem TablePart.overwriting (part : TablePart) : Overwriting part.effects :=
  match part with
  | .name => overwriting_id String
  | .comment => (overwriting_id String).orAbsent
  | .column _ => ColumnEdit.overwriting.insert_id.orAbsent
  | .index _ => IndexEdit.overwriting.insert_id.orAbsent
  | .constraint _ => ConstraintEdit.overwriting.insert_id.orAbsent

theorem id_mem_orAbsent {α : Type} {family : Set (α → α)} (hid : id ∈ family) :
    id ∈ orAbsent family := .inr ⟨id, hid, Option.map_id.symm⟩

theorem TablePart.id_mem_effects (part : TablePart) : id ∈ part.effects :=
  match part with
  | .name => rfl
  | .comment => id_mem_orAbsent rfl
  | .column _ | .index _ | .constraint _ => id_mem_orAbsent (Set.mem_insert _ _)

/-- What an edit inside a table, which may be refused, leaves of a part of it. -/
def TableEdit.leaves (edit : TableEdit) (part : TablePart) (value : part.Value) : part.Value :=
  if edit.spot.part? = some part then (edit.onPart part value).getD value else value

theorem mem_orAbsent_of_map {α : Type} {family : Set (α → α)} {f : α → α} (hf : f ∈ family) :
    (fun value : Option α => (value.map fun old => some (f old)).getD value) ∈
      orAbsent (insert id family) := by
  refine .inr ⟨f, .inr hf, ?_⟩
  funext value
  cases value <;> rfl

theorem mem_orAbsent_of_bind {α : Type} {family : Set (α → α)} {change : α → Except Obstacle α}
    (hchange : orSame change ∈ family) :
    (fun value : Option α =>
      (value.bind fun old => (change old).toOption.map some).getD value) ∈
      orAbsent (insert id family) := by
  refine .inr ⟨orSame change, .inr hchange, ?_⟩
  funext value
  cases value with
  | none => rfl
  | some old =>
    rw [Option.bind_some, Option.map_some, orSame]
    cases (change old).toOption <;> rfl

/-- What an edit leaves of a part is one of the effects that the part has. -/
theorem TableEdit.leaves_mem {key : String} {edit : TableEdit}
    (hplace : (Path.table key edit.spot).isName = false)
    (hitem : (Path.table key edit.spot).isItem = false) (part : TablePart) :
    edit.leaves part ∈ part.effects := by
  by_cases hpart : edit.spot.part? = some part
  · have hleaves : edit.leaves part = fun value => (edit.onPart part value).getD value := by
      funext value
      rw [leaves, if_pos hpart]
    rw [hleaves]
    cases edit with
    | rename target => cases hplace
    | comment new | putColumn _ new | removeColumn _ | putIndex _ new | removeIndex _
    | putConstraint _ new | removeConstraint _ =>
      cases hpart
      exact .inl ⟨_, rfl⟩
    | column name edit =>
      cases hpart
      exact mem_orAbsent_of_map ⟨edit, rfl⟩
    | index name edit =>
      cases hpart
      exact mem_orAbsent_of_bind ⟨edit, hitem, rfl⟩
    | constraint name edit =>
      cases hpart
      exact mem_orAbsent_of_bind ⟨edit, hitem, rfl⟩
  · have hleaves : edit.leaves part = id := by
      funext value
      rw [leaves, if_neg hpart]
      rfl
    rw [hleaves]
    exact part.id_mem_effects

/-- An edit inside a table does to each part of the table what it does to the part alone. -/
theorem TableEdit.view_orSame {key : String} {edit : TableEdit}
    (hwritable : (Edit.table key edit).Writable)
    (hplace : (Path.table key edit.spot).isName = false) (table : Table) (part : TablePart) :
    part.view (orSame (fun table => edit.apply table key) table) =
      edit.leaves part (part.view table) := by
  obtain ⟨own, hown⟩ : ∃ own, edit.spot.part? = some own := by cases edit <;> exact ⟨_, rfl⟩
  have hview := Parts.view_getD TablePart.view (TablePart.touches key) TablePart.effect
    (touches_operation hwritable hown) (TableEdit.agrees hwritable hplace table) part
  rw [applyInside_operation hwritable, effect_operation hwritable] at hview
  rw [orSame, hview, leaves, hown]
  simp only [Option.some.injEq]

/-- What an owner has, as far as its order does not count. -/
def Owner.Content : Owner → Type
  | .table _ => Option ((part : TablePart) → part.Value)
  | .enumType _ => Option EnumType
  | .extension _ => Option Extension

def Owner.content : (owner : Owner) → owner.Value → owner.Content
  | .table _, value => Option.map (fun table part => TablePart.view part table) value
  | .enumType _, value => value
  | .extension _, value => value

def Owner.effects : (owner : Owner) → Set (owner.Content → owner.Content)
  | .table _ => orAbsent (pointwise TablePart.effects)
  | .enumType _ => orAbsent (insert id EnumEdit.effects)
  | .extension _ => orAbsent (insert id ExtensionEdit.effects)

theorem Owner.overwriting (owner : Owner) : Overwriting owner.effects :=
  match owner with
  | .table _ => (Overwriting.pointwise TablePart.overwriting).orAbsent
  | .enumType _ => EnumEdit.overwriting.insert_id.orAbsent
  | .extension _ => ExtensionEdit.overwriting.insert_id.orAbsent

theorem Owner.id_mem_effects (owner : Owner) : id ∈ owner.effects :=
  match owner with
  | .table _ => id_mem_orAbsent ⟨fun _ => id, TablePart.id_mem_effects, rfl⟩
  | .enumType _ | .extension _ => id_mem_orAbsent (Set.mem_insert _ _)

/-- An edit does something to the content of its owner, whatever it is. -/
theorem Edit.exists_effect {edit : Edit} (hwritable : edit.Writable)
    (hplace : edit.path.isName = false) (hitem : edit.path.isItem = false) :
    ∃ f ∈ edit.path.owner.effects, ∀ value : edit.path.owner.Value,
      edit.path.owner.content ((edit.onOwner edit.path.owner value).getD value) =
        f (edit.path.owner.content value) := by
  cases edit with
  | putTable name new => exact ⟨_, .inl ⟨_, rfl⟩, fun _ => rfl⟩
  | removeTable name => exact ⟨_, .inl ⟨_, rfl⟩, fun _ => rfl⟩
  | putEnum name new => exact ⟨_, .inl ⟨_, rfl⟩, fun _ => rfl⟩
  | removeEnum name => exact ⟨_, .inl ⟨_, rfl⟩, fun _ => rfl⟩
  | putExtension name new => exact ⟨_, .inl ⟨_, rfl⟩, fun _ => rfl⟩
  | removeExtension name => exact ⟨_, .inl ⟨_, rfl⟩, fun _ => rfl⟩
  | hint => exact absurd rfl hwritable.1
  | enumType name edit => exact ⟨_, mem_orAbsent_of_bind ⟨edit, hitem, rfl⟩, fun _ => rfl⟩
  | extension name edit => exact ⟨_, mem_orAbsent_of_map ⟨edit, rfl⟩, fun _ => rfl⟩
  | table name edit =>
    refine ⟨_, .inr ⟨fun value part => edit.leaves part (value part),
      ⟨edit.leaves, TableEdit.leaves_mem hplace hitem, rfl⟩, rfl⟩, fun value => ?_⟩
    cases value with
    | none =>
      change Option.map _ ((onTable name none (.table name edit)).getD none) = none
      rw [onTable]
      split <;> rfl
    | some table =>
      have hsame : (onTable name (some table) (.table name edit)).getD (some table) =
          some (orSame (fun table => edit.apply table name) table) := by
        rw [onTable, orSame]
        cases (edit.apply table name).toOption <;> rfl
      have hcontent : (fun part => TablePart.view part
          (orSame (fun table => edit.apply table name) table)) =
            fun part => edit.leaves part (part.view table) := by
        funext part
        exact TableEdit.view_orSame hwritable hplace table part
      calc
        Option.map (fun table part => TablePart.view part table)
            ((onTable name (some table) (.table name edit)).getD (some table)) =
            some fun part => TablePart.view part
              (orSame (fun table => edit.apply table name) table) := by rw [hsame]; rfl
        _ = some fun part => edit.leaves part (part.view table) := by rw [hcontent]

/-! ## Runs -/

/-- What a step of a tolerant run leaves of a schema. -/
def Operation.leaves (schema : Schema) (op : Operation) : Schema :=
  (op.outcome? schema).getD schema

theorem schema_applyAll (schema : Schema) (ops : List Operation) :
    (applyAll schema ops).schema = ops.foldl Operation.leaves schema := by
  induction ops generalizing schema with
  | nil => rfl
  | cons op rest ih =>
    rw [List.foldl_cons, ← ih, Operation.leaves, Operation.outcome?]
    cases happly : op.apply schema with
    | error refusal => rw [applyAll_cons_of_error happly]; rfl
    | ok after => rw [applyAll_cons_of_ok happly]; rfl

/-- The operation neither gives a name nor changes an item of a list. -/
def Operation.IsPlain (op : Operation) : Prop :=
  ∀ path, op.path? = some path → path.isName = false ∧ path.isItem = false

theorem Operation.leaves_of_edit {op : Operation} {edit : Edit} (hedit : op.edit = .ok edit)
    (schema : Schema) : op.leaves schema = (edit.apply schema).toOption.getD schema := by
  have happly : op.apply schema =
      (edit.apply schema).mapError fun obstacle => ⟨op.path, obstacle⟩ := by
    rw [apply, hedit]
    rfl
  rw [leaves, outcome?, happly]
  cases edit.apply schema <;> rfl

/-- An edit leaves of what its owner has what it makes of it alone, and of the others everything. -/
theorem Edit.view_getD {edit : Edit} (hwritable : edit.Writable)
    (hplace : edit.path.isName = false) (schema : Schema) (owner : Owner) :
    owner.view ((edit.apply schema).toOption.getD schema) =
      if edit.path.owner = owner then (edit.onOwner owner (owner.view schema)).getD
        (owner.view schema)
      else owner.view schema := by
  have htouches : ∀ owner : Owner,
      owner.touches edit.operation = decide (edit.path.owner = owner) := by
    intro owner
    rw [Owner.touches, hwritable.isIn, Owner.contains]
  have hview := Parts.view_getD Owner.view Owner.touches Owner.effect htouches
    (Edit.agrees hwritable hplace schema) owner
  rwa [hwritable.outcome?, hwritable.effect] at hview

/-- An operation does something to the content of every owner, whatever the schema. -/
theorem Operation.exists_effect {op : Operation} (hplain : op.IsPlain) (owner : Owner) :
    ∃ f ∈ owner.effects, ∀ schema,
      owner.content (owner.view (op.leaves schema)) = f (owner.content (owner.view schema)) := by
  cases hedit : op.edit with
  | error obstacle =>
    refine ⟨id, owner.id_mem_effects, fun schema => ?_⟩
    rw [leaves, outcome?, apply, hedit]
    rfl
  | ok edit =>
    by_cases hhint : edit = .hint
    · subst hhint
      refine ⟨id, owner.id_mem_effects, fun schema => ?_⟩
      rw [leaves_of_edit hedit]
      rfl
    have hwritable := Edit.writable_of_edit hedit hhint
    obtain ⟨path, hpath, rfl, -⟩ := (Edit.askedAt_of_edit hedit).resolve_left hhint
    obtain ⟨hplace, hitem⟩ := hplain edit.path hpath
    by_cases howner : edit.path.owner = owner
    · subst howner
      obtain ⟨f, hf, heffect⟩ := Edit.exists_effect hwritable hplace hitem
      refine ⟨f, hf, fun schema => ?_⟩
      rw [leaves_of_edit hedit, Edit.view_getD hwritable hplace, if_pos rfl, heffect]
    · refine ⟨id, owner.id_mem_effects, fun schema => ?_⟩
      rw [leaves_of_edit hedit, Edit.view_getD hwritable hplace, if_neg howner]
      rfl

theorem beq_of_parts {left right : Table}
    (hviews : ∀ part : TablePart, part.view left = part.view right) : (left == right) = true := by
  rw [Table.beq_iff, Keyed.beq_iff_get?, Keyed.beq_iff_get?, Keyed.beq_iff_get?]
  refine ⟨hviews .name, hviews .comment, fun key => ?_, fun key => ?_, fun key => ?_⟩
  · rw [show left.columns.get? key = right.columns.get? key from hviews (.column key)]
    exact BEq.rfl
  · rw [show left.indexes.get? key = right.indexes.get? key from hviews (.index key)]
    exact BEq.rfl
  · rw [show left.constraints.get? key = right.constraints.get? key from hviews (.constraint key)]
    exact BEq.rfl

/-- Schemas are equal if every owner's share is. -/
theorem beq_of_content {left right : Schema}
    (hsame : ∀ owner : Owner, owner.content (owner.view left) = owner.content (owner.view right)) :
    (left == right) = true := by
  rw [Schema.beq_iff, Keyed.beq_iff_get?, Keyed.beq_iff_get?, Keyed.beq_iff_get?]
  refine ⟨fun name => ?_, fun name => ?_, fun name => ?_⟩
  · have htable : (left.tables.get? name).map (fun table part => TablePart.view part table) =
        (right.tables.get? name).map fun table part => TablePart.view part table :=
      hsame (.table name)
    cases hleft : left.tables.get? name <;> cases hright : right.tables.get? name <;>
      rw [hleft, hright] at htable
    · rfl
    · cases htable
    · cases htable
    · exact beq_of_parts (congrFun (Option.some.inj htable))
  · exact beq_iff_eq.2 (hsame (.enumType name))
  · exact beq_iff_eq.2 (hsame (.extension name))

/-- A patch of operations that neither give names nor change items of lists may be applied again
without any effect, whichever of them are refused the first or the second time. -/
theorem applyAll_applyAll (schema : Schema) {ops : List Operation}
    (hplain : ∀ op ∈ ops, op.IsPlain) :
    ((applyAll (applyAll schema ops).schema ops).schema == (applyAll schema ops).schema) = true := by
  rw [schema_applyAll, schema_applyAll]
  refine beq_of_content fun owner => ?_
  exact owner.overwriting.foldl_foldl Operation.leaves
    (fun schema => owner.content (owner.view schema))
    (fun op hmem => Operation.exists_effect (hplain op hmem) owner) schema

def notesComment : Operation := .replace (.table "notes" (.field .comment)) (.string "all notes")

def notesTable : Operation := .add (.table "notes" .whole) (Table.empty "notes").toJson

/-- The comment is refused at first, and accepted when the patch is applied again. -/
theorem applyAll_applyAll_notes :
    (∀ op ∈ [notesComment, notesTable], op.IsPlain) ∧
    (applyAll .empty [notesComment, notesTable]).refusals ≠ [] ∧
    (applyAll (applyAll .empty [notesComment, notesTable]).schema
      [notesComment, notesTable]).refusals = [] ∧
    ((applyAll (applyAll .empty [notesComment, notesTable]).schema
      [notesComment, notesTable]).schema ==
        (applyAll .empty [notesComment, notesTable]).schema) = true := by
  have hcomment : (Edit.table "notes" (.comment (some "all notes"))).Writable :=
    ⟨⟨by decide, trivial⟩, trivial⟩
  have htable : (Edit.putTable "notes" (.empty "notes")).Writable := ⟨⟨by decide, trivial⟩, rfl⟩
  have hplain : ∀ op ∈ [notesComment, notesTable], op.IsPlain := by
    intro op hmem path hpath
    rcases List.mem_pair.1 hmem with rfl | rfl
    · cases hcomment.path?.symm.trans hpath
      exact ⟨rfl, rfl⟩
    · cases htable.path?.symm.trans hpath
      exact ⟨rfl, rfl⟩
  have hput : ∀ schema : Schema, notesTable.apply schema =
      .ok { schema with tables := schema.tables.insert "notes" (.empty "notes") } := fun schema =>
    Operation.apply_eq_ok_iff.2 ⟨_, Edit.edit_operation htable, rfl⟩
  have hrefused : notesComment.apply .empty =
      .error ⟨notesComment.path, .missing (.table "notes")⟩ := by
    rw [Operation.apply, show notesComment.edit = .ok _ from Edit.edit_operation hcomment]
    rfl
  have hfirst := applyAll_cons_of_error hrefused [notesTable]
  rw [applyAll_cons_of_ok (hput .empty), applyAll_nil] at hfirst
  obtain ⟨after, haccepted⟩ : ∃ after,
      notesComment.apply (applyAll .empty [notesComment, notesTable]).schema = .ok after := by
    rw [hfirst]
    exact ⟨_, Operation.apply_eq_ok_iff.2 ⟨_, Edit.edit_operation hcomment, rfl⟩⟩
  have hsecond := applyAll_cons_of_ok haccepted [notesTable]
  rw [applyAll_cons_of_ok (hput after), applyAll_nil] at hsecond
  refine ⟨hplain, ?_, congrArg Outcome.refusals hsecond, applyAll_applyAll .empty hplain⟩
  rw [hfirst]
  exact List.cons_ne_nil _ _

end SchemaEvolution.Patch
