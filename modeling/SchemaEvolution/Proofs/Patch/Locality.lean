import SchemaEvolution.Proofs.Parts
import SchemaEvolution.Proofs.Patch.Owners

/-!
# Operations are local

An operation that gives no names changes one owner of the schema, and inside a table one part
of it, by what it finds there alone.
-/

namespace SchemaEvolution.Patch

def Operation.isIn (keep : Path → Bool) (op : Operation) : Bool := op.path?.any keep

/-- What an operation makes of a schema, if it is not refused. -/
def Operation.outcome? (schema : Schema) (op : Operation) : Option Schema :=
  (op.apply schema).toOption

theorem Edit.Writable.outcome? {edit : Edit} (hedit : edit.Writable) (schema : Schema) :
    edit.operation.outcome? schema = (edit.apply schema).toOption := by
  rw [Operation.outcome?, Operation.apply, Edit.edit_operation hedit]
  change ((edit.apply schema).mapError _).toOption = _
  cases edit.apply schema <;> rfl

theorem Edit.Writable.isIn {edit : Edit} (hedit : edit.Writable) (keep : Path → Bool) :
    edit.operation.isIn keep = keep edit.path := by
  rw [Operation.isIn, hedit.path?]
  rfl

theorem toOption_bind_pure {ε α β : Type} (result : Except ε α) (f : α → β) :
    (result >>= fun value => pure (f value)).toOption = result.toOption.map f := by
  cases result <;> rfl

theorem changeEntry_toOption {α : Type} (entries : Keyed α) (name : String) (absent : Missing)
    (change : α → Except Obstacle α) :
    (changeEntry entries name absent change).toOption =
      (entries.get? name).bind fun value => (change value).toOption.map (entries.insert name) := by
  unfold changeEntry
  cases entries.get? name with
  | none => rfl
  | some value => cases hvalue : change value <;> simp [Except.toOption, hvalue]

/-! ## Owners -/

def Owner.Value : Owner → Type
  | .table _ => Option Table
  | .enumType _ => Option EnumType
  | .extension _ => Option Extension

def Owner.view : (owner : Owner) → Schema → owner.Value
  | .table name, schema => schema.tables.get? name
  | .enumType name, schema => schema.enums.get? name
  | .extension name, schema => schema.extensions.get? name

/-- What an edit makes of a table that may be absent. -/
def Edit.onTable (name : String) (value : Option Table) : Edit → Option (Option Table)
  | .putTable _ new => some (some new)
  | .removeTable _ => some none
  | .table _ edit =>
    match value with
    | some old => (edit.apply old name).toOption.map some
    | none => if edit.removes then some none else none
  | _ => none

/-- What an edit makes of an enumerated type that may be absent. -/
def Edit.onEnum (value : Option EnumType) : Edit → Option (Option EnumType)
  | .putEnum _ new => some (some new)
  | .removeEnum _ => some none
  | .enumType _ edit => value.bind fun type => (edit.apply type).toOption.map some
  | _ => none

/-- What an edit makes of an extension that may be absent. -/
def Edit.onExtension (value : Option Extension) : Edit → Option (Option Extension)
  | .putExtension _ new => some (some new)
  | .removeExtension _ => some none
  | .extension _ edit => value.map fun extension => some (edit.apply extension)
  | _ => none

def Edit.onOwner : (owner : Owner) → owner.Value → Edit → Option owner.Value
  | .table name, value, edit => edit.onTable name value
  | .enumType _, value, edit => edit.onEnum value
  | .extension _, value, edit => edit.onExtension value

def Owner.effect (owner : Owner) (value : owner.Value) (op : Operation) : Option owner.Value :=
  op.edit.toOption.bind (Edit.onOwner owner value)

def Owner.touches (owner : Owner) (op : Operation) : Bool := op.isIn owner.contains

theorem Edit.Writable.effect {edit : Edit} (hedit : edit.Writable) (owner : Owner)
    (value : owner.Value) : owner.effect value edit.operation = edit.onOwner owner value := by
  rw [Owner.effect, Edit.edit_operation hedit]
  rfl

/-- An edit of a table that keeps its name either passes over an absent table or changes that one.
-/
theorem Edit.apply_table {name : String} {edit : TableEdit}
    (hplace : (Edit.table name edit).path.isName = false) (schema : Schema) :
    ((Edit.table name edit).apply schema).toOption =
      if edit.removes && !schema.tables.contains name then some schema
      else (schema.tables.get? name).bind fun table => (edit.apply table name).toOption.map
        fun table => { schema with tables := schema.tables.insert name table } := by
  have happly : (Edit.table name edit).apply schema =
      if edit.removes && !schema.tables.contains name then .ok schema
      else changeEntry schema.tables name (.table name) (fun table => edit.apply table name) >>=
        fun tables => pure { schema with tables } := by
    cases edit with
    | rename target => cases hplace
    | _ => rfl
  rw [happly]
  split
  · rfl
  · rw [toOption_bind_pure, changeEntry_toOption, Option.map_bind]
    simp only [Function.comp_def, Option.map_map]

theorem Edit.apply_enumType {name : String} {edit : EnumEdit}
    (hplace : (Edit.enumType name edit).path.isName = false) (schema : Schema) :
    ((Edit.enumType name edit).apply schema).toOption =
      (schema.enums.get? name).bind fun type => (edit.apply type).toOption.map
        fun type => { schema with enums := schema.enums.insert name type } := by
  have happly : (Edit.enumType name edit).apply schema =
      changeEntry schema.enums name (.enumType name) edit.apply >>=
        fun enums => pure { schema with enums } := by
    cases edit with
    | rename target => cases hplace
    | _ => rfl
  rw [happly, toOption_bind_pure, changeEntry_toOption, Option.map_bind]
  simp only [Function.comp_def, Option.map_map]

theorem Edit.apply_extension (name : String) (edit : ExtensionEdit) (schema : Schema) :
    ((Edit.extension name edit).apply schema).toOption =
      (schema.extensions.get? name).map fun extension =>
        { schema with extensions := schema.extensions.insert name (edit.apply extension) } := by
  rw [Edit.apply, toOption_bind_pure, changeEntry_toOption]
  cases schema.extensions.get? name <;> rfl

/-- An edit that succeeds on its owner and leaves the others alone is local. -/
theorem agrees_owner {edit : Edit} (hedit : edit.Writable) {schema after : Schema}
    (hself : edit.onOwner edit.path.owner (edit.path.owner.view schema) =
      some (edit.path.owner.view after))
    (hother : ∀ owner, edit.path.owner ≠ owner → owner.view after = owner.view schema) :
    Parts.Agrees Owner.view Owner.touches Owner.effect edit.operation schema (some after) := by
  intro owner
  rw [Owner.touches, hedit.isIn, Owner.contains]
  by_cases howner : edit.path.owner = owner
  · subst howner
    rw [if_pos (decide_eq_true rfl), hedit.effect]
    exact hself
  · rw [if_neg (by simpa using howner)]
    exact hother owner howner

/-- An edit that fails on its owner fails. -/
theorem agrees_owner_none {edit : Edit} (hedit : edit.Writable) {schema : Schema}
    (hself : edit.onOwner edit.path.owner (edit.path.owner.view schema) = none) :
    Parts.Agrees Owner.view Owner.touches Owner.effect edit.operation schema none := by
  refine ⟨edit.path.owner, ?_, ?_⟩
  · rw [Owner.touches, hedit.isIn, Owner.contains, decide_eq_true rfl]
  · rw [hedit.effect]
    exact hself

section Frames

variable {schema : Schema} {name : String}

theorem view_tables {tables : Keyed Table}
    (hkept : ∀ other, name ≠ other → tables.get? other = schema.tables.get? other)
    (owner : Owner) (hother : Owner.table name ≠ owner) :
    owner.view { schema with tables } = owner.view schema := by
  cases owner with
  | table other => exact hkept other fun heq => hother (congrArg Owner.table heq)
  | enumType | extension => rfl

theorem view_enums {enums : Keyed EnumType}
    (hkept : ∀ other, name ≠ other → enums.get? other = schema.enums.get? other)
    (owner : Owner) (hother : Owner.enumType name ≠ owner) :
    owner.view { schema with enums } = owner.view schema := by
  cases owner with
  | enumType other => exact hkept other fun heq => hother (congrArg Owner.enumType heq)
  | table | extension => rfl

theorem view_extensions {extensions : Keyed Extension}
    (hkept : ∀ other, name ≠ other → extensions.get? other = schema.extensions.get? other)
    (owner : Owner) (hother : Owner.extension name ≠ owner) :
    owner.view { schema with extensions } = owner.view schema := by
  cases owner with
  | extension other => exact hkept other fun heq => hother (congrArg Owner.extension heq)
  | table | enumType => rfl

end Frames

theorem get?_insert_other {α : Type} (entries : Keyed α) (name : String) (value : α)
    (other : String) (hother : name ≠ other) :
    (entries.insert name value).get? other = entries.get? other := by
  rw [Keyed.get?_insert, if_neg hother]

theorem get?_erase_other {α : Type} (entries : Keyed α) (name other : String)
    (hother : name ≠ other) : (entries.erase name).get? other = entries.get? other := by
  rw [Keyed.get?_erase, if_neg hother]

theorem get?_insert_self {α : Type} (entries : Keyed α) (name : String) (value : α) :
    (entries.insert name value).get? name = some value := by
  rw [Keyed.get?_insert, if_pos rfl]

theorem get?_erase_self {α : Type} (entries : Keyed α) (name : String) :
    (entries.erase name).get? name = none := by
  rw [Keyed.get?_erase, if_pos rfl]

/-- An edit that gives no names is local to its owner. -/
theorem Edit.agrees {edit : Edit} (hedit : edit.Writable) (hplace : edit.path.isName = false)
    (schema : Schema) :
    Parts.Agrees Owner.view Owner.touches Owner.effect edit.operation schema
      (edit.operation.outcome? schema) := by
  rw [hedit.outcome?]
  cases edit with
  | putTable name new =>
    exact agrees_owner hedit (congrArg some (get?_insert_self schema.tables name new).symm)
      (view_tables (get?_insert_other _ _ _))
  | removeTable name =>
    exact agrees_owner hedit (congrArg some (get?_erase_self schema.tables name).symm)
      (view_tables (get?_erase_other _ _))
  | putEnum name new =>
    exact agrees_owner hedit (congrArg some (get?_insert_self schema.enums name new).symm)
      (view_enums (get?_insert_other _ _ _))
  | removeEnum name =>
    exact agrees_owner hedit (congrArg some (get?_erase_self schema.enums name).symm)
      (view_enums (get?_erase_other _ _))
  | putExtension name new =>
    exact agrees_owner hedit (congrArg some (get?_insert_self schema.extensions name new).symm)
      (view_extensions (get?_insert_other _ _ _))
  | removeExtension name =>
    exact agrees_owner hedit (congrArg some (get?_erase_self schema.extensions name).symm)
      (view_extensions (get?_erase_other _ _))
  | hint => exact absurd rfl hedit.1
  | table name edit =>
    rw [Edit.apply_table hplace]
    cases hvalue : schema.tables.get? name with
    | none =>
      have habsent : schema.tables.contains name = false := by rw [Keyed.contains, hvalue]; rfl
      cases hremoves : edit.removes with
      | true =>
        rw [habsent, Bool.not_false, Bool.and_true, if_pos rfl]
        refine agrees_owner hedit ?_ fun _ _ => rfl
        change onTable name (schema.tables.get? name) (.table name edit) =
          some (schema.tables.get? name)
        simp only [onTable, hvalue, hremoves, if_true]
      | false =>
        rw [if_neg (by simp)]
        refine agrees_owner_none hedit ?_
        change onTable name (schema.tables.get? name) (.table name edit) = none
        simp [onTable, hvalue, hremoves]
    | some old =>
      have hpresent : schema.tables.contains name = true := by rw [Keyed.contains, hvalue]; rfl
      rw [hpresent, Bool.not_true, Bool.and_false, if_neg Bool.false_ne_true, Option.bind_some]
      have hself : onTable name (schema.tables.get? name) (.table name edit) =
          (edit.apply old name).toOption.map some := by
        simp only [onTable, hvalue]
      cases hchange : (edit.apply old name).toOption with
      | none =>
        rw [hchange] at hself
        exact agrees_owner_none hedit hself
      | some new =>
        rw [hchange] at hself
        refine agrees_owner hedit (hself.trans ?_) (view_tables (get?_insert_other _ _ _))
        exact congrArg some (get?_insert_self schema.tables name new).symm
  | enumType name edit =>
    rw [Edit.apply_enumType hplace]
    have hself : onEnum (schema.enums.get? name) (.enumType name edit) =
        (schema.enums.get? name).bind fun type => (edit.apply type).toOption.map some := rfl
    cases hvalue : schema.enums.get? name with
    | none => exact agrees_owner_none hedit (hself.trans (by rw [hvalue]; rfl))
    | some old =>
      rw [hvalue, Option.bind_some] at hself
      rw [Option.bind_some]
      cases hchange : (edit.apply old).toOption with
      | none =>
        rw [hchange] at hself
        exact agrees_owner_none hedit ((congrArg (onEnum · _) hvalue).trans hself)
      | some new =>
        rw [hchange] at hself
        refine agrees_owner hedit ((congrArg (onEnum · _) hvalue).trans (hself.trans ?_))
          (view_enums (get?_insert_other _ _ _))
        exact congrArg some (get?_insert_self schema.enums name new).symm
  | extension name edit =>
    rw [Edit.apply_extension]
    have hself : onExtension (schema.extensions.get? name) (.extension name edit) =
        (schema.extensions.get? name).map fun extension => some (edit.apply extension) := rfl
    cases hvalue : schema.extensions.get? name with
    | none => exact agrees_owner_none hedit (hself.trans (by rw [hvalue]; rfl))
    | some old =>
      refine agrees_owner hedit (hself.trans ?_) (view_extensions (get?_insert_other _ _ _))
      rw [hvalue]
      exact congrArg some (get?_insert_self schema.extensions name _).symm

/-! ## Parts of a table -/

def TablePart.Value : TablePart → Type
  | .name => String
  | .comment => Option String
  | .column _ => Option Column
  | .index _ => Option Index
  | .constraint _ => Option Constraint

def TablePart.view : (part : TablePart) → Table → part.Value
  | .name, table => table.name
  | .comment, table => table.comment
  | .column key, table => table.columns.get? key
  | .index key, table => table.indexes.get? key
  | .constraint key, table => table.constraints.get? key

/-- What an edit makes of a column that may be absent. -/
def TableEdit.onColumn (value : Option Column) : TableEdit → Option (Option Column)
  | .putColumn _ new => some (some new)
  | .removeColumn _ => some none
  | .column _ edit => value.map fun old => some (edit.apply old)
  | _ => none

/-- What an edit makes of an index that may be absent. -/
def TableEdit.onIndex (value : Option Index) : TableEdit → Option (Option Index)
  | .putIndex _ new => some (some new)
  | .removeIndex _ => some none
  | .index _ edit => value.bind fun old => (edit.apply old).toOption.map some
  | _ => none

/-- What an edit makes of a constraint that may be absent. -/
def TableEdit.onConstraint (value : Option Constraint) : TableEdit → Option (Option Constraint)
  | .putConstraint _ new => some (some new)
  | .removeConstraint _ => some none
  | .constraint _ edit => value.bind fun old => (edit.apply old).toOption.map some
  | _ => none

def TableEdit.onPart : (part : TablePart) → part.Value → TableEdit → Option part.Value
  | .comment, _, .comment new => some new
  | .column _, value, edit => edit.onColumn value
  | .index _, value, edit => edit.onIndex value
  | .constraint _, value, edit => edit.onConstraint value
  | _, _, _ => none

def Operation.tableEdit? (op : Operation) : Option TableEdit :=
  match op.edit with
  | .ok (.table _ edit) => some edit
  | _ => none

def TablePart.effect (part : TablePart) (value : part.Value) (op : Operation) :
    Option part.Value :=
  op.tableEdit?.bind (TableEdit.onPart part value)

def Operation.applyInside (key : String) (table : Table) (op : Operation) : Option Table :=
  op.tableEdit?.bind fun edit => (edit.apply table key).toOption

def TablePart.touches (key : String) (part : TablePart) (op : Operation) : Bool :=
  op.isIn (part.contains key)

section Inside

variable {key : String} {edit : TableEdit} (hedit : (Edit.table key edit).Writable)

include hedit

theorem tableEdit?_operation : (Edit.table key edit).operation.tableEdit? = some edit := by
  rw [Operation.tableEdit?, Edit.edit_operation hedit]

theorem effect_operation (part : TablePart) (value : part.Value) :
    part.effect value (Edit.table key edit).operation = edit.onPart part value := by
  rw [TablePart.effect, tableEdit?_operation hedit]
  rfl

theorem applyInside_operation (table : Table) :
    (Edit.table key edit).operation.applyInside key table = (edit.apply table key).toOption := by
  rw [Operation.applyInside, tableEdit?_operation hedit]
  rfl

theorem touches_operation {part : TablePart} (hpart : edit.spot.part? = some part)
    (other : TablePart) :
    other.touches key (Edit.table key edit).operation = decide (part = other) := by
  rw [TablePart.touches, hedit.isIn, Edit.path, TablePart.contains_table, hpart]
  exact Bool.eq_iff_iff.2 (by simp)

/-- An edit that succeeds on its part and leaves the others alone is local. -/
theorem agrees_part {part : TablePart} (hpart : edit.spot.part? = some part) {table after : Table}
    (hself : edit.onPart part (part.view table) = some (part.view after))
    (hother : ∀ other, part ≠ other → other.view after = other.view table) :
    Parts.Agrees TablePart.view (TablePart.touches key) TablePart.effect
      (Edit.table key edit).operation table (some after) := by
  intro other
  rw [touches_operation hedit hpart]
  by_cases heq : part = other
  · subst heq
    rw [if_pos (decide_eq_true rfl), effect_operation hedit]
    exact hself
  · rw [if_neg (by simpa using heq)]
    exact hother other heq

/-- An edit that fails on its part fails. -/
theorem agrees_part_none {part : TablePart} (hpart : edit.spot.part? = some part) {table : Table}
    (hself : edit.onPart part (part.view table) = none) :
    Parts.Agrees TablePart.view (TablePart.touches key) TablePart.effect
      (Edit.table key edit).operation table none := by
  refine ⟨part, ?_, ?_⟩
  · rw [touches_operation hedit hpart, decide_eq_true rfl]
  · rw [effect_operation hedit]
    exact hself

end Inside

section Frames

variable {table : Table} {name : String}

theorem view_columns {columns : Keyed Column}
    (hkept : ∀ other, name ≠ other → columns.get? other = table.columns.get? other)
    (part : TablePart) (hother : TablePart.column name ≠ part) :
    part.view { table with columns } = part.view table := by
  cases part with
  | column other => exact hkept other fun heq => hother (congrArg TablePart.column heq)
  | name | comment | index | constraint => rfl

theorem view_indexes {indexes : Keyed Index}
    (hkept : ∀ other, name ≠ other → indexes.get? other = table.indexes.get? other)
    (part : TablePart) (hother : TablePart.index name ≠ part) :
    part.view { table with indexes } = part.view table := by
  cases part with
  | index other => exact hkept other fun heq => hother (congrArg TablePart.index heq)
  | name | comment | column | constraint => rfl

theorem view_constraints {constraints : Keyed Constraint}
    (hkept : ∀ other, name ≠ other → constraints.get? other = table.constraints.get? other)
    (part : TablePart) (hother : TablePart.constraint name ≠ part) :
    part.view { table with constraints } = part.view table := by
  cases part with
  | constraint other => exact hkept other fun heq => hother (congrArg TablePart.constraint heq)
  | name | comment | column | index => rfl

end Frames

section Entries

variable {key name : String} (table : Table)

theorem TableEdit.apply_column {edit : ColumnEdit} (hfield : edit.field ≠ .name) :
    ((TableEdit.column name edit).apply table key).toOption =
      (table.columns.get? name).map fun column =>
        { table with columns := table.columns.insert name (edit.apply column) } := by
  have happly : (TableEdit.column name edit).apply table key =
      changeEntry table.columns name (.column key name) (fun column => .ok (edit.apply column)) >>=
        fun columns => pure { table with columns } := by
    cases edit with
    | rename target => exact absurd rfl hfield
    | _ => rfl
  rw [happly, toOption_bind_pure, changeEntry_toOption]
  cases table.columns.get? name <;> rfl

theorem TableEdit.apply_index {edit : IndexEdit} (hspot : edit.spot ≠ .field .name) :
    ((TableEdit.index name edit).apply table key).toOption =
      (table.indexes.get? name).bind fun index => (edit.apply index).toOption.map
        fun index => { table with indexes := table.indexes.insert name index } := by
  have happly : (TableEdit.index name edit).apply table key =
      changeEntry table.indexes name (.index key name) edit.apply >>=
        fun indexes => pure { table with indexes } := by
    cases edit with
    | rename target => exact absurd rfl hspot
    | _ => rfl
  rw [happly, toOption_bind_pure, changeEntry_toOption, Option.map_bind]
  simp only [Function.comp_def, Option.map_map]

theorem TableEdit.apply_constraint {edit : ConstraintEdit} (hspot : edit.spot ≠ .field .name) :
    ((TableEdit.constraint name edit).apply table key).toOption =
      (table.constraints.get? name).bind fun constraint => (edit.apply constraint).toOption.map
        fun constraint =>
          { table with constraints := table.constraints.insert name constraint } := by
  have happly : (TableEdit.constraint name edit).apply table key =
      changeEntry table.constraints name (.constraint key name) edit.apply >>=
        fun constraints => pure { table with constraints } := by
    cases edit with
    | rename target => exact absurd rfl hspot
    | _ => rfl
  rw [happly, toOption_bind_pure, changeEntry_toOption, Option.map_bind]
  simp only [Function.comp_def, Option.map_map]

end Entries

/-- An edit inside a table that gives no names is local to its part. -/
theorem TableEdit.agrees {key : String} {edit : TableEdit} (hedit : (Edit.table key edit).Writable)
    (hplace : (Edit.table key edit).path.isName = false) (table : Table) :
    Parts.Agrees TablePart.view (TablePart.touches key) TablePart.effect
      (Edit.table key edit).operation table
      ((Edit.table key edit).operation.applyInside key table) := by
  rw [applyInside_operation hedit]
  cases edit with
  | rename target => cases hplace
  | comment new =>
    refine agrees_part hedit rfl rfl fun other hother => ?_
    cases other with
    | comment => exact absurd rfl hother
    | name | column | index | constraint => rfl
  | putColumn name new =>
    exact agrees_part hedit rfl (congrArg some (get?_insert_self table.columns name new).symm)
      (view_columns (get?_insert_other _ _ _))
  | removeColumn name =>
    exact agrees_part hedit rfl (congrArg some (get?_erase_self table.columns name).symm)
      (view_columns (get?_erase_other _ _))
  | putIndex name new =>
    exact agrees_part hedit rfl (congrArg some (get?_insert_self table.indexes name new).symm)
      (view_indexes (get?_insert_other _ _ _))
  | removeIndex name =>
    exact agrees_part hedit rfl (congrArg some (get?_erase_self table.indexes name).symm)
      (view_indexes (get?_erase_other _ _))
  | putConstraint name new =>
    exact agrees_part hedit rfl (congrArg some (get?_insert_self table.constraints name new).symm)
      (view_constraints (get?_insert_other _ _ _))
  | removeConstraint name =>
    exact agrees_part hedit rfl (congrArg some (get?_erase_self table.constraints name).symm)
      (view_constraints (get?_erase_other _ _))
  | column name edit =>
    have hfield : edit.field ≠ .name := by
      intro heq
      rw [Edit.path, spot, heq] at hplace
      cases hplace
    rw [apply_column table hfield]
    have hself : onColumn (table.columns.get? name) (.column name edit) =
        (table.columns.get? name).map fun old => some (edit.apply old) := rfl
    cases hvalue : table.columns.get? name with
    | none => exact agrees_part_none hedit rfl (hself.trans (by rw [hvalue]; rfl))
    | some old =>
      refine agrees_part hedit rfl (hself.trans ?_) (view_columns (get?_insert_other _ _ _))
      rw [hvalue]
      exact congrArg some (get?_insert_self table.columns name _).symm
  | index name edit =>
    have hspot : edit.spot ≠ .field .name := by
      intro heq
      rw [Edit.path, spot, heq] at hplace
      cases hplace
    rw [apply_index table hspot]
    have hself : onIndex (table.indexes.get? name) (.index name edit) =
        (table.indexes.get? name).bind fun old => (edit.apply old).toOption.map some := rfl
    cases hvalue : table.indexes.get? name with
    | none => exact agrees_part_none hedit rfl (hself.trans (by rw [hvalue]; rfl))
    | some old =>
      rw [hvalue, Option.bind_some] at hself
      rw [Option.bind_some]
      cases hchange : (edit.apply old).toOption with
      | none =>
        rw [hchange] at hself
        exact agrees_part_none hedit rfl ((congrArg (onIndex · _) hvalue).trans hself)
      | some new =>
        rw [hchange] at hself
        refine agrees_part hedit rfl ((congrArg (onIndex · _) hvalue).trans (hself.trans ?_))
          (view_indexes (get?_insert_other _ _ _))
        exact congrArg some (get?_insert_self table.indexes name new).symm
  | constraint name edit =>
    have hspot : edit.spot ≠ .field .name := by
      intro heq
      rw [Edit.path, spot, heq] at hplace
      cases hplace
    rw [apply_constraint table hspot]
    have hself : onConstraint (table.constraints.get? name) (.constraint name edit) =
        (table.constraints.get? name).bind fun old => (edit.apply old).toOption.map some := rfl
    cases hvalue : table.constraints.get? name with
    | none => exact agrees_part_none hedit rfl (hself.trans (by rw [hvalue]; rfl))
    | some old =>
      rw [hvalue, Option.bind_some] at hself
      rw [Option.bind_some]
      cases hchange : (edit.apply old).toOption with
      | none =>
        rw [hchange] at hself
        exact agrees_part_none hedit rfl ((congrArg (onConstraint · _) hvalue).trans hself)
      | some new =>
        rw [hchange] at hself
        refine agrees_part hedit rfl
          ((congrArg (onConstraint · _) hvalue).trans (hself.trans ?_))
          (view_constraints (get?_insert_other _ _ _))
        exact congrArg some (get?_insert_self table.constraints name new).symm

end SchemaEvolution.Patch
