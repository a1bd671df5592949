import SchemaEvolution.Patch.Apply
import SchemaEvolution.Proofs.Patch.Path
import SchemaEvolution.Proofs.Schema.RoundTrip

/-!
# Edits as operations

Every edit is written as an operation, at the path of what it changes, and an operation so
written is understood as the edit that it was written for.
-/

namespace SchemaEvolution.Patch

def ListEdit.position : ListEdit → Position
  | .insert position _ => position
  | .remove index | .replace index _ => .at index

def ListEdit.action : ListEdit → Action
  | .insert _ value => .add (.string value)
  | .remove _ => .remove
  | .replace _ value => .replace (.string value)

def ColumnEdit.field : ColumnEdit → ColumnField
  | .rename _ => .name
  | .type _ => .type
  | .default _ => .default
  | .check _ => .check
  | .notNull _ => .notNull
  | .comment _ => .comment

def ColumnEdit.document : ColumnEdit → Json
  | .rename text | .type text => .string text
  | .default value => optionalDefault value
  | .check text | .comment text => optionalText text
  | .notNull flag => .bool flag

def IndexEdit.spot : IndexEdit → IndexSpot
  | .rename _ => .field .name
  | .unique _ => .field .unique
  | .type _ => .field .type
  | .columns _ => .field .columns
  | .item edit => .item edit.position

def IndexEdit.action : IndexEdit → Action
  | .rename text | .type text => .replace (.string text)
  | .unique flag => .replace (.bool flag)
  | .columns names => .replace (texts names)
  | .item edit => edit.action

def ConstraintEdit.spot : ConstraintEdit → ConstraintSpot
  | .rename _ => .field .name
  | .onUpdate _ => .field .onUpdate
  | .onDelete _ => .field .onDelete
  | .condition _ => .field .condition
  | .targetTable _ => .field .targetTable
  | .columns _ => .field .columns
  | .targetColumns _ => .field .targetColumns
  | .item list edit => .item list edit.position

def ConstraintEdit.action : ConstraintEdit → Action
  | .rename text | .condition text | .targetTable text => .replace (.string text)
  | .onUpdate reaction | .onDelete reaction => .replace reaction.toJson
  | .columns names | .targetColumns names => .replace (texts names)
  | .item _ edit => edit.action

def TableEdit.spot : TableEdit → TableSpot
  | .rename _ => .field .name
  | .comment _ => .field .comment
  | .putColumn name _ | .removeColumn name => .column name .whole
  | .column name edit => .column name (.field edit.field)
  | .putIndex name _ | .removeIndex name => .index name .whole
  | .index name edit => .index name edit.spot
  | .putConstraint name _ | .removeConstraint name => .constraint name .whole
  | .constraint name edit => .constraint name edit.spot

def TableEdit.action : TableEdit → Action
  | .rename text => .replace (.string text)
  | .comment text => .replace (optionalText text)
  | .putColumn _ new => .add new.toJson
  | .putIndex _ new => .add new.toJson
  | .putConstraint _ new => .add new.toJson
  | .removeColumn _ | .removeIndex _ | .removeConstraint _ => .remove
  | .column _ edit => .replace edit.document
  | .index _ edit => edit.action
  | .constraint _ edit => edit.action

def EnumEdit.spot : EnumEdit → EnumSpot
  | .rename _ => .field .name
  | .values _ => .field .values
  | .comment _ => .field .comment
  | .item edit => .item edit.position

def EnumEdit.action : EnumEdit → Action
  | .rename text => .replace (.string text)
  | .values new => .replace (texts new)
  | .comment text => .replace (optionalText text)
  | .item edit => edit.action

def ExtensionEdit.field : ExtensionEdit → ExtensionField
  | .schema _ => .schema
  | .version _ => .version
  | .comment _ => .comment

def ExtensionEdit.document : ExtensionEdit → Json
  | .schema text | .version text | .comment text => optionalText text

/-- Where an edit is.  A hint says nothing about where it was read, so it is nowhere. -/
def Edit.path : Edit → Path
  | .putTable name _ | .removeTable name => .table name .whole
  | .table name edit => .table name edit.spot
  | .putEnum name _ | .removeEnum name => .enumType name .whole
  | .enumType name edit => .enumType name edit.spot
  | .putExtension name _ | .removeExtension name => .extension name .whole
  | .extension name edit => .extension name (.field edit.field)
  | .hint => .extension "" (.field .cascade)

def Edit.action : Edit → Action
  | .putTable _ new => .add new.toJson
  | .putEnum _ new => .add new.toJson
  | .putExtension _ new => .add new.toJson
  | .removeTable _ | .removeEnum _ | .removeExtension _ | .hint => .remove
  | .table _ edit => edit.action
  | .enumType _ edit => edit.action
  | .extension _ edit => .replace edit.document

def Edit.operation (edit : Edit) : Operation := ⟨edit.path.text, edit.action⟩

/-- An entry is put under the name that it has. -/
def TableEdit.KeepsName : TableEdit → Prop
  | .putColumn name new => new.name = name
  | .putIndex name new => new.name = name
  | .putConstraint name new => new.name = name
  | _ => True

/-- An entry is put under the name that it has. -/
def Edit.KeepsName : Edit → Prop
  | .putTable name new => new.name = name
  | .table _ edit => edit.KeepsName
  | .putEnum name new => new.name = name
  | .putExtension name new => new.name = name
  | _ => True

def Edit.Writable (edit : Edit) : Prop := edit.path.WellFormed ∧ edit.KeepsName

/-! ## Reading an edit back -/

theorem Operation.path?_of_wellFormed {path : Path} (hformed : path.WellFormed) (action : Action) :
    (⟨path.text, action⟩ : Operation).path? = some path := by
  simp [Operation.path?, Path.parse_text_of_wellFormed hformed, Except.toOption]

theorem Edit.Writable.path? {edit : Edit} (hedit : edit.Writable) :
    edit.operation.path? = some edit.path :=
  Operation.path?_of_wellFormed hedit.1 _

theorem decodeAs_of_spells {α : Type} {shape : Json.Shape α} {document : Json} {value : α}
    (hspells : shape.Spells value document) : decodeAs shape document = .ok value := by
  rw [decodeAs, shape.decode_of_spells .document hspells]
  rfl

theorem ListEdit.listEdit_eq {op : Operation} {edit : ListEdit}
    (haction : op.action = edit.action) : op.listEdit edit.position = .ok edit := by
  unfold Operation.listEdit
  rw [haction]
  cases edit <;> rfl

/-- An operation that replaces the field by the document of the edit is read as that edit. -/
theorem ColumnEdit.columnEdit_eq {op : Operation} {edit : ColumnEdit}
    (haction : op.action = .replace edit.document) (name : String) :
    op.columnEdit name (.field edit.field) = .ok (.column name edit) := by
  have hvalue : op.value? = some edit.document := by rw [Operation.value?, haction]
  cases edit with
  | default value =>
    have hdecode := decodeAs_of_spells (spells_optionalDefault value)
    simp only [document] at hvalue
    simp only [Operation.columnEdit, field, hvalue, hdecode]
    rfl
  | check text =>
    have hdecode := decodeAs_of_spells (spells_optionalText text)
    simp only [document] at hvalue
    simp only [Operation.columnEdit, field, hvalue, optionalTextShape, hdecode]
    rfl
  | comment text =>
    have hdecode := decodeAs_of_spells (spells_optionalText text)
    simp only [document] at hvalue
    simp only [Operation.columnEdit, field, hvalue, optionalTextShape, hdecode]
    rfl
  | _ =>
    simp only [document] at hvalue
    simp only [Operation.columnEdit, field, hvalue]
    rfl

theorem IndexEdit.indexEdit_eq {op : Operation} {edit : IndexEdit}
    (haction : op.action = edit.action) (name : String) :
    op.indexEdit name edit.spot = .ok (.index name edit) := by
  cases edit with
  | item edit =>
    simp only [Operation.indexEdit, spot, ListEdit.listEdit_eq haction]
    rfl
  | columns names =>
    have hdecode := decodeAs_of_spells (spells_texts names)
    have hvalue : op.value? = some (texts names) := by rw [Operation.value?, haction]; rfl
    simp only [Operation.indexEdit, spot, hvalue, textsShape, hdecode]
    rfl
  | _ =>
    simp only [Operation.indexEdit, spot, Operation.value?, haction, action]
    rfl

theorem ConstraintEdit.constraintEdit_eq {op : Operation} {edit : ConstraintEdit}
    (haction : op.action = edit.action) (name : String) :
    op.constraintEdit name edit.spot = .ok (.constraint name edit) := by
  have htexts := fun names => decodeAs_of_spells (spells_texts names)
  have hreaction := fun reaction => decodeAs_of_spells (spells_action reaction)
  cases edit with
  | item list edit =>
    simp only [Operation.constraintEdit, spot, ListEdit.listEdit_eq haction]
    rfl
  | columns | targetColumns | onUpdate | onDelete =>
    simp only [Operation.constraintEdit, spot, Operation.value?, haction, action, textsShape,
      htexts, hreaction]
    rfl
  | _ =>
    simp only [Operation.constraintEdit, spot, Operation.value?, haction, action]
    rfl

/-- An operation with the action of an edit of a table is read as that edit, if an entry is put
under its own name. -/
theorem TableEdit.tableEdit_eq {op : Operation} {edit : TableEdit}
    (haction : op.action = edit.action) (hkeeps : edit.KeepsName) (name : String) :
    op.tableEdit name edit.spot = .ok (.table name edit) := by
  cases edit with
  | rename text =>
    simp only [Operation.tableEdit, spot, Operation.value?, haction, action]
    rfl
  | comment text =>
    have hdecode := decodeAs_of_spells (spells_optionalText text)
    simp only [Operation.tableEdit, spot, Operation.value?, haction, action, optionalTextShape,
      hdecode]
    rfl
  | putColumn key column =>
    cases hkeeps
    have hdecode := decodeAs_of_spells column.spells_toJson
    simp only [Operation.tableEdit, spot, Operation.columnEdit, Operation.value?, haction, action,
      hdecode]
    rfl
  | putIndex key index =>
    cases hkeeps
    have hdecode := decodeAs_of_spells index.spells_toJson
    simp only [Operation.tableEdit, spot, Operation.indexEdit, Operation.value?, haction, action,
      hdecode]
    rfl
  | putConstraint key constraint =>
    cases hkeeps
    have hdecode := decodeAs_of_spells constraint.spells_toJson
    simp only [Operation.tableEdit, spot, Operation.constraintEdit, Operation.value?, haction,
      action, hdecode]
    rfl
  | removeColumn key =>
    simp only [Operation.tableEdit, spot, Operation.columnEdit, Operation.value?, haction, action]
    rfl
  | removeIndex key =>
    simp only [Operation.tableEdit, spot, Operation.indexEdit, Operation.value?, haction, action]
    rfl
  | removeConstraint key =>
    simp only [Operation.tableEdit, spot, Operation.constraintEdit, Operation.value?, haction,
      action]
    rfl
  | column key edit =>
    rw [spot, Operation.tableEdit.eq_def]
    simp only [ColumnEdit.columnEdit_eq haction]
    rfl
  | index key edit =>
    rw [spot, Operation.tableEdit.eq_def]
    simp only [IndexEdit.indexEdit_eq haction]
    rfl
  | constraint key edit =>
    rw [spot, Operation.tableEdit.eq_def]
    simp only [ConstraintEdit.constraintEdit_eq haction]
    rfl

theorem EnumEdit.enumEdit_eq {op : Operation} {edit : EnumEdit}
    (haction : op.action = edit.action) (name : String) :
    op.enumEdit name edit.spot = .ok (.enumType name edit) := by
  cases edit with
  | item edit =>
    simp only [Operation.enumEdit, spot, ListEdit.listEdit_eq haction]
    rfl
  | rename text =>
    simp only [Operation.enumEdit, spot, Operation.value?, haction, action]
    rfl
  | values values =>
    have hdecode := decodeAs_of_spells (spells_texts values)
    simp only [Operation.enumEdit, spot, Operation.value?, haction, action, textsShape, hdecode]
    rfl
  | comment text =>
    have hdecode := decodeAs_of_spells (spells_optionalText text)
    simp only [Operation.enumEdit, spot, Operation.value?, haction, action, optionalTextShape,
      hdecode]
    rfl

theorem ExtensionEdit.extensionEdit_eq {op : Operation} {edit : ExtensionEdit}
    (haction : op.action = .replace edit.document) (name : String) :
    op.extensionEdit name (.field edit.field) = .ok (.extension name edit) := by
  have hdecode := fun text => decodeAs_of_spells (spells_optionalText text)
  cases edit <;>
    simp only [Operation.extensionEdit, field, Operation.value?, haction, document,
      optionalTextShape, hdecode] <;> rfl

/-- An operation written for an edit is understood as that edit. -/
theorem Edit.edit_operation {edit : Edit} (hedit : edit.Writable) :
    edit.operation.edit = .ok edit := by
  obtain ⟨hformed, hkeeps⟩ := hedit
  have hparse : Path.parse edit.operation.path = .ok edit.path :=
    Path.parse_text_of_wellFormed hformed
  rw [Operation.edit, hparse]
  cases edit with
  | putTable name table =>
    cases hkeeps
    have hdecode := decodeAs_of_spells table.spells_toJson
    simp only [path, Operation.tableEdit, Operation.value?, operation, action, hdecode]
    rfl
  | putEnum name type =>
    cases hkeeps
    have hdecode := decodeAs_of_spells type.spells_toJson
    simp only [path, Operation.enumEdit, Operation.value?, operation, action, hdecode]
    rfl
  | putExtension name extension =>
    cases hkeeps
    have hdecode := decodeAs_of_spells extension.spells_toJson
    simp only [path, Operation.extensionEdit, Operation.value?, operation, action, hdecode]
    rfl
  | removeTable | removeEnum | removeExtension => rfl
  | table name edit => exact TableEdit.tableEdit_eq rfl hkeeps name
  | enumType name edit => exact EnumEdit.enumEdit_eq rfl name
  | extension name edit => exact ExtensionEdit.extensionEdit_eq rfl name
  | hint => exact absurd rfl hformed

end SchemaEvolution.Patch
