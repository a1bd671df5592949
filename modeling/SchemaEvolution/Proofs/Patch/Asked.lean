import SchemaEvolution.Proofs.Patch.Parsing
import SchemaEvolution.Proofs.Patch.WellKeyed

/-!
# What operations ask for

An operation that is understood asks for an edit at its path, unless it is a hint, and the only
name that it can give is the text that is its value.  So every edit that is asked for can be
written as an operation again.
-/

namespace SchemaEvolution.Patch

def Operation.text? (op : Operation) : Option String :=
  match op.value? with
  | some (.string text) => some text
  | _ => none

def TableEdit.newName? : TableEdit → Option String
  | .rename target | .column _ (.rename target) | .index _ (.rename target)
  | .constraint _ (.rename target) => some target
  | _ => none

def Edit.newName? : Edit → Option String
  | .table _ edit => edit.newName?
  | .enumType _ (.rename target) => some target
  | _ => none

def Operation.Gives (op : Operation) (name? : Option String) : Prop :=
  ∀ name, name? = some name → op.text? = some name

theorem Operation.gives_none (op : Operation) : op.Gives none := by simp [Gives]

theorem eq_string_of_decodeAs {value : Json} {text : String}
    (hdecode : decodeAs .text value = .ok text) : value = .string text := by
  cases value <;> cases hdecode
  rfl

section Understood

variable {op : Operation} {name : String}

theorem Operation.gives_of_decodeAs {value : Json} {text : String}
    (hvalue : op.value? = some value) (hdecode : decodeAs .text value = .ok text) :
    op.Gives (some text) := by
  intro name hname
  rw [← hname, text?, hvalue, eq_string_of_decodeAs hdecode]

/-- The edit of a list stands at the place that the operation names. -/
theorem ListEdit.position_of_listEdit {position : Position} {edit : ListEdit}
    (hedit : op.listEdit position = .ok edit) : edit.position = position := by
  have hindex : ∀ index, op.indexOf position = .ok index → Position.at index = position := by
    intro index hindex
    cases position <;> cases hindex
    rfl
  rw [Operation.listEdit] at hedit
  split at hedit
  · obtain ⟨value, -, hedit⟩ := exists_of_bind_eq_ok hedit
    cases hedit
    rfl
  · obtain ⟨index, hposition, hedit⟩ := exists_of_bind_eq_ok hedit
    cases hedit
    exact hindex index hposition
  · obtain ⟨index, hposition, hedit⟩ := exists_of_bind_eq_ok hedit
    obtain ⟨value, -, hedit⟩ := exists_of_bind_eq_ok hedit
    cases hedit
    exact hindex index hposition

/-- At an entry, an operation asks for its removal, or for what its value says to be put there. -/
theorem holds_of_whole {α γ : Type} {removal edit : γ} {decoded : Json → Except Obstacle α}
    {put : α → γ} {property : γ → Prop}
    (hedit : (match op.value? with
      | none => .ok removal
      | some value => decoded value >>= fun new => pure (put new) : Except Obstacle γ) = .ok edit)
    (hremoval : property removal) (hput : ∀ new, property (put new)) : property edit := by
  split at hedit
  · cases hedit
    exact hremoval
  · exact holds_of_bind_pure hedit hput

/-- A change of a field is made of the value that is decoded for it. -/
theorem exists_of_decoded {α β γ : Type} {decoded : Except Obstacle α} {make : α → β}
    {place : β → γ} {edit : γ}
    (hedit : (decoded.map make >>= fun change => pure (place change)) = .ok edit) :
    ∃ value, decoded = .ok value ∧ edit = place (make value) := by
  obtain ⟨change, hchange, hedit⟩ := exists_of_bind_eq_ok hedit
  obtain ⟨value, hvalue, rfl⟩ := exists_of_map_eq_ok hchange
  cases hedit
  exact ⟨value, hvalue, rfl⟩

/-- The edit is at the spot, and gives no other name than the value of the operation. -/
def TableEdit.AskedAt (op : Operation) (spot : TableSpot) (edit : TableEdit) : Prop :=
  edit.spot = spot ∧ op.Gives edit.newName?

/-- The edit is at the path, and gives no other name than the value of the operation. -/
def Edit.AskedAt (op : Operation) (path : Path) (edit : Edit) : Prop :=
  edit.path = path ∧ op.Gives edit.newName?

theorem TableEdit.askedAt_of_columnEdit {spot : ColumnSpot} {edit : TableEdit}
    (hedit : op.columnEdit name spot = .ok edit) : edit.AskedAt op (.column name spot) := by
  cases spot with
  | whole =>
    exact holds_of_whole hedit ⟨rfl, op.gives_none⟩ fun _ => ⟨rfl, op.gives_none⟩
  | field field =>
    simp only [Operation.columnEdit] at hedit
    cases hvalue : op.value? with
    | none =>
      rw [hvalue] at hedit
      cases field <;> cases hedit <;> exact ⟨rfl, op.gives_none⟩
    | some value =>
      rw [hvalue] at hedit
      cases field with
      | name =>
        obtain ⟨new, hnew, rfl⟩ := exists_of_decoded hedit
        exact ⟨rfl, Operation.gives_of_decodeAs hvalue hnew⟩
      | type | default | check | notNull | comment =>
        obtain ⟨new, -, rfl⟩ := exists_of_decoded hedit
        exact ⟨rfl, op.gives_none⟩

theorem TableEdit.askedAt_of_indexEdit {spot : IndexSpot} {edit : TableEdit}
    (hedit : op.indexEdit name spot = .ok edit) : edit.AskedAt op (.index name spot) := by
  cases spot with
  | whole =>
    exact holds_of_whole hedit ⟨rfl, op.gives_none⟩ fun _ => ⟨rfl, op.gives_none⟩
  | field field =>
    simp only [Operation.indexEdit] at hedit
    cases hvalue : op.value? with
    | none =>
      rw [hvalue] at hedit
      cases hedit
    | some value =>
      rw [hvalue] at hedit
      cases field with
      | name =>
        obtain ⟨new, hnew, rfl⟩ := exists_of_decoded hedit
        exact ⟨rfl, Operation.gives_of_decodeAs hvalue hnew⟩
      | unique | type | columns =>
        obtain ⟨new, -, rfl⟩ := exists_of_decoded hedit
        exact ⟨rfl, op.gives_none⟩
  | item position =>
    obtain ⟨change, hchange, hedit⟩ := exists_of_bind_eq_ok hedit
    cases hedit
    exact ⟨by rw [TableEdit.spot, IndexEdit.spot, ListEdit.position_of_listEdit hchange],
      op.gives_none⟩

theorem TableEdit.askedAt_of_constraintEdit {spot : ConstraintSpot} {edit : TableEdit}
    (hedit : op.constraintEdit name spot = .ok edit) :
    edit.AskedAt op (.constraint name spot) := by
  cases spot with
  | whole =>
    exact holds_of_whole hedit ⟨rfl, op.gives_none⟩ fun _ => ⟨rfl, op.gives_none⟩
  | field field =>
    simp only [Operation.constraintEdit] at hedit
    cases hvalue : op.value? with
    | none =>
      rw [hvalue] at hedit
      cases hedit
    | some value =>
      rw [hvalue] at hedit
      cases field with
      | name =>
        obtain ⟨new, hnew, rfl⟩ := exists_of_decoded hedit
        exact ⟨rfl, Operation.gives_of_decodeAs hvalue hnew⟩
      | onUpdate | onDelete | condition | targetTable | columns | targetColumns =>
        obtain ⟨new, -, rfl⟩ := exists_of_decoded hedit
        exact ⟨rfl, op.gives_none⟩
  | item list position =>
    obtain ⟨change, hchange, hedit⟩ := exists_of_bind_eq_ok hedit
    cases hedit
    exact ⟨by rw [TableEdit.spot, ConstraintEdit.spot, ListEdit.position_of_listEdit hchange],
      op.gives_none⟩

theorem TableEdit.AskedAt.table {spot : TableSpot} {edit : TableEdit}
    (hasked : edit.AskedAt op spot) (name : String) : (Edit.table name edit).AskedAt op (.table name spot) :=
  ⟨congrArg (Path.table name) hasked.1, hasked.2⟩

/-- An edit of a table is at the spot of its operation and gives no other name than that does. -/
theorem Edit.askedAt_of_tableEdit {spot : TableSpot} {edit : Edit}
    (hedit : op.tableEdit name spot = .ok edit) : edit.AskedAt op (.table name spot) := by
  cases spot with
  | whole =>
    exact holds_of_whole hedit ⟨rfl, op.gives_none⟩ fun _ => ⟨rfl, op.gives_none⟩
  | field field =>
    simp only [Operation.tableEdit] at hedit
    cases hvalue : op.value? with
    | none =>
      rw [hvalue] at hedit
      cases field <;> cases hedit
      exact ⟨rfl, op.gives_none⟩
    | some value =>
      rw [hvalue] at hedit
      cases field with
      | name =>
        obtain ⟨new, hnew, rfl⟩ := exists_of_decoded hedit
        exact ⟨rfl, Operation.gives_of_decodeAs hvalue hnew⟩
      | comment =>
        obtain ⟨new, -, rfl⟩ := exists_of_decoded hedit
        exact ⟨rfl, op.gives_none⟩
  | column column spot =>
    obtain ⟨change, hchange, rfl⟩ := exists_of_map_eq_ok hedit
    exact (TableEdit.askedAt_of_columnEdit hchange).table name
  | index index spot =>
    obtain ⟨change, hchange, rfl⟩ := exists_of_map_eq_ok hedit
    exact (TableEdit.askedAt_of_indexEdit hchange).table name
  | constraint constraint spot =>
    obtain ⟨change, hchange, rfl⟩ := exists_of_map_eq_ok hedit
    exact (TableEdit.askedAt_of_constraintEdit hchange).table name

theorem Edit.askedAt_of_enumEdit {spot : EnumSpot} {edit : Edit}
    (hedit : op.enumEdit name spot = .ok edit) : edit.AskedAt op (.enumType name spot) := by
  cases spot with
  | whole =>
    exact holds_of_whole hedit ⟨rfl, op.gives_none⟩ fun _ => ⟨rfl, op.gives_none⟩
  | field field =>
    simp only [Operation.enumEdit] at hedit
    cases hvalue : op.value? with
    | none =>
      rw [hvalue] at hedit
      cases field <;> cases hedit
      exact ⟨rfl, op.gives_none⟩
    | some value =>
      rw [hvalue] at hedit
      cases field with
      | name =>
        obtain ⟨new, hnew, rfl⟩ := exists_of_decoded hedit
        exact ⟨rfl, Operation.gives_of_decodeAs hvalue hnew⟩
      | values | comment =>
        obtain ⟨new, -, rfl⟩ := exists_of_decoded hedit
        exact ⟨rfl, op.gives_none⟩
  | item position =>
    obtain ⟨change, hchange, hedit⟩ := exists_of_bind_eq_ok hedit
    cases hedit
    exact ⟨by rw [Edit.path, EnumEdit.spot, ListEdit.position_of_listEdit hchange], op.gives_none⟩

/-- The fields of an extension that are only hints are understood as such. -/
theorem Edit.askedAt_of_extensionEdit {spot : ExtensionSpot} {edit : Edit}
    (hedit : op.extensionEdit name spot = .ok edit) :
    edit = .hint ∨ edit.AskedAt op (.extension name spot) := by
  cases spot with
  | whole =>
    refine .inr ?_
    exact holds_of_whole hedit ⟨rfl, op.gives_none⟩ fun _ => ⟨rfl, op.gives_none⟩
  | field field =>
    cases field with
    | schema | version | comment =>
      refine .inr ?_
      exact holds_of_bind_pure hedit fun _ => ⟨rfl, op.gives_none⟩
    | fromVersion | ifNotExists | cascade =>
      cases hedit
      exact .inl rfl

end Understood

/-- An operation is understood as a hint, or as an edit at its own path. -/
theorem Edit.askedAt_of_edit {op : Operation} {edit : Edit} (hedit : op.edit = .ok edit) :
    edit = .hint ∨ ∃ path, op.path? = some path ∧ edit.AskedAt op path := by
  rw [Operation.edit] at hedit
  rw [Operation.path?]
  split at hedit
  · cases hedit
  · next hpath =>
    rw [hpath]
    exact .inr ⟨_, rfl, askedAt_of_tableEdit hedit⟩
  · next hpath =>
    rw [hpath]
    exact .inr ⟨_, rfl, askedAt_of_enumEdit hedit⟩
  · next hpath =>
    rw [hpath]
    exact (askedAt_of_extensionEdit hedit).imp_right fun hasked => ⟨_, rfl, hasked⟩

/-- An edit that is asked for, and is no hint, can be written as an operation. -/
theorem Edit.writable_of_edit {op : Operation} {edit : Edit} (hedit : op.edit = .ok edit)
    (hhint : edit ≠ .hint) : edit.Writable := by
  obtain ⟨path, hpath, hasked⟩ := (askedAt_of_edit hedit).resolve_left hhint
  have hparsed : Path.parse op.path = .ok path := by
    rw [Operation.path?] at hpath
    cases hparse : Path.parse op.path with
    | error fault => simp [hparse, Except.toOption] at hpath
    | ok found =>
      rw [hparse] at hpath
      exact congrArg Except.ok (Option.some.inj hpath)
  exact ⟨hasked.1 ▸ Path.wellFormed_of_parse hparsed, keepsName_of_edit hedit⟩

end SchemaEvolution.Patch
