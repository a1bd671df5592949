import SchemaEvolution.Proofs.Keyed.Lookup
import SchemaEvolution.Proofs.Patch.Acceptance
import SchemaEvolution.Proofs.Patch.Edit
import SchemaEvolution.Proofs.Schema.WellKeyed

/-!
# Items of lists

A slot is a place in a state where a value may stand: the field of a record, the entry of a
collection, or a slot of what stands in another one.  A change of the value is carried to the state
around it, together with the ways in which it may fail.

A schema keeps lists of texts in three kinds of places: the columns of an index, the columns and
target columns of a constraint, and the values of an enumerated type.  An operation on an item
takes the list, edits it and puts it back where it was.  All places share one editor: an item may
be added before any item and at the end, and removed or replaced where there is one.
-/

namespace SchemaEvolution

/-- Where a value may stand in a state.  To store a value is to put it in the place of the one that
is there, and to change nothing else. -/
structure Slot (σ τ : Type) where
  get? : σ → Option τ
  set : τ → σ → σ
  get?_set : ∀ {state old} new, get? state = some old → get? (set new state) = some new
  set_get? : ∀ {state value}, get? state = some value → set value state = state
  set_set : ∀ first second state, set second (set first state) = set second state

namespace Slot

variable {σ τ υ α : Type}

def field (get : σ → τ) (set : τ → σ → σ) (hget : ∀ new state, get (set new state) = new)
    (hset : ∀ state, set (get state) state = state)
    (hagain : ∀ first second state, set second (set first state) = set second state) :
    Slot σ τ where
  get? state := some (get state)
  set := set
  get?_set new _ := congrArg some (hget new _)
  set_get? hvalue := by
    cases hvalue
    exact hset _
  set_set := hagain

def entry (key : String) : Slot (Keyed α) α where
  get? entries := entries.get? key
  set new entries := entries.update key fun _ => new
  get?_set new hold := by rw [Keyed.get?_update, if_pos rfl, hold]; rfl
  set_get? hvalue := Keyed.update_eq_self fun other hother =>
    Option.some.inj (hvalue.symm.trans hother)
  set_set first second entries := by
    refine Keyed.ext_get? (by simp only [Keyed.keys_update]) fun other => ?_
    simp only [Keyed.get?_update]
    split
    · cases entries.get? other <;> rfl
    · rfl

def inside (outer : Slot σ τ) (inner : Slot τ υ) : Slot σ υ where
  get? state := (outer.get? state).bind inner.get?
  set new state :=
    match outer.get? state with
    | some middle => outer.set (inner.set new middle) state
    | none => state
  get?_set := by
    intro state old new hold
    obtain ⟨middle, hmiddle, hinner⟩ := Option.bind_eq_some_iff.1 hold
    simp only [hmiddle, outer.get?_set _ hmiddle, Option.bind_some]
    exact inner.get?_set new hinner
  set_get? := by
    intro state value hvalue
    obtain ⟨middle, hmiddle, hinner⟩ := Option.bind_eq_some_iff.1 hvalue
    simp only [hmiddle]
    rw [inner.set_get? hinner, outer.set_get? hmiddle]
  set_set := by
    intro first second state
    cases hmiddle : outer.get? state with
    | none => simp only [hmiddle]
    | some middle =>
      simp only [outer.get?_set _ hmiddle]
      rw [outer.set_set, inner.set_set]

theorem get?_inside_eq_some_iff {outer : Slot σ τ} {inner : Slot τ υ} {state : σ} {value : υ} :
    (outer.inside inner).get? state = some value ↔
      ∃ middle, outer.get? state = some middle ∧ inner.get? middle = some value :=
  Option.bind_eq_some_iff

theorem set_inside {outer : Slot σ τ} {state : σ} {middle : τ}
    (hmiddle : outer.get? state = some middle) (inner : Slot τ υ) (new : υ) :
    (outer.inside inner).set new state = outer.set (inner.set new middle) state := by
  simp only [inside, hmiddle]

/-- Where a value stands in the slot, the change of the state is that of the value. -/
def Carries {ε : Type} (slot : Slot σ τ) (change : τ → Except ε τ) (whole : σ → Except ε σ) :
    Prop :=
  ∀ state value, slot.get? state = some value →
    whole state = (change value).map fun new => slot.set new state

theorem Carries.inside {ε : Type} {outer : Slot σ τ} {inner : Slot τ υ}
    {change : υ → Except ε υ} {middle : τ → Except ε τ} {whole : σ → Except ε σ}
    (houter : outer.Carries middle whole) (hinner : inner.Carries change middle) :
    (outer.inside inner).Carries change whole := by
  intro state value hvalue
  obtain ⟨found, hfound, hinside⟩ := get?_inside_eq_some_iff.1 hvalue
  rw [houter state found hfound, hinner found value hinside]
  simp only [set_inside hfound]
  cases change value <;> rfl

theorem carries_field {ε : Type} {get : σ → τ} {set : τ → σ → σ}
    {hget : ∀ new state, get (set new state) = new} {hset : ∀ state, set (get state) state = state}
    {hagain : ∀ first second state, set second (set first state) = set second state}
    {change : τ → Except ε τ} :
    (field get set hget hset hagain).Carries change
      fun state => change (get state) >>= fun new => pure (set new state) := by
  intro state value hvalue
  cases hvalue
  simp only [field]
  cases change (get state) <;> rfl

end Slot

open Patch (ConstraintList)

def Rule.list? (list : ConstraintList) : Rule → Option (List String)
  | .primaryKey columns | .unique columns =>
    match list with
    | .columns => some columns
    | .targetColumns => none
  | .foreignKey key =>
    match list with
    | .columns => some key.columns
    | .targetColumns => some key.targetColumns
  | .check _ => none

def Rule.withList (list : ConstraintList) (new : List String) : Rule → Rule
  | .primaryKey columns => .primaryKey <|
    match list with
    | .columns => new
    | .targetColumns => columns
  | .unique columns => .unique <|
    match list with
    | .columns => new
    | .targetColumns => columns
  | .foreignKey key => .foreignKey <|
    match list with
    | .columns => { key with columns := new }
    | .targetColumns => { key with targetColumns := new }
  | .check condition => .check condition

namespace Slot

def ofList (list : ConstraintList) : Slot Rule (List String) where
  get? := Rule.list? list
  set := Rule.withList list
  get?_set := by
    intro rule old new hold
    cases rule <;> cases list <;> cases hold <;> rfl
  set_get? := by
    intro rule value hvalue
    cases rule <;> cases list <;> cases hvalue <;> rfl
  set_set := by
    intro first second rule
    cases rule <;> cases list <;> rfl

def ofTable (name : String) : Slot Schema Table :=
  (field Schema.tables (fun new schema => { schema with tables := new }) (fun _ _ => rfl)
    (fun _ => rfl) fun _ _ _ => rfl).inside (entry name)

def ofIndex (name : String) : Slot Table (List String) :=
  ((field Table.indexes (fun new table => { table with indexes := new }) (fun _ _ => rfl)
    (fun _ => rfl) fun _ _ _ => rfl).inside (entry name)).inside
      (field Index.columns (fun new index => { index with columns := new }) (fun _ _ => rfl)
        (fun _ => rfl) fun _ _ _ => rfl)

def ofRule (name : String) : Slot Table Rule :=
  ((field Table.constraints (fun new table => { table with constraints := new }) (fun _ _ => rfl)
    (fun _ => rfl) fun _ _ _ => rfl).inside (entry name)).inside
      (field Constraint.rule (fun new constraint => { constraint with rule := new })
        (fun _ _ => rfl) (fun _ => rfl) fun _ _ _ => rfl)

def ofEnum (name : String) : Slot Schema (List String) :=
  ((field Schema.enums (fun new schema => { schema with enums := new }) (fun _ _ => rfl)
    (fun _ => rfl) fun _ _ _ => rfl).inside (entry name)).inside
      (field EnumType.values (fun new type => { type with values := new }) (fun _ _ => rfl)
        (fun _ => rfl) fun _ _ _ => rfl)

end Slot

namespace Patch

/-- Where a schema may keep a list of texts. -/
inductive ListPlace where
  | indexColumns (table index : String)
  | constraintColumns (table constraint : String) (list : ConstraintList)
  | enumValues (name : String)

namespace ListPlace

def slot : ListPlace → Slot Schema (List String)
  | .indexColumns table index => (Slot.ofTable table).inside (.ofIndex index)
  | .constraintColumns table constraint list =>
    ((Slot.ofTable table).inside (.ofRule constraint)).inside (.ofList list)
  | .enumValues name => .ofEnum name

def path (position : Position) : ListPlace → Path
  | .indexColumns table index => .table table (.index index (.item position))
  | .constraintColumns table constraint list =>
    .table table (.constraint constraint (.item list position))
  | .enumValues name => .enumType name (.item position)

def edit (edit : ListEdit) : ListPlace → Edit
  | .indexColumns table index => .table table (.index index (.item edit))
  | .constraintColumns table constraint list =>
    .table table (.constraint constraint (.item list edit))
  | .enumValues name => .enumType name (.item edit)

/-- None of the names that lead to the list is empty. -/
def Named : ListPlace → Prop
  | .indexColumns table index => table ≠ "" ∧ index ≠ ""
  | .constraintColumns table constraint _ => table ≠ "" ∧ constraint ≠ ""
  | .enumValues name => name ≠ ""

instance : DecidablePred Named
  | .indexColumns table index => inferInstanceAs (Decidable (table ≠ "" ∧ index ≠ ""))
  | .constraintColumns table constraint _ =>
    inferInstanceAs (Decidable (table ≠ "" ∧ constraint ≠ ""))
  | .enumValues name => inferInstanceAs (Decidable (name ≠ ""))

theorem parse_text_path {place : ListPlace} (hnamed : place.Named) {position : Position}
    (hfits : position.Fits) :
    Path.parse (place.path position).text = .ok (place.path position) := by
  refine Path.parse_text_of_wellFormed ?_
  cases place with
  | indexColumns table index => exact ⟨hnamed.1, hnamed.2, hfits⟩
  | constraintColumns table constraint list => exact ⟨hnamed.1, hnamed.2, hfits⟩
  | enumValues name => exact ⟨hnamed, hfits⟩

end ListPlace

theorem carries_changeEntry {α : Type} (name : String) (absent : Missing)
    (change : α → Except Obstacle α) :
    (Slot.entry name).Carries change fun entries => changeEntry entries name absent change := by
  intro entries value hvalue
  simp only [Slot.entry] at hvalue
  simp only [changeEntry, hvalue, Slot.entry, Keyed.update_eq_insert hvalue]
  cases change value <;> rfl

theorem of_eq_ok {list : ConstraintList} {rule : Rule} {values : List String}
    (hvalues : rule.list? list = some values) :
    list.of rule = .ok (values, fun new => rule.withList list new) := by
  cases rule <;> cases list <;> cases hvalues <;> rfl

theorem of_eq_error {list : ConstraintList} {rule : Rule} (hnone : rule.list? list = none) :
    list.of rule = .error (.value (.noSuchList rule.kind)) := by
  cases rule <;> cases list <;> cases hnone <;> rfl

theorem carries_ofList (list : ConstraintList) (edit : ListEdit) :
    (Slot.ofList list).Carries edit.apply (ConstraintEdit.item list edit).applyRule := by
  intro rule values hvalues
  rw [ConstraintEdit.applyRule, of_eq_ok hvalues]
  change (edit.apply values >>= fun new => pure (rule.withList list new)) = _
  cases edit.apply values <;> rfl

theorem carries_ofTable {edit : TableEdit} (hrename : ∀ target, edit ≠ .rename target)
    (hremoves : edit.removes = false) (name : String) :
    (Slot.ofTable name).Carries (fun table => edit.apply table name)
      (Edit.table name edit).apply := by
  intro schema table htable
  rw [Edit.apply, hremoves, Bool.false_and, if_neg Bool.false_ne_true]
  · exact (Slot.carries_field.inside (carries_changeEntry name _ _)) schema table htable
  · exact fun target heq => hrename target heq

theorem carries_ofIndex (name key : String) (edit : ListEdit) :
    (Slot.ofIndex name).Carries edit.apply
      fun table => (TableEdit.index name (.item edit)).apply table key :=
  (Slot.carries_field.inside (carries_changeEntry name _ _)).inside Slot.carries_field

theorem carries_ofRule (name key : String) (list : ConstraintList) (edit : ListEdit) :
    (Slot.ofRule name).Carries (ConstraintEdit.item list edit).applyRule
      fun table => (TableEdit.constraint name (.item list edit)).apply table key :=
  (Slot.carries_field.inside (carries_changeEntry name _ _)).inside Slot.carries_field

theorem carries_ofEnum (name : String) (edit : ListEdit) :
    (Slot.ofEnum name).Carries edit.apply (Edit.enumType name (.item edit)).apply :=
  (Slot.carries_field.inside (carries_changeEntry name _ _)).inside Slot.carries_field

/-- The rule of a constraint is changed where it stands. -/
theorem carries_rule (table constraint : String) (list : ConstraintList) (edit : ListEdit) :
    ((Slot.ofTable table).inside (.ofRule constraint)).Carries
      (ConstraintEdit.item list edit).applyRule
      (Edit.table table (.constraint constraint (.item list edit))).apply :=
  (carries_ofTable (by simp) rfl table).inside (carries_ofRule constraint table list edit)

/-- Every list is edited where it stands. -/
theorem ListPlace.carries_edit (place : ListPlace) (edit : ListEdit) :
    place.slot.Carries edit.apply (place.edit edit).apply := by
  cases place with
  | indexColumns table index =>
    exact (carries_ofTable (by simp) rfl table).inside (carries_ofIndex index table edit)
  | constraintColumns table constraint list =>
    exact (carries_rule table constraint list edit).inside (carries_ofList list edit)
  | enumValues name => exact carries_ofEnum name edit

/-! ## The editor -/

/-- A list in which some items, from an index on, are exchanged for others. -/
def spliced (values : List String) (index count : Nat) (new : List String) : List String :=
  values.take index ++ (new ++ values.drop (index + count))

theorem ListEdit.apply_insert (values : List String) (index : Nat) (value : String) :
    (ListEdit.insert (.at index) value).apply values =
      if index ≤ values.length then .ok (spliced values index 0 [value])
      else .error (.missing (.position index values.length)) := by
  rw [apply]
  split
  · next hlt => rw [if_neg (Nat.not_le.2 hlt)]
  · next hle =>
    rw [if_pos (Nat.not_lt.1 hle)]
    rfl

theorem ListEdit.apply_remove (values : List String) (index : Nat) :
    (ListEdit.remove index).apply values =
      if index < values.length then .ok (spliced values index 1 [])
      else .error (.missing (.position index values.length)) := by
  rw [apply]
  split
  · next hle => rw [if_neg (Nat.not_lt.2 hle)]
  · next hlt =>
    rw [if_pos (Nat.not_le.1 hlt), List.eraseIdx_eq_take_drop_succ]
    rfl

theorem ListEdit.apply_replace (values : List String) (index : Nat) (value : String) :
    (ListEdit.replace index value).apply values =
      if index < values.length then .ok (spliced values index 1 [value])
      else .error (.missing (.item index)) := by
  rw [apply]
  split
  · next hle => rw [if_neg (Nat.not_lt.2 hle)]
  · next hlt =>
    rw [if_pos (Nat.not_le.1 hlt), List.set_eq_take_append_cons_drop, if_pos (Nat.not_le.1 hlt)]
    rfl

/-- To remove what was added is to have the list as it was. -/
theorem spliced_spliced {values : List String} {index : Nat} (hindex : index ≤ values.length)
    (value : String) : spliced (spliced values index 0 [value]) index 1 [] = values := by
  have hlength : (values.take index).length = index := List.length_take_of_le hindex
  have htake : (spliced values index 0 [value]).take index = values.take index := by
    rw [spliced, List.take_append_of_le_length (Nat.le_of_eq hlength.symm), List.take_take,
      Nat.min_self]
  have hdrop : (spliced values index 0 [value]).drop (index + 1) = values.drop index := by
    calc
      _ = (values.take index ++ value :: values.drop index).drop
          ((values.take index).length + 1) := by rw [hlength]; rfl
      _ = values.drop index := List.drop_length_add_append 1
  calc
    spliced (spliced values index 0 [value]) index 1 [] = values.take index ++ values.drop index :=
      congrArg₂ _ htake hdrop
    _ = values := List.take_append_drop index values

/-! ## Operations on items -/

/-- The outcome of an operation that is carried out. -/
def Outcome.changed (schema : Schema) : Outcome := ⟨schema, []⟩

def Outcome.refused (schema : Schema) (text : String) (obstacle : Obstacle) : Outcome :=
  ⟨schema, [⟨text, obstacle⟩]⟩

section Operations

variable {schema : Schema} {text : String} {action : Action}

theorem applyAll_of_ok {edit : Edit} {after : Schema}
    (hedit : (⟨text, action⟩ : Operation).edit = .ok edit)
    (happly : edit.apply schema = .ok after) :
    applyAll schema [⟨text, action⟩] = .changed after := by
  refine applyAll_cons_of_ok ?_ []
  rw [Operation.apply, hedit]
  exact congrArg (Except.mapError _) happly

theorem applyAll_of_error {edit : Edit} {obstacle : Obstacle}
    (hedit : (⟨text, action⟩ : Operation).edit = .ok edit)
    (happly : edit.apply schema = .error obstacle) :
    applyAll schema [⟨text, action⟩] = .refused schema text obstacle := by
  refine applyAll_cons_of_error ?_ []
  rw [Operation.apply, hedit]
  exact congrArg (Except.mapError _) happly

theorem applyAll_of_edit_error {obstacle : Obstacle}
    (hedit : (⟨text, action⟩ : Operation).edit = .error obstacle) :
    applyAll schema [⟨text, action⟩] = .refused schema text obstacle := by
  refine applyAll_cons_of_error ?_ []
  rw [Operation.apply, hedit]
  rfl

variable {place : ListPlace} {position : Position}
  (hparse : Path.parse text = .ok (place.path position))

include hparse

/-- An operation at a position in a list asks for an edit of that list. -/
theorem edit_of_parse :
    (⟨text, action⟩ : Operation).edit =
      ((⟨text, action⟩ : Operation).listEdit position).map place.edit := by
  cases place <;>
    · rw [Operation.edit, hparse]
      simp only [ListPlace.path, Operation.tableEdit, Operation.indexEdit,
        Operation.constraintEdit, Operation.enumEdit]
      cases (⟨text, action⟩ : Operation).listEdit position <;> rfl

/-- The list that there is is edited, or the obstacle of the editor is that of the operation. -/
theorem applyAll_of_listEdit {values : List String} {edit : ListEdit}
    (hvalues : place.slot.get? schema = some values)
    (hedit : (⟨text, action⟩ : Operation).listEdit position = .ok edit) :
    applyAll schema [⟨text, action⟩] =
      match edit.apply values with
      | .ok new => .changed (place.slot.set new schema)
      | .error obstacle => .refused schema text obstacle := by
  have hasked : (⟨text, action⟩ : Operation).edit = .ok (place.edit edit) := by
    rw [edit_of_parse hparse, hedit]
    rfl
  have happly := place.carries_edit edit schema values hvalues
  cases hresult : edit.apply values with
  | ok new =>
    rw [hresult] at happly
    exact applyAll_of_ok hasked happly
  | error obstacle =>
    rw [hresult] at happly
    exact applyAll_of_error hasked happly

/-- An edit within bounds is carried out, and refused beyond them. -/
theorem applyAll_of_bound {values new : List String} {edit : ListEdit} {bound : Prop}
    [Decidable bound] {obstacle : Obstacle} (hvalues : place.slot.get? schema = some values)
    (hedit : (⟨text, action⟩ : Operation).listEdit position = .ok edit)
    (happly : edit.apply values = if bound then .ok new else .error obstacle) :
    applyAll schema [⟨text, action⟩] =
      if bound then .changed (place.slot.set new schema) else .refused schema text obstacle := by
  rw [applyAll_of_listEdit hparse hvalues hedit, happly]
  by_cases hbound : bound
  · simp only [if_pos hbound]
  · simp only [if_neg hbound]

theorem applyAll_of_listEdit_error {obstacle : Obstacle}
    (hedit : (⟨text, action⟩ : Operation).listEdit position = .error obstacle) :
    applyAll schema [⟨text, action⟩] = .refused schema text obstacle := by
  refine applyAll_of_edit_error ?_
  rw [edit_of_parse hparse, hedit]
  rfl

end Operations

section Items

variable {schema : Schema} {text : String} {place : ListPlace} {values : List String} {index : Nat}
  (hparse : Path.parse text = .ok (place.path (.at index)))
  (hvalues : place.slot.get? schema = some values)

include hparse hvalues

theorem applyAll_addItem (value : String) :
    applyAll schema [⟨text, .add (.string value)⟩] =
      if index ≤ values.length then
        .changed (place.slot.set (spliced values index 0 [value]) schema)
      else .refused schema text (.missing (.position index values.length)) :=
  applyAll_of_bound hparse hvalues rfl (ListEdit.apply_insert values index value)

theorem applyAll_removeItem :
    applyAll schema [⟨text, .remove⟩] =
      if index < values.length then
        .changed (place.slot.set (spliced values index 1 []) schema)
      else .refused schema text (.missing (.position index values.length)) :=
  applyAll_of_bound hparse hvalues rfl (ListEdit.apply_remove values index)

theorem applyAll_replaceItem (value : String) :
    applyAll schema [⟨text, .replace (.string value)⟩] =
      if index < values.length then
        .changed (place.slot.set (spliced values index 1 [value]) schema)
      else .refused schema text (.missing (.item index)) :=
  applyAll_of_bound hparse hvalues rfl (ListEdit.apply_replace values index value)

/-- What is added is there to be removed, and the schema is as it was. -/
theorem applyAll_addItem_removeItem (hindex : index ≤ values.length) (value : String) :
    applyAll schema [⟨text, .add (.string value)⟩, ⟨text, .remove⟩] = .changed schema := by
  have hadded := applyAll_addItem hparse hvalues value
  rw [if_pos hindex] at hadded
  have hspliced := place.slot.get?_set (spliced values index 0 [value]) hvalues
  have hremoved := applyAll_removeItem hparse hspliced
  have hlength : index < (spliced values index 0 [value]).length := by
    rw [spliced, List.length_append, List.length_take_of_le hindex, List.length_append,
      List.length_singleton]
    omega
  rw [if_pos hlength, spliced_spliced hindex, place.slot.set_set, place.slot.set_get? hvalues]
    at hremoved
  rw [show [(⟨text, .add (.string value)⟩ : Operation), ⟨text, .remove⟩] =
    [⟨text, .add (.string value)⟩] ++ [⟨text, .remove⟩] from rfl, applyAll_append, hadded]
  exact congrArg (fun outcome : Outcome => (⟨outcome.schema, [] ++ outcome.refusals⟩ : Outcome))
    hremoved

end Items

/-- A constraint of a kind that does not have the list is left as it is. -/
theorem applyAll_of_list?_eq_none {schema : Schema} {text table name : String} {action : Action}
    {list : ConstraintList} {position : Position} {constraint : Constraint} {edit : ListEdit}
    (hparse : Path.parse text = .ok ((ListPlace.constraintColumns table name list).path position))
    (hconstraint : schema.constraint? table name = some constraint)
    (hnone : constraint.rule.list? list = none)
    (hedit : (⟨text, action⟩ : Operation).listEdit position = .ok edit) :
    applyAll schema [⟨text, action⟩] =
      .refused schema text (.value (.noSuchList constraint.rule.kind)) := by
  have hrule : ((Slot.ofTable table).inside (.ofRule name)).get? schema = some constraint.rule := by
    obtain ⟨owner, howner, hfound⟩ := Option.bind_eq_some_iff.1 hconstraint
    refine Slot.get?_inside_eq_some_iff.2 ⟨owner, howner, ?_⟩
    exact Slot.get?_inside_eq_some_iff.2 ⟨constraint, hfound, rfl⟩
  have happly := carries_rule table name list edit schema constraint.rule hrule
  rw [ConstraintEdit.applyRule, of_eq_error hnone] at happly
  refine applyAll_of_error ?_ happly
  rw [edit_of_parse hparse, hedit]
  rfl

/-- Where a schema keeps a list of texts, an operation on an item edits the list in its place: an
item may be added at any index up to the length of the list and at the end, and removed or replaced
at any index below its length; beyond that the item is missing, and the schema stays as it was.
Only an addition may be at the end.  To remove what was just added gives the schema back.  A
constraint whose kind does not have the list has no item in it.  Every position that fits a word
has a path that is read back, where the names that lead to the list are not empty. -/
theorem applyAll_item (schema : Schema) (value : String) :
    (∀ (place : ListPlace) (position : Position), place.Named → position.Fits →
      Path.parse (place.path position).text = .ok (place.path position)) ∧
    (∀ (place : ListPlace) (values : List String), place.slot.get? schema = some values →
      (∀ text index, Path.parse text = .ok (place.path (.at index)) →
        applyAll schema [⟨text, .add (.string value)⟩] =
          (if index ≤ values.length then
            .changed (place.slot.set (values.take index ++ value :: values.drop index) schema)
          else .refused schema text (.missing (.position index values.length))) ∧
        applyAll schema [⟨text, .remove⟩] =
          (if index < values.length then
            .changed (place.slot.set (values.take index ++ values.drop (index + 1)) schema)
          else .refused schema text (.missing (.position index values.length))) ∧
        applyAll schema [⟨text, .replace (.string value)⟩] =
          (if index < values.length then
            .changed (place.slot.set (values.take index ++ value :: values.drop (index + 1)) schema)
          else .refused schema text (.missing (.item index))) ∧
        (index ≤ values.length →
          applyAll schema [⟨text, .add (.string value)⟩, ⟨text, .remove⟩] = .changed schema)) ∧
      ∀ text, Path.parse text = .ok (place.path .atEnd) →
        applyAll schema [⟨text, .add (.string value)⟩] =
          .changed (place.slot.set (values ++ [value]) schema)) ∧
    (∀ (place : ListPlace) (text : String), Path.parse text = .ok (place.path .atEnd) →
      applyAll schema [⟨text, .remove⟩] =
        .refused schema text (.path .remove .endOnlyForAdd) ∧
      applyAll schema [⟨text, .replace (.string value)⟩] =
        .refused schema text (.path .replace .endOnlyForAdd)) ∧
    ∀ (table name : String) (list : ConstraintList) (constraint : Constraint),
      schema.constraint? table name = some constraint → constraint.rule.list? list = none →
      ∀ text position,
        Path.parse text = .ok ((ListPlace.constraintColumns table name list).path position) →
        applyAll schema [⟨text, .add (.string value)⟩] =
          .refused schema text (.value (.noSuchList constraint.rule.kind)) ∧
        (position ≠ .atEnd → applyAll schema [⟨text, .remove⟩] =
            .refused schema text (.value (.noSuchList constraint.rule.kind)) ∧
          applyAll schema [⟨text, .replace (.string value)⟩] =
            .refused schema text (.value (.noSuchList constraint.rule.kind))) := by
  refine ⟨fun place position hnamed hfits => ListPlace.parse_text_path hnamed hfits, ?_, ?_, ?_⟩
  · intro place values hvalues
    refine ⟨fun text index hparse => ⟨?_, ?_, ?_, ?_⟩, fun text hparse => ?_⟩
    · exact applyAll_addItem hparse hvalues value
    · exact applyAll_removeItem hparse hvalues
    · exact applyAll_replaceItem hparse hvalues value
    · exact fun hindex => applyAll_addItem_removeItem hparse hvalues hindex value
    · have hedit : (⟨text, .add (.string value)⟩ : Operation).listEdit .atEnd =
          .ok (.insert .atEnd value) := rfl
      exact applyAll_of_listEdit hparse hvalues hedit
  · intro place text hparse
    exact ⟨applyAll_of_listEdit_error hparse rfl, applyAll_of_listEdit_error hparse rfl⟩
  · intro table name list constraint hconstraint hnone text position hparse
    have hadd : (⟨text, .add (.string value)⟩ : Operation).listEdit position =
        .ok (.insert position value) := rfl
    refine ⟨applyAll_of_list?_eq_none hparse hconstraint hnone hadd, fun hposition => ?_⟩
    cases position with
    | atEnd => exact absurd rfl hposition
    | «at» index =>
      have hremove : (⟨text, .remove⟩ : Operation).listEdit (.at index) = .ok (.remove index) := rfl
      have hreplace : (⟨text, .replace (.string value)⟩ : Operation).listEdit (.at index) =
          .ok (.replace index value) := rfl
      exact ⟨applyAll_of_list?_eq_none hparse hconstraint hnone hremove,
        applyAll_of_list?_eq_none hparse hconstraint hnone hreplace⟩

/-- A table with an index over two columns, and with a check. -/
def bookings : Schema :=
  Schema.empty.addTable <|
    ((Table.empty "bookings").addIndex ⟨"bookings_idx", false, ["day", "room"], ""⟩).addConstraint
      (.check "bookings_check" "day > 0")

/-- An index over two columns takes another one between them and at the end, and has no third one
to replace; a check has no columns. -/
theorem applyAll_item_bookings :
    let ofIndex := ListPlace.indexColumns "bookings" "bookings_idx"
    let ofCheck := ListPlace.constraintColumns "bookings" "bookings_check" .columns
    (ofIndex.Named ∧ ofCheck.Named ∧ (∀ index ≤ 2, (Position.at index).Fits) ∧
      ofIndex.slot.get? bookings = some ["day", "room"] ∧
      bookings.constraint? "bookings" "bookings_check" =
        some (.check "bookings_check" "day > 0")) ∧
    applyAll bookings [⟨(ofIndex.path (.at 1)).text, .add (.string "hour")⟩] =
      .changed (ofIndex.slot.set ["day", "hour", "room"] bookings) ∧
    applyAll bookings [⟨(ofIndex.path (.at 1)).text, .add (.string "hour")⟩,
      ⟨(ofIndex.path (.at 1)).text, .remove⟩] = .changed bookings ∧
    applyAll bookings [⟨(ofIndex.path .atEnd).text, .add (.string "hour")⟩] =
      .changed (ofIndex.slot.set ["day", "room", "hour"] bookings) ∧
    applyAll bookings [⟨(ofIndex.path (.at 2)).text, .replace (.string "hour")⟩] =
      .refused bookings (ofIndex.path (.at 2)).text (.missing (.item 2)) ∧
    applyAll bookings [⟨(ofIndex.path .atEnd).text, .remove⟩] =
      .refused bookings (ofIndex.path .atEnd).text (.path .remove .endOnlyForAdd) ∧
    applyAll bookings [⟨(ofCheck.path (.at 0)).text, .remove⟩] =
      .refused bookings (ofCheck.path (.at 0)).text (.value (.noSuchList "CHECK")) := by
  intro ofIndex ofCheck
  have hindex : ofIndex.Named := by decide
  have hcheck : ofCheck.Named := by decide
  have hfits : ∀ index ≤ 2, (Position.at index).Fits := fun index hle =>
    Nat.lt_of_le_of_lt hle (by decide)
  have hvalues : ofIndex.slot.get? bookings = some ["day", "room"] := by decide
  have hconstraint : bookings.constraint? "bookings" "bookings_check" =
      some (.check "bookings_check" "day > 0") := by decide
  obtain ⟨hparse, hitem, hatEnd, hkind⟩ := applyAll_item bookings "hour"
  have hone := hparse ofIndex (.at 1) hindex (hfits 1 (by decide))
  have htwo := hparse ofIndex (.at 2) hindex (hfits 2 (by decide))
  have hend := hparse ofIndex .atEnd hindex trivial
  have hzero := hparse ofCheck (.at 0) hcheck (hfits 0 (by decide))
  obtain ⟨hat, happend⟩ := hitem ofIndex _ hvalues
  refine ⟨⟨hindex, hcheck, hfits, hvalues, hconstraint⟩, ?_, ?_, ?_, ?_, ?_, ?_⟩
  · exact (hat _ 1 hone).1
  · exact (hat _ 1 hone).2.2.2 (by decide)
  · exact happend _ hend
  · exact (hat _ 2 htwo).2.2.1
  · exact (hatEnd ofIndex _ hend).1
  · exact ((hkind _ _ _ _ hconstraint rfl _ _ hzero).2 (by decide)).1

end Patch

end SchemaEvolution
