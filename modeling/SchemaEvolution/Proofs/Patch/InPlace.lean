import SchemaEvolution.Proofs.Keyed.Order
import SchemaEvolution.Proofs.Patch.Acceptance
import SchemaEvolution.Proofs.Patch.Edit

/-!
# Writing into a working copy

An edit may also be carried out in place, by writing into the schema as it stands.  A write that
meets an obstacle leaves the copy as it is at that point, with all that was written before.  Every
edit looks before it writes, so that a refused operation leaves the copy exactly as it found it,
and the run in place is the tolerant run.
-/

namespace SchemaEvolution.Patch

/-- Writes into a state.  Where it fails, the state is as it was left at that point. -/
abbrev Write (σ α : Type) := EStateM Obstacle σ α

namespace Write

variable {σ τ α : Type}

/-- Writes into a part of a state. -/
def within (view : σ → τ) (store : σ → τ → σ) (write : Write τ Unit) : Write σ Unit := fun state =>
  match write (view state) with
  | .ok _ new => .ok () (store state new)
  | .error obstacle new => .error obstacle (store state new)

/-- Writes into the value under a key, where it stands. -/
def under (name : String) (absent : Missing) (write : Write α Unit) :
    Write (Keyed α) Unit := fun entries =>
  match entries.get? name with
  | none => .error (.missing absent) entries
  | some value =>
    match write value with
    | .ok _ new => .ok () (entries.insert name new)
    | .error obstacle new => .error obstacle (entries.insert name new)

/-- Gives an entry another name: it is taken out, and stored again where it stood. -/
def rename (source target : String) (absent : Missing) (setName : α → α) :
    Write (Keyed α) Unit := do
  if !(← get).contains source then throw (.missing absent)
  else if source = target then pure ()
  else if (← get).contains target then throw (.value (.nameTaken target))
  else
    match (← get).takeOut? source with
    | none => pure ()
    | some (place, value, others) =>
      set others
      modify fun others => others.insertAt place target (setName value)

@[simp]
theorem bind_apply {β : Type} (first : Write σ α) (next : α → Write σ β) (state : σ) :
    (first >>= next) state =
      match first state with
      | .ok value state => next value state
      | .error obstacle state => .error obstacle state := by
  simp only [bind, EStateM.bind]
  cases first state <;> rfl

@[simp]
theorem pure_apply (value : α) (state : σ) : (pure value : Write σ α) state = .ok value state := rfl

@[simp]
theorem get_apply (state : σ) : (get : Write σ σ) state = .ok state state := rfl

@[simp]
theorem set_apply (new state : σ) : (set new : Write σ PUnit) state = .ok ⟨⟩ new := rfl

@[simp]
theorem modify_apply (change : σ → σ) (state : σ) :
    (modify change : Write σ PUnit) state = .ok ⟨⟩ (change state) := rfl

@[simp]
theorem throw_apply (obstacle : Obstacle) (state : σ) :
    (throw obstacle : Write σ α) state = .error obstacle state := rfl

/-- The write that changes a state as a whole, or not at all. -/
def wholly (change : σ → Except Obstacle σ) : Write σ Unit := fun state =>
  match change state with
  | .ok new => .ok () new
  | .error obstacle => .error obstacle state

theorem modify_eq (change : σ → σ) :
    (modify change : Write σ Unit) = wholly fun state => .ok (change state) := rfl

theorem within_wholly {view : σ → τ} {store : σ → τ → σ}
    (hkept : ∀ state, store state (view state) = state) (change : τ → Except Obstacle τ) :
    within view store (wholly change) =
      wholly fun state => change (view state) >>= fun new => pure (store state new) := by
  funext state
  simp only [within, wholly]
  cases change (view state) with
  | ok new => rfl
  | error obstacle => simp only [hkept, bind, Except.bind]

theorem under_wholly (name : String) (absent : Missing) (change : α → Except Obstacle α) :
    under name absent (wholly change) =
      wholly fun entries => changeEntry entries name absent change := by
  funext entries
  simp only [under, wholly, changeEntry]
  cases hvalue : entries.get? name with
  | none => rfl
  | some value =>
    cases hchange : change value with
    | ok new => simp [hchange, bind, Except.bind, pure, Except.pure]
    | error obstacle => simp [hchange, bind, Except.bind, Keyed.insert_eq_self hvalue]

/-- In place a renaming is as a whole. -/
theorem rename_eq (source target : String) (absent : Missing) (setName : α → α) :
    rename source target absent setName =
      wholly fun entries => renameEntry entries source target absent setName := by
  funext entries
  cases hvalue : entries.get? source with
  | none => simp [rename, wholly, renameEntry, Keyed.contains, hvalue]
  | some value =>
    have hsource : entries.contains source = true := by rw [Keyed.contains, hvalue]; rfl
    by_cases hsame : source = target
    · simp [rename, wholly, renameEntry, ← hsame, hsource]
    by_cases htaken : target ∈ entries.keys
    · have htarget : entries.contains target = true := Keyed.contains_eq_true_iff.2 htaken
      simp [rename, wholly, renameEntry, hsource, hsame, htarget, Keyed.rename?, htaken]
    · have htarget : entries.contains target = false := by
        rw [← Bool.not_eq_true, Keyed.contains_eq_true_iff]
        exact htaken
      simp [rename, wholly, renameEntry, hsource, hsame, htarget, Keyed.takeOut?, hvalue,
        Keyed.rename?_eq_insertAt hvalue htaken]

end Write

def ListEdit.write : ListEdit → Write (List String) Unit
  | .insert .atEnd value => modify fun values => values ++ [value]
  | .insert (.at index) value => do
    let values ← get
    if values.length < index then throw (.missing (.position index values.length))
    else set (values.insertIdx index value)
  | .remove index => do
    let values ← get
    if values.length ≤ index then throw (.missing (.position index values.length))
    else set (values.eraseIdx index)
  | .replace index value => do
    let values ← get
    if values.length ≤ index then throw (.missing (.item index))
    else set (values.set index value)

def IndexEdit.write : IndexEdit → Write Index Unit
  | .rename new => modify fun index => { index with name := new }
  | .unique new => modify fun index => { index with unique := new }
  | .type new => modify fun index => { index with type := new }
  | .columns new => modify fun index => { index with columns := new }
  | .item edit => edit.write.within Index.columns fun index columns => { index with columns }

def ConstraintEdit.writeRule (edit : ConstraintEdit) : Write Rule Unit := do
  match edit, ← get with
  | .onUpdate new, .foreignKey key => set (Rule.foreignKey { key with onUpdate := new })
  | .onDelete new, .foreignKey key => set (Rule.foreignKey { key with onDelete := new })
  | .targetTable new, .foreignKey key => set (Rule.foreignKey { key with targetTable := new })
  | .targetColumns new, .foreignKey key => set (Rule.foreignKey { key with targetColumns := new })
  | .condition new, .check _ => set (Rule.check new)
  | .columns new, .primaryKey _ => set (Rule.primaryKey new)
  | .columns new, .foreignKey key => set (Rule.foreignKey { key with columns := new })
  | .columns new, .unique _ => set (Rule.unique new)
  | .item list edit, rule =>
    match list.of rule with
    | .error obstacle => throw obstacle
    | .ok (values, store) => edit.write.within (fun _ => values) fun _ new => store new
  | _, rule => throw (.value (.noSuchField rule.kind))

def ConstraintEdit.write : ConstraintEdit → Write Constraint Unit
  | .rename new => modify fun constraint => { constraint with name := new }
  | edit => edit.writeRule.within Constraint.rule fun constraint rule => { constraint with rule }

def TableEdit.write (key : String) : TableEdit → Write Table Unit
  | .rename new => modify fun table => { table with name := new }
  | .comment new => modify fun table => { table with comment := new }
  | .putColumn name new =>
    modify fun table => { table with columns := table.columns.insert name new }
  | .removeColumn name => modify fun table => { table with columns := table.columns.erase name }
  | .column name (.rename target) =>
    (Write.rename name target (.column key name) (ColumnEdit.rename target).apply).within
      Table.columns fun table columns => { table with columns }
  | .column name edit =>
    (Write.under name (.column key name) (modify edit.apply)).within Table.columns
      fun table columns => { table with columns }
  | .putIndex name new =>
    modify fun table => { table with indexes := table.indexes.insert name new }
  | .removeIndex name => modify fun table => { table with indexes := table.indexes.erase name }
  | .index name (.rename target) =>
    (Write.rename name target (.index key name) fun index => { index with name := target }).within
      Table.indexes fun table indexes => { table with indexes }
  | .index name edit =>
    (edit.write.under name (.index key name)).within Table.indexes
      fun table indexes => { table with indexes }
  | .putConstraint name new =>
    modify fun table => { table with constraints := table.constraints.insert name new }
  | .removeConstraint name =>
    modify fun table => { table with constraints := table.constraints.erase name }
  | .constraint name (.rename target) =>
    (Write.rename name target (.constraint key name)
      fun constraint => { constraint with name := target }).within
      Table.constraints fun table constraints => { table with constraints }
  | .constraint name edit =>
    (edit.write.under name (.constraint key name)).within Table.constraints
      fun table constraints => { table with constraints }

def EnumEdit.write : EnumEdit → Write EnumType Unit
  | .rename new => modify fun type => { type with name := new }
  | .values new => modify fun type => { type with values := new }
  | .comment new => modify fun type => { type with comment := new }
  | .item edit => edit.write.within EnumType.values fun type values => { type with values }

def Edit.write : Edit → Write Schema Unit
  | .putTable name new =>
    modify fun schema => { schema with tables := schema.tables.insert name new }
  | .removeTable name => modify fun schema => { schema with tables := schema.tables.erase name }
  | .table name (.rename target) =>
    (Write.rename name target (.table name) fun table => { table with name := target }).within
      Schema.tables fun schema tables => { schema with tables }
  | .table name edit => do
    if edit.removes && !(← get).tables.contains name then pure ()
    else
      ((edit.write name).under name (.table name)).within Schema.tables
        fun schema tables => { schema with tables }
  | .putEnum name new => modify fun schema => { schema with enums := schema.enums.insert name new }
  | .removeEnum name => modify fun schema => { schema with enums := schema.enums.erase name }
  | .enumType name (.rename target) =>
    (Write.rename name target (.enumType name) fun type => { type with name := target }).within
      Schema.enums fun schema enums => { schema with enums }
  | .enumType name edit =>
    (edit.write.under name (.enumType name)).within Schema.enums
      fun schema enums => { schema with enums }
  | .putExtension name new =>
    modify fun schema => { schema with extensions := schema.extensions.insert name new }
  | .removeExtension name =>
    modify fun schema => { schema with extensions := schema.extensions.erase name }
  | .extension name edit =>
    (Write.under name (.extension name) (modify edit.apply)).within Schema.extensions
      fun schema extensions => { schema with extensions }
  | .hint => pure ()

/-- Writes an operation into a schema, or says why it is refused. -/
def Operation.write (op : Operation) : EStateM Refusal Schema Unit := fun schema =>
  match op.edit with
  | .error obstacle => .error ⟨op.path, obstacle⟩ schema
  | .ok edit =>
    match edit.write schema with
    | .ok _ new => .ok () new
    | .error obstacle new => .error ⟨op.path, obstacle⟩ new

/-- One step of a run in place: a refused operation leaves whatever it has written. -/
def Outcome.writeStep (outcome : Outcome) (op : Operation) : Outcome :=
  match op.write outcome.schema with
  | .ok _ new => { outcome with schema := new }
  | .error refusal new => ⟨new, outcome.refusals ++ [refusal]⟩

/-- Writes all operations into one working copy, in order. -/
def writeAll (schema : Schema) (ops : List Operation) : Outcome :=
  ops.foldl Outcome.writeStep ⟨schema, []⟩

/-! ## Agreement -/

theorem insertIdx_eq {index : Nat} {values : List String} (hindex : index ≤ values.length)
    (value : String) :
    values.insertIdx index value = values.take index ++ value :: values.drop index := by
  induction index generalizing values with
  | zero => rfl
  | succ index ih =>
    cases values with
    | nil => cases hindex
    | cons first rest =>
      rw [List.insertIdx_succ_cons, ih (Nat.le_of_succ_le_succ hindex)]
      rfl

/-- An edit of a list writes nothing before it fails. -/
theorem ListEdit.write_eq (edit : ListEdit) : edit.write = .wholly edit.apply := by
  funext values
  cases edit with
  | insert position value =>
    cases position with
    | atEnd => rfl
    | «at» index =>
      by_cases hindex : values.length < index
      · simp [write, Write.wholly, apply, hindex]
      · simp [write, Write.wholly, apply, hindex, insertIdx_eq (Nat.not_lt.1 hindex)]
  | remove index =>
    by_cases hindex : values.length ≤ index <;> simp [write, Write.wholly, apply, hindex]
  | replace index value =>
    by_cases hindex : values.length ≤ index <;> simp [write, Write.wholly, apply, hindex]

theorem IndexEdit.write_eq (edit : IndexEdit) : edit.write = .wholly edit.apply := by
  cases edit with
  | item edit => rw [write, edit.write_eq, Write.within_wholly fun _ => rfl]; rfl
  | _ => rfl

/-- The list that a constraint has may be put back as it was. -/
theorem ConstraintList.store_of {list : ConstraintList} {rule : Rule} {values : List String}
    {store : List String → Rule} (hlist : list.of rule = .ok (values, store)) :
    store values = rule := by
  cases list <;> cases rule <;> cases hlist <;> rfl

/-- An edit of a rule writes nothing before it fails. -/
theorem ConstraintEdit.writeRule_eq (edit : ConstraintEdit) :
    edit.writeRule = .wholly edit.applyRule := by
  funext rule
  cases edit with
  | item list edit =>
    simp only [writeRule, Write.bind_apply, Write.get_apply, Write.wholly, applyRule]
    cases hlist : list.of rule with
    | error obstacle => rfl
    | ok found =>
      obtain ⟨values, store⟩ := found
      simp only [edit.write_eq, Write.within, Write.wholly, bind, Except.bind]
      cases edit.apply values with
      | ok new => rfl
      | error obstacle => simp only [ConstraintList.store_of hlist]
  | _ => cases rule <;> rfl

theorem ConstraintEdit.write_eq (edit : ConstraintEdit) : edit.write = .wholly edit.apply := by
  cases edit with
  | rename new => rfl
  | _ => rw [write, writeRule_eq, Write.within_wholly fun _ => rfl]; rfl; all_goals nofun

/-- An edit of a table fails before it writes, wherever in the table it stands. -/
theorem TableEdit.write_eq (key : String) (edit : TableEdit) :
    edit.write key = .wholly fun table => edit.apply table key := by
  cases edit with
  | column name edit =>
    cases edit with
    | rename target => rw [write, Write.rename_eq, Write.within_wholly fun _ => rfl]; rfl
    | type _ | default _ | check _ | notNull _ | comment _ =>
      rw [write, Write.modify_eq, Write.under_wholly, Write.within_wholly fun _ => rfl]
      · rfl
      · nofun
  | index name edit =>
    cases edit with
    | rename target => rw [write, Write.rename_eq, Write.within_wholly fun _ => rfl]; rfl
    | unique _ | type _ | columns _ | item _ =>
      rw [write, IndexEdit.write_eq, Write.under_wholly, Write.within_wholly fun _ => rfl]
      · rfl
      · nofun
  | constraint name edit =>
    cases edit with
    | rename target => rw [write, Write.rename_eq, Write.within_wholly fun _ => rfl]; rfl
    | onUpdate _ | onDelete _ | condition _ | targetTable _ | columns _ | targetColumns _
    | item _ _ =>
      rw [write, ConstraintEdit.write_eq, Write.under_wholly, Write.within_wholly fun _ => rfl]
      · rfl
      · nofun
  | _ => rfl

theorem EnumEdit.write_eq (edit : EnumEdit) : edit.write = .wholly edit.apply := by
  cases edit with
  | item edit => rw [write, edit.write_eq, Write.within_wholly fun _ => rfl]; rfl
  | _ => rfl

/-- An edit of a table fails before it writes, also seen from its schema. -/
theorem Edit.write_table {name : String} {edit : TableEdit} (hedit : ∀ new, edit ≠ .rename new) :
    (Edit.table name edit).write = .wholly (Edit.table name edit).apply := by
  funext schema
  rw [write, Write.bind_apply, Write.get_apply]
  · simp only [Write.wholly]
    rw [apply]
    · by_cases hgone : (edit.removes && !schema.tables.contains name) = true
      · rw [if_pos hgone, if_pos hgone]
        rfl
      · rw [if_neg hgone, if_neg hgone, TableEdit.write_eq, Write.under_wholly,
          Write.within_wholly fun _ => rfl]
        rfl
    · exact hedit
  · exact hedit

/-- Every edit is written as a whole, or not at all. -/
theorem Edit.write_eq (edit : Edit) : edit.write = .wholly edit.apply := by
  cases edit with
  | table name edit =>
    cases edit with
    | rename target => rw [write, Write.rename_eq, Write.within_wholly fun _ => rfl]; rfl
    | _ => exact write_table nofun
  | enumType name edit =>
    cases edit with
    | rename target => rw [write, Write.rename_eq, Write.within_wholly fun _ => rfl]; rfl
    | values _ | comment _ | item _ =>
      rw [write, EnumEdit.write_eq, Write.under_wholly, Write.within_wholly fun _ => rfl]
      · rfl
      · nofun
  | extension name edit =>
    rw [write, Write.modify_eq, Write.under_wholly, Write.within_wholly fun _ => rfl]
    rfl
  | _ => rfl

/-- An operation that is refused leaves the working copy as it found it. -/
theorem Operation.write_eq (op : Operation) (schema : Schema) :
    op.write schema =
      match op.apply schema with
      | .ok new => .ok () new
      | .error refusal => .error refusal schema := by
  rw [write, apply]
  cases op.edit with
  | error obstacle => rfl
  | ok edit =>
    simp only [Edit.write_eq, Write.wholly, bind, Except.bind]
    cases edit.apply schema <;> rfl

theorem Outcome.writeStep_eq (outcome : Outcome) (op : Operation) :
    outcome.writeStep op = outcome.step op := by
  rw [writeStep, step, Operation.write_eq]
  cases op.apply outcome.schema <;> rfl

/-- The run in place is the tolerant run. -/
theorem writeAll_eq (schema : Schema) (ops : List Operation) :
    writeAll schema ops = applyAll schema ops := by
  have hstep : Outcome.writeStep = Outcome.step := by
    funext outcome op
    exact outcome.writeStep_eq op
  rw [writeAll, applyAll, hstep]

/-- Where one operation is refused, there is that one refusal, whether the operation is applied or
written in place, and the schema is exactly what it was, the order of all its collections and lists
included. -/
theorem unchanged_of_refused (schema : Schema) (op : Operation)
    (hrefused : (applyAll schema [op]).refusals ≠ []) :
    ∃ refusal, applyAll schema [op] = ⟨schema, [refusal]⟩ ∧
      writeAll schema [op] = ⟨schema, [refusal]⟩ := by
  rw [writeAll_eq]
  cases happly : op.apply schema with
  | ok next =>
    rw [applyAll_cons_of_ok happly] at hrefused
    exact absurd rfl hrefused
  | error refusal =>
    have hrun := applyAll_cons_of_error happly []
    exact ⟨refusal, hrun, hrun⟩

def usersAndPosts : Schema :=
  { Schema.empty with
    tables := ((∅ : Keyed Table).insert "users" (.empty "users")).insert "posts" (.empty "posts") }

def postsToUsers : Operation := .replace (.table "posts" (.field .name)) (.string "users")

/-- No table takes the name of another one. -/
theorem unchanged_postsToUsers :
    (applyAll usersAndPosts [postsToUsers]).refusals ≠ [] ∧
    ∃ refusal, applyAll usersAndPosts [postsToUsers] = ⟨usersAndPosts, [refusal]⟩ ∧
      writeAll usersAndPosts [postsToUsers] = ⟨usersAndPosts, [refusal]⟩ := by
  have hwritable : (Edit.table "posts" (.rename "users")).Writable :=
    ⟨⟨by decide, trivial⟩, trivial⟩
  have hedit : postsToUsers.edit = .ok (.table "posts" (.rename "users")) :=
    Edit.edit_operation hwritable
  have happly : postsToUsers.apply usersAndPosts =
      .error ⟨postsToUsers.path, .value (.nameTaken "users")⟩ := by
    rw [Operation.apply, hedit]
    rfl
  have hrefused : (applyAll usersAndPosts [postsToUsers]).refusals ≠ [] := by
    rw [applyAll_cons_of_error happly]
    exact List.cons_ne_nil _ _
  exact ⟨hrefused, unchanged_of_refused _ _ hrefused⟩

end SchemaEvolution.Patch
