import SchemaEvolution.Proofs.Schema.WellKeyed

/-!
# Changes of well-keyed schemas

A change of a collection misnames nothing as long as every value that it stores has the name
under which it is stored.  Tables and schemas are changed through their collections, so a table
or a schema that is built entry by entry stays well keyed.
-/

namespace SchemaEvolution

namespace Keyed

variable {α β : Type} {entries : Keyed α} {property : String → α → Prop}

/-- A property of every value together with the name under which it is stored. -/
def Holds (property : String → α → Prop) (entries : Keyed α) : Prop :=
  ∀ key value, entries.get? key = some value → property key value

theorem named_iff_holds {name : α → String} :
    entries.Named name ↔ entries.Holds fun key value => name value = key := by
  constructor
  · intro hnamed key value hvalue
    exact hnamed.of_get? hvalue
  · intro hholds entry hmem
    exact hholds entry.1 entry.2 (get?_eq_some_iff.2 hmem)

theorem all_iff_holds {property : α → Prop} :
    entries.All property ↔ entries.Holds fun _ value => property value := by
  constructor
  · intro hall key value hvalue
    exact hall.of_get? hvalue
  · intro hholds value hmem
    obtain ⟨key, hvalue⟩ := mem_values_iff.1 hmem
    exact hholds key value hvalue

theorem holds_and_iff {first second : String → α → Prop} :
    (entries.Holds fun key value => first key value ∧ second key value) ↔
      entries.Holds first ∧ entries.Holds second := by
  constructor
  · intro hboth
    exact ⟨fun key value hvalue => (hboth key value hvalue).1,
      fun key value hvalue => (hboth key value hvalue).2⟩
  · rintro ⟨hfirst, hsecond⟩ key value hvalue
    exact ⟨hfirst key value hvalue, hsecond key value hvalue⟩

theorem holds_empty : (∅ : Keyed α).Holds property := by
  intro key value hvalue
  cases hvalue

theorem Holds.insert (hholds : entries.Holds property) {key : String} {value : α}
    (hvalue : property key value) : (entries.insert key value).Holds property := by
  intro other found hfound
  rw [get?_insert] at hfound
  split at hfound
  · next heq =>
    cases hfound
    exact heq ▸ hvalue
  · exact hholds other found hfound

theorem Holds.erase (hholds : entries.Holds property) (key : String) :
    (entries.erase key).Holds property := by
  intro other found hfound
  rw [get?_erase] at hfound
  split at hfound
  · cases hfound
  · exact hholds other found hfound

theorem Holds.update (hholds : entries.Holds property) (key : String) {change : α → α}
    (hchange : ∀ value, property key value → property key (change value)) :
    (entries.update key change).Holds property := by
  intro other found hfound
  rw [get?_update] at hfound
  split at hfound
  · next heq =>
    subst heq
    obtain ⟨value, hvalue, rfl⟩ := Option.map_eq_some_iff.1 hfound
    exact hchange value (hholds other value hvalue)
  · exact hholds other found hfound

theorem Holds.map (hholds : entries.Holds property) {target : String → β → Prop} {change : α → β}
    (hchange : ∀ key value, property key value → target key (change value)) :
    (entries.map change).Holds target := by
  intro key found hfound
  rw [get?_map] at hfound
  obtain ⟨value, hvalue, rfl⟩ := Option.map_eq_some_iff.1 hfound
  exact hchange key value (hholds key value hvalue)

/-- A renamed entry has to fit its new name; the others stay where they are. -/
theorem Holds.rename? (hholds : entries.Holds property) {source target : String} {change : α → α}
    {renamed : Keyed α} (hrenamed : entries.rename? source target change = some renamed)
    (hchange : ∀ value, property source value → property target (change value)) :
    renamed.Holds property := by
  rw [Keyed.rename?] at hrenamed
  split at hrenamed
  · cases hrenamed
  · cases hrenamed
    intro key value hvalue
    obtain ⟨entry, hmem, hentry⟩ := List.mem_map.1 (get?_eq_some_iff.1 hvalue)
    have hold := hholds entry.1 entry.2 (get?_eq_some_iff.2 hmem)
    split at hentry
    · next hsource =>
      cases hentry
      exact hchange entry.2 (hsource ▸ hold)
    · cases hentry
      exact hold

end Keyed

namespace Table

theorem wellKeyed_iff_holds (table : Table) :
    table.WellKeyed ↔ (table.columns.Holds fun key column => column.name = key) ∧
      (table.indexes.Holds fun key index => index.name = key) ∧
      table.constraints.Holds fun key constraint => constraint.name = key := by
  rw [WellKeyed, Keyed.named_iff_holds, Keyed.named_iff_holds, Keyed.named_iff_holds]

theorem wellKeyed_empty (name : String) : (Table.empty name).WellKeyed :=
  (wellKeyed_iff_holds _).2 ⟨Keyed.holds_empty, Keyed.holds_empty, Keyed.holds_empty⟩

/-- A table becomes another one of the same name, with nothing misnamed if nothing was. -/
structure StaysKeyed (before after : Table) : Prop where
  name : after.name = before.name
  wellKeyed : before.WellKeyed → after.WellKeyed

theorem StaysKeyed.refl (table : Table) : table.StaysKeyed table := ⟨rfl, id⟩

theorem StaysKeyed.trans {first second third : Table} (hfirst : first.StaysKeyed second)
    (hsecond : second.StaysKeyed third) : first.StaysKeyed third :=
  ⟨hsecond.name.trans hfirst.name, fun hkeyed => hsecond.wellKeyed (hfirst.wellKeyed hkeyed)⟩

/-- A change that is made only where there is something to make it with. -/
theorem staysKeyed_elim {γ : Type} {table : Table} {found : Option γ} {change : γ → Table}
    (hchange : ∀ item, table.StaysKeyed (change item)) :
    table.StaysKeyed (found.elim table change) := by
  cases found with
  | none => exact .refl table
  | some item => exact hchange item

/-- Changes one after the other, each of which misnames nothing. -/
theorem staysKeyed_foldl {γ : Type} {change : Table → γ → Table}
    (hchange : ∀ (table : Table) (item : γ), table.StaysKeyed (change table item))
    (items : List γ) (table : Table) : table.StaysKeyed (items.foldl change table) := by
  induction items generalizing table with
  | nil => exact .refl table
  | cons item rest ih => exact (hchange table item).trans (ih (change table item))

/-- As `staysKeyed_foldl`, for changes that give warnings on the way. -/
theorem staysKeyed_of_foldl {γ δ : Type} {change : Table × δ → γ → Table × δ} {items : List γ}
    (state : Table × δ) {result : Table × δ} (hfold : items.foldl change state = result)
    (hchange : ∀ (state : Table × δ) (item : γ), state.1.StaysKeyed (change state item).1) :
    state.1.StaysKeyed result.1 := by
  subst hfold
  induction items generalizing state with
  | nil => exact .refl state.1
  | cons item rest ih => exact (hchange state item).trans (ih _)

theorem staysKeyed_columns {table : Table} {columns : Keyed Column}
    (hcolumns : (table.columns.Holds fun key column => column.name = key) →
      columns.Holds fun key column => column.name = key) :
    table.StaysKeyed { table with columns := columns } := by
  refine ⟨rfl, fun hkeyed => ?_⟩
  rw [wellKeyed_iff_holds] at hkeyed ⊢
  exact ⟨hcolumns hkeyed.1, hkeyed.2⟩

theorem staysKeyed_indexes {table : Table} {indexes : Keyed Index}
    (hindexes : (table.indexes.Holds fun key index => index.name = key) →
      indexes.Holds fun key index => index.name = key) :
    table.StaysKeyed { table with indexes := indexes } := by
  refine ⟨rfl, fun hkeyed => ?_⟩
  rw [wellKeyed_iff_holds] at hkeyed ⊢
  exact ⟨hkeyed.1, hindexes hkeyed.2.1, hkeyed.2.2⟩

theorem staysKeyed_constraints {table : Table} {constraints : Keyed Constraint}
    (hconstraints : (table.constraints.Holds fun key constraint => constraint.name = key) →
      constraints.Holds fun key constraint => constraint.name = key) :
    table.StaysKeyed { table with constraints := constraints } := by
  refine ⟨rfl, fun hkeyed => ?_⟩
  rw [wellKeyed_iff_holds] at hkeyed ⊢
  exact ⟨hkeyed.1, hkeyed.2.1, hconstraints hkeyed.2.2⟩

theorem staysKeyed_comment (table : Table) (comment : Option String) :
    table.StaysKeyed { table with comment := comment } := ⟨rfl, id⟩

theorem staysKeyed_addColumn (table : Table) (column : Column) :
    table.StaysKeyed (table.addColumn column) :=
  staysKeyed_columns fun hcolumns => hcolumns.insert rfl

theorem staysKeyed_addIndex (table : Table) (index : Index) :
    table.StaysKeyed (table.addIndex index) :=
  staysKeyed_indexes fun hindexes => hindexes.insert rfl

theorem staysKeyed_addConstraint (table : Table) (constraint : Constraint) :
    table.StaysKeyed (table.addConstraint constraint) :=
  staysKeyed_constraints fun hconstraints => hconstraints.insert rfl

theorem staysKeyed_updateColumn (table : Table) (name : String) {change : Column → Column}
    (hchange : ∀ column, (change column).name = column.name) :
    table.StaysKeyed { table with columns := table.columns.update name change } :=
  staysKeyed_columns fun hcolumns => hcolumns.update name fun column hname =>
    (hchange column).trans hname

/-- A key is added after its columns have been made such that they are never null. -/
theorem staysKeyed_addKey (table : Table) (columns : List String) (constraint : Constraint) :
    table.StaysKeyed ({ table with
      columns := columns.foldl (fun found column =>
        found.update column fun column => { column with notNull := true }) table.columns
      }.addConstraint constraint) := by
  refine StaysKeyed.trans (staysKeyed_columns fun hcolumns => ?_) (staysKeyed_addConstraint _ _)
  revert hcolumns
  generalize table.columns = found
  induction columns generalizing found with
  | nil => exact id
  | cons column rest ih =>
    intro hfound
    exact ih _ (hfound.update column fun _ hname => hname)

end Table

/-! ## Schemas -/

namespace Schema

/-- Tables, enumerated types and extensions are stored under their own names, and every table has
a property. -/
def KeyedWith (inside : Table → Prop) (schema : Schema) : Prop :=
  (schema.tables.Holds fun key table => table.name = key ∧ inside table) ∧
    (schema.enums.Holds fun key type => type.name = key) ∧
    schema.extensions.Holds fun key extension => extension.name = key

theorem keyedWith_iff (schema : Schema) (inside : Table → Prop) :
    schema.KeyedWith inside ↔ schema.tables.Named Table.name ∧ schema.enums.Named EnumType.name ∧
      schema.extensions.Named Extension.name ∧ schema.tables.All inside := by
  rw [KeyedWith, Keyed.named_iff_holds, Keyed.named_iff_holds, Keyed.named_iff_holds,
    Keyed.all_iff_holds, Keyed.holds_and_iff]
  constructor
  · rintro ⟨⟨htables, hinside⟩, henums, hextensions⟩
    exact ⟨htables, henums, hextensions, hinside⟩
  · rintro ⟨htables, henums, hextensions, hinside⟩
    exact ⟨⟨htables, hinside⟩, henums, hextensions⟩

theorem wellKeyed_iff_keyedWith (schema : Schema) :
    schema.WellKeyed ↔ schema.KeyedWith Table.WellKeyed :=
  (keyedWith_iff schema Table.WellKeyed).symm

theorem wellKeyed_empty : Schema.empty.WellKeyed :=
  (wellKeyed_iff_keyedWith _).2 ⟨Keyed.holds_empty, Keyed.holds_empty, Keyed.holds_empty⟩

variable {schema : Schema}

theorem WellKeyed.table (hkeyed : schema.WellKeyed) {name : String} {table : Table}
    (htable : schema.tables.get? name = some table) : table.WellKeyed :=
  (((wellKeyed_iff_keyedWith schema).1 hkeyed).1 name table htable).2

theorem WellKeyed.addTable (hkeyed : schema.WellKeyed) {table : Table} (htable : table.WellKeyed) :
    (schema.addTable table).WellKeyed := by
  rw [wellKeyed_iff_keyedWith] at hkeyed ⊢
  exact ⟨hkeyed.1.insert ⟨rfl, htable⟩, hkeyed.2⟩

theorem WellKeyed.addEnum (hkeyed : schema.WellKeyed) (type : EnumType) :
    (schema.addEnum type).WellKeyed := by
  rw [wellKeyed_iff_keyedWith] at hkeyed ⊢
  exact ⟨hkeyed.1, hkeyed.2.1.insert rfl, hkeyed.2.2⟩

theorem WellKeyed.addExtension (hkeyed : schema.WellKeyed) (extension : Extension) :
    (schema.addExtension extension).WellKeyed := by
  rw [wellKeyed_iff_keyedWith] at hkeyed ⊢
  exact ⟨hkeyed.1, hkeyed.2.1, hkeyed.2.2.insert rfl⟩

theorem WellKeyed.updateTable (hkeyed : schema.WellKeyed) (name : String) {change : Table → Table}
    (hchange : ∀ table : Table, table.StaysKeyed (change table)) :
    { schema with tables := schema.tables.update name change }.WellKeyed := by
  rw [wellKeyed_iff_keyedWith] at hkeyed ⊢
  refine ⟨hkeyed.1.update name fun table htable => ?_, hkeyed.2⟩
  exact ⟨(hchange table).name.trans htable.1, (hchange table).wellKeyed htable.2⟩

theorem WellKeyed.mapTables (hkeyed : schema.WellKeyed) {change : Table → Table}
    (hchange : ∀ table : Table, table.StaysKeyed (change table)) :
    { schema with tables := schema.tables.map change }.WellKeyed := by
  rw [wellKeyed_iff_keyedWith] at hkeyed ⊢
  refine ⟨hkeyed.1.map fun key table htable => ?_, hkeyed.2⟩
  exact ⟨(hchange table).name.trans htable.1, (hchange table).wellKeyed htable.2⟩

theorem WellKeyed.addTables (hkeyed : schema.WellKeyed) {tables : List Table}
    (htables : ∀ table ∈ tables, table.WellKeyed) :
    (tables.foldl Schema.addTable schema).WellKeyed := by
  induction tables generalizing schema with
  | nil => exact hkeyed
  | cons table rest ih =>
    exact ih (hkeyed.addTable (htables table List.mem_cons_self))
      fun other hmem => htables other (List.mem_cons_of_mem _ hmem)

theorem WellKeyed.addEnums (hkeyed : schema.WellKeyed) (types : List EnumType) :
    (types.foldl Schema.addEnum schema).WellKeyed := by
  induction types generalizing schema with
  | nil => exact hkeyed
  | cons type rest ih => exact ih (hkeyed.addEnum type)

end Schema

end SchemaEvolution
