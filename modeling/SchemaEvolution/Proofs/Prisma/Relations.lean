import SchemaEvolution.Proofs.Prisma.Tables

/-!
# Foreign keys of Prisma relations

A relation names fields of two models, a foreign key the columns of two tables.  Tables, columns
and keys take their database names from the same declarations, so where a relation lists scalar
fields on both sides, its foreign key refers to columns and a table that the schema has: whichever
fields and models are mapped to other names, whichever of the two models comes first, and also
where they are one.
-/

namespace SchemaEvolution

/-- A foreign key of a table covers columns of the table and refers to columns of a table of the
schema. -/
def Schema.Resolves (schema : Schema) (tableName : String) (key : ForeignKey) : Prop :=
  ∃ owner target, schema.tables.get? tableName = some owner ∧
    schema.tables.get? key.targetTable = some target ∧
    (∀ column ∈ key.columns, column ∈ owner.columns.keys) ∧
    ∀ column ∈ key.targetColumns, column ∈ target.columns.keys

namespace Prisma

def Field.listed? (field : Field) (side : String) : Option (List String) :=
  ((attribute? field.attributes "relation").bind fun attr => attr.argument? side).map
    Expression.names

def Field.listed (field : Field) (side : String) : List String := (field.listed? side).getD []

/-- All of the names are those of scalar fields of the model. -/
def Declarations.AreScalars (d : Declarations) (model : Model) (names : List String) : Prop :=
  ∀ name ∈ names, ∃ field ∈ model.fields, field.name = name ∧ d.IsScalar field

variable {d : Declarations} {model target : Model} {field : Field}

/-- A field is found by its name in the model that has a name. -/
theorem Declarations.column_eq {name : String} (hmodel : d.model? name = some model)
    (hfields : (model.fields.map Field.name).Nodup) (hmem : field ∈ model.fields) :
    d.column name field.name = field.databaseName := by
  rw [column, hmodel, Option.bind_some, Keyed.find?_named hfields hmem]
  rfl

theorem Declarations.model?_of_mem (hmodels : (d.models.map Model.name).Nodup)
    (hmem : model ∈ d.models) : d.model? model.name = some model := by
  refine Keyed.find?_named ?_ (List.mem_reverse.2 hmem)
  rw [List.map_reverse]
  exact List.nodup_reverse.2 hmodels

theorem Declarations.mem_of_model? {name : String} (hmodel : d.model? name = some model) :
    model ∈ d.models := List.mem_reverse.1 (List.mem_of_find?_eq_some hmodel)

/-- Scalar fields give columns of the table of their model, under the names by which keys refer
to them. -/
theorem column_mem_of_areScalars {name : String} {names : List String}
    (hmodel : d.model? name = some model) (hfields : (model.fields.map Field.name).Nodup)
    (hscalars : d.AreScalars model names) {column : String}
    (hcolumn : column ∈ names.map (d.column name)) :
    column ∈ (tableOf d model).1.columns.keys := by
  obtain ⟨listed, hlisted, rfl⟩ := List.mem_map.1 hcolumn
  obtain ⟨field, hmem, rfl, hscalar⟩ := hscalars listed hlisted
  rw [Declarations.column_eq hmodel hfields hmem, mem_columns_tableOf]
  exact ⟨field, hmem, hscalar, rfl⟩

/-- A relation gives a foreign key exactly if it lists fields of its own model. -/
theorem keyTo?_eq_none_iff :
    keyTo? d model target field = none ↔ field.listed? "fields" = none := by
  rw [keyTo?, Option.map_eq_none_iff, Field.ownSide?, Field.listed?]
  cases attribute? field.attributes "relation" with
  | none => exact iff_of_true rfl rfl
  | some attr =>
    cases hfields : attr.argument? "fields" with
    | none => simp only [Option.bind_eq_bind, Option.bind_some, hfields, Option.map_none,
        Option.bind_none]
    | some fields => simp only [Option.bind_eq_bind, Option.bind_some, hfields, Option.map_some,
        Option.pure_def, reduceCtorEq]

/-- The foreign key of a relation translates both of its lists and the name of its target. -/
theorem exists_key_of_keyTo? {constraint : Constraint}
    (hrelation : keyTo? d model target field = some constraint) :
    ∃ label key, constraint = .foreignKey label key ∧
      key.columns = (field.listed "fields").map (d.column model.name) ∧
      key.targetTable = target.databaseName ∧
      key.targetColumns = (field.listed "references").map (d.column field.type) := by
  simp only [keyTo?, Field.ownSide?, Option.map_eq_some_iff, Option.bind_eq_bind,
    Option.bind_eq_some_iff, Option.pure_def, Option.some.injEq] at hrelation
  obtain ⟨_, ⟨attr, hattr, _, ⟨fields, hfields, rfl⟩, rfl⟩, rfl⟩ := hrelation
  refine ⟨_, _, rfl, ?_, rfl, ?_⟩
  · simp only [Field.listed, Field.listed?, hattr, Option.bind_some, hfields, Option.map_some,
      Option.getD_some]
  · simp only [Field.listed, Field.listed?, hattr, Option.bind_some]

/-- Where models differ in their names and in their database names, and the fields of each model in
their names, the foreign key of a relation that lists scalar fields on both sides refers to what
the schema has.  Every relation that lists fields of its own model has such a key, and the schema
has no other foreign keys. -/
theorem relation_resolves (blocks : List Block)
    (hmodels : ((Declarations.ofBlocks blocks).models.map Model.name).Nodup)
    (hdatabase : ((Declarations.ofBlocks blocks).models.map Model.databaseName).Nodup)
    (hfields : ∀ model ∈ (Declarations.ofBlocks blocks).models,
      (model.fields.map Field.name).Nodup) :
    let d := Declarations.ofBlocks blocks
    (∀ model ∈ d.models, ∀ field ∈ model.fields, ∀ target, d.IsRelation field target →
      d.AreScalars model (field.listed "fields") →
      d.AreScalars target (field.listed "references") →
      ∃ found, relation? d model field = .ok found ∧
        (found = none ↔ field.listed? "fields" = none) ∧
        ∀ constraint, found = some constraint →
          ∃ label key, constraint = .foreignKey label key ∧
            (schemaOf blocks).1.Resolves model.databaseName key) ∧
    ∀ tableName table name label key, (schemaOf blocks).1.tables.get? tableName = some table →
      table.constraints.get? name = some (.foreignKey label key) →
      ∃ model ∈ d.models, (tableOf d model).1 = table ∧
        ∃ field ∈ model.fields, ∃ target, d.IsRelation field target ∧
          relation? d model field = .ok (some (.foreignKey label key)) := by
  intro d
  refine ⟨fun model hmodel field hfield target hrelation hown hreferences =>
    ⟨_, relation?_eq hrelation.2, keyTo?_eq_none_iff, fun constraint hkey => ?_⟩, ?_⟩
  · have htarget : target ∈ d.models := Declarations.mem_of_model? hrelation.2
    obtain ⟨label, key, rfl, hcolumns, htable, htargets⟩ := exists_key_of_keyTo? hkey
    refine ⟨label, key, rfl, (tableOf d model).1, (tableOf d target).1,
      get?_schemaOf_tables hdatabase hmodel, ?_, fun column hcolumn => ?_, fun column hcolumn => ?_⟩
    · rw [htable]
      exact get?_schemaOf_tables hdatabase htarget
    · rw [hcolumns] at hcolumn
      exact column_mem_of_areScalars (Declarations.model?_of_mem hmodels hmodel)
        (hfields model hmodel) hown hcolumn
    · rw [htargets] at hcolumn
      exact column_mem_of_areScalars hrelation.2 (hfields target htarget) hreferences hcolumn
  · intro tableName table name label key htable hkey
    obtain ⟨model, hmodel, rfl⟩ := exists_model_of_table htable
    exact ⟨model, hmodel, rfl, foreignKey_of_tableOf hkey⟩

/-- The number of a post or a user, or a reference to one; its column is called otherwise. -/
def numberField (name : String) : Field :=
  ⟨name, "Int", [], false, false, [⟨"map", [(none, .string (name ++ "_column"))]⟩], none, 1⟩

def relatedField (name type field : String) : Field :=
  ⟨name, type, [], true, false, [⟨"relation", [(some "fields", .list [.word field]),
    (some "references", .list [.word "id"])]⟩], none, 1⟩

/-- A post refers to its author, whose model comes later, and to the post that it answers. -/
def posts : List Block :=
  [.model ⟨"Post", [numberField "id", numberField "authorId", numberField "parentId",
      relatedField "author" "User" "authorId", relatedField "parent" "Post" "parentId"],
      [⟨"map", [(none, .string "posts")]⟩], none⟩,
    .model ⟨"User", [numberField "id"], [⟨"map", [(none, .string "users")]⟩], none⟩]

theorem relation_resolves_posts :
    let d := Declarations.ofBlocks posts
    (d.models.map Model.name).Nodup ∧ (d.models.map Model.databaseName).Nodup ∧
    (∀ model ∈ d.models, (model.fields.map Field.name).Nodup) ∧
    (schemaOf posts).1.Resolves "posts"
      ⟨["authorId_column"], "users", ["id_column"], .cascade, .restrict⟩ ∧
    (schemaOf posts).1.Resolves "posts"
      ⟨["parentId_column"], "posts", ["id_column"], .cascade, .restrict⟩ := by
  intro d
  have hmodels : (d.models.map Model.name).Nodup := by decide
  have hdatabase : (d.models.map Model.databaseName).Nodup := by decide
  have hfields : ∀ model ∈ d.models, (model.fields.map Field.name).Nodup := by
    refine List.forall_mem_cons.2 ⟨?_, List.forall_mem_cons.2 ⟨?_, nofun⟩⟩ <;> decide
  have hresolves := (relation_resolves posts hmodels hdatabase hfields).1 _ List.mem_cons_self
  have hid {model : Model} (hmem : numberField "id" ∈ model.fields) :
      d.AreScalars model ["id"] :=
    List.forall_mem_singleton.2 ⟨numberField "id", hmem, rfl, rfl, rfl⟩
  refine ⟨hmodels, hdatabase, hfields, ?_, ?_⟩
  · obtain ⟨found, hfound, -, hkeys⟩ := hresolves (relatedField "author" "User" "authorId")
      (List.mem_of_getElem? (i := 3) rfl) _ ⟨rfl, rfl⟩
      (List.forall_mem_singleton.2 ⟨_, List.mem_of_getElem? (i := 1) rfl, rfl, rfl, rfl⟩)
      (hid List.mem_cons_self)
    cases hfound
    obtain ⟨label, key, hkey, hauthor⟩ := hkeys _ rfl
    cases hkey
    exact hauthor
  · obtain ⟨found, hfound, -, hkeys⟩ := hresolves (relatedField "parent" "Post" "parentId")
      (List.mem_of_getElem? (i := 4) rfl) _ ⟨rfl, rfl⟩
      (List.forall_mem_singleton.2 ⟨_, List.mem_of_getElem? (i := 2) rfl, rfl, rfl, rfl⟩)
      (hid List.mem_cons_self)
    cases hfound
    obtain ⟨label, key, hkey, hparent⟩ := hkeys _ rfl
    cases hkey
    exact hparent

/-! ## Relations to what is no model -/

/-- Names of constraints that a table has stay, whatever a field adds. -/
theorem mem_constraints_addField {state : Table × List Diagnostic} {name : String}
    (hname : name ∈ state.1.constraints.keys) :
    name ∈ (addField d model state field).1.constraints.keys := by
  have hstored (start : Table) (constraint : Constraint) (hname : name ∈ start.constraints.keys) :
      name ∈ (start.addConstraint constraint).constraints.keys := by
    rw [Table.addConstraint, Keyed.mem_keys_insert]
    exact .inl hname
  rcases d.cases_field field with hignored | hscalar | ⟨target, hrelation⟩
  · rwa [addField_of_ignored hignored]
  · rw [addField_of_scalar hscalar]
    unfold addColumn
    extract_lets column withKey withIndex
    have hindex : withIndex.constraints = withKey.constraints := by
      simp only [withIndex]
      split <;> rfl
    change name ∈ withIndex.constraints.keys
    rw [hindex]
    simp only [withKey]
    split
    · exact hstored state.1 _ hname
    · exact hname
  · rw [addField_of_relation hrelation]
    cases keyTo? d model target field with
    | none => exact hname
    | some constraint => exact hstored state.1 constraint hname

theorem mem_constraints_addAttribute {table : Table} {attr : Attribute} {name : String}
    (hname : name ∈ table.constraints.keys) :
    name ∈ (addAttribute d model table attr).constraints.keys := by
  unfold addAttribute
  extract_lets fields columns label method
  split
  · rw [Table.addConstraint, Keyed.mem_keys_insert]
    exact .inl hname
  all_goals exact hname

/-- What a field adds under a name, whatever table it comes to, the table of its model has. -/
theorem mem_constraints_tableOf {name : String} (hmem : field ∈ model.fields)
    (hadds : ∀ state, name ∈ (addField d model state field).1.constraints.keys) :
    name ∈ (tableOf d model).1.constraints.keys := by
  obtain ⟨front, back, hfields⟩ := List.append_of_mem hmem
  have hback (fields : List Field) (start : Table × List Diagnostic)
      (hname : name ∈ start.1.constraints.keys) :
      name ∈ (fields.foldl (addField d model) start).1.constraints.keys := by
    induction fields generalizing start with
    | nil => exact hname
    | cons field more ih => exact ih _ (mem_constraints_addField hname)
  have hattributes (attributes : List Attribute) (start : Table)
      (hname : name ∈ start.constraints.keys) :
      name ∈ (attributes.foldl (addAttribute d model) start).constraints.keys := by
    induction attributes generalizing start with
    | nil => exact hname
    | cons attr more ih => exact ih _ (mem_constraints_addAttribute hname)
  refine hattributes model.attributes _ ?_
  rw [hfields, List.foldl_append, List.foldl_cons]
  exact hback _ _ (hadds _)

/-- A name stands for a model if some model that is not ignored has it. -/
theorem isSome_model?_iff {blocks : List Block} {name : String} :
    ((Declarations.ofBlocks blocks).model? name).isSome = true ↔
      ∃ other, .model other ∈ blocks ∧ other.has "ignore" = false ∧ other.name = name := by
  rw [Declarations.model?, List.find?_isSome]
  simp only [List.mem_reverse, beq_iff_eq, Declarations.ofBlocks, List.mem_filterMap]
  constructor
  · rintro ⟨other, ⟨block, hmem, hblock⟩, hname⟩
    cases block with
    | enum _ => cases hblock
    | model model =>
      dsimp only at hblock
      split at hblock
      · cases hblock
      · next hkept =>
        obtain rfl := Option.some.inj hblock
        exact ⟨model, hmem, Bool.eq_false_iff.2 hkept, hname⟩
  · rintro ⟨other, hmem, hkept, hname⟩
    refine ⟨other, ⟨.model other, hmem, ?_⟩, hname⟩
    simp only [hkept, Bool.false_eq_true, if_false]

/-- Whatever table a field comes to, it adds a foreign key and nothing else. -/
def IsForeignKey (d : Declarations) (model : Model) (field : Field) : Prop :=
  ∃ label key, ∀ state : Table × List Diagnostic,
    addField d model state field = (state.1.addConstraint (.foreignKey label key), state.2)

/-- A field that lists fields of its own model is a foreign key exactly if its type is a model that
is not ignored.  Any other such field is a column of its type, like one without a relation.  The
warning of a relation to an unknown model is given of no field, so what is reported of a text is
what is reported of its blocks. -/
theorem isForeignKey_iff (blocks : List Block) {model : Model} {field : Field}
    (hfield : field ∈ model.fields) (hkept : field.has "ignore" = false)
    (hlists : (field.listed? "fields").isSome = true) :
    let d := Declarations.ofBlocks blocks
    (IsForeignKey d model field ↔
      ∃ other, .model other ∈ blocks ∧ other.has "ignore" = false ∧ other.name = field.type) ∧
    (∀ target, d.model? field.type = some target →
      ∃ label key, relation? d model field = .ok (some (.foreignKey label key)) ∧
        key.targetTable = target.databaseName ∧ label ∈ (tableOf d model).1.constraints.keys) ∧
    (d.model? field.type = none →
      (∀ state : Table × List Diagnostic, (addField d model state field).1.columns =
        state.1.columns.insert field.databaseName (columnOf d field)) ∧
      field.databaseName ∈ (tableOf d model).1.columns.keys) ∧
    (∀ (other : Model) (state : Table × List Diagnostic) (part : Field),
      (addField d other state part).2 = state.2) ∧
    (schemaOf blocks).2 = [] ∧
    ∀ text, (readBlocks text).1 = blocks →
      (Schema.ofPrisma text).diagnostics = (readBlocks text).2 := by
  intro d
  have hkey (target : Model) (htarget : d.model? field.type = some target) :
      ∃ label key, relation? d model field = .ok (some (.foreignKey label key)) ∧
        key.targetTable = target.databaseName ∧ ∀ state : Table × List Diagnostic,
          addField d model state field =
            (state.1.addConstraint (.foreignKey label key), state.2) := by
    have hsome : keyTo? d model target field ≠ none :=
      keyTo?_eq_none_iff.not.2 (Option.isSome_iff_ne_none.1 hlists)
    obtain ⟨constraint, hfound⟩ := Option.ne_none_iff_exists'.1 hsome
    obtain ⟨label, key, rfl, -, htable, -⟩ := exists_key_of_keyTo? hfound
    refine ⟨label, key, ?_, htable, fun state => ?_⟩
    · rw [relation?_eq htarget, hfound]
    · rw [addField_of_relation ⟨hkept, htarget⟩, hfound, Option.elim_some]
  have hcolumn (hnone : d.model? field.type = none) (state : Table × List Diagnostic) :
      (addField d model state field).1.columns =
        state.1.columns.insert field.databaseName (columnOf d field) := by
    rw [addField_of_scalar ⟨hkept, hnone⟩, addColumn_columns]
  refine ⟨?_, fun target htarget => ?_, fun hnone => ⟨hcolumn hnone, ?_⟩,
    fun other => addField_warnings d other, schemaOf_warnings blocks, fun text _ => ?_⟩
  · rw [← isSome_model?_iff]
    constructor
    · rintro ⟨label, key, hadds⟩
      rw [Option.isSome_iff_ne_none]
      intro hnone
      -- a foreign key leaves an empty table without columns, a column does not
      have hempty := hcolumn hnone (Table.empty "", [])
      rw [hadds] at hempty
      have hkeys := congrArg Keyed.keys hempty
      rw [Keyed.keys_insert] at hkeys
      cases hkeys
    · intro hsome
      obtain ⟨target, htarget⟩ := Option.isSome_iff_exists.1 hsome
      obtain ⟨label, key, -, -, hadds⟩ := hkey target htarget
      exact ⟨label, key, hadds⟩
  · obtain ⟨label, key, hrelation, htable, hadds⟩ := hkey target htarget
    refine ⟨label, key, hrelation, htable, mem_constraints_tableOf hfield fun state => ?_⟩
    rw [hadds, Table.addConstraint, Keyed.mem_keys_insert]
    exact .inr rfl
  · rw [mem_columns_tableOf]
    exact ⟨field, hfield, ⟨hkept, hnone⟩, rfl⟩
  · have hwarnings := schemaOf_warnings (readBlocks text).1
    exact (congrArg ((readBlocks text).2 ++ ·) hwarnings).trans (List.append_nil _)

/-- An account refers to a user, but no model has that name. -/
def account : Model :=
  ⟨"Account", [numberField "id", numberField "ownerId", relatedField "owner" "User" "ownerId"],
    [], none⟩

theorem isForeignKey_iff_account :
    let d := Declarations.ofBlocks [.model account]
    let owner := relatedField "owner" "User" "ownerId"
    owner ∈ account.fields ∧ owner.has "ignore" = false ∧
      (owner.listed? "fields").isSome = true ∧
      ¬ IsForeignKey d account owner ∧ (columnOf d owner).type = "User" ∧
      "owner" ∈ (tableOf d account).1.columns.keys := by
  intro d owner
  have hmem : owner ∈ account.fields := List.mem_of_getElem? (i := 2) rfl
  have howner := isForeignKey_iff [.model account] hmem rfl rfl
  refine ⟨hmem, rfl, rfl, fun hkey => ?_, rfl, (howner.2.2.1 rfl).2⟩
  obtain ⟨other, hother, -, hname⟩ := howner.1.1 hkey
  obtain rfl := Block.model.inj (List.mem_singleton.1 hother)
  exact absurd hname (by decide)

end Prisma

end SchemaEvolution
