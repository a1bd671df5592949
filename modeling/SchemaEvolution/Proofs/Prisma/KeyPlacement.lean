import Mathlib.Data.List.Basic
import SchemaEvolution.Proofs.Prisma.Relations
import SchemaEvolution.Proofs.Schema.TableEdits

/-!
# Keys of fields and keys of models

A key of one field is declared at the field or for its model.  Fields and attributes edit the table
of their model one after the other, and what the others do is independent of the key, so both
declarations give the same schema.
-/

namespace SchemaEvolution.Prisma

open Table (Edit)

variable {d d' : Declarations} {model other : Model} {field : Field} {table : Table}

/-- The primary key that a field declares for a table of the given name. -/
def idEdits (table : String) (field : Field) : List Edit :=
  ((attribute? field.attributes "id").map fun attr => Edit.constraint
    (.primaryKey ((attr.text? "map").getD (Naming.primaryKey table)) [field.databaseName])).toList

def uniqueEdits (table : String) (field : Field) : List Edit :=
  ((attribute? field.attributes "unique").map fun attr => Edit.index
    ⟨(attr.text? "map").getD (Naming.unique table [field.databaseName]), true,
      [field.databaseName], "btree"⟩).toList

def columnEdits (d : Declarations) (table : String) (field : Field) : List Edit :=
  idEdits table field ++ (uniqueEdits table field ++ [.column (columnOf d field)])

/-- What a field does to a table of the given name. -/
def fieldEdits (d : Declarations) (model : Model) (table : String) (field : Field) : List Edit :=
  if field.has "ignore" then []
  else
    match d.model? field.type with
    | some target => ((keyTo? d model target field).map .constraint).toList
    | none => columnEdits d table field

theorem addColumn_eq_edited (d : Declarations) (field : Field) (table : Table) :
    addColumn d field table = table.edited (columnEdits d table.name field) := by
  rw [addColumn, columnEdits, idEdits, uniqueEdits]
  cases attribute? field.attributes "id" <;> cases attribute? field.attributes "unique" <;> rfl

theorem addField_eq_edited (d : Declarations) (model : Model) (state : Table × List Diagnostic)
    (field : Field) :
    (addField d model state field).1 = state.1.edited (fieldEdits d model state.1.name field) := by
  rcases d.cases_field field with hignored | hscalar | ⟨target, hrelation⟩
  · rw [addField_of_ignored hignored, fieldEdits, if_pos hignored]
    rfl
  · rw [addField_of_scalar hscalar, fieldEdits, hscalar.1, hscalar.2]
    exact addColumn_eq_edited d field state.1
  · rw [addField_of_relation hrelation, fieldEdits, hrelation.1, hrelation.2]
    dsimp only
    cases keyTo? d model target field <;> rfl

/-- What an attribute of a model does to a table of the given name. -/
def attributeEdits (d : Declarations) (model : Model) (table : String) (attr : Attribute) :
    List Edit :=
  let fields := (((attr.argument? "fields").or attr.positional?).map Expression.names).getD []
  let columns := fields.map (d.column model.name)
  let label := ((attr.argument? "map").or (attr.argument? "name")).bind Expression.string?
  let method := (((attr.argument? "type").bind Expression.name?).map Text.lower).getD "btree"
  match attr.name with
  | "id" => [.require columns,
      .constraint (.primaryKey (label.getD (Naming.primaryKey table)) columns)]
  | "unique" => [.index ⟨label.getD (Naming.unique table columns), true, columns, method⟩]
  | "index" => [.index ⟨label.getD (Naming.index table columns), false, columns, method⟩]
  | _ => []

theorem addAttribute_eq_edited (d : Declarations) (model : Model) (table : Table)
    (attr : Attribute) :
    addAttribute d model table attr = table.edited (attributeEdits d model table.name attr) := by
  fun_cases addAttribute d model table attr
  all_goals
    simp only [attributeEdits, *]
    rfl

def Model.start (model : Model) : Table :=
  { Table.empty model.databaseName with comment := model.doc }

/-- What the fields and the attributes of a model do. -/
def modelEdits (d : Declarations) (model : Model) : List Edit :=
  model.fields.flatMap (fieldEdits d model model.databaseName) ++
    model.attributes.flatMap (attributeEdits d model model.databaseName)

theorem foldl_addField_eq_edited (d : Declarations) (model : Model) (fields : List Field)
    (state : Table × List Diagnostic) :
    (fields.foldl (addField d model) state).1 =
      state.1.edited (fields.flatMap (fieldEdits d model state.1.name)) := by
  induction fields generalizing state with
  | nil => rfl
  | cons field more ih =>
    rw [List.foldl_cons, ih, List.flatMap_cons, Table.edited_append, addField_eq_edited,
      Table.name_edited]

theorem foldl_addAttribute_eq_edited (d : Declarations) (model : Model)
    (attributes : List Attribute) (table : Table) :
    attributes.foldl (addAttribute d model) table =
      table.edited (attributes.flatMap (attributeEdits d model table.name)) := by
  induction attributes generalizing table with
  | nil => rfl
  | cons attr more ih =>
    rw [List.foldl_cons, ih, List.flatMap_cons, Table.edited_append, addAttribute_eq_edited,
      Table.name_edited]

theorem tableOf_eq_edited (d : Declarations) (model : Model) :
    (tableOf d model).1 = model.start.edited (modelEdits d model) := by
  refine (foldl_addAttribute_eq_edited d model model.attributes _).trans ?_
  rw [foldl_addField_eq_edited, Table.name_edited, modelEdits, Table.edited_append]
  rfl

def Field.face (field : Field) : String × String × Bool :=
  (field.name, field.databaseName, field.optional)

/-- The models have the same names, and so have their fields. -/
structure Model.Alike (model other : Model) : Prop where
  name : model.name = other.name
  databaseName : model.databaseName = other.databaseName
  fields : model.fields.map Field.face = other.fields.map Field.face

/-- The declarations have the same names for everything. -/
structure Declarations.Alike (d d' : Declarations) : Prop where
  models : List.Forall₂ Model.Alike d.models d'.models
  enums : d.enums = d'.enums

theorem Model.Alike.refl (model : Model) : model.Alike model := ⟨rfl, rfl, rfl⟩

theorem Model.Alike.find? (halike : model.Alike other) (name : String) :
    (model.fields.find? fun candidate => candidate.name == name).map Field.face =
      (other.fields.find? fun candidate => candidate.name == name).map Field.face := by
  have hfaces (fields : List Field) :
      (fields.find? fun candidate => candidate.name == name).map Field.face =
        (fields.map Field.face).find? fun face => face.1 == name := by
    rw [List.find?_map]
    rfl
  rw [hfaces, hfaces, halike.fields]

/-- What a model requires of a field does not depend on the lines that it stands in. -/
theorem requiresAny_of_alike (halike : model.Alike other) (names : List String) :
    requiresAny model names = requiresAny other names := by
  rw [requiresAny, requiresAny]
  refine congrArg names.any (funext fun name => ?_)
  have hfind := halike.find? name
  generalize model.fields.find? (fun candidate => candidate.name == name) = found at hfind
  generalize other.fields.find? (fun candidate => candidate.name == name) = found' at hfind
  cases found with
  | none =>
    cases found' with
    | none => rfl
    | some _ => cases hfind
  | some field =>
    cases found' with
    | none => cases hfind
    | some field' =>
      have hface : field.face = field'.face := Option.some.inj hfind
      exact congrArg (fun face => !face.2.2) hface

namespace Declarations.Alike

/-- Alike declarations find alike models. -/
theorem model? (halike : d.Alike d') (name : String) :
    Option.Rel Model.Alike (d.model? name) (d'.model? name) := by
  rw [Declarations.model?, Declarations.model?]
  have hreverse := List.rel_reverse halike.models
  generalize d.models.reverse = models at hreverse
  generalize d'.models.reverse = models' at hreverse
  induction hreverse with
  | nil => exact .none
  | @cons model other _ _ hfirst _ ih =>
    rw [List.find?_cons, List.find?_cons, hfirst.name]
    cases other.name == name with
    | true => exact .some hfirst
    | false => exact ih

theorem enum? (halike : d.Alike d') (name : String) : d.enum? name = d'.enum? name := by
  rw [Declarations.enum?, Declarations.enum?, halike.enums]

theorem column (halike : d.Alike d') (model field : String) :
    d.column model field = d'.column model field := by
  rw [Declarations.column, Declarations.column]
  have hmodel := halike.model? model
  generalize d.model? model = found at hmodel
  generalize d'.model? model = found' at hmodel
  cases hmodel with
  | none => rfl
  | some hfound =>
    have hfind := congrArg (Option.map fun face : String × String × Bool => face.2.1)
      (hfound.find? field)
    rw [Option.map_map, Option.map_map] at hfind
    exact congrArg (fun name : Option String => name.getD field) hfind

theorem columnOf (halike : d.Alike d') (field : Field) :
    columnOf d field = columnOf d' field := by
  rw [Prisma.columnOf, Prisma.columnOf, columnType, columnType, halike.enum?]

theorem keyTo? {target target' : Model} (halike : d.Alike d') (hmodel : model.Alike other)
    (htarget : target.Alike target') (field : Field) :
    keyTo? d model target field = keyTo? d' other target' field := by
  have hcolumn (name : String) : d.column name = d'.column name := funext (halike.column name)
  simp only [Prisma.keyTo?, foreignKeyTo, hmodel.name, hmodel.databaseName, htarget.databaseName,
    requiresAny_of_alike hmodel, hcolumn]

/-- What a field declares is the same in alike declarations. -/
theorem fieldEdits (halike : d.Alike d') (hmodel : model.Alike other) (table : String)
    (field : Field) : fieldEdits d model table field = fieldEdits d' other table field := by
  rw [Prisma.fieldEdits, Prisma.fieldEdits]
  have hfound := halike.model? field.type
  generalize d.model? field.type = target at hfound
  generalize d'.model? field.type = target' at hfound
  cases hfound with
  | none =>
    dsimp only
    rw [columnEdits, columnEdits, halike.columnOf]
  | some htarget =>
    dsimp only
    rw [halike.keyTo? hmodel htarget]

theorem attributeEdits (halike : d.Alike d') (hmodel : model.Alike other) (table : String)
    (attr : Attribute) :
    attributeEdits d model table attr = attributeEdits d' other table attr := by
  have hcolumn : d.column model.name = d'.column other.name := by
    rw [hmodel.name]
    exact funext (halike.column other.name)
  rw [Prisma.attributeEdits, Prisma.attributeEdits, hcolumn]

theorem enumOf (halike : d.Alike d') (block : EnumBlock) : enumOf d block = enumOf d' block := by
  rw [Prisma.enumOf, Prisma.enumOf, halike.enum?]

/-- A model has the same table among both declarations. -/
theorem tableOf (halike : d.Alike d') (model : Model) :
    (tableOf d model).1 = (tableOf d' model).1 := by
  have hfields := funext (halike.fieldEdits (.refl model) model.databaseName)
  have hattributes := funext (halike.attributeEdits (.refl model) model.databaseName)
  rw [tableOf_eq_edited, tableOf_eq_edited, modelEdits, modelEdits, hfields, hattributes]

end Declarations.Alike

def Field.unlined (field : Field) : Field := { field with line := 0 }

def Model.unlined (model : Model) : Model :=
  { model with fields := model.fields.map Field.unlined }

def Block.unlined : Block → Block
  | .model model => .model model.unlined
  | .enum block => .enum block

theorem alike_unlined (model : Model) : model.unlined.Alike model := ⟨rfl, rfl, List.map_map⟩

/-- Without their lines the blocks declare the same, less the lines. -/
theorem ofBlocks_unlined (blocks : List Block) :
    Declarations.ofBlocks (blocks.map Block.unlined) =
      ⟨(Declarations.ofBlocks blocks).models.map Model.unlined,
        (Declarations.ofBlocks blocks).enums⟩ := by
  rw [Declarations.ofBlocks, Declarations.ofBlocks, List.filterMap_map, List.filterMap_map,
    List.map_filterMap]
  congr 1
  · refine List.filterMap_congr fun block _ => ?_
    cases block with
    | model model =>
      have hignore : model.unlined.has "ignore" = model.has "ignore" := rfl
      simp only [Function.comp_apply, Block.unlined, hignore]
      split <;> rfl
    | enum _ => rfl
  · refine List.filterMap_congr fun block _ => ?_
    cases block <;> rfl

/-- The table of a model does not depend on lines. -/
theorem tableOf_unlined (halike : d.Alike d') (model : Model) :
    (tableOf d model.unlined).1 = (tableOf d' model).1 := by
  have hname : model.unlined.databaseName = model.databaseName := rfl
  have hline (field : Field) : fieldEdits d' model model.databaseName field.unlined =
      fieldEdits d' model model.databaseName field := rfl
  have hfields : model.unlined.fields.flatMap (fieldEdits d' model model.databaseName) =
      model.fields.flatMap (fieldEdits d' model model.databaseName) := by
    rw [Model.unlined, List.flatMap_map, funext hline]
  rw [tableOf_eq_edited, tableOf_eq_edited, modelEdits, modelEdits, hname,
    funext (halike.fieldEdits (alike_unlined model) model.databaseName),
    funext (halike.attributeEdits (alike_unlined model) model.databaseName), hfields]
  rfl

/-- On which lines fields stand is of no account. -/
theorem fst_schemaOf_unlined (blocks : List Block) :
    (schemaOf (blocks.map Block.unlined)).1 = (schemaOf blocks).1 := by
  have halike : (Declarations.ofBlocks (blocks.map Block.unlined)).Alike (.ofBlocks blocks) := by
    rw [ofBlocks_unlined]
    exact ⟨List.forall₂_map_left_iff.2 (List.forall₂_same.2 fun model _ => alike_unlined model),
      rfl⟩
  have henums : (Declarations.ofBlocks (blocks.map Block.unlined)).enums =
      (Declarations.ofBlocks blocks).enums := halike.enums
  have htables : ((Declarations.ofBlocks (blocks.map Block.unlined)).models.map
      (tableOf (.ofBlocks (blocks.map Block.unlined)))).map Prod.fst =
        ((Declarations.ofBlocks blocks).models.map (tableOf (.ofBlocks blocks))).map Prod.fst := by
    have hmodels : (Declarations.ofBlocks (blocks.map Block.unlined)).models =
        (Declarations.ofBlocks blocks).models.map Model.unlined :=
      congrArg Declarations.models (ofBlocks_unlined blocks)
    rw [hmodels, List.map_map, List.map_map, List.map_map]
    exact List.map_congr_left fun model _ => tableOf_unlined halike model
  rw [schemaOf, schemaOf, htables, henums, funext halike.enumOf]

/-! ## Keys -/

/-- A key of one field, with the name that it is given. -/
inductive FieldKey where
  | id (label : Option String)
  | unique (label : Option String)

namespace FieldKey

/-- The name of the attribute that declares the key. -/
def word : FieldKey → String
  | id _ => "id"
  | unique _ => "unique"

def label : FieldKey → Option String
  | id label | unique label => label

def mapArguments (label : Option String) : List Argument :=
  (label.map fun text => (some "map", .string text)).toList

def atField (key : FieldKey) : Attribute := ⟨key.word, mapArguments key.label⟩

def atModel (field : String) (key : FieldKey) : Attribute :=
  ⟨key.word, (none, .list [.word field]) :: mapArguments key.label⟩

/-- What the key stores in a table of the given name, for a column. -/
def entry (table column : String) : FieldKey → Edit
  | id label =>
    .constraint (.primaryKey (label.getD (Naming.primaryKey table)) [column])
  | unique label => .index ⟨label.getD (Naming.unique table [column]), true, [column], "btree"⟩

def edits (table column : String) : FieldKey → List Edit
  | id label => [.require [column], entry table column (id label)]
  | unique label => [entry table column (unique label)]

variable {key : FieldKey} {position : Nat}

theorem word_ne {name : String} (hid : name ≠ "id") (hunique : name ≠ "unique") :
    key.word ≠ name := by
  cases key with
  | id _ => exact hid.symm
  | unique _ => exact hunique.symm

theorem text?_atField (key : FieldKey) : key.atField.text? "map" = key.label := by
  rw [atField, Attribute.text?, Attribute.argument?]
  cases key.label <;> rfl

theorem attributeEdits_atModel (key : FieldKey) (table field : String) :
    attributeEdits d model table (key.atModel field) =
      key.edits table (d.column model.name field) := by
  cases key with
  | id label | unique label => cases label <;> rfl

end FieldKey

def Field.withKey (field : Field) (key : FieldKey) (position : Nat) : Field :=
  { field with attributes :=
      field.attributes.take position ++ key.atField :: field.attributes.drop position }

section WithKey

variable {key : FieldKey} {position : Nat}

theorem attribute?_withKey_of_ne (key : FieldKey) {name : String} (hname : key.word ≠ name) :
    attribute? (field.withKey key position).attributes name = attribute? field.attributes name := by
  have hkey : (key.atField.name == name) = false := beq_eq_false_iff_ne.2 hname
  rw [Field.withKey, attribute?, List.find?_append, List.find?_cons, hkey, ← List.find?_append,
    List.take_append_drop]
  rfl

theorem attribute?_withKey (halone : attribute? field.attributes key.word = none) :
    attribute? (field.withKey key position).attributes key.word = some key.atField := by
  have hfront : (field.attributes.take position).find?
      (fun candidate => candidate.name == key.word) = none :=
    List.find?_eq_none.2 fun attr hmem =>
      List.find?_eq_none.1 halone attr (List.mem_of_mem_take hmem)
  have hkey : (key.atField.name == key.word) = true := beq_self_eq_true _
  rw [Field.withKey, attribute?, List.find?_append, hfront, List.find?_cons, hkey]
  rfl

theorem databaseName_withKey :
    (field.withKey key position).databaseName = field.databaseName := by
  rw [Field.databaseName, mappedName?,
    attribute?_withKey_of_ne key (key.word_ne (by decide) (by decide))]
  rfl

theorem face_withKey : (field.withKey key position).face = field.face := by
  rw [Field.face, Field.face, databaseName_withKey]
  rfl

/-- The type of a column does not depend on where its key is declared. -/
theorem columnType_withKey (d : Declarations) :
    columnType d (field.withKey key position) = columnType d field := by
  have hnative : nativeAttribute? (field.withKey key position) = nativeAttribute? field := by
    have hword (rest : List Char) : key.word.toList ≠ 'd' :: rest := by
      cases key <;> simp [FieldKey.word]
    rw [nativeAttribute?, Field.withKey, List.findSome?_append, List.findSome?_cons,
      FieldKey.atField]
    dsimp only
    split
    · next found hfound =>
      split at hfound
      · next hname => exact absurd hname (hword _)
      · cases hfound
    · rw [← List.findSome?_append, List.take_append_drop]
      rfl
  rw [columnType, columnType, hnative]
  rfl

theorem columnOf_withId (label : Option String)
    (halone : attribute? field.attributes "id" = none) :
    columnOf d (field.withKey (.id label) position) = (columnOf d field).required := by
  have hfound : attribute? (field.withKey (.id label) position).attributes "id" =
      some (FieldKey.id label).atField := attribute?_withKey halone
  rw [columnOf, columnType_withKey, databaseName_withKey, Field.has, hfound, Option.isSome_some,
    Bool.or_true, attribute?_withKey_of_ne _ (FieldKey.word_ne (by decide) (by decide))]
  rfl

theorem columnOf_withUnique (label : Option String) :
    columnOf d (field.withKey (.unique label) position) = columnOf d field := by
  rw [columnOf, columnOf, columnType_withKey, databaseName_withKey, Field.has,
    attribute?_withKey_of_ne (.unique label) (show "unique" ≠ "id" by decide),
    attribute?_withKey_of_ne (.unique label) (show "unique" ≠ "default" by decide)]
  rfl

theorem idEdits_withId (name : String) (label : Option String)
    (halone : attribute? field.attributes "id" = none) :
    idEdits name (field.withKey (.id label) position) =
      [FieldKey.entry name field.databaseName (.id label)] := by
  have hfound : attribute? (field.withKey (.id label) position).attributes "id" =
      some (FieldKey.id label).atField := attribute?_withKey halone
  rw [idEdits, hfound, Option.map_some, FieldKey.text?_atField, databaseName_withKey]
  rfl

theorem uniqueEdits_withUnique (name : String) (label : Option String)
    (halone : attribute? field.attributes "unique" = none) :
    uniqueEdits name (field.withKey (.unique label) position) =
      [FieldKey.entry name field.databaseName (.unique label)] := by
  have hfound : attribute? (field.withKey (.unique label) position).attributes "unique" =
      some (FieldKey.unique label).atField := attribute?_withKey halone
  rw [uniqueEdits, hfound, Option.map_some, FieldKey.text?_atField, databaseName_withKey]
  rfl

/-- A key at a field that is a column does what it does right after the field. -/
theorem sameEntries_columnEdits (name : String)
    (halone : attribute? field.attributes key.word = none) :
    (table.edited (columnEdits d name (field.withKey key position))).SameEntries
      ((table.edited (columnEdits d name field)).edited (key.edits name field.databaseName)) := by
  cases key with
  | id label =>
    have hid : idEdits name field = [] := by
      have hnone : attribute? field.attributes "id" = none := halone
      rw [idEdits, hnone]
      rfl
    have hunique : uniqueEdits name (field.withKey (.id label) position) =
        uniqueEdits name field := by
      rw [uniqueEdits, attribute?_withKey_of_ne (.id label) (show "id" ≠ "unique" by decide),
        databaseName_withKey]
      rfl
    have hfree : ∀ edit ∈ uniqueEdits name field ++ [Edit.column (columnOf d field).required],
        (FieldKey.entry name field.databaseName (.id label)).Independent edit := by
      intro edit hmem
      rcases List.mem_append.1 hmem with hmem | hmem
      · obtain ⟨attr, -, rfl⟩ := Option.map_eq_some_iff.1 (Option.mem_toList.1 hmem)
        exact trivial
      · exact List.mem_singleton.1 hmem ▸ trivial
    rw [columnEdits, columnEdits, idEdits_withId name label halone, hunique, hid,
      columnOf_withId label halone, List.singleton_append, List.nil_append]
    refine (Table.edited_cons_comm hfree).trans ?_
    rw [Table.edited_append, Table.edited_append]
    exact (Table.addColumn_require (columnOf d field)).symm.edit _
  | unique label =>
    have hid : idEdits name (field.withKey (.unique label) position) = idEdits name field := by
      rw [idEdits, attribute?_withKey_of_ne (.unique label) (show "unique" ≠ "id" by decide),
        databaseName_withKey]
      rfl
    have hunique : uniqueEdits name field = [] := by
      have hnone : attribute? field.attributes "unique" = none := halone
      rw [uniqueEdits, hnone]
      rfl
    rw [columnEdits, columnEdits, uniqueEdits_withUnique name label halone, hid, hunique,
      columnOf_withUnique, Table.edited_append, Table.edited_append, List.nil_append]
    have hfree : (FieldKey.entry name field.databaseName (.unique label)).Independent
      (.column (columnOf d field)) := trivial
    rw [Table.edited_append]
    generalize table.edited (idEdits name field) = start
    have hswap : ((start.edit (FieldKey.entry name field.databaseName (.unique label))).edit
        (.column (columnOf d field))).SameEntries _ := Table.edit_comm hfree
    exact hswap

end WithKey

/-! ## Two places of a key -/

/-- A key of one field, in two schemas: at the field, which stands between `front` and `back`, and
as an attribute of the model, between `left` and `right`. -/
structure KeyMove where
  key : FieldKey
  field : Field
  position : Nat
  front : List Field
  back : List Field
  left : List Attribute
  right : List Attribute
  name : String
  doc : Option String
  before : List Block
  after : List Block

namespace KeyMove

def plain (move : KeyMove) : Model :=
  ⟨move.name, move.front ++ move.field :: move.back, move.left ++ move.right, move.doc⟩

def atField (move : KeyMove) : Model :=
  ⟨move.name, move.front ++ move.field.withKey move.key move.position :: move.back,
    move.left ++ move.right, move.doc⟩

def atModel (move : KeyMove) : Model :=
  ⟨move.name, move.front ++ move.field :: move.back,
    move.left ++ move.key.atModel move.field.name :: move.right, move.doc⟩

def blocks (move : KeyMove) (model : Model) : List Block :=
  move.before ++ .model model :: move.after

def declarations (move : KeyMove) (model : Model) : Declarations := .ofBlocks (move.blocks model)

/-- The field is a column of the model that its name stands for, it has no other such key, and
fields, columns and keys are named differently. -/
structure Sound (move : KeyMove) : Prop where
  current : (move.declarations move.plain).model? move.name = some move.plain
  scalar : (move.declarations move.plain).IsScalar move.field
  alone : attribute? move.field.attributes move.key.word = none
  fields : (move.plain.fields.map Field.name).Nodup
  columns : ∀ other ∈ move.back, (move.declarations move.plain).IsScalar other →
    other.databaseName ≠ move.field.databaseName
  free : (move.key.entry move.plain.databaseName move.field.databaseName).Fresh
    (tableOf (move.declarations move.plain) move.plain).1

variable {move : KeyMove}

theorem kept_plain (hsound : move.Sound) : move.plain.has "ignore" = false := by
  obtain ⟨block, -, hblock⟩ :=
    List.mem_filterMap.1 (Declarations.mem_of_model? hsound.current)
  cases block with
  | model model =>
    dsimp only at hblock
    split at hblock
    · cases hblock
    · next hkept =>
      rw [← Option.some.inj hblock]
      exact Bool.eq_false_iff.2 hkept
  | enum _ => cases hblock

theorem attribute?_insert {attr : Attribute} {name : String} {left right : List Attribute}
    (hname : attr.name ≠ name) :
    attribute? (left ++ attr :: right) name = attribute? (left ++ right) name := by
  rw [attribute?, attribute?, List.find?_append, List.find?_append, List.find?_cons,
    beq_eq_false_iff_ne.2 hname]

theorem kept_atModel (hsound : move.Sound) : move.atModel.has "ignore" = false := by
  have hignore : (move.key.atModel move.field.name).name ≠ "ignore" :=
    move.key.word_ne (by decide) (by decide)
  rw [Model.has, atModel, attribute?_insert hignore]
  exact kept_plain hsound

theorem alike_atField (move : KeyMove) : move.atField.Alike move.plain where
  name := rfl
  databaseName := rfl
  fields := by
    rw [atField, plain, List.map_append, List.map_append, List.map_cons, List.map_cons,
      face_withKey]

theorem alike_atModel (move : KeyMove) : move.atModel.Alike move.plain where
  name := rfl
  databaseName := by
    have hmap : (move.key.atModel move.field.name).name ≠ "map" :=
      move.key.word_ne (by decide) (by decide)
    rw [Model.databaseName, Model.databaseName, mappedName?, mappedName?, atModel, plain,
      attribute?_insert hmap]
  fields := rfl

theorem models_declarations {model : Model} (hkept : model.has "ignore" = false) :
    (move.declarations model).models =
      (Declarations.ofBlocks move.before).models ++
        model :: (Declarations.ofBlocks move.after).models := by
  rw [declarations, blocks, Declarations.ofBlocks]
  dsimp only
  rw [List.filterMap_append, List.filterMap_cons]
  simp only [hkept, Bool.false_eq_true, if_false]
  rfl

theorem enums_declarations (model : Model) :
    (move.declarations model).enums =
      (Declarations.ofBlocks move.before).enums ++ (Declarations.ofBlocks move.after).enums := by
  rw [declarations, blocks, Declarations.ofBlocks]
  dsimp only
  rw [List.filterMap_append, List.filterMap_cons]
  rfl

theorem alike_declarations {model other : Model} (hmodel : model.Alike other)
    (hkept : model.has "ignore" = false) (hkept' : other.has "ignore" = false) :
    (move.declarations model).Alike (move.declarations other) := by
  have hrefl (models : List Model) : List.Forall₂ Model.Alike models models :=
    List.forall₂_same.2 fun model _ => .refl model
  refine ⟨?_, by rw [enums_declarations, enums_declarations]⟩
  rw [models_declarations hkept, models_declarations hkept']
  exact List.rel_append (hrefl _) (.cons hmodel (hrefl _))

theorem modelEdits_of_alike {model other : Model} (halike : d.Alike d')
    (hmodel : model.Alike other) :
    modelEdits d model = model.fields.flatMap (fieldEdits d' other other.databaseName) ++
      model.attributes.flatMap (attributeEdits d' other other.databaseName) := by
  rw [modelEdits, hmodel.databaseName, funext (halike.fieldEdits hmodel _),
    funext (halike.attributeEdits hmodel _)]

/-- A column among the edits of a field belongs to that field, which is a scalar. -/
theorem scalar_of_column {column : Column} {name : String} {model : Model}
    (hmem : Edit.column column ∈ fieldEdits d model name field) :
    d.IsScalar field ∧ column.name = field.databaseName := by
  rw [fieldEdits] at hmem
  split at hmem
  · cases hmem
  · next hkept =>
    split at hmem
    · obtain ⟨constraint, -, hconstraint⟩ :=
        Option.map_eq_some_iff.1 (Option.mem_toList.1 hmem)
      cases hconstraint
    · next hscalar =>
      refine ⟨⟨Bool.eq_false_iff.2 hkept, hscalar⟩, ?_⟩
      rw [columnEdits, List.mem_append, List.mem_append] at hmem
      rcases hmem with hmem | hmem | hmem
      · obtain ⟨attr, -, hattr⟩ := Option.map_eq_some_iff.1 (Option.mem_toList.1 hmem)
        cases hattr
      · obtain ⟨attr, -, hattr⟩ := Option.map_eq_some_iff.1 (Option.mem_toList.1 hmem)
        cases hattr
      · cases List.mem_singleton.1 hmem
        rfl

theorem column_not_mem_attributeEdits {column : Column} {name : String} {model : Model}
    {attr : Attribute} : Edit.column column ∉ attributeEdits d model name attr := by
  rw [attributeEdits]
  split <;> simp

/-- What the key does is independent of the fields behind its own and of other attributes. -/
theorem independent (hsound : move.Sound) {key edit : Edit}
    (hkey : key ∈ move.key.edits move.plain.databaseName move.field.databaseName)
    (hedit : edit ∈ move.back.flatMap (fieldEdits (move.declarations move.plain) move.plain
        move.plain.databaseName) ++
      move.left.flatMap (attributeEdits (move.declarations move.plain) move.plain
        move.plain.databaseName)) : key.Independent edit := by
  have hentry : key = .require [move.field.databaseName] ∨
      key = move.key.entry move.plain.databaseName move.field.databaseName := by
    cases hcase : move.key with
    | id label =>
      rw [hcase] at hkey
      exact (List.mem_cons.1 hkey).imp_right List.mem_singleton.1
    | unique label =>
      rw [hcase] at hkey
      exact .inr (List.mem_singleton.1 hkey)
  rcases hentry with rfl | rfl
  · cases edit with
    | column column =>
      rcases List.mem_append.1 hedit with hback | hleft
      · obtain ⟨other, hother, hcolumn⟩ := List.mem_flatMap.1 hback
        obtain ⟨hscalar, hname⟩ := scalar_of_column hcolumn
        intro hmem
        exact hsound.columns other hother hscalar (hname.symm.trans (List.mem_singleton.1 hmem))
      · obtain ⟨attr, -, hcolumn⟩ := List.mem_flatMap.1 hleft
        exact absurd hcolumn column_not_mem_attributeEdits
    | require _ | index _ | constraint _ => exact trivial
  · have hfresh := hsound.free
    rw [tableOf_eq_edited] at hfresh
    refine (Table.independent_of_fresh hfresh).2 edit ?_
    rw [modelEdits, plain, List.flatMap_append, List.flatMap_cons, List.flatMap_append]
    rcases List.mem_append.1 hedit with hback | hleft
    · exact List.mem_append_left _ (List.mem_append_right _ (List.mem_append_right _ hback))
    · exact List.mem_append_right _ (List.mem_append_left _ hleft)

/-- The model has the same entries with the key at either place. -/
theorem sameEntries (hsound : move.Sound) :
    (tableOf (move.declarations move.atField) move.atField).1.SameEntries
      (tableOf (move.declarations move.atModel) move.atModel).1 := by
  have hkept := kept_plain hsound
  have hfield : (move.declarations move.atField).Alike (move.declarations move.plain) :=
    alike_declarations move.alike_atField hkept hkept
  have hmodel : (move.declarations move.atModel).Alike (move.declarations move.plain) :=
    alike_declarations move.alike_atModel (kept_atModel hsound) hkept
  have hstart : move.atModel.start = move.atField.start := by
    rw [Model.start, Model.start, move.alike_atModel.databaseName, move.alike_atField.databaseName]
    rfl
  rw [tableOf_eq_edited, tableOf_eq_edited, modelEdits_of_alike hfield move.alike_atField,
    modelEdits_of_alike hmodel move.alike_atModel, hstart]
  set name := move.plain.databaseName
  set ofField := fieldEdits (move.declarations move.plain) move.plain name with hofField
  set ofAttribute := attributeEdits (move.declarations move.plain) move.plain name with hofAttribute
  set start := move.atField.start.edited (move.front.flatMap ofField)
  have hscalar (field : Field) (hfield : (move.declarations move.plain).IsScalar field) :
      ofField field = columnEdits (move.declarations move.plain) name field := by
    rw [hofField, fieldEdits, hfield.1, hfield.2]
    rfl
  have hkeyed : (start.edited (ofField (move.field.withKey move.key move.position))).SameEntries
      ((start.edited (ofField move.field)).edited
        (move.key.edits name move.field.databaseName)) := by
    have hignore : (move.field.withKey move.key move.position).has "ignore" = false := by
      rw [Field.has, attribute?_withKey_of_ne _ (move.key.word_ne (by decide) (by decide))]
      exact hsound.scalar.1
    rw [hscalar _ ⟨hignore, hsound.scalar.2⟩, hscalar _ hsound.scalar]
    exact sameEntries_columnEdits name hsound.alone
  have hcolumn : (move.declarations move.plain).column move.plain.name move.field.name =
      move.field.databaseName :=
    Declarations.column_eq hsound.current hsound.fields
      (List.mem_append_right _ List.mem_cons_self)
  have hattribute : ofAttribute (move.key.atModel move.field.name) =
      move.key.edits name move.field.databaseName := by
    rw [hofAttribute, FieldKey.attributeEdits_atModel, hcolumn]
  have hatField : move.atField.fields.flatMap ofField ++
      move.atField.attributes.flatMap ofAttribute =
      move.front.flatMap ofField ++ (ofField (move.field.withKey move.key move.position) ++
        ((move.back.flatMap ofField ++ move.left.flatMap ofAttribute) ++
          move.right.flatMap ofAttribute)) := by
    simp only [atField, List.flatMap_append, List.flatMap_cons, List.append_assoc]
  have hatModel : move.atModel.fields.flatMap ofField ++
      move.atModel.attributes.flatMap ofAttribute =
      move.front.flatMap ofField ++ (ofField move.field ++
        ((move.back.flatMap ofField ++ move.left.flatMap ofAttribute) ++
          (move.key.edits name move.field.databaseName ++ move.right.flatMap ofAttribute))) := by
    simp only [atModel, List.flatMap_append, List.flatMap_cons, List.append_assoc, hattribute]
  rw [hatField, hatModel]
  exact .edited_between hkeyed fun key hkey edit hedit => independent hsound hkey hedit

/-- The schemas are equal, whichever of the places the key has. -/
theorem schemaOf_beq (hsound : move.Sound) :
    ((schemaOf (move.blocks move.atField)).1 == (schemaOf (move.blocks move.atModel)).1) =
      true := by
  have hkept := kept_plain hsound
  have hfield : (move.declarations move.atField).Alike (move.declarations move.plain) :=
    alike_declarations move.alike_atField hkept hkept
  have hmodel : (move.declarations move.atModel).Alike (move.declarations move.plain) :=
    alike_declarations move.alike_atModel (kept_atModel hsound) hkept
  have hkept' : move.atField.has "ignore" = false := hkept
  have hothers (models : List Model) : List.Forall₂ Table.SameEntries
      ((models.map (tableOf (move.declarations move.atField))).map Prod.fst)
      ((models.map (tableOf (move.declarations move.atModel))).map Prod.fst) := by
    rw [List.map_map, List.map_map]
    refine List.forall₂_map_left_iff.2 (List.forall₂_map_right_iff.2
      (List.forall₂_same.2 fun model _ => ?_))
    rw [Function.comp_apply, Function.comp_apply, hfield.tableOf, hmodel.tableOf]
    exact .refl _
  have henums : (move.declarations move.atField).enums.map
      (enumOf (move.declarations move.atField)) =
        (move.declarations move.atModel).enums.map (enumOf (move.declarations move.atModel)) := by
    rw [hfield.enums, hmodel.enums, funext hfield.enumOf, funext hmodel.enumOf]
  have htables : List.Forall₂ Table.SameEntries
      (((move.declarations move.atField).models.map
        (tableOf (move.declarations move.atField))).map Prod.fst)
      (((move.declarations move.atModel).models.map
        (tableOf (move.declarations move.atModel))).map Prod.fst) := by
    rw [models_declarations hkept', models_declarations (kept_atModel hsound)]
    simp only [List.map_append, List.map_cons]
    exact List.rel_append (hothers _) (.cons (sameEntries hsound) (hothers _))
  have hschemas := Schema.beq_foldl_addTable htables
    (beq_self_eq_true (((move.declarations move.atField).enums.map
      (enumOf (move.declarations move.atField))).foldl Schema.addEnum .empty))
  rw [schemaOf, schemaOf, ← declarations, ← declarations, ← henums]
  exact hschemas

end KeyMove

end SchemaEvolution.Prisma
