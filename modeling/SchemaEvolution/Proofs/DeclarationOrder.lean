import SchemaEvolution.Proofs.Drizzle.KeyPlacement
import SchemaEvolution.Proofs.Prisma.Tables

/-!
# The order of declarations

What a model or a table is converted to depends on the other declarations only by what is found
under their names.  Where names are distinct, the same is found in whatever order the declarations
stand, so a permutation of them gives an equal schema and the same warnings in another order.
References may lead forward, backward or both ways.
-/

namespace SchemaEvolution

namespace Prisma

/-- The same model and the same enum is found under every name. -/
structure Declarations.SameLookups (d d' : Declarations) : Prop where
  model? : ∀ name, d.model? name = d'.model? name
  enum? : ∀ name, d.enum? name = d'.enum? name

namespace Declarations.SameLookups

variable {d d' : Declarations} (hsame : d.SameLookups d')

include hsame

theorem column (model : String) : d.column model = d'.column model := by
  funext field
  rw [Declarations.column, Declarations.column, hsame.model?]

theorem columnOf (field : Field) : columnOf d field = columnOf d' field := by
  rw [Prisma.columnOf, Prisma.columnOf, columnType, columnType, hsame.enum?]

theorem relation? (model : Model) (field : Field) :
    relation? d model field = relation? d' model field := by
  simp only [Prisma.relation?, foreignKeyTo, hsame.model?, hsame.column]

theorem addField (model : Model) : addField d model = addField d' model := by
  funext state field
  simp only [Prisma.addField, addColumn, hsame.model?, hsame.relation?, hsame.columnOf]

theorem addAttribute (model : Model) : addAttribute d model = addAttribute d' model := by
  funext table attr
  simp only [Prisma.addAttribute, hsame.column]

theorem tableOf : tableOf d = tableOf d' := by
  funext model
  rw [Prisma.tableOf, Prisma.tableOf, hsame.addField, hsame.addAttribute]

theorem enumOf : enumOf d = enumOf d' := by
  funext block
  rw [Prisma.enumOf, Prisma.enumOf, hsame.enum?]

end Declarations.SameLookups

/-- No two models that are not ignored have the same name or the same database name, and no two
enums have. -/
structure Declarations.DistinctNames (d : Declarations) : Prop where
  models : (d.models.map Model.name).Nodup
  tables : (d.models.map Model.databaseName).Nodup
  enums : (d.enums.map EnumBlock.name).Nodup
  types : (d.enums.map EnumBlock.databaseName).Nodup

namespace Declarations.DistinctNames

variable {d d' : Declarations} (hdistinct : d.DistinctNames)

include hdistinct

theorem sameLookups (hmodels : d.models.Perm d'.models) (henums : d.enums.Perm d'.enums) :
    d.SameLookups d' where
  model? := Keyed.find?_reverse_perm hdistinct.models hmodels
  enum? := Keyed.find?_reverse_perm hdistinct.enums henums

/-- Every enum is the one that is found under its name. -/
theorem name_enumOf : (d.enums.map (enumOf d)).map EnumType.name =
    d.enums.map EnumBlock.databaseName := by
  rw [List.map_map]
  refine List.map_congr_left fun block hmem => ?_
  have hfound : d.enum? block.name = some block :=
    Keyed.find?_named (Keyed.nodup_map_reverse hdistinct.enums) (List.mem_reverse.2 hmem)
  rw [Function.comp, enumOf, hfound]
  rfl

end Declarations.DistinctNames

/-- Blocks may be converted in any order. -/
theorem schemaOf_perm {blocks blocks' : List Block}
    (hdistinct : (Declarations.ofBlocks blocks).DistinctNames) (hperm : blocks.Perm blocks') :
    ((schemaOf blocks).1 == (schemaOf blocks').1) = true := by
  have hmodels : (Declarations.ofBlocks blocks).models.Perm
      (Declarations.ofBlocks blocks').models := hperm.filterMap _
  have henums : (Declarations.ofBlocks blocks).enums.Perm
      (Declarations.ofBlocks blocks').enums := hperm.filterMap _
  have hsame := hdistinct.sameLookups hmodels henums
  rw [schemaOf, schemaOf, ← hsame.tableOf, ← hsame.enumOf]
  refine Schema.beq_of_perm ?_ ((hmodels.map _).map _) ?_ (henums.map _)
  · have hname : (Table.name ∘ Prod.fst) ∘ tableOf (Declarations.ofBlocks blocks) =
        Model.databaseName := funext (tableOf_name _)
    rw [List.map_map, List.map_map, hname]
    exact hdistinct.tables
  · rw [hdistinct.name_enumOf]
    exact hdistinct.types

end Prisma

namespace Drizzle

/-- The same table and the same enumerated type is found under every variable. -/
structure Declarations.SameLookups (d d' : Declarations) : Prop where
  table? : ∀ name, d.table? name = d'.table? name
  enum? : ∀ name, d.enum? name = d'.enum? name

namespace Declarations.SameLookups

variable {d d' : Declarations} (hsame : d.SameLookups d')

include hsame

theorem columnOf (dialect : Dialect) (column : ColumnDeclaration) :
    columnOf dialect d column = columnOf dialect d' column := by
  simp only [Drizzle.columnOf, baseType, postgresType, hsame.enum?]

theorem foreignColumn? (variableName key : String) :
    foreignColumn? d variableName key = foreignColumn? d' variableName key := by
  rw [Drizzle.foreignColumn?, Drizzle.foreignColumn?, hsame.table?]

theorem referenceOf (table : TableDeclaration) (column : String) (arguments : List Expression) :
    referenceOf d table column arguments = referenceOf d' table column arguments := by
  simp only [Drizzle.referenceOf, hsame.foreignColumn?]

theorem foreignKeyOf (table : TableDeclaration) (chain : Chain) :
    foreignKeyOf d table chain = foreignKeyOf d' table chain := by
  simp only [Drizzle.foreignKeyOf, foreignColumns, hsame.foreignColumn?]

theorem addColumn (dialect : Dialect) (table : TableDeclaration) :
    addColumn dialect d table = addColumn dialect d' table := by
  funext state column
  simp only [Drizzle.addColumn, hsame.columnOf, hsame.referenceOf]

theorem addOption (declaration : TableDeclaration) :
    addOption d declaration = addOption d' declaration := by
  funext table option
  simp only [Drizzle.addOption, hsame.foreignKeyOf]

/-- A declaration gives the same table with the same warnings. -/
theorem tableOf (dialect : Dialect) : tableOf dialect d = tableOf dialect d' := by
  funext declaration
  rw [Drizzle.tableOf, Drizzle.tableOf, hsame.addColumn, hsame.addOption]

end Declarations.SameLookups

/-- No two tables are held by the same variable or have the same name, and no two enumerated types
do. -/
structure Declarations.DistinctNames (d : Declarations) : Prop where
  tableVariables : (d.tables.map TableDeclaration.variableName).Nodup
  tables : (d.tables.map TableDeclaration.name).Nodup
  enumVariables : (d.enums.map EnumDeclaration.variableName).Nodup
  enums : (d.enums.map EnumDeclaration.name).Nodup

theorem Declarations.DistinctNames.sameLookups {d d' : Declarations}
    (hdistinct : d.DistinctNames) (htables : d.tables.Perm d'.tables)
    (henums : d.enums.Perm d'.enums) : d.SameLookups d' where
  table? := Keyed.find?_reverse_perm hdistinct.tableVariables htables
  enum? := Keyed.find?_reverse_perm hdistinct.enumVariables henums

theorem name_tableOf (dialect : Dialect) (d : Declarations) (declaration : TableDeclaration) :
    (tableOf dialect d declaration).1.name = declaration.name := by
  rw [fst_tableOf, Table.name_edited]
  rfl

/-- Declarations may be converted in any order. -/
theorem schemaOf_perm (dialect : Dialect) {d d' : Declarations} (hdistinct : d.DistinctNames)
    (htables : d.tables.Perm d'.tables) (henums : d.enums.Perm d'.enums) :
    ((schemaOf dialect d).1 == (schemaOf dialect d').1) = true ∧
      (schemaOf dialect d).2.Perm (schemaOf dialect d').2 := by
  have hconverted := htables.map (tableOf dialect d)
  have hnames : (((d.tables.map (tableOf dialect d)).map Prod.fst).map Table.name).Nodup := by
    have hname : (Table.name ∘ Prod.fst) ∘ tableOf dialect d = TableDeclaration.name :=
      funext (name_tableOf dialect d)
    rw [List.map_map, List.map_map, hname]
    exact hdistinct.tables
  have htypes : ((d.enums.map fun type => (⟨type.name, type.values, none⟩ : EnumType)).map
      EnumType.name).Nodup := by
    rw [List.map_map]
    exact hdistinct.enums
  rw [schemaOf.eq_def, schemaOf.eq_def, ← (hdistinct.sameLookups htables henums).tableOf dialect]
  refine ⟨?_, hconverted.flatMap_right _⟩
  cases dialect with
  | postgres => exact Schema.beq_of_perm hnames (hconverted.map _) htypes (henums.map _)
  | mysql => exact Schema.beq_of_perm hnames (hconverted.map _) List.nodup_nil (.refl _)

end Drizzle

/-- Declarations with distinct names may stand in any order.  Prisma blocks are converted without
warnings, and Drizzle declarations with the same ones. -/
theorem conversion_perm :
    (∀ blocks blocks' : List Prisma.Block,
      (Prisma.Declarations.ofBlocks blocks).DistinctNames → blocks.Perm blocks' →
      ((Prisma.schemaOf blocks).1 == (Prisma.schemaOf blocks').1) = true ∧
        (Prisma.schemaOf blocks).2 = [] ∧ (Prisma.schemaOf blocks').2 = []) ∧
    ∀ (dialect : Drizzle.Dialect) (d d' : Drizzle.Declarations), d.DistinctNames →
      d.tables.Perm d'.tables → d.enums.Perm d'.enums →
      ((Drizzle.schemaOf dialect d).1 == (Drizzle.schemaOf dialect d').1) = true ∧
        (Drizzle.schemaOf dialect d).2.Perm (Drizzle.schemaOf dialect d').2 :=
  ⟨fun blocks blocks' hdistinct hperm => ⟨Prisma.schemaOf_perm hdistinct hperm,
    Prisma.schemaOf_warnings blocks, Prisma.schemaOf_warnings blocks'⟩,
    fun dialect _ _ => Drizzle.schemaOf_perm dialect⟩

/-- Two models, and two tables, that refer to each other; one table also refers to nothing. -/
theorem conversion_perm_mutual :
    let relation (field target : String) : Prisma.Field :=
      ⟨target, target, [], true, false, [⟨"relation", [(some "fields", .list [.word field]),
        (some "references", .list [.word "id"])]⟩], none, 0⟩
    let author : Prisma.Model := ⟨"Author", [relation "postId" "Post"], [], none⟩
    let post : Prisma.Model := ⟨"Post", [relation "authorId" "Author"], [], none⟩
    let reference (key target : String) : Drizzle.ColumnDeclaration :=
      ⟨key, key, ⟨"integer", [], [⟨"references", [.arrow [] (.member (.word target) "id")]⟩]⟩⟩
    let authors : Drizzle.TableDeclaration :=
      ⟨"authors", "authors", [reference "post" "posts"], none, [], 1⟩
    let posts : Drizzle.TableDeclaration :=
      ⟨"posts", "posts", [reference "author" "authors", reference "tag" "tags"], none, [], 2⟩
    ((Prisma.schemaOf [.model author, .model post]).1 ==
        (Prisma.schemaOf [.model post, .model author]).1) = true ∧
      ((Drizzle.schemaOf .postgres ⟨[authors, posts], []⟩).1 ==
          (Drizzle.schemaOf .postgres ⟨[posts, authors], []⟩).1) = true ∧
        (Drizzle.schemaOf .postgres ⟨[authors, posts], []⟩).2.Perm
          (Drizzle.schemaOf .postgres ⟨[posts, authors], []⟩).2 := by
  intro relation author post reference authors posts
  have hmodels : (Prisma.Declarations.ofBlocks [.model author, .model post]).DistinctNames :=
    ⟨by decide, by decide, List.nodup_nil, List.nodup_nil⟩
  have htables : (⟨[authors, posts], []⟩ : Drizzle.Declarations).DistinctNames :=
    ⟨by decide, by decide, List.nodup_nil, List.nodup_nil⟩
  obtain ⟨hprisma, hdrizzle⟩ := conversion_perm
  exact ⟨(hprisma _ _ hmodels (.swap _ _ [])).1,
    hdrizzle .postgres _ ⟨[posts, authors], []⟩ htables (.swap _ _ []) .nil⟩

end SchemaEvolution
