import SchemaEvolution.Proofs.Drizzle.KeyPlacement
import SchemaEvolution.Proofs.Drizzle.References
import SchemaEvolution.Proofs.Prisma.UnclosedBlock
import SchemaEvolution.Proofs.Sql.KeyPlacement
import SchemaEvolution.Proofs.Sql.PlainSchema
import SchemaEvolution.Proofs.Sql.StatementOrder

/-!
# Two spellings of a key

A key of one column is written at its column or with the keys of its table.  In a script, a Prisma
schema and a Drizzle schema alike, both spellings give the same tables, in whatever order their
constraints are stored.
-/

namespace SchemaEvolution

namespace Table

variable {left right : Table}

/-- Tables with the same entries have the same primary key, if there is one at most. -/
theorem OneKey.primaryKey?_eq (hone : left.OneKey) (hsame : left.SameEntries right) :
    left.primaryKey? = right.primaryKey? := by
  have hvalues : left.constraints.values.Perm right.constraints.values :=
    Keyed.values_perm hsame.constraints
  cases hright : right.primaryKey? with
  | some key =>
    exact primaryKey?_of_mem hone (hvalues.mem_iff.2 (mem_of_primaryKey? hright))
  | none =>
    rw [primaryKey?, List.findSome?_eq_none_iff] at hright ⊢
    exact fun constraint hmem => hright constraint (hvalues.mem_iff.1 hmem)

end Table

namespace Sql

open Syntax

variable {text text' : String} {state : Import} {lexemes lexemes' : List Lexeme}
  {following following' : List Token} {table : TableSyntax}

theorem keyColumns_addTable {schema : Schema} {left right : Table}
    (hleft : (schema.addTable left).WellKeyed) (hright : (schema.addTable right).WellKeyed)
    (hsame : left.SameEntries right) (hone : left.OneKey) :
    keyColumns (schema.addTable left) = keyColumns (schema.addTable right) := by
  funext target
  rw [keyColumns_eq hleft.1, keyColumns_eq hright.1]
  simp only [Schema.addTable, Keyed.get?_insert, hsame.name]
  split
  · rw [Option.bind_some, Option.bind_some, hone.primaryKey?_eq hsame]
  · rfl

/-- References without columns stand for the same ones, next to either of the tables. -/
theorem resolveReferences_addTable_beq {schema : Schema} {left right : Table}
    (hleft : (schema.addTable left).WellKeyed) (hright : (schema.addTable right).WellKeyed)
    (hsame : left.SameEntries right) (hone : left.OneKey) :
    (resolveReferences (schema.addTable left) ==
      resolveReferences (schema.addTable right)) = true := by
  have hcolumns := keyColumns_addTable hleft hright hsame hone
  have hresolved (change : Constraint → Constraint) :
      { left with constraints := left.constraints.map change }.SameEntries
        { right with constraints := right.constraints.map change } :=
    ⟨hsame.name, hsame.comment, hsame.columns, hsame.indexes, fun key => by
      rw [Keyed.get?_map, Keyed.get?_map, hsame.constraints]⟩
  refine (Schema.beq_iff _ _).2
    ⟨(Keyed.beq_iff_get? _ _).2 fun name => ?_, beq_self_eq_true _, beq_self_eq_true _⟩
  rw [get?_resolveReferences, get?_resolveReferences, hcolumns, Schema.addTable, Schema.addTable,
    Keyed.get?_insert, Keyed.get?_insert, hsame.name]
  split
  · exact (hresolved _).beq
  · exact beq_self_eq_true _

theorem turns_scriptStep_wellKeyed {state following : Import} {rest : List Lexeme}
    (hturns : Turns scriptStep state lexemes following rest)
    (hkeyed : state.schema.WellKeyed) : following.schema.WellKeyed := by
  induction hturns with
  | none => exact hkeyed
  | more hturn _ _ ih => exact ih (scriptStep_wellKeyed hkeyed hturn)

/-- A script comes to the statement of a table, with some tokens behind it. -/
structure Reaches (text : String) (state : Import) (lexemes : List Lexeme) (table : TableSyntax)
    (following : List Token) : Prop where
  turns : Turns scriptStep ⟨.empty, []⟩ (Lexeme.ofText text) state lexemes
  sound : table.Sound
  tokens : lexemes.map Lexeme.token = table.tokens ++ following

/-- From a state on, a script defines a table, with some tokens behind it. -/
def Defines (text : String) (state : Import) (table : Table) (following : List Token) : Prop :=
  ∃ rest, rest.map Lexeme.token = following ∧
    Turns scriptStep ⟨.empty, []⟩ (Lexeme.ofText text)
      { state with schema := state.schema.addTable table } rest

namespace Reaches

theorem exists_begins (hreaches : Reaches text state lexemes table following) :
    ∃ rest, rest.map Lexeme.token = following ∧ Begins table.tokens rest lexemes :=
  begins_of_tokens (turns_scriptStep_suffix hreaches.turns) hreaches.tokens
    fun _ => by rw [table.getLast?_tokens]; decide

/-- The statement adds the table that is written. -/
theorem defines (hreaches : Reaches text state lexemes table following)
    (hcolumns : table.columns ≠ []) :
    Defines text state (table.definition lexemes).finish following := by
  obtain ⟨rest, hrest, hbegins⟩ := hreaches.exists_begins
  exact ⟨rest, hrest, hreaches.turns.trans (turns_accepted (TableSyntax.next_ne_eof hbegins)
    (hbegins.statement_eq hreaches.sound hcolumns state.schema))⟩

theorem wellKeyed (hreaches : Reaches text state lexemes table following)
    (hcolumns : table.columns ≠ []) :
    (state.schema.addTable (table.definition lexemes).finish).WellKeyed := by
  obtain ⟨rest, -, hturns⟩ := hreaches.defines hcolumns
  exact turns_scriptStep_wellKeyed hturns Schema.wellKeyed_empty

/-- Every element is spelled by its lexemes. -/
theorem spells (hreaches : Reaches text state lexemes table following) :
    ∀ written ∈ table.written lexemes, Spells written.1.marked.tokens written.2 := by
  obtain ⟨rest, -, hbegins⟩ := hreaches.exists_begins
  obtain ⟨middle, hhead, hinside⟩ := hbegins.split
  obtain ⟨closing, hbody, -⟩ := hinside.split
  rw [TableSyntax.written, hhead.drop_eq]
  exact TableDefinition.spells_writtenElements hbody.spells

/-- What a script gives that ends with the statement. -/
theorem schema_eq (hreaches : Reaches text state lexemes table [.eof])
    (hcolumns : table.columns ≠ []) :
    (Schema.ofSql text).schema =
      resolveReferences (state.schema.addTable (table.definition lexemes).finish) := by
  obtain ⟨rest, hrest, hturns⟩ := hreaches.defines hcolumns
  have hend : next rest = .eof := by
    rw [next_eq_head?, hrest]
    rfl
  rw [schema_ofSql, asWritten, readOn_of_turns hturns, readOn_eof hend]

end Reaches

theorem Syntax.TableSyntax.columns_ne_nil {column : ColumnSyntax} {taken : List Lexeme}
    (hmem : (ElementSyntax.column column, taken) ∈ table.written lexemes) :
    table.columns ≠ [] := by
  have helement : ElementSyntax.column column ∈ table.elements := by
    have hparts : (table.written lexemes).map Prod.fst = table.elements :=
      TableDefinition.map_fst_writtenElements _ _
    exact hparts ▸ List.mem_map_of_mem hmem
  exact List.ne_nil_of_mem (List.mem_filterMap.2 ⟨_, helement, rfl⟩)

namespace Syntax.KeyMove

variable {move : KeyMove} {atColumn atTable : TableSyntax}

theorem columns_atColumn (hwritten : atColumn.written lexemes = move.atColumn) :
    atColumn.columns ≠ [] := by
  have hmem : (ElementSyntax.column (move.column.withKey move.key move.position), move.written) ∈
      move.atColumn := List.mem_append_right _ List.mem_cons_self
  exact TableSyntax.columns_ne_nil (hwritten ▸ hmem)

theorem columns_atTable {name : String} (hsound : move.Sound name)
    (hwritten : atTable.written lexemes = move.atTable) : atTable.columns ≠ [] := by
  have hcolumn : ElementSyntax.column move.column ∈ move.others.map Prod.fst :=
    List.mem_map.2 ⟨_, List.mem_append_right _ List.mem_cons_self, rfl⟩
  rw [map_fst_others hsound] at hcolumn
  obtain ⟨⟨part, taken⟩, hmem, rfl⟩ := List.mem_map.1 hcolumn
  have htable : (ElementSyntax.column move.column, taken) ∈ move.atTable :=
    (List.mem_append.1 hmem).elim (List.mem_append_left _)
      fun hright => List.mem_append_right _ (List.mem_cons_of_mem _ hright)
  exact TableSyntax.columns_ne_nil (hwritten ▸ htable)

/-- The statements define tables with the same entries. -/
theorem sameEntries_definition (hreaches : Reaches text state lexemes atColumn following)
    (hname : atTable.name.name = atColumn.name.name) (hsound : move.Sound atColumn.name.name)
    (hatColumn : atColumn.written lexemes = move.atColumn)
    (hatTable : atTable.written lexemes' = move.atTable) :
    (atColumn.definition lexemes).finish.SameEntries (atTable.definition lexemes').finish := by
  have hspells : Spells (move.column.withKey move.key move.position).marked.tokens move.written :=
    hreaches.spells (.column (move.column.withKey move.key move.position), move.written)
      (hatColumn ▸ List.mem_append_right _ List.mem_cons_self)
  rw [TableSyntax.definition, TableSyntax.definition, hatColumn, hatTable, hname]
  exact sameEntries hsound hspells

/-- Wherever in their scripts the statements stand, they are read and define equal tables.  At the
end of a script, the whole schemas are equal. -/
theorem tables_beq (hreaches : Reaches text state lexemes atColumn following)
    (hreaches' : Reaches text' state lexemes' atTable following')
    (hname : atTable.name.name = atColumn.name.name) (hsound : move.Sound atColumn.name.name)
    (hatColumn : atColumn.written lexemes = move.atColumn)
    (hatTable : atTable.written lexemes' = move.atTable) :
    Defines text state (atColumn.definition lexemes).finish following ∧
      Defines text' state (atTable.definition lexemes').finish following' ∧
      ((atColumn.definition lexemes).finish == (atTable.definition lexemes').finish) = true ∧
      (following = [.eof] → following' = [.eof] → (atColumn.definition lexemes).finish.OneKey →
        ((Schema.ofSql text).schema == (Schema.ofSql text').schema) = true) := by
  have hcolumns := columns_atColumn hatColumn
  have hcolumns' := columns_atTable hsound hatTable
  have hsame := sameEntries_definition hreaches hname hsound hatColumn hatTable
  refine ⟨hreaches.defines hcolumns, hreaches'.defines hcolumns', hsame.beq, ?_⟩
  rintro rfl rfl hone
  rw [hreaches.schema_eq hcolumns, hreaches'.schema_eq hcolumns']
  exact resolveReferences_addTable_beq (hreaches.wellKeyed hcolumns)
    (hreaches'.wellKeyed hcolumns') hsame hone

end Syntax.KeyMove

end Sql

/-- A single key of a column is the same one at its column and with the keys of its table: in
scripts, in Prisma schemas and in Drizzle schemas. -/
theorem keyMove_beq :
    (∀ (text text' : String) (state : Import) (lexemes lexemes' : List Sql.Lexeme)
      (following following' : List Sql.Token) (atColumn atTable : Sql.Syntax.TableSyntax)
      (move : Sql.Syntax.KeyMove),
      Sql.Reaches text state lexemes atColumn following →
      Sql.Reaches text' state lexemes' atTable following' →
      atTable.name.name = atColumn.name.name → move.Sound atColumn.name.name →
      atColumn.written lexemes = move.atColumn → atTable.written lexemes' = move.atTable →
      Sql.Defines text state (atColumn.definition lexemes).finish following ∧
        Sql.Defines text' state (atTable.definition lexemes').finish following' ∧
        ((atColumn.definition lexemes).finish == (atTable.definition lexemes').finish) = true ∧
        (following = [.eof] → following' = [.eof] → (atColumn.definition lexemes).finish.OneKey →
          ((Schema.ofSql text).schema == (Schema.ofSql text').schema) = true)) ∧
    (∀ (text text' : String) (move : Prisma.KeyMove), move.Sound →
      (Prisma.readBlocks text).1.map Prisma.Block.unlined =
        (move.blocks move.atField).map Prisma.Block.unlined →
      (Prisma.readBlocks text').1.map Prisma.Block.unlined =
        (move.blocks move.atModel).map Prisma.Block.unlined →
      ((Schema.ofPrisma text).schema == (Schema.ofPrisma text').schema) = true) ∧
    (∀ (text text' : String) (move : Drizzle.KeyMove),
      Drizzle.Dialect.detect text' = Drizzle.Dialect.detect text →
      move.Sound (Drizzle.Dialect.detect text) →
      (Drizzle.readDeclarations text).1.unlined = (move.declarations move.atColumn).unlined →
      (Drizzle.readDeclarations text').1.unlined = (move.declarations move.atTable).unlined →
      ((Schema.ofDrizzle text).schema == (Schema.ofDrizzle text').schema) = true) := by
  refine ⟨fun text text' state lexemes lexemes' following following' atColumn atTable move =>
    Sql.Syntax.KeyMove.tables_beq, ?_, ?_⟩
  · intro text text' move hsound hatField hatModel
    have hbeq := move.schemaOf_beq hsound
    rw [← Prisma.fst_schemaOf_unlined, ← hatField, Prisma.fst_schemaOf_unlined,
      ← Prisma.fst_schemaOf_unlined (move.blocks move.atModel), ← hatModel,
      Prisma.fst_schemaOf_unlined] at hbeq
    exact hbeq
  · intro text text' move hdialect hsound hatColumn hatTable
    have hbeq := move.schemaOf_beq hsound
    rw [← Drizzle.fst_schemaOf_unlined, ← hatColumn, Drizzle.fst_schemaOf_unlined,
      ← Drizzle.fst_schemaOf_unlined _ (move.declarations move.atTable), ← hatTable,
      Drizzle.fst_schemaOf_unlined] at hbeq
    rw [Schema.ofDrizzle, Schema.ofDrizzle, hdialect]
    exact hbeq

/-! ## Texts with both spellings -/

namespace Sql

open Syntax

def intColumn (name : String) : ColumnSyntax := ⟨.word name, [.word "int"], [], none⟩

def columnKeyText : String := "CREATE TABLE t (a int PRIMARY KEY, b int);"

def columnKeyTable : TableSyntax where
  words := []
  ifNotExists := false
  name := ⟨.word "t", []⟩
  first := .column ((intColumn "a").withKey .primaryKey 0)
  more := [.column (intColumn "b")]
  rest := []

def tableKeyText : String := "CREATE TABLE t (a int, b int, PRIMARY KEY (a));"

def tableKeyTable : TableSyntax where
  words := []
  ifNotExists := false
  name := ⟨.word "t", []⟩
  first := .column (intColumn "a")
  more := [.column (intColumn "b"), .clause none (.primaryKey [.word "a"]) []]
  rest := []

/-- The names and the type that the texts use, and the tokens of both texts. -/
theorem keyTexts : (Token.isOneOf ["like", "exclude"] (.word "a") = false ∧
      Token.isOneOf ["like", "exclude"] (.word "b") = false ∧
      Passes endsType 0 [.word "int"] 0) ∧
    (Lexeme.ofText columnKeyText).map Lexeme.token = columnKeyTable.tokens ++ [.eof] ∧
    (Lexeme.ofText tableKeyText).map Lexeme.token = tableKeyTable.tokens ++ [.eof] := by
  have hcolumn : Lexeme.ofText columnKeyText = _ := Lexeme.ofText_ofList _
  have htable : Lexeme.ofText tableKeyText = _ := Lexeme.ofText_ofList _
  rw [hcolumn, htable]
  decide +kernel

/-- A column of integers is a definition that its end closes. -/
theorem fits_intColumn {name : String} {next : List Token}
    (hname : (Token.word name).isOneOf ["like", "exclude"] = false)
    (hnext : next.head? = some .comma ∨ next.head? = some .rightParen) :
    (intColumn name).Fits next where
  name := rfl
  isNot := hname
  typed := List.cons_ne_nil _ _
  type := keyTexts.1.2.2
  behindType := by
    obtain ⟨token, more, rfl⟩ : ∃ token more, next = token :: more :=
      List.exists_cons_of_ne_nil fun hnil => by simp [hnil] at hnext
    rcases hnext with hnext | hnext <;> cases hnext <;> rfl
  attributes := trivial
  generated := by rintro _ ⟨⟩
  behind := hnext

/-- The statement with the key at its column is the whole script. -/
theorem reaches_columnKeyTable :
    Reaches columnKeyText ⟨.empty, []⟩ (Lexeme.ofText columnKeyText) columnKeyTable [.eof] where
  turns := .none _ _
  sound := {
    words := by decide
    name := ⟨rfl, List.forall_mem_nil _⟩
    isNotIf := fun _ => by decide
    first := fun behind => {
      name := rfl
      isNot := keyTexts.1.1
      typed := by decide
      type := keyTexts.1.2.2
      behindType := rfl
      attributes := ⟨trivial, trivial⟩
      generated := by rintro _ ⟨⟩
      behind := .inl rfl }
    more := fun behind => ⟨fits_intColumn keyTexts.1.2.1 (.inr rfl), trivial⟩
    rest := by decide }
  tokens := keyTexts.2.1

/-- The statement with the key behind the columns is the whole script. -/
theorem reaches_tableKeyTable :
    Reaches tableKeyText ⟨.empty, []⟩ (Lexeme.ofText tableKeyText) tableKeyTable [.eof] where
  turns := .none _ _
  sound := {
    words := by decide
    name := ⟨rfl, List.forall_mem_nil _⟩
    isNotIf := fun _ => by decide
    first := fun behind => fits_intColumn keyTexts.1.1 (.inl rfl)
    more := fun behind => ⟨fits_intColumn keyTexts.1.2.1 (.inl rfl),
      ⟨by rintro _ ⟨⟩, List.forall_mem_singleton.2 (by decide), rfl, .inr rfl⟩, trivial⟩
    rest := by decide }
  tokens := keyTexts.2.2

def idMove : KeyMove where
  key := .primaryKey
  column := intColumn "a"
  position := 0
  written := ((columnKeyTable.written (Lexeme.ofText columnKeyText)).map Prod.snd).headD []
  front := []
  back := (columnKeyTable.written (Lexeme.ofText columnKeyText)).drop 1
  name := .word "a"
  behind := []
  clause := ((tableKeyTable.written (Lexeme.ofText tableKeyText)).map Prod.snd).getLastD []
  left := (tableKeyTable.written (Lexeme.ofText tableKeyText)).take 2
  right := []

/-- The key of one column may be at either place. -/
theorem sound_idMove : idMove.Sound "t" where
  alike := by
    have halike {taken taken' : List Lexeme} (hsame : taken = taken') :
        List.Forall₂ Lexeme.Alike taken taken' := by
      rw [hsame]
      exact List.forall₂_same.2 fun _ _ => ⟨rfl, rfl, rfl⟩
    have htails : idMove.others.map (fun written => written.2.tail) =
        idMove.left.map fun written => written.2.tail := by
      have hcolumn : Lexeme.ofText columnKeyText = _ := Lexeme.ofText_ofList _
      have htable : Lexeme.ofText tableKeyText = _ := Lexeme.ofText_ofList _
      rw [KeyMove.others, idMove, hcolumn, htable]
      decide +kernel
    obtain ⟨hfirst, hmore⟩ := List.cons.inj htails
    exact .cons ⟨rfl, halike hfirst⟩ (.cons ⟨rfl, halike (List.cons.inj hmore).1⟩ .nil)
  named := rfl
  isName := rfl
  unnamed := rfl
  alone := by
    rintro - _ ⟨⟩
  distinct := by decide
  free := by
    have hnames : idMove.others.flatMap (fun written => written.1.names "t") = [] := by
      decide
    exact fun written hmem hname =>
      List.not_mem_nil (hnames ▸ List.mem_flatMap_of_mem hmem hname)

theorem oneKey_columnKeyTable :
    (columnKeyTable.definition (Lexeme.ofText columnKeyText)).finish.OneKey := by
  have hcolumn : Lexeme.ofText columnKeyText = _ := Lexeme.ofText_ofList _
  rw [hcolumn]
  decide

end Sql

namespace Prisma

def columnKeyText : String := "model Post \x7b\n  slug String @unique\n\x7d"

def tableKeyText : String := "model Post \x7b\n  slug String\n  @@unique([slug])\n\x7d"

def slugMove : KeyMove where
  key := .unique none
  field := ⟨"slug", "String", [], false, false, [], none, 2⟩
  position := 0
  front := []
  back := []
  left := []
  right := []
  name := "Post"
  doc := none
  before := []
  after := []

theorem sound_slugMove : slugMove.Sound where
  current := rfl
  scalar := ⟨rfl, rfl⟩
  alone := rfl
  fields := by decide
  columns := by rintro _ ⟨⟩
  free := rfl

def postBlock (lines : List ModelContent) : BlockSyntax :=
  ⟨[], "Post", ⟨none, []⟩, .model (lines.map fun line => (line, ⟨none, []⟩))⟩

def slugField (attributes : List AttributeSyntax) : ModelContent :=
  .field "slug" ⟨⟨"String", []⟩, none, false, false, attributes⟩

def columnKeyBlock : BlockSyntax := postBlock [slugField [⟨⟨"unique", []⟩, none⟩]]

def tableKeyBlock : BlockSyntax :=
  postBlock [slugField [], .attr ⟨⟨"unique", []⟩,
    some (.argument none (.list (.item (.word ⟨"slug", []⟩) .done)) .done)⟩]

/-- Both texts are the tokens of one block. -/
theorem keyTexts :
    (Lexeme.ofText columnKeyText).map Lexeme.token = sourceTokens [columnKeyBlock] [] ∧
      (Lexeme.ofText tableKeyText).map Lexeme.token = sourceTokens [tableKeyBlock] [] := by
  have hcolumn : columnKeyText.toList = _ := String.toList_ofList
  have htable : tableKeyText.toList = _ := String.toList_ofList
  rw [Lexeme.ofText, Lexeme.ofText, hcolumn, htable]
  decide +kernel

theorem unlined_columnKeyText : (readBlocks columnKeyText).1.map Block.unlined =
    (slugMove.blocks slugMove.atField).map Block.unlined :=
  (readBlocks_source keyTexts.1).1

theorem unlined_tableKeyText : (readBlocks tableKeyText).1.map Block.unlined =
    (slugMove.blocks slugMove.atModel).map Block.unlined :=
  (readBlocks_source keyTexts.2).1

end Prisma

namespace Drizzle

def columnKeyText : String :=
  "const users = pgTable('users', \x7b id: integer('id') \x7d);
const posts = pgTable('posts', \x7b
  author: integer('author').references(() => users.id, \x7b onDelete: 'cascade' \x7d),
\x7d);"

def tableKeyText : String :=
  "const users = pgTable('users', \x7b id: integer('id') \x7d);
const posts = pgTable('posts', \x7b author: integer('author') \x7d, (t) => [
  foreignKey(\x7b columns: [t.author], foreignColumns: [users.id] \x7d).onDelete('cascade'),
]);"

def integerColumn (name : String) : ColumnDeclaration :=
  ⟨name, name, ⟨"integer", [.string name], []⟩⟩

def authorMove : KeyMove where
  key := .references "users" "id" [.object [("onDelete", .string "cascade")]]
    [⟨"onDelete", [.string "cascade"]⟩]
  column := integerColumn "author"
  position := 0
  front := []
  back := []
  left := []
  right := []
  parameter := "t"
  columnParameter := none
  variableName := "posts"
  name := "posts"
  line := 2
  before := [⟨"users", "users", [integerColumn "id"], none, [], 1⟩]
  after := []
  enums := []

theorem sound_authorMove : authorMove.Sound .postgres where
  agrees := ⟨by decide, List.forall_mem_cons.2 ⟨rfl, List.forall_mem_singleton.2 rfl⟩⟩
  parameter := .inr rfl
  alone := by decide
  only := by rintro ⟨⟩
  keys := by decide
  columns := by rintro _ ⟨⟩
  free := List.forall_mem_singleton.2 rfl

section

set_option maxRecDepth 4000

def columnKeyLexemes : List Lexeme :=
  lineOf 1 [.word "const", .word "users", .equals, .word "pgTable", .leftParen,
    .string "users", .comma, .leftBrace, .word "id", .colon, .word "integer", .leftParen,
    .string "id", .rightParen, .rightBrace, .rightParen, .semicolon] ++
  lineOf 2 [.word "const", .word "posts", .equals, .word "pgTable", .leftParen,
    .string "posts", .comma, .leftBrace] ++
  lineOf 3 [.word "author", .colon, .word "integer", .leftParen, .string "author",
    .rightParen, .dot, .word "references", .leftParen, .leftParen, .rightParen, .arrow,
    .word "users", .dot, .word "id", .comma, .leftBrace, .word "onDelete", .colon,
    .string "cascade", .rightBrace, .rightParen, .comma] ++
  lineOf 4 [.rightBrace, .rightParen, .semicolon, .eof]

def tableKeyLexemes : List Lexeme :=
  lineOf 1 [.word "const", .word "users", .equals, .word "pgTable", .leftParen,
    .string "users", .comma, .leftBrace, .word "id", .colon, .word "integer", .leftParen,
    .string "id", .rightParen, .rightBrace, .rightParen, .semicolon] ++
  lineOf 2 [.word "const", .word "posts", .equals, .word "pgTable", .leftParen,
    .string "posts", .comma, .leftBrace, .word "author", .colon, .word "integer", .leftParen,
    .string "author", .rightParen, .rightBrace, .comma, .leftParen, .word "t", .rightParen,
    .arrow, .leftBracket] ++
  lineOf 3 [.word "foreignKey", .leftParen, .leftBrace, .word "columns", .colon,
    .leftBracket, .word "t", .dot, .word "author", .rightBracket, .comma,
    .word "foreignColumns", .colon, .leftBracket, .word "users", .dot, .word "id",
    .rightBracket, .rightBrace, .rightParen, .dot, .word "onDelete", .leftParen,
    .string "cascade", .rightParen, .comma] ++
  lineOf 4 [.rightBracket, .rightParen, .semicolon, .eof]

/-- Both texts are for the same database, and these are their lexemes. -/
theorem keyTexts : (Dialect.detect columnKeyText = .postgres ∧
      Lexeme.ofText columnKeyText = columnKeyLexemes) ∧
    Dialect.detect tableKeyText = .postgres ∧ Lexeme.ofText tableKeyText = tableKeyLexemes := by
  have hcolumn : columnKeyText.toList = _ := String.toList_ofList
  have htable : tableKeyText.toList = _ := String.toList_ofList
  rw [Dialect.detect, Dialect.detect, Lexeme.ofText, Lexeme.ofText, hcolumn, htable]
  decide +kernel

theorem unlined_columnKeyText : (readDeclarations columnKeyText).1.unlined =
    (authorMove.declarations authorMove.atColumn).unlined := by
  rw [readDeclarations, keyTexts.1.2]
  decide +kernel

theorem unlined_tableKeyText : (readDeclarations tableKeyText).1.unlined =
    (authorMove.declarations authorMove.atTable).unlined := by
  rw [readDeclarations, keyTexts.2.2]
  decide +kernel

end

end Drizzle

/-- In each of the three languages a key is moved from its column to its table. -/
theorem keyMove_beq_texts :
    ((Schema.ofSql Sql.columnKeyText).schema == (Schema.ofSql Sql.tableKeyText).schema) = true ∧
    ((Schema.ofPrisma Prisma.columnKeyText).schema ==
      (Schema.ofPrisma Prisma.tableKeyText).schema) = true ∧
    ((Schema.ofDrizzle Drizzle.columnKeyText).schema ==
      (Schema.ofDrizzle Drizzle.tableKeyText).schema) = true := by
  obtain ⟨hsql, hprisma, hdrizzle⟩ := keyMove_beq
  refine ⟨?_, ?_, ?_⟩
  · exact (hsql _ _ _ _ _ _ _ _ _ Sql.idMove Sql.reaches_columnKeyTable Sql.reaches_tableKeyTable
      rfl Sql.sound_idMove rfl rfl).2.2.2 rfl rfl Sql.oneKey_columnKeyTable
  · exact hprisma _ _ Prisma.slugMove Prisma.sound_slugMove Prisma.unlined_columnKeyText
      Prisma.unlined_tableKeyText
  · exact hdrizzle _ _ Drizzle.authorMove
      (Drizzle.keyTexts.2.1.trans Drizzle.keyTexts.1.1.symm)
      (Drizzle.keyTexts.1.1 ▸ Drizzle.sound_authorMove) Drizzle.unlined_columnKeyText
      Drizzle.unlined_tableKeyText

end SchemaEvolution
