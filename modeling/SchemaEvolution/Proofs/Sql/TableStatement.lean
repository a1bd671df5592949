import SchemaEvolution.Proofs.Sql.ElementReading
import SchemaEvolution.Proofs.Sql.PlainTable

/-!
# Reading the statement of a table as a whole

A statement that defines a table is read up to its parenthesis for the name of the table, then
element by element, and then up to its semicolon.  What it gives is the table that its elements
define, with at least one column.
-/

namespace SchemaEvolution.Sql

open Syntax

variable {rest lexemes : List Lexeme} {line : Option Nat}

/-- What is read from behind the parenthesis that opens a table. -/
def readTable (line : Option Nat) (name : String) (schema : Schema) (inside : List Lexeme) :
    Except Halt (Schema × List Lexeme) := do
  let (d, after) ← repeatedly (TableDefinition.element line) ⟨Table.empty name, []⟩ inside
  if d.finish.columns.isEmpty then halt ("CREATE TABLE " ++ name ++ " has no columns") line after
  else return (schema.addTable d.finish, skipStatement after)

theorem isOneOf_of_isOneOf {token : Token} {words : List String} {other : String}
    (hword : token.isOneOf words = true) (hother : other ∉ words) :
    token.isWord other = false := by
  obtain ⟨word, hmem, hspelling⟩ := exists_of_isOneOf hword
  exact isWord_of_isWord hspelling (fun heq => hother (heq ▸ hmem))

theorem Begins.dropWhile {words : List Token} {holds : Token → Bool}
    (hwords : ∀ word ∈ words, holds word = true) (hrest : holds (Sql.next rest) ≠ true)
    (hbegins : Begins words rest lexemes) :
    lexemes.dropWhile (fun lexeme => holds lexeme.token) = rest := by
  obtain ⟨taken, rfl, -, rfl⟩ := hbegins
  rw [List.dropWhile_append_of_pos fun lexeme hmem => hwords _ (List.mem_map_of_mem hmem)]
  cases rest with
  | nil => rfl
  | cons first more => exact List.dropWhile_cons_of_neg hrest

/-- The front of the statement tells the name of the table. -/
theorem Begins.statement_head {table : TableSyntax} (hsound : table.Sound)
    (hbegins : Begins table.head rest lexemes) :
    ∃ line, ∀ schema, statement schema lexemes = readTable line table.name.name schema rest := by
  obtain ⟨behindWords, hwords, htable⟩ := hbegins.tail.split
  obtain ⟨behindIf, hif, hname⟩ := htable.tail.split
  obtain ⟨opening, hdotted, hparen⟩ := hname.split
  have hor : (Sql.next lexemes.tail).isWord "or" = false := by
    cases hcase : table.words with
    | nil =>
      rw [hcase] at hwords
      rw [begins_nil_iff.1 hwords, htable.next]
      rfl
    | cons word more =>
      rw [hcase] at hwords
      rw [hwords.next]
      exact isOneOf_of_isOneOf (hsound.words word (hcase ▸ List.mem_cons_self)) (by decide)
  have hdrop := hwords.dropWhile hsound.words (by rw [htable.next]; decide)
  have hskip : skipIfNotExists behindWords.tail = behindIf := by
    cases hcase : table.ifNotExists with
    | false =>
      rw [hcase] at hif
      have heq : behindWords.tail = behindIf := begins_nil_iff.1 hif
      have hfirst : Sql.next behindIf ≠ .keyword .if := by
        rw [hdotted.next]
        exact hsound.isNotIf hcase
      rw [skipIfNotExists, heq, eat?_of_next_ne hfirst]
    | true =>
      rw [hcase] at hif
      have hthree : Begins [.keyword .if, .keyword .not, .keyword .exists] behindIf
        behindWords.tail := hif
      rw [skipIfNotExists, hthree.eat?]
      dsimp only
      rw [hthree.tail.skip, hthree.tail.tail.skip, hthree.tail.tail.tail_eq]
  refine ⟨line? behindWords, fun schema => ?_⟩
  simp only [statement, hbegins.next, create, hor, Bool.false_eq_true, if_false, hdrop,
    htable.next, createTable, hskip,
    hdotted.qualifiedName? hsound.name (by rw [hparen.next]; rintro ⟨⟩), hparen.eat?,
    hparen.tail_eq]
  rfl

namespace TableDefinition

/-- The elements up to the parenthesis that closes the table are read as they are written. -/
theorem repeatedly_element (line : Option Nat) {table : TableSyntax} (hsound : table.Sound)
    {taken behind : List Lexeme} (hspells : Spells table.body.tokens taken)
    (hclosing : next behind = .rightParen) (d : TableDefinition) :
    repeatedly (element line) d (taken ++ behind) =
      .ok (d.addElements (writtenElements table.elements taken), behind.tail) := by
  obtain ⟨closing, rest, rfl⟩ : ∃ closing rest, behind = closing :: rest := by
    cases behind with
    | nil => cases hclosing
    | cons closing rest => exact ⟨closing, rest, rfl⟩
  have htokens : (closing :: rest).map Lexeme.token = .rightParen :: rest.map Lexeme.token :=
    congrArg (· :: _) hclosing
  rw [TableSyntax.body, tokens_append] at hspells
  have hfits := hsound.first (rest.map Lexeme.token)
  rw [← htokens, ← (hspells.drop.begins (closing :: rest)).tokens_eq] at hfits
  have hmoreFits := hsound.more (rest.map Lexeme.token)
  rw [← htokens] at hmoreFits
  have hturn := element_of_spells line hfits hspells.take d
  have hshorter := (hspells.take.begins (taken.drop table.first.marked.tokens.length ++
    closing :: rest)).length_lt (element_tokens_ne_nil hfits)
  have hturns := turns_more line hmoreFits hspells.drop
    (d.addElement table.first (taken.take table.first.marked.tokens.length))
  rw [← List.append_assoc, List.take_append_drop] at hturn hshorter
  have hdone (after : TableDefinition) :
      element line after (closing :: rest) = .ok (.done after, rest) := by
    unfold element
    rw [hclosing]
    rfl
  rw [repeatedly_again hshorter hturn, hturns.repeatedly_eq, repeatedly_done (hdone _),
    List.tail_drop]
  rfl

end TableDefinition

theorem ColumnDefinition.addTo_eq (d : ColumnDefinition) (table : Table) :
    d.addTo table = { table with
      columns := table.columns.insert d.column.name d.column
      constraints := insertConstraints (d.constraints table.name) table.constraints } := by
  rw [addTo, foldl_addConstraint]
  rfl

theorem TableClause.columns_addTo (clause : TableClause) (label : Option String) (table : Table) :
    (clause.addTo label table).columns.keys = table.columns.keys := by
  cases clause with
  | primaryKey columns =>
    show (columns.foldl _ table.columns).keys = table.columns.keys
    generalize table.columns = found
    induction columns generalizing found with
    | nil => rfl
    | cons column more ih => exact (ih _).trans (Keyed.keys_update found column _)
  | unique _ | foreignKey _ _ | check _ => rfl

namespace TableDefinition

theorem columns_finish (d : TableDefinition) : d.finish.columns.keys = d.table.columns.keys := by
  obtain ⟨table, clauses⟩ := d
  induction clauses generalizing table with
  | nil => rfl
  | cons clause more ih =>
    exact (ih (clause.2.addTo clause.1 table)).trans (clause.2.columns_addTo clause.1 table)

/-- The columns of a table are those it had and those that are defined. -/
theorem mem_columns_foldl_addTo {definitions : List ColumnDefinition} {table : Table}
    {name : String} :
    name ∈ (definitions.foldl (fun table d => d.addTo table) table).columns.keys ↔
      name ∈ table.columns.keys ∨ ∃ d ∈ definitions, d.column.name = name := by
  induction definitions generalizing table with
  | nil => simp
  | cons d more ih =>
    have hinsert : name ∈ (table.columns.insert d.column.name d.column).keys ↔
        name ∈ table.columns.keys ∨ d.column.name = name := by
      rw [Keyed.keys_insert]
      split
      · next hmem => exact ⟨.inl, fun hor => hor.elim id fun heq => heq ▸ hmem⟩
      · rw [List.mem_append, List.mem_singleton, eq_comm]
    rw [List.foldl_cons, ih, d.addTo_eq, hinsert, List.exists_mem_cons_iff, or_assoc]

/-- Every column that is defined is in the table. -/
theorem Gains.mem_columns {d after : TableDefinition} {elements : List ElementSyntax}
    (hgains : d.Gains after elements) {column : ColumnSyntax}
    (hmem : column ∈ elements.filterMap ElementSyntax.column?) :
    column.label ∈ after.table.columns.keys := by
  obtain ⟨definitions, clauses, hcolumns, -, htable, -⟩ := hgains
  obtain ⟨index, hindex, hcolumn⟩ := List.getElem_of_mem hmem
  have hlength := hcolumns.length_eq
  have hdeclares := hcolumns.get hindex (hlength ▸ hindex)
  rw [htable, mem_columns_foldl_addTo]
  refine .inr ⟨definitions[index], List.getElem_mem _, ?_⟩
  exact hdeclares.1.trans (congrArg ColumnSyntax.label hcolumn)

end TableDefinition

/-! ## The statement -/

namespace Syntax.TableSyntax

def columns (table : TableSyntax) : List ColumnSyntax :=
  table.elements.filterMap ElementSyntax.column?

/-- The constraints of the table, each with the name that it is given. -/
def clauses (table : TableSyntax) : List (Option String × ClauseSyntax) :=
  table.elements.filterMap ElementSyntax.clause?

end Syntax.TableSyntax

theorem Begins.skipStatement {tokens : List Token}
    (htokens : ∀ token ∈ tokens, token ≠ .semicolon ∧ token ≠ .eof)
    (hbegins : Begins (tokens ++ [.semicolon]) rest lexemes) : skipStatement lexemes = rest := by
  obtain ⟨middle, hskipped, hsemicolon⟩ := hbegins.split
  have hdrop := hskipped.dropWhile
    (fun token hmem => by simpa using htokens token hmem : ∀ token ∈ tokens,
      (!(token = .semicolon || token = .eof)) = true)
    (by rw [hsemicolon.next]; decide)
  rw [Sql.skipStatement, hdrop, hsemicolon.skip, hsemicolon.tail_eq]

/-- The elements of a table with the lexemes in which they are written. -/
def Syntax.TableSyntax.written (table : TableSyntax) (lexemes : List Lexeme) :
    List (ElementSyntax × List Lexeme) :=
  TableDefinition.writtenElements table.elements
    ((lexemes.drop table.head.length).take table.body.tokens.length)

/-- What the statement of a table defines, as it is written. -/
def Syntax.TableSyntax.definition (table : TableSyntax) (lexemes : List Lexeme) :
    TableDefinition :=
  TableDefinition.addElements ⟨Table.empty table.name.name, []⟩ (table.written lexemes)

theorem Syntax.TableSyntax.gains_definition (table : TableSyntax) (lexemes : List Lexeme) :
    TableDefinition.Gains ⟨Table.empty table.name.name, []⟩ (table.definition lexemes)
      table.elements := by
  have hgains := TableDefinition.gains_addElements ⟨Table.empty table.name.name, []⟩
    (table.written lexemes)
  rw [TableSyntax.written, TableDefinition.map_fst_writtenElements] at hgains
  exact hgains

/-- A statement that defines a table with a column adds the table that is written. -/
theorem Begins.statement_eq {table : TableSyntax} (hsound : table.Sound)
    (hcolumns : table.columns ≠ []) (hbegins : Begins table.tokens rest lexemes)
    (schema : Schema) :
    statement schema lexemes = .ok (schema.addTable (table.definition lexemes).finish, rest) := by
  obtain ⟨middle, hhead, hinside⟩ := hbegins.split
  obtain ⟨line, hstatement⟩ := hhead.statement_head hsound
  obtain ⟨closing, hbody, hclosing⟩ := hinside.split
  have hread := TableDefinition.repeatedly_element line hsound hbody.spells hclosing.next
    ⟨Table.empty table.name.name, []⟩
  rw [← hbody.drop_eq, List.take_append_drop, hbody.drop_eq, ← hhead.drop_eq] at hread
  have hdefinition : repeatedly (TableDefinition.element line) ⟨Table.empty table.name.name, []⟩
      (lexemes.drop table.head.length) = .ok (table.definition lexemes, closing.tail) := hread
  obtain ⟨column, hmem⟩ := List.exists_mem_of_ne_nil _ hcolumns
  have hsome : (table.definition lexemes).finish.columns.isEmpty = false := by
    have hkey := (table.gains_definition lexemes).mem_columns hmem
    rw [← TableDefinition.columns_finish, Keyed.keys] at hkey
    rw [Keyed.isEmpty, List.isEmpty_eq_false_iff]
    rintro hnil
    rw [hnil] at hkey
    cases hkey
  rw [hstatement, readTable, ← hhead.drop_eq, hdefinition]
  simp only [bind, Except.bind, hsome, Bool.false_eq_true, if_false,
    hclosing.tail.skipStatement hsound.rest]
  rfl

theorem Begins.statement {table : TableSyntax} (hsound : table.Sound)
    (hcolumns : table.columns ≠ []) (hbegins : Begins table.tokens rest lexemes) :
    ∃ d, (∀ schema, statement schema lexemes = .ok (schema.addTable d.finish, rest)) ∧
      TableDefinition.Gains ⟨Table.empty table.name.name, []⟩ d table.elements :=
  ⟨_, hbegins.statement_eq hsound hcolumns, table.gains_definition lexemes⟩

end SchemaEvolution.Sql
