import SchemaEvolution.Proofs.Sql.TableReading

/-!
# Reading the elements of a table

The elements between the parentheses of a table are read one after the other, each up to the comma
or the parenthesis behind it.  The columns add their constraints at once, and those of the table
wait for the end of the statement.
-/

namespace SchemaEvolution.Sql

open Syntax

variable {token : Token} {tokens : List Token} {rest lexemes : List Lexeme} {line : Option Nat}

/-- The name that a constraint has where it is given none; a check has no usual name. -/
def TableClause.usualName? (table : String) : TableClause → Option String
  | .primaryKey _ => some (Naming.primaryKey table)
  | .unique columns => some (Naming.unique table columns)
  | .foreignKey columns _ => some (Naming.foreignKey table columns)
  | .check _ => none

def namesOf (tokens : List Token) : List String := tokens.filterMap Token.name?

def Syntax.ClauseSyntax.usualName? (table : String) : ClauseSyntax → Option String
  | .primaryKey _ => some (Naming.primaryKey table)
  | .unique columns => some (Naming.unique table (namesOf (columns.getD [])))
  | .foreignKey columns _ => some (Naming.foreignKey table (namesOf columns))
  | .check _ => none

theorem Begins.skipDefinition (hbegins : Begins tokens rest lexemes)
    (hpasses : Passes stopsDefinition 0 tokens 0) (hends : endsDefinition (Sql.next rest) = true) :
    skipDefinition lexemes = rest :=
  hbegins.cut_rest hpasses (by simp [hends])

def TableClause.ofSyntax (definition : ClauseSyntax) (taken : List Lexeme) : TableClause :=
  match definition with
  | .primaryKey columns => .primaryKey (namesOf columns)
  | .unique columns => .unique (namesOf (columns.getD []))
  | .foreignKey columns target => .foreignKey (namesOf columns) target.reference
  | .check _ => .check (textOf (insideOf taken.tail))

theorem TableClause.usualName?_ofSyntax (definition : ClauseSyntax) (taken : List Lexeme)
    (table : String) : (ofSyntax definition taken).usualName? table = definition.usualName? table :=
  by cases definition <;> rfl

/-- A constraint is read as it is written, and the rest of its definition is skipped. -/
theorem Spells.readTableClause {definition : ClauseSyntax} {taken : List Lexeme}
    (hfits : definition.Fits (rest.map Lexeme.token))
    (hspells : Spells definition.marked.tokens taken) :
    readTableClause (taken ++ rest) =
      .ok (some (.ofSyntax definition taken), Sql.skipDefinition rest) := by
  have hclause := hspells.begins rest
  cases definition with
  | primaryKey columns =>
    have htokens : Begins (.keyword .primary :: .keyword .key :: (group columns).tokens)
      rest (taken ++ rest) := hclause
    simp only [Sql.readTableClause, htokens.next, htokens.tail.skip,
      htokens.tail.tail.nameList hfits, TableClause.ofSyntax, namesOf]
  | unique columns =>
    have htokens : Begins (.keyword .unique :: Marked.tokens (columns.elim [] group))
      rest (taken ++ rest) := hclause
    have hlist : Sql.nameList (Sql.skip (.keyword .key) (taken ++ rest).tail) =
        (namesOf (columns.getD []), rest) := by
      cases columns with
      | none =>
        obtain ⟨hparen, hkey⟩ := hfits.2 rfl
        have htail : (taken ++ rest).tail = rest := begins_nil_iff.1 htokens.tail
        rw [htail, skip_of_next_ne (next_ne_of_head? hkey (by rintro ⟨⟩)),
          nameList_of_next_ne (next_ne_of_head? hparen (by rintro ⟨⟩))]
        rfl
      | some inside =>
        have hgroup : Begins (group inside).tokens rest (taken ++ rest).tail := htokens.tail
        have hopening := hgroup
        rw [tokens_group] at hopening
        rw [skip_of_next_ne (by rw [hopening.next]; rintro ⟨⟩),
          hgroup.nameList (hfits.1 inside rfl)]
        rfl
    simp only [Sql.readTableClause, htokens.next, hlist, TableClause.ofSyntax]
  | foreignKey columns target =>
    have htokens : Begins (.keyword .foreign :: .keyword .key :: ((group columns).tokens ++
        (.keyword .references :: target.marked.tokens))) rest (taken ++ rest) := by
      simpa [ClauseSyntax.marked] using hclause
    obtain ⟨behindColumns, hcolumns, hreferences⟩ := htokens.tail.tail.split
    simp only [Sql.readTableClause, htokens.next, htokens.tail.skip, hcolumns.nameList hfits.1,
      hreferences.eat?, hreferences.tail.readReference hfits.2]
    rfl
  | check condition =>
    have hmarked : Spells (.keyword .check :: (group condition).tokens) taken := by
      simpa [ClauseSyntax.marked] using hspells
    obtain ⟨first, inside, rfl, hfirst, hinside⟩ := hmarked.exists_cons
    have hnext : Sql.next (first :: inside ++ rest) = .keyword .check := hfirst
    have hread : Sql.parenthesized (first :: inside ++ rest).tail = _ :=
      hinside.parenthesized hfits rest
    simp only [Sql.readTableClause, hnext, hread, TableClause.ofSyntax, List.tail_cons]

theorem Begins.readTableClause {definition : ClauseSyntax}
    (hfits : definition.Fits (rest.map Lexeme.token))
    (hclause : Begins definition.marked.tokens rest lexemes) :
    ∃ clause, readTableClause lexemes = .ok (some clause, Sql.skipDefinition rest) := by
  obtain ⟨taken, hspells, rfl⟩ := begins_iff.1 hclause
  exact ⟨_, hspells.readTableClause hfits⟩

namespace TableDefinition

theorem element_definition (hname : (next lexemes).name?.isSome = true)
    (hnot : (next lexemes).isOneOf ["like", "exclude"] = false) (d : TableDefinition) :
    element line d lexemes = (do
      let (definition, after) ← ColumnDefinition.read lexemes
      return (.again { d with table := definition.addTo d.table }, after)) := by
  generalize hnext : next lexemes = token at hname hnot
  unfold element
  rw [hnext]
  dsimp only
  split
  case h_11 => rw [if_neg (by rw [hnot]; decide), if_pos hname]
  all_goals cases hname

/-- An element that opens a clause is that clause without a name. -/
theorem element_clause (hopens : opensClause (next lexemes) = true) (d : TableDefinition) :
    element line d lexemes = (do
      let (clause, after) ← readTableClause lexemes
      return (.again (d.addClause none clause), after)) := by
  generalize hnext : next lexemes = token at hopens
  cases token with
  | keyword known =>
    cases known with
    | primary | foreign | unique | check =>
      unfold element
      rw [hnext]
    | _ => cases hopens
  | _ => cases hopens

theorem element_label (hlabel : next lexemes = .keyword .constraint) (d : TableDefinition) :
    element line d lexemes = (do
      let (clause, after) ← readTableClause (optionalName lexemes.tail).2
      return (.again (d.addClause (optionalName lexemes.tail).1 clause), after)) := by
  unfold element
  rw [hlabel]

theorem element_skipped (hword : (next lexemes).isOneOf ["like", "exclude"] = true)
    (d : TableDefinition) :
    element line d lexemes = .ok (.again d, (cut stopsElement 0 lexemes).2) := by
  obtain ⟨word, -, hspelling⟩ := exists_of_isOneOf hword
  obtain ⟨spelling, hnext, -⟩ := exists_of_isWord hspelling
  unfold element
  dsimp only
  rw [hnext] at hword ⊢
  dsimp only
  rw [if_pos hword]
  rfl

/-! ## Rows of elements -/

end TableDefinition

namespace Syntax.ElementSyntax

def column? : ElementSyntax → Option ColumnSyntax
  | column definition => some definition
  | _ => none

/-- The constraint of the table that an element declares, with the name that it is given. -/
def clause? : ElementSyntax → Option (Option String × ClauseSyntax)
  | clause label definition _ => some (label.bind Token.name?, definition)
  | _ => none

end Syntax.ElementSyntax

namespace TableDefinition

/-- The definition is the one of the column, as far as constraints are concerned. -/
def Declares (column : ColumnSyntax) (d : ColumnDefinition) : Prop :=
  d.column.name = column.label ∧ d.labels = column.clauses.foldl Labels.declare .none

/-- The constraint has the name that it is given, and the same usual name. -/
def Names (written : Option String × ClauseSyntax) (read : Option String × TableClause) : Prop :=
  read.1 = written.1 ∧ ∀ table, read.2.usualName? table = written.2.usualName? table

def Gains (d after : TableDefinition) (elements : List ElementSyntax) : Prop :=
  ∃ definitions clauses,
    List.Forall₂ Declares (elements.filterMap ElementSyntax.column?) definitions ∧
    List.Forall₂ Names (elements.filterMap ElementSyntax.clause?) clauses ∧
    after.table = definitions.foldl (fun table d => d.addTo table) d.table ∧
    after.clauses = d.clauses ++ clauses

theorem Gains.nil (d : TableDefinition) : d.Gains d [] :=
  ⟨[], [], .nil, .nil, rfl, (List.append_nil _).symm⟩

/-- What elements give adds up. -/
theorem Gains.trans {d middle after : TableDefinition} {left right : List ElementSyntax}
    (hleft : d.Gains middle left) (hright : middle.Gains after right) :
    d.Gains after (left ++ right) := by
  obtain ⟨definitions, clauses, hcolumns, hnames, htable, hclauses⟩ := hleft
  obtain ⟨definitions', clauses', hcolumns', hnames', htable', hclauses'⟩ := hright
  refine ⟨definitions ++ definitions', clauses ++ clauses', ?_, ?_, ?_, ?_⟩
  · rw [List.filterMap_append]
    exact List.rel_append hcolumns hcolumns'
  · rw [List.filterMap_append]
    exact List.rel_append hnames hnames'
  · rw [htable', htable, List.foldl_append]
  · rw [hclauses', hclauses, List.append_assoc]

def addElement (d : TableDefinition) (part : ElementSyntax) (taken : List Lexeme) :
    TableDefinition :=
  match part with
  | .column column => { d with table := (ColumnDefinition.ofSyntax column taken).addTo d.table }
  | .clause label definition _ =>
    d.addClause (label.bind Token.name?) (some (.ofSyntax definition
      ((taken.drop (labelTokens label).length).take definition.marked.tokens.length)))
  | .other _ _ => d

theorem gains_addElement (d : TableDefinition) (part : ElementSyntax) (taken : List Lexeme) :
    d.Gains (d.addElement part taken) [part] := by
  cases part with
  | column column =>
    exact ⟨[_], [], .cons (ColumnDefinition.labels_ofSyntax column taken) .nil, .nil, rfl,
      (List.append_nil _).symm⟩
  | clause label definition behind =>
    exact ⟨[], [(label.bind Token.name?, _)], .nil,
      .cons ⟨rfl, TableClause.usualName?_ofSyntax definition _⟩ .nil, rfl, rfl⟩
  | other label tokens => exact ⟨[], [], .nil, .nil, rfl, (List.append_nil _).symm⟩

theorem opensClause_marked (definition : ClauseSyntax) :
    ∃ first more, definition.marked.tokens = first :: more ∧ opensClause first = true := by
  cases definition <;> exact ⟨_, _, rfl, rfl⟩

theorem readTableClause_other (hopens : opensClause (next lexemes) = false) :
    readTableClause lexemes = .ok (none, (cutOutside (fun token =>
      token = .comma || token = .rightParen || token = .semicolon) lexemes).2) := by
  unfold readTableClause
  dsimp only
  split
  case h_5 => rfl
  all_goals
    next hnext =>
    rw [hnext] at hopens
    cases hopens

theorem passes_of_stopsElement {depth last : Nat} {tokens : List Token}
    (hsemicolon : ∀ token ∈ tokens, token ≠ .semicolon)
    (hpasses : Passes stopsElement depth tokens last) :
    Passes (fun depth token => token = .eof ||
      (depth == 0 && (token = .comma || token = .rightParen || token = .semicolon)))
        depth tokens last := by
  induction tokens generalizing depth with
  | nil => exact hpasses
  | cons token more ih =>
    have hne := hsemicolon token List.mem_cons_self
    obtain ⟨hstop, hmore⟩ := hpasses
    refine ⟨?_, ih (fun other hmem => hsemicolon other (List.mem_cons_of_mem _ hmem)) hmore⟩
    simpa [hne, stopsElement] using hstop

/-- An element is read in one turn, as it is written. -/
theorem element_of_spells (line : Option Nat) {part : ElementSyntax} {taken : List Lexeme}
    (hfits : part.Fits (rest.map Lexeme.token)) (hspells : Spells part.marked.tokens taken)
    (d : TableDefinition) :
    element line d (taken ++ rest) = .ok (.again (d.addElement part taken), rest) := by
  have hbehind : ∀ {head : Option Token}, (rest.map Lexeme.token).head? = head →
      head = some .comma ∨ head = some .rightParen →
        next rest = .comma ∨ next rest = .rightParen := by
    rintro head hhead hclosing
    rw [next_eq_head?, hhead]
    exact hclosing.imp (fun hnext => by rw [hnext]; rfl) (fun hnext => by rw [hnext]; rfl)
  cases part with
  | column definition =>
    have hcolumn : definition.Fits (rest.map Lexeme.token) := hfits
    have hnext : next (taken ++ rest) = definition.name := (hspells.begins rest).next
    rw [element_definition (by rw [hnext]; exact hcolumn.name) (by rw [hnext]; exact hcolumn.isNot),
      ColumnDefinition.read_of_spells hcolumn hspells]
    rfl
  | clause label definition behind =>
    obtain ⟨hlabel, hclause, hpasses, hclosing⟩ := hfits
    have hends : endsDefinition (next rest) = true := by
      rcases hbehind rfl hclosing with hnext | hnext
      · rw [hnext]
        rfl
      · rw [hnext]
        rfl
    rw [ElementSyntax.marked, tokens_append, tokens_unseen, tokens_append, tokens_outside]
      at hspells
    have hhead := hspells.take
    have hdefinition := hspells.drop.take
    have hskipped := hspells.drop.drop
    rw [addElement]
    set head := taken.take (labelTokens label).length
    set written := (taken.drop (labelTokens label).length).take definition.marked.tokens.length
    set skipped := (taken.drop (labelTokens label).length).drop definition.marked.tokens.length
    have htaken : taken ++ rest = head ++ (written ++ (skipped ++ rest)) := by
      rw [← List.append_assoc written, List.take_append_drop, ← List.append_assoc,
        List.take_append_drop]
    rw [← (hskipped.begins rest).tokens_eq] at hclause
    have hread := hdefinition.readTableClause hclause
    rw [(hskipped.begins rest).skipDefinition hpasses hends] at hread
    rw [htaken]
    cases label with
    | none =>
      have hnone : head = [] := List.map_eq_nil_iff.1 hhead.1
      obtain ⟨first, more, hmarked, hopens⟩ := opensClause_marked definition
      have hfirst := hdefinition.begins (skipped ++ rest)
      rw [hmarked] at hfirst
      rw [hnone, List.nil_append, element_clause (by rw [hfirst.next]; exact hopens), hread]
      rfl
    | some name =>
      have hwords : Begins [.keyword .constraint, name] (written ++ (skipped ++ rest))
        (head ++ (written ++ (skipped ++ rest))) := hhead.begins _
      rw [element_label hwords.next, hwords.tail.optionalName (hlabel name rfl),
        hwords.tail.tail_eq, hread]
      rfl
  | other label tokens =>
    obtain ⟨hlabel, hpasses, hsemicolon, hopening, hclosing⟩ := hfits
    have hstop : stopsElement 0 (next rest) = true := by
      rcases hbehind rfl hclosing with hnext | hnext
      · rw [hnext]
        rfl
      · rw [hnext]
        rfl
    have hbegins := hspells.begins rest
    rw [ElementSyntax.marked, tokens_unseen] at hbegins
    obtain ⟨middle, hhead, htokens⟩ := hbegins.split
    rw [addElement]
    cases label with
    | none =>
      have hmiddle := begins_nil_iff.1 hhead
      have hword : (next middle).isOneOf ["like", "exclude"] = true := by
        cases tokens with
        | nil => cases hopening
        | cons first more =>
          rw [htokens.next]
          exact hopening
      rw [hmiddle, element_skipped hword, htokens.cut_rest hpasses hstop]
    | some name =>
      have hwords : Begins [.keyword .constraint, name] middle (taken ++ rest) := hhead
      have hopens : opensClause (next middle) = false := by
        cases tokens with
        | nil => exact absurd rfl hopening.2
        | cons first more =>
          rw [htokens.next]
          exact hopening.1
      have hcut := htokens.cut_rest (passes_of_stopsElement hsemicolon hpasses)
        (by rcases hbehind rfl hclosing with hnext | hnext <;> rw [hnext] <;> rfl)
      rw [element_label hwords.next, hwords.tail.optionalName (hlabel name rfl),
        hwords.tail.tail_eq, readTableClause_other hopens, cutOutside, hcut]
      rfl

theorem element_of_begins (line : Option Nat) {part : ElementSyntax}
    (hfits : part.Fits (rest.map Lexeme.token))
    (hbegins : Begins part.marked.tokens rest lexemes) (d : TableDefinition) :
    ∃ after, element line d lexemes = .ok (.again after, rest) ∧ d.Gains after [part] := by
  obtain ⟨taken, hspells, rfl⟩ := begins_iff.1 hbegins
  exact ⟨_, element_of_spells line hfits hspells d, d.gains_addElement part taken⟩

theorem element_tokens_ne_nil {part : ElementSyntax} {next : List Token}
    (hfits : part.Fits next) : part.marked.tokens ≠ [] := by
  cases part with
  | column definition => exact List.cons_ne_nil _ _
  | clause label definition behind =>
    obtain ⟨first, more, hmarked, -⟩ := opensClause_marked definition
    rw [ElementSyntax.marked, tokens_append, tokens_append, hmarked]
    simp
  | other label tokens =>
    obtain ⟨-, -, -, hopening, -⟩ := hfits
    rw [ElementSyntax.marked, tokens_unseen]
    rintro hnil
    obtain ⟨hlabel, rfl⟩ := List.append_eq_nil_iff.1 hnil
    cases label with
    | none => cases hopening
    | some name => cases hlabel

theorem element_of_comma (hcomma : next lexemes = .comma) (d : TableDefinition) :
    element line d lexemes = .ok (.again d, lexemes.tail) := by
  unfold element
  rw [hcomma]

/-- Elements with commas between them, each with the lexemes in which it is written. -/
def writtenElements : List ElementSyntax → List Lexeme → List (ElementSyntax × List Lexeme)
  | [], _ => []
  | part :: more, taken =>
    (part, taken.take part.marked.tokens.length) ::
      writtenElements more (taken.drop (part.marked.tokens.length + 1))

theorem map_fst_writtenElements (elements : List ElementSyntax) (taken : List Lexeme) :
    (writtenElements elements taken).map Prod.fst = elements := by
  induction elements generalizing taken with
  | nil => rfl
  | cons part more ih => rw [writtenElements, List.map_cons, ih]

def addElements (d : TableDefinition) (written : List (ElementSyntax × List Lexeme)) :
    TableDefinition :=
  written.foldl (fun found element => found.addElement element.1 element.2) d

theorem gains_addElements (d : TableDefinition) (written : List (ElementSyntax × List Lexeme)) :
    d.Gains (d.addElements written) (written.map Prod.fst) := by
  induction written generalizing d with
  | nil => exact .nil d
  | cons element more ih => exact (d.gains_addElement element.1 element.2).trans (ih _)

/-- An element behind a comma is read in two turns. -/
theorem turns_markedMore (line : Option Nat) {part : ElementSyntax} {taken : List Lexeme}
    (hfits : part.Fits (rest.map Lexeme.token))
    (hspells : Spells (TableSyntax.markedMore part).tokens taken) (d : TableDefinition) :
    Turns (element line) d (taken ++ rest) (d.addElement part taken.tail) rest := by
  have hmarked : Spells (.comma :: part.marked.tokens) taken := hspells
  obtain ⟨comma, written, rfl, hcomma, hwritten⟩ := hmarked.exists_cons
  have hturn := element_of_spells line hfits hwritten d
  have hshorter := (hwritten.begins rest).length_lt (element_tokens_ne_nil hfits)
  have hnext : next (comma :: written ++ rest) = .comma := hcomma
  exact .more (element_of_comma hnext d) (Nat.lt_succ_self _) (.single hturn hshorter)

theorem turns_of_markedMore (line : Option Nat) {part : ElementSyntax}
    (hfits : part.Fits (rest.map Lexeme.token))
    (hbegins : Begins (TableSyntax.markedMore part).tokens rest lexemes) (d : TableDefinition) :
    ∃ after, Turns (element line) d lexemes after rest := by
  obtain ⟨taken, hspells, rfl⟩ := begins_iff.1 hbegins
  exact ⟨_, turns_markedMore line hfits hspells d⟩

/-- The elements after the first one are read one after the other, each behind its comma. -/
theorem turns_more (line : Option Nat) {more : List ElementSyntax} {taken : List Lexeme}
    (hfits : RowFits TableSyntax.markedMore ElementSyntax.Fits more (rest.map Lexeme.token))
    (hspells : Spells (row TableSyntax.markedMore more).tokens taken) (d : TableDefinition) :
    Turns (element line) d (taken ++ rest) (d.addElements (writtenElements more taken.tail))
      rest := by
  induction more generalizing d taken with
  | nil =>
    obtain rfl := List.map_eq_nil_iff.1 hspells.1
    exact .none _ _
  | cons part more ih =>
    rw [row_cons, tokens_append] at hspells
    obtain ⟨hfit, hfits⟩ := hfits
    rw [← (hspells.drop.begins rest).tokens_eq] at hfit
    have hturns := (turns_markedMore line hfit hspells.take d).trans (ih hfits hspells.drop _)
    have hmarked : Spells (.comma :: (part.marked.tokens ++
      (row TableSyntax.markedMore more).tokens)) taken := hspells
    obtain ⟨comma, written, rfl, -, -⟩ := hmarked.exists_cons
    rw [← List.append_assoc, List.take_append_drop] at hturns
    rw [writtenElements]
    have hsize : (TableSyntax.markedMore part).tokens.length = part.marked.tokens.length + 1 := by
      rw [TableSyntax.markedMore, tokens_append, List.length_append, tokens_seen, Nat.add_comm]
      rfl
    rw [hsize] at hturns
    simpa [addElements] using hturns

end TableDefinition

end SchemaEvolution.Sql
