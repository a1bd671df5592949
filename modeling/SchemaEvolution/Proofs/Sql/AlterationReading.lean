import SchemaEvolution.Proofs.Sql.StatementReading

/-!
# Reading constraints and comments

A constraint that is not inline is added to its table by a statement of its own, and the comments
of a table and of its columns follow the table.  Each of these statements is read as it was
printed, on a table that is there.
-/

namespace SchemaEvolution.Sql

variable {row : List Spaced} {rest lexemes : List Lexeme} {line : Option Nat} {schema : Schema}

theorem token_keyword_ne {known : Keyword} {token : Token} (hne : Token.keyword known ≠ token) :
    (keyword known).piece.token ≠ token := by
  rw [keyword, after, token_keyword]
  exact hne

/-- An action that is printed is read, where no parenthesis follows it. -/
theorem readAction_of_opens {action : ForeignKeyAction} (hsome : action ≠ .noAction)
    (hgroup : ∀ others, Opens row rest others → next others ≠ .leftParen)
    (hopens : Opens (actionWords action ++ row) rest lexemes) :
    ∃ after, Opens row rest after ∧ readAction lexemes = (action, after) := by
  have hset : "SET".toLower = "set" := toLower_ofList (by decide)
  cases action with
  | noAction => exact absurd rfl hsome
  | cascade =>
    have hword : Opens (keyword .cascade :: row) rest lexemes := hopens
    exact ⟨_, hword.tail, by simp only [readAction, hword.next_keyword]⟩
  | restrict =>
    have hword : Opens (keyword .restrict :: row) rest lexemes := hopens
    exact ⟨_, hword.tail, by simp only [readAction, hword.next_keyword]⟩
  | setNull =>
    have hword : Opens (after (.word "SET") :: keyword .null :: row) rest lexemes := hopens
    have hnext : next lexemes = .word "SET" := hword.next
    refine ⟨_, hword.tail.tail, ?_⟩
    simp only [readAction, hnext, isWord_of_toLower hset, hword.tail.next_keyword,
      if_neg (hgroup _ hword.tail.tail), if_true]
  | setDefault =>
    have hword : Opens (after (.word "SET") :: keyword .default :: row) rest lexemes := hopens
    have hnext : next lexemes = .word "SET" := hword.next
    refine ⟨_, hword.tail.tail, ?_⟩
    simp only [readAction, hnext, isWord_of_toLower hset, hword.tail.next_keyword,
      if_neg (hgroup _ hword.tail.tail), if_true]

def Reference.withAction (reference : Reference) (event : Keyword) (action : ForeignKeyAction) :
    Reference :=
  if event = .delete then { reference with onDelete := action }
  else { reference with onUpdate := action }

theorem referenceOption_action {event : Keyword} (hevent : event = .update ∨ event = .delete)
    (reference : Reference) {action : ForeignKeyAction} (hsome : action ≠ .noAction)
    (hgroup : ∀ others, Opens row rest others → next others ≠ .leftParen)
    (hopens : Opens (keyword .on :: keyword event :: (actionWords action ++ row)) rest lexemes) :
    ∃ after, Opens row rest after ∧
      referenceOption reference lexemes =
        .ok (.again (reference.withAction event action), after) := by
  obtain ⟨after, hafter, hread⟩ := readAction_of_opens hsome hgroup hopens.tail.tail
  refine ⟨after, hafter, ?_⟩
  rcases hevent with rfl | rfl
  · simp only [referenceOption, hopens.next_keyword, hopens.tail.next_keyword, hread, if_true]
    rfl
  · simp only [referenceOption, hopens.next_keyword, hopens.tail.next_keyword, hread, if_true]
    rfl

theorem referenceOption_semicolon (reference : Reference)
    (hopens : Opens (tight .semicolon :: row) rest lexemes) :
    referenceOption reference lexemes = .ok (.done reference, lexemes) := by
  have hnext : next lexemes = .semicolon := hopens.next
  simp only [referenceOption, hnext]
  rfl

/-- The action for one event is read, if there is one. -/
theorem repeatedly_action {event : Keyword} (hevent : event = .update ∨ event = .delete)
    (reference : Reference) {action : ForeignKeyAction}
    (hnone : reference.withAction event .noAction = reference)
    (hgroup : ∀ others, Opens row rest others → next others ≠ .leftParen)
    (hopens : Opens (actionRow event action ++ row) rest lexemes) :
    ∃ after, Opens row rest after ∧ repeatedly referenceOption reference lexemes =
      repeatedly referenceOption (reference.withAction event action) after := by
  by_cases haction : action = .noAction
  · rw [actionRow, if_pos haction, List.nil_append] at hopens
    rw [haction, hnone]
    exact ⟨lexemes, hopens, rfl⟩
  · rw [actionRow, if_neg haction, List.cons_append, List.cons_append] at hopens
    obtain ⟨after, hafter, hturn⟩ :=
      referenceOption_action hevent reference haction hgroup hopens
    refine ⟨after, hafter, hopens.repeatedly_again hafter ?_ hturn⟩
    simp only [List.length_cons, List.length_append]
    omega

/-- The actions of a reference are read in order, each at most once. -/
theorem repeatedly_actions (table : String) (columns : List String)
    (onUpdate onDelete : ForeignKeyAction)
    (hopens : Opens (actionRow .update onUpdate ++
      (actionRow .delete onDelete ++ [tight .semicolon])) rest lexemes) :
    ∃ after, Opens [tight .semicolon] rest after ∧
      repeatedly referenceOption ⟨table, columns, .noAction, .noAction⟩ lexemes =
        .ok (⟨table, columns, onUpdate, onDelete⟩, after) := by
  have hlast : ∀ others, Opens [tight .semicolon] rest others → next others ≠ .leftParen :=
    fun others hothers => hothers.next_ne (by rintro ⟨⟩)
  have hmiddle : ∀ others, Opens (actionRow .delete onDelete ++ [tight .semicolon]) rest others →
      next others ≠ .leftParen := by
    intro others hothers
    rw [actionRow] at hothers
    split at hothers
    · exact hlast others hothers
    · exact hothers.next_ne (token_keyword_ne (by rintro ⟨⟩))
  obtain ⟨second, hsecond, hupdate⟩ := repeatedly_action (.inl rfl)
    ⟨table, columns, .noAction, .noAction⟩ rfl hmiddle hopens
  obtain ⟨after, hafter, hdelete⟩ := repeatedly_action (.inr rfl)
    ⟨table, columns, onUpdate, .noAction⟩ rfl hlast hsecond
  refine ⟨after, hafter, ?_⟩
  calc repeatedly referenceOption ⟨table, columns, .noAction, .noAction⟩ lexemes
    _ = repeatedly referenceOption ⟨table, columns, onUpdate, .noAction⟩ second := hupdate
    _ = repeatedly referenceOption ⟨table, columns, onUpdate, onDelete⟩ after := hdelete
    _ = _ := repeatedly_done (referenceOption_semicolon _ hafter)

def clauseOf : Rule → TableClause
  | .primaryKey columns => .primaryKey columns
  | .unique columns => .unique columns
  | .check condition => .check condition
  | .foreignKey key =>
    .foreignKey key.columns ⟨key.targetTable, key.targetColumns, key.onUpdate, key.onDelete⟩

theorem Opens.skipDefinition (hopens : Opens [tight .semicolon] rest lexemes) :
    skipDefinition lexemes = lexemes := by
  obtain ⟨lexeme, others, hlexeme, -, rfl⟩ := hopens.cons
  have htoken : lexeme.token = .semicolon := hlexeme.2.2
  rw [Sql.skipDefinition, cut, htoken]
  rfl

theorem readReference_of_opens {key : ForeignKey}
    (hopens : Opens (after (.name key.targetTable) :: (namesRow key.targetColumns ++
      (actionRow .update key.onUpdate ++ (actionRow .delete key.onDelete ++
        [tight .semicolon])))) rest lexemes) :
    ∃ after, Opens [tight .semicolon] rest after ∧ readReference lexemes =
      .ok (⟨key.targetTable, key.targetColumns, key.onUpdate, key.onDelete⟩, after) := by
  have hname : qualifiedName? lexemes = some (key.targetTable, lexemes.tail) :=
    hopens.qualifiedName? rfl (hopens.tail.next_ne (by rintro ⟨⟩))
  obtain ⟨actions, hcolumns, hactions⟩ := hopens.tail.nameList
  obtain ⟨after, hafter, hread⟩ := repeatedly_actions key.targetTable key.targetColumns
    key.onUpdate key.onDelete hactions
  refine ⟨after, hafter, ?_⟩
  simp only [readReference, hname, hcolumns]
  exact hread

/-- The rule of a constraint is read up to the end of its statement. -/
theorem readTableClause_of_opens {rule : Rule} (hplain : rule.kind ≠ "CHECK")
    (hopens : Opens (ruleRow rule ++ [tight .semicolon]) rest lexemes) :
    ∃ after, Opens [tight .semicolon] rest after ∧
      readTableClause lexemes = .ok (some (clauseOf rule), after) := by
  cases rule with
  | check condition => exact absurd rfl hplain
  | primaryKey columns =>
    have hkeywords : Opens (keyword .primary :: keyword .key ::
        (namesRow columns ++ [tight .semicolon])) rest lexemes := hopens
    obtain ⟨after, hcolumns, hafter⟩ := hkeywords.tail.tail.nameList
    refine ⟨after, hafter, ?_⟩
    simp only [readTableClause, hkeywords.next_keyword,
      hkeywords.tail.skip (token_keyword .key), hcolumns, hafter.skipDefinition]
    rfl
  | unique columns =>
    have hkeyword : Opens (keyword .unique :: (namesRow columns ++ [tight .semicolon]))
      rest lexemes := hopens
    have hkey : skip (.keyword .key) lexemes.tail = lexemes.tail :=
      hkeyword.tail.skip_none (by rintro ⟨⟩)
    obtain ⟨after, hcolumns, hafter⟩ := hkeyword.tail.nameList
    refine ⟨after, hafter, ?_⟩
    simp only [readTableClause, hkeyword.next_keyword, hkey, hcolumns, hafter.skipDefinition]
    rfl
  | foreignKey key =>
    have hkeywords : Opens (keyword .foreign :: keyword .key :: (namesRow key.columns ++
        (keyword .references :: after (.name key.targetTable) :: (namesRow key.targetColumns ++
          (actionRow .update key.onUpdate ++ (actionRow .delete key.onDelete ++
            [tight .semicolon])))))) rest lexemes := by
      simpa only [ruleRow, List.cons_append, List.append_assoc] using hopens
    obtain ⟨others, hcolumns, hothers⟩ := hkeywords.tail.tail.nameList
    obtain ⟨after, hafter, hread⟩ := readReference_of_opens hothers.tail
    refine ⟨after, hafter, ?_⟩
    simp only [readTableClause, hkeywords.next_keyword,
      hkeywords.tail.skip (token_keyword .key), hcolumns, hothers.eat?_keyword, hread,
      bind, Except.bind, hafter.skipDefinition]
    rfl

/-- One action that is not followed by a comma changes its table. -/
theorem alter_of_step {owner : String} {table changed : Table}
    (htable : schema.tables.get? owner = some table)
    (hopens : Opens (keyword .table :: after (.name owner) :: keyword .add :: row) rest lexemes)
    (haction : ∃ after, Opens [tight .semicolon] rest after ∧
      alterAction table lexemes.tail.tail = .ok (changed, after)) :
    alter line schema lexemes = .ok (schema.addTable changed, rest) := by
  have howner := hopens.tail
  have hif : skipIfExists lexemes.tail = lexemes.tail := by
    rw [skipIfExists, howner.eat?_none (by rintro ⟨⟩)]
  have honly : skip (.keyword .only) lexemes.tail = lexemes.tail :=
    howner.skip_none (by rintro ⟨⟩)
  have hname : qualifiedName? lexemes.tail = some (owner, lexemes.tail.tail) :=
    howner.qualifiedName? rfl (howner.tail.next_ne (token_keyword_ne (by rintro ⟨⟩)))
  obtain ⟨after, hafter, hread⟩ := haction
  have hcomma : eat? .comma after = none := hafter.eat?_none (by rintro ⟨⟩)
  have hstep : alterStep table lexemes.tail.tail = .ok (.done changed, after) := by
    simp only [alterStep, hread, bind, Except.bind, hcomma]
    rfl
  simp only [alter, hopens.eat?_keyword, hif, honly, hname, htable, repeatedly_done hstep, bind,
    Except.bind, hafter.skipStatement]
  rfl

/-- A constraint is added to its table. -/
theorem alter_of_constraintRow {owner : String} {constraint : Constraint}
    (hplain : constraint.rule.kind ≠ "CHECK") {table : Table}
    (htable : schema.tables.get? owner = some table)
    (hopens : Opens (constraintRow owner constraint) rest lexemes) :
    alter line schema lexemes =
      .ok (schema.addTable ((clauseOf constraint.rule).addTo (some constraint.name) table),
        rest) := by
  refine alter_of_step htable hopens ?_
  have hadd := hopens.tail.tail
  have hlabel : optionalName lexemes.tail.tail.tail.tail =
      (some constraint.name, lexemes.tail.tail.tail.tail.tail) := hadd.tail.tail.optionalName rfl
  obtain ⟨after, hafter, hread⟩ := readTableClause_of_opens hplain hadd.tail.tail.tail
  refine ⟨after, hafter, ?_⟩
  simp only [alterAction, hadd.next_keyword, hadd.tail.next_keyword, hlabel, hread, bind,
    Except.bind]
  rfl

/-- A column is added to its table, without its comment. -/
theorem alter_of_addedColumnRow {owner : String} {column : Column} (hplain : IsPlainColumn column)
    (hserial : TypeName.isSerial column.type = true → column.notNull = true) {table : Table}
    (htable : schema.tables.get? owner = some table)
    (hopens : Opens (addedColumnRow owner column) rest lexemes) :
    alter line schema lexemes =
      .ok (schema.addTable (table.addColumn { column with comment := none }), rest) := by
  refine alter_of_step htable hopens ?_
  have hadd := hopens.tail.tail
  have hcolumn := hadd.tail.tail
  have hif : skipIfNotExists lexemes.tail.tail.tail.tail = lexemes.tail.tail.tail.tail := by
    rw [skipIfNotExists, hcolumn.eat?_none (by rintro ⟨⟩)]
  obtain ⟨after, hafter, hread⟩ := ColumnDefinition.read_of_opens
    (rfl : (Piece.name column.name).token.name? = some column.name) hplain.type hplain.default
    (.inr (.inr rfl)) hcolumn
  have hdefinition : ((addedAttributes column).definition column.name column.type).addTo table =
      table.addColumn { column with comment := none } := by
    have hnotNull : (column.notNull || TypeName.isSerial column.type) = column.notNull := by
      cases hvalue : column.notNull <;> simp_all
    obtain ⟨name, type, default, check, notNull, comment⟩ := column
    obtain rfl : check = none := hplain.check
    exact congrArg (fun notNull => table.addColumn ⟨name, type, default, none, notNull, none⟩)
      hnotNull
  refine ⟨after, hafter, ?_⟩
  rw [← hdefinition]
  simp only [alterAction, hadd.next_keyword, hadd.tail.next_keyword,
    hadd.tail.skip (token_keyword .column), hif, hread, bind, Except.bind]
  rfl

/-! ## Comments -/

theorem Opens.nameParts_single {gap : List Char} {name : String} {spaced : Spaced}
    (hdot : spaced.piece.token ≠ .dot)
    (hopens : Opens (⟨gap, .name name⟩ :: spaced :: row) rest lexemes) :
    nameParts lexemes = ([name], lexemes.tail) := by
  obtain ⟨lexeme, others, hlexeme, hothers, rfl⟩ := hopens.cons
  obtain ⟨second, more, hsecond, -, rfl⟩ := hothers.cons
  have htoken : lexeme.token = .quotedName name := hlexeme.2.2
  have hne : second.token ≠ .dot := by
    rw [hsecond.2.2]
    exact hdot
  simp only [nameParts, htoken, Token.name?, if_neg hne, List.tail_cons]

theorem Opens.nameParts_dotted {owner name : String} {spaced : Spaced}
    (hdot : spaced.piece.token ≠ .dot)
    (hopens : Opens (after (.name owner) :: tight .dot :: tight (.name name) :: spaced :: row)
      rest lexemes) :
    nameParts lexemes = ([owner, name], lexemes.tail.tail.tail) := by
  obtain ⟨lexeme, others, hlexeme, hothers, rfl⟩ := hopens.cons
  obtain ⟨second, more, hsecond, hmore, rfl⟩ := hothers.cons
  have htoken : lexeme.token = .quotedName owner := hlexeme.2.2
  have hsign : second.token = .dot := hsecond.2.2
  have hlast : nameParts more = ([name], more.tail) := Opens.nameParts_single hdot hmore
  simp only [nameParts, htoken, Token.name?, if_pos hsign, hlast, List.tail_cons]

theorem comment_of_parts {target : Token} {parts : List String} {text : String}
    {described : Schema} {others : List Lexeme} (htarget : next lexemes.tail = target)
    (hparts : nameParts lexemes.tail.tail = (parts, others))
    (hon : Opens (keyword .on :: row) rest lexemes) (hend : Opens (commentEnd text) rest others)
    (hadd : addComment schema target parts (some text) = .ok described) :
    comment line schema lexemes = .ok (described, rest) := by
  have htext : next others.tail = .string text := hend.tail.next
  simp only [comment, hon.eat?_keyword, htarget, hparts, hend.eat?_keyword, htext,
    hend.tail.skipStatement_cons (by rintro ⟨⟩) (by rintro ⟨⟩),
    hend.tail.tail.skipStatement, hadd]

def withColumnComment (table : Table) (name text : String) : Table :=
  { table with
    columns := table.columns.update name fun column => { column with comment := some text } }

section Described

variable {owner text : String} {table : Table} (htable : schema.tables.get? owner = some table)
  (hname : table.name = owner)

include htable hname

/-- A comment on a table is given to the table. -/
theorem comment_of_tableComment (hopens : Opens (tableCommentRow owner text) rest lexemes) :
    comment line schema lexemes =
      .ok (schema.addTable { table with comment := some text }, rest) := by
  have hparts : nameParts lexemes.tail.tail = ([owner], lexemes.tail.tail.tail) :=
    hopens.tail.tail.nameParts_single (token_keyword_ne (by rintro ⟨⟩))
  refine comment_of_parts hopens.tail.next_keyword hparts hopens hopens.tail.tail.tail ?_
  have hcontains : schema.tables.contains owner = true := by
    rw [Keyed.contains, htable]
    rfl
  simp only [addComment, List.getLast?_singleton, hcontains, if_true]
  exact congrArg Except.ok (addTable_update htable hname)

/-- A comment on a column is given to the column of its table. -/
theorem comment_of_columnComment {name : String} (hcolumn : table.columns.contains name = true)
    (hopens : Opens (columnCommentRow owner name text) rest lexemes) :
    comment line schema lexemes =
      .ok (schema.addTable (withColumnComment table name text), rest) := by
  have hparts : nameParts lexemes.tail.tail =
      ([owner, name], lexemes.tail.tail.tail.tail.tail) :=
    hopens.tail.tail.nameParts_dotted (token_keyword_ne (by rintro ⟨⟩))
  refine comment_of_parts hopens.tail.next_keyword hparts hopens
    hopens.tail.tail.tail.tail.tail ?_
  simp only [addComment, List.getLast?_cons_cons, List.getLast?_singleton, lastTwo, htable,
    hcolumn, if_true]
  exact congrArg Except.ok (addTable_update htable hname)

end Described

end SchemaEvolution.Sql
