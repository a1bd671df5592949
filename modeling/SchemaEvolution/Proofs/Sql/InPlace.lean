import SchemaEvolution.Proofs.Keyed.Lookup
import SchemaEvolution.Proofs.Sql.Handler
import SchemaEvolution.Proofs.Sql.Progress

/-!
# Statements that write into a schema

Every handler reads all of its statement, and looks up what the statement is about, before it writes
for the first time.  So it does what reading the statement as a whole does: it writes the schema
that the statement gives, or fails and has written nothing.  A script that is written in place gives
what `Schema.ofSql` gives.
-/

namespace SchemaEvolution.Sql

namespace Handler

variable {α β σ : Type}

/-- What reading gives and leaves where nothing is written. -/
def outcome (schema : Schema) :
    Except Halt (α × List Lexeme) → EStateM.Result Diagnostic Session α
  | .ok (value, after) => .ok value ⟨schema, after⟩
  | .error stop => .error stop.diagnostic ⟨schema, stop.rest⟩

/-- Reads and writes nothing. -/
def reading (reader : List Lexeme → Except Halt (α × List Lexeme)) : Handler α :=
  fun session => outcome session.schema (reader session.rest)

theorem reading_apply (reader : List Lexeme → Except Halt (α × List Lexeme)) (session : Session) :
    reading reader session = outcome session.schema (reader session.rest) := rfl

theorem reading_bind_pure (reader : List Lexeme → Except Halt (α × List Lexeme)) (f : α → β)
    (schema : Schema) (rest : List Lexeme) :
    (do let value ← reading reader; return f value : Handler β) ⟨schema, rest⟩ =
      outcome schema (do let (value, after) ← reader rest; return (f value, after)) := by
  simp only [bind_apply, reading_apply]
  cases reader rest <;> rfl

/-- A step that writes nothing writes nothing when it is repeated. -/
theorem repeatedly_reading {step : σ → Handler (Turn σ)}
    {reader : σ → List Lexeme → Except Halt (Turn σ × List Lexeme)}
    (hstep : ∀ state, step state = reading (reader state)) (state : σ) :
    repeatedly step state = reading (SchemaEvolution.repeatedly reader state) := by
  funext ⟨schema, rest⟩
  rw [reading_apply]
  fun_induction SchemaEvolution.repeatedly reader state rest with
  | case1 state rest fault hfault =>
    unfold repeatedly
    rw [hstep, reading_apply, hfault]
    rfl
  | case2 state rest last after hturn =>
    unfold repeatedly
    rw [hstep, reading_apply, hturn]
    rfl
  | case3 state rest following after hturn hshorter ih =>
    refine Eq.trans ?_ ih
    conv => lhs; unfold repeatedly
    rw [hstep, reading_apply, hturn]
    exact if_pos hshorter
  | case4 state rest last after hturn hlength =>
    unfold repeatedly
    rw [hstep, reading_apply, hturn]
    exact if_neg hlength

theorem referenceOption_eq (found : Reference) :
    referenceOption found = reading (Sql.referenceOption found) := by
  funext session
  simp only [referenceOption, Sql.referenceOption, bind_apply, current_apply, reading_apply]
  split_ifs
  · simp only [bind_apply, advance_apply, current_apply]
    cases next session.rest.tail with
    | keyword word => cases word <;> rfl
    | _ => rfl
  · rfl
  · rfl
  all_goals
    simp only [bind_apply, get_apply, *]
    rfl

theorem reference_eq : reference = reading readReference := by
  funext session
  simp only [reference, readReference, bind_apply, line_apply, taking_apply, optionalQualifiedName,
    reading_apply]
  cases qualifiedName? session.rest with
  | none => rfl
  | some found =>
    simp only [bind_apply, taking_apply, repeatedly_reading referenceOption_eq]
    rfl

theorem tableClause_eq : tableClause = reading readTableClause := by
  funext session
  simp only [tableClause, readTableClause, bind_apply, line_apply, current_apply, reading_apply]
  cases next session.rest with
  | keyword word =>
    cases word with
    | foreign =>
      simp only [bind_apply, advance_apply, pass_apply, taking_apply, eat_apply]
      cases eat? (.keyword .references) (nameList (skip (.keyword .key) session.rest.tail)).2 with
      | none => rfl
      | some after =>
        simp only [Bool.not_true, Bool.false_eq_true, if_false, bind_apply, reference_eq,
          reading_apply]
        cases readReference after <;> rfl
    | _ => rfl
  | _ => rfl

theorem attributeStep_eq (state : ColumnDefinition × Option String) :
    attributeStep state = reading (ColumnDefinition.attributeStep state) := by
  funext session
  simp only [attributeStep, ColumnDefinition.attributeStep, bind_apply, current_apply,
    reading_apply]
  cases next session.rest with
  | keyword word =>
    cases word with
    | not =>
      simp only [bind_apply, advance_apply, eat_apply]
      cases eat? (.keyword .null) session.rest.tail <;> rfl
    | references =>
      simp only [bind_apply, advance_apply, reference_eq, reading_apply]
      cases readReference session.rest.tail <;> rfl
    | _ => rfl
  | _ =>
    dsimp only
    split_ifs
    all_goals
      simp only [*, bind_apply, advance_apply, pass_apply, taking_apply, pure_apply, outcome,
        if_true, if_false, Bool.false_eq_true]

theorem column_eq : column = reading ColumnDefinition.read := by
  funext session
  simp only [column, ColumnDefinition.read, bind_apply, line_apply, current_apply, advance_apply,
    taking_apply, reading_apply]
  split_ifs
  · rfl
  · rw [bind_apply, repeatedly_reading attributeStep_eq, reading_apply]
    cases SchemaEvolution.repeatedly ColumnDefinition.attributeStep _
      (cut endsType 0 session.rest.tail).2 <;> rfl

theorem element_eq (line : Option Nat) (d : TableDefinition) :
    element line d = reading (TableDefinition.element line d) := by
  funext session
  simp only [element, TableDefinition.element, bind_apply, current_apply, reading_apply,
    tableClause_eq, column_eq]
  cases next session.rest with
  | rightParen | comma | eof | semicolon => rfl
  | keyword word =>
    cases word with
    | create => rfl
    | constraint | primary | foreign | unique | check =>
      exact reading_bind_pure readTableClause _ session.schema _
    | _ =>
      dsimp only
      split_ifs
      · rfl
      · exact reading_bind_pure ColumnDefinition.read _ session.schema _
      · rfl
  | _ =>
    dsimp only
    split_ifs
    · rfl
    · exact reading_bind_pure ColumnDefinition.read _ session.schema _
    · rfl

theorem indexStep_eq (elements : List String) :
    indexStep elements = reading (Sql.indexStep elements) := by
  funext session
  simp only [indexStep, Sql.indexStep, bind_apply, taking_apply, current_apply, reading_apply]
  cases next (cut (fun depth token => token = .eof || token = .semicolon ||
    (depth == 0 && (token = .rightParen || token = .comma))) 0 session.rest).2 <;> rfl

theorem indexElements_eq : indexElements = reading Sql.indexElements := by
  funext session
  simp only [indexElements, Sql.indexElements, bind_apply, eat_apply, reading_apply]
  cases eat? .leftParen session.rest with
  | none => rfl
  | some inside =>
    simp only [if_true, repeatedly_reading indexStep_eq]
    rfl

/-- The loop over the values of an enum leaves the schema alone. -/
theorem repeatedly_enumStep (name : String) (line : Option Nat) (values : List String)
    (session : Session) :
    repeatedly (enumStep name line) values session =
      outcome session.schema (do
        let (more, after) ← enumValues name line session.rest
        return (values ++ more, after)) := by
  obtain ⟨schema, rest⟩ := session
  induction rest generalizing values with
  | nil =>
    unfold repeatedly
    rfl
  | cons lexeme rest ih =>
    have hshorter : rest.length < (lexeme :: rest).length := Nat.lt_succ_self _
    unfold repeatedly enumValues
    simp only [enumStep, bind_apply, current_apply, next]
    cases lexeme.token with
    | string value =>
      simp only [bind_apply, advance_apply, pure_apply, List.tail_cons, if_pos hshorter, ih]
      cases enumValues name line rest with
      | error stop => rfl
      | ok read => simp [bind, Except.bind, pure, Except.pure]
    | comma => simp only [bind_apply, advance_apply, pure_apply, List.tail_cons, if_pos hshorter, ih]
    | rightParen => simp [outcome, bind, Except.bind, pure, Except.pure, EStateM.bind, EStateM.pure]
    | _ => rfl

theorem extensionOption_eq (extension : Extension) :
    extensionOption extension = reading (Sql.extensionOption extension) := by
  funext session
  simp only [extensionOption, Sql.extensionOption, bind_apply, current_apply, reading_apply]
  split_ifs <;> rfl

/-- An action works on a copy of the table and leaves the schema alone. -/
theorem alterAction_eq (table : Table) :
    alterAction table = reading (Sql.alterAction table) := by
  funext session
  simp only [alterAction, Sql.alterAction, bind_apply, current_apply, reading_apply,
    tableClause_eq, column_eq]
  cases next session.rest with
  | keyword word =>
    cases word with
    | add =>
      simp only [bind_apply, advance_apply, current_apply]
      cases next session.rest.tail with
      | keyword word =>
        cases word with
        | constraint | primary | foreign | unique | check =>
          exact reading_bind_pure readTableClause _ session.schema _
        | _ => exact reading_bind_pure ColumnDefinition.read _ session.schema _
      | _ => exact reading_bind_pure ColumnDefinition.read _ session.schema _
    | _ => rfl
  | _ => rfl

theorem alterStep_eq (table : Table) : alterStep table = reading (Sql.alterStep table) := by
  funext session
  simp only [alterStep, Sql.alterStep, bind_apply, alterAction_eq, reading_apply]
  cases Sql.alterAction table session.rest with
  | error stop => rfl
  | ok read =>
    obtain ⟨table, rest⟩ := read
    simp only [outcome, bind, Except.bind, eat_apply]
    cases eat? .comma rest <;> rfl

/-- Reads a statement as a whole, and then writes the schema that it gives. -/
def atOnce (reader : Schema → List Lexeme → Except Halt (Schema × List Lexeme)) :
    Handler Unit := fun session =>
  match reader session.schema session.rest with
  | .ok (schema, after) => .ok () ⟨schema, after⟩
  | .error stop => .error stop.diagnostic { session with rest := stop.rest }

/-- A table is stored when all of its statement has been read. -/
theorem createTable_eq :
    createTable = atOnce fun schema lexemes =>
      Sql.createTable (line? lexemes) schema lexemes.tail := by
  funext session
  simp only [createTable, Sql.createTable, atOnce, bind_apply, line_apply, advance_apply,
    pass_apply, taking_apply, optionalQualifiedName]
  cases qualifiedName? (skipIfNotExists session.rest.tail) with
  | none => rfl
  | some found =>
    obtain ⟨name, rest⟩ := found
    simp only [bind_apply, eat_apply]
    cases eat? .leftParen rest with
    | none => rfl
    | some inside =>
      simp only [Bool.not_true, Bool.false_eq_true, if_false, bind_apply,
        repeatedly_reading (element_eq _), reading_apply]
      cases SchemaEvolution.repeatedly (TableDefinition.element (line? session.rest))
          ⟨Table.empty name, []⟩ inside with
      | error stop => rfl
      | ok read =>
        simp only [outcome, bind, Except.bind]
        cases read.1.finish.columns.isEmpty <;> rfl

/-- An index is stored when its table has been found. -/
theorem createIndex_eq :
    createIndex = atOnce fun schema lexemes =>
      Sql.createIndex (line? lexemes) schema lexemes := by
  funext session
  simp only [createIndex, Sql.createIndex, atOnce, bind_apply, line_apply, pass_apply,
    taking_apply, eat_eq_skip (nofun : Token.keyword .unique ≠ .eof)]
  generalize skipIfNotExists (skipWord "concurrently" _) = named
  generalize (if next named = .keyword .on then _ else optionalQualifiedName named) = labelled
  obtain ⟨label, rest⟩ := labelled
  simp only [eat_apply]
  cases eat? (.keyword .on) rest with
  | none => rfl
  | some rest =>
    simp only [Bool.not_true, Bool.false_eq_true, if_false, bind_apply, pass_apply, taking_apply,
      optionalQualifiedName]
    cases qualifiedName? (skip (.keyword .only) rest) with
    | none => rfl
    | some found =>
      obtain ⟨owner, rest⟩ := found
      simp only [bind_apply, taking_apply, indexElements_eq, reading_apply]
      cases Sql.indexElements (indexMethod rest).2 with
      | error stop => rfl
      | ok read =>
        simp only [outcome, bind, Except.bind, pass_apply, get_apply]
        cases session.schema.tables.get? owner <;> rfl

/-- A type is stored when all of its statement has been read. -/
theorem createType_eq :
    createType = atOnce fun schema lexemes =>
      Sql.createType (line? lexemes) schema lexemes.tail := by
  funext session
  simp only [createType, Sql.createType, atOnce, bind_apply, line_apply, advance_apply,
    taking_apply, optionalQualifiedName]
  cases qualifiedName? session.rest.tail with
  | none => rfl
  | some found =>
    obtain ⟨name, rest⟩ := found
    simp only [bind_apply, eat_apply]
    cases eat? (.keyword .as) rest with
    | none => rfl
    | some rest =>
      simp only [Bool.not_true, Bool.false_eq_true, if_false, bind_apply, current_apply]
      cases (next rest).isWord "enum" with
      | false => rfl
      | true =>
        simp only [Bool.not_true, Bool.false_eq_true, if_false, bind_apply, advance_apply,
          eat_apply]
        cases eat? .leftParen rest.tail with
        | none => rfl
        | some inside =>
          simp only [if_true, bind_apply, repeatedly_enumStep]
          cases enumValues name (line? session.rest) inside <;> rfl

theorem createExtension_eq :
    createExtension = atOnce fun schema lexemes =>
      Sql.createExtension (line? lexemes) schema lexemes.tail := by
  funext session
  simp only [createExtension, Sql.createExtension, atOnce, bind_apply, line_apply, advance_apply,
    pass_apply, taking_apply, optionalQualifiedName]
  cases qualifiedName? (skipIfNotExists session.rest.tail) with
  | none => rfl
  | some found =>
    obtain ⟨name, rest⟩ := found
    simp only [bind_apply, repeatedly_reading extensionOption_eq, reading_apply]
    cases SchemaEvolution.repeatedly Sql.extensionOption ⟨name, none, none, none⟩ rest <;> rfl

/-- What is created is stored when its statement has been read. -/
theorem create_eq : create = atOnce fun schema lexemes => Sql.create schema lexemes.tail := by
  funext session
  simp only [create, Sql.create, atOnce, bind_apply, advance_apply, pass_apply, current_apply,
    createTable_eq, createIndex_eq, createType_eq, createExtension_eq]
  generalize (if (next session.rest.tail).isWord "or" then _ else session.rest.tail) = lexemes
  generalize lexemes.dropWhile _ = lexemes
  generalize hnext : next lexemes = token
  cases token with
  | keyword word => cases word <;> rfl
  | _ => rfl

/-- What the actions of an alteration make of the copy of their table is stored at the end. -/
theorem alter_eq :
    alter = atOnce fun schema lexemes => Sql.alter (line? lexemes) schema lexemes.tail := by
  funext session
  simp only [alter, Sql.alter, atOnce, bind_apply, line_apply, advance_apply, eat_apply]
  cases eat? (.keyword .table) session.rest.tail with
  | none => rfl
  | some rest =>
    simp only [Bool.not_true, Bool.false_eq_true, if_false, bind_apply, pass_apply, taking_apply,
      optionalQualifiedName]
    cases qualifiedName? (skip (.keyword .only) (skipIfExists rest)) with
    | none => rfl
    | some found =>
      obtain ⟨name, rest⟩ := found
      simp only [bind_apply, get_apply]
      cases session.schema.tables.get? name with
      | none => rfl
      | some table =>
        simp only [bind_apply, repeatedly_reading alterStep_eq, reading_apply]
        cases SchemaEvolution.repeatedly Sql.alterStep table rest <;> rfl

/-- A comment is written in place as it is put into the schema. -/
theorem addComment_apply (line : Option Nat) (target : Token) (parts : List String)
    (comment : Option String) (session : Session) :
    addComment line target parts comment session =
      match Sql.addComment session.schema target parts comment with
      | .ok schema => .ok () { session with schema := schema }
      | .error missing =>
        .error (.warning ("comment on unknown " ++ missing) line) session := by
  fun_cases Sql.addComment session.schema target parts comment
  case case5 hlast owner name hnames table hfound hcolumn columns tables =>
    simp only [addComment, hlast, hnames, bind_apply, get_apply, hfound, hcolumn, if_true,
      write_apply, tables, columns, Keyed.update_eq_insert hfound]
  all_goals
    simp [addComment, unknown, *]
    try rfl

/-- A comment is stored when its target has been found. -/
theorem comment_eq :
    comment = atOnce fun schema lexemes => Sql.comment (line? lexemes) schema lexemes.tail := by
  funext session
  simp only [comment, Sql.comment, atOnce, bind_apply, line_apply, advance_apply, eat_apply]
  cases eat? (.keyword .on) session.rest.tail with
  | none => rfl
  | some rest =>
    simp only [Bool.not_true, Bool.false_eq_true, if_false, bind_apply, current_apply,
      advance_apply, taking_apply, eat_apply]
    cases eat? (.keyword .is) (nameParts rest.tail).2 with
    | none => rfl
    | some left =>
      simp only [Bool.not_true, Bool.false_eq_true, if_false, bind_apply, current_apply,
        pass_apply, addComment_apply]
      cases Sql.addComment session.schema (next rest) (nameParts rest.tail).1 _ <;> rfl

theorem skipStatement_of_semicolon {lexemes : List Lexeme} (hnext : next lexemes = .semicolon) :
    skipStatement lexemes = lexemes.tail := by
  cases lexemes with
  | nil => rfl
  | cons lexeme rest =>
    have htoken : lexeme.token = .semicolon := hnext
    simp [skipStatement, skip, eat?, htoken]

/-- A handler writes the schema of the whole statement, or fails and has written nothing. -/
theorem statement_eq : statement = atOnce Sql.statement := by
  funext session
  simp only [statement, Sql.statement, atOnce, bind_apply, current_apply, create_eq, alter_eq,
    comment_eq]
  generalize hnext : next session.rest = token
  cases token with
  | keyword word => cases word <;> rfl
  | semicolon => simp only [advance_apply, skipStatement_of_semicolon hnext]
  | _ => rfl

/-- A handler fails where reading the statement does, and leaves the schema that it found. -/
theorem statement_eq_error_iff {session left : Session} {fault : Diagnostic} :
    statement session = .error fault left ↔
      ∃ stop, Sql.statement session.schema session.rest = .error stop ∧
        stop.diagnostic = fault ∧ ⟨session.schema, stop.rest⟩ = left := by
  rw [statement_eq, atOnce]
  cases Sql.statement session.schema session.rest with
  | ok read => simp
  | error stop => simp

end Handler

/-- What is left after a statement, and a token less where the statement has taken none. -/
def moved (before after : List Lexeme) : List Lexeme :=
  if after.length < before.length then after else before.tail

/-- Writes a statement in place.  A fault is noted, and the schema stays as the handler left it. -/
def writeStep (state : Import) (lexemes : List Lexeme) :
    Except Empty (Turn Import × List Lexeme) :=
  if next lexemes = .eof then .ok (.done state, lexemes)
  else
    match Handler.statement ⟨state.schema, lexemes⟩ with
    | .ok _ left => .ok (.again { state with schema := left.schema }, moved lexemes left.rest)
    | .error fault left =>
      .ok (.again ⟨left.schema, state.diagnostics ++ [fault]⟩, moved lexemes (recover left.rest))

/-- Statement by statement, what is written in place is the schema that the step returns. -/
theorem writeStep_eq : writeStep = scriptStep := by
  funext state lexemes
  by_cases hend : next lexemes = .eof
  · rw [writeStep, scriptStep, if_pos hend, if_pos hend]
  have hwritten : writeStep state lexemes =
      (scriptStep state lexemes).map fun read => (read.1, moved lexemes read.2) := by
    rw [writeStep, scriptStep, if_neg hend, if_neg hend, Handler.statement_eq, Handler.atOnce]
    cases statement state.schema lexemes <;> rfl
  rw [hwritten]
  cases hturn : scriptStep state lexemes with
  | error fault => cases fault
  | ok read =>
    obtain ⟨turn, after⟩ := read
    cases turn with
    | again following =>
      have hshorter := length_scriptStep_lt hturn
      simp only [Except.map, moved, if_pos hshorter]
    | done last =>
      rw [scriptStep, if_neg hend] at hturn
      cases hread : statement state.schema lexemes <;> simp [hread] at hturn

/-- Takes a script statement by statement, from nothing. -/
def scriptBy (step : Import → List Lexeme → Except Empty (Turn Import × List Lexeme))
    (text : String) : Import :=
  match repeatedly step ⟨.empty, []⟩ (Lexeme.ofText text) with
  | .ok (result, _) => { result with schema := resolveReferences result.schema }

/-- Writes a script in place. -/
def writeScript : String → Import := scriptBy writeStep

/-- A script that is written in place is read. -/
theorem writeScript_eq : writeScript = Schema.ofSql := congrArg scriptBy writeStep_eq

end SchemaEvolution.Sql
