import Mathlib.Tactic.SplitIfs
import SchemaEvolution.Proofs.Sql.InPlace

/-!
# Statements that are refused

A statement that can not be understood leaves a diagnostic and nothing else.  The script is read
on from the schema that the statement found, and the diagnostics that there are already have no
say in what the rest is read as.  The actions of a change of a table are taken over together or,
when one of them fails, not at all.  A definition of a table, of a type or of an extension that can
not be read leaves an error, for the warnings are for statements about tables that are not there.
-/

namespace SchemaEvolution.Sql

/-- What a script is read as from some state on. -/
def readOn (state : Import) (lexemes : List Lexeme) : Import :=
  match repeatedly scriptStep state lexemes with
  | .ok (result, _) => result

theorem readOn_of_turns {state following : Import} {lexemes rest : List Lexeme}
    (hturns : Turns scriptStep state lexemes following rest) :
    readOn state lexemes = readOn following rest := by
  rw [readOn, readOn, hturns.repeatedly_eq]

theorem ofSql_eq_readOn (text : String) :
    Schema.ofSql text =
      { readOn ⟨.empty, []⟩ (Lexeme.ofText text) with
        schema := resolveReferences (readOn ⟨.empty, []⟩ (Lexeme.ofText text)).schema } := by
  rw [Schema.ofSql, readOn]
  cases repeatedly scriptStep ⟨.empty, []⟩ (Lexeme.ofText text) with
  | error fault => cases fault
  | ok found => rfl

section Statement

variable {state : Import} {lexemes : List Lexeme} (hstart : next lexemes ≠ .eof)

include hstart

theorem turns_accepted {schema : Schema} {rest : List Lexeme}
    (haccepted : statement state.schema lexemes = .ok (schema, rest)) :
    Turns scriptStep state lexemes { state with schema := schema } rest := by
  have hturn : scriptStep state lexemes = .ok (.again { state with schema := schema }, rest) := by
    rw [scriptStep, if_neg hstart, haccepted]
  exact .single hturn (length_scriptStep_lt hturn)

theorem turns_refused {stop : Halt} (hrefused : statement state.schema lexemes = .error stop) :
    Turns scriptStep state lexemes
      { state with diagnostics := state.diagnostics ++ [stop.diagnostic] }
      (recover stop.rest) := by
  have hturn : scriptStep state lexemes = .ok (.again
      { state with diagnostics := state.diagnostics ++ [stop.diagnostic] },
      recover stop.rest) := by
    rw [scriptStep, if_neg hstart, hrefused]
  exact .single hturn (length_scriptStep_lt hturn)

end Statement

theorem readOn_eof {state : Import} {lexemes : List Lexeme} (hend : next lexemes = .eof) :
    readOn state lexemes = state := by
  unfold readOn repeatedly
  rw [scriptStep, if_pos hend]

/-- Diagnostics are gathered in their order and change nothing else. -/
theorem readOn_eq (state : Import) (lexemes : List Lexeme) :
    readOn state lexemes =
      ⟨(readOn ⟨state.schema, []⟩ lexemes).schema,
        state.diagnostics ++ (readOn ⟨state.schema, []⟩ lexemes).diagnostics⟩ := by
  induction hlength : lexemes.length using Nat.strong_induction_on generalizing state lexemes with
  | _ length ih =>
    by_cases hend : next lexemes = .eof
    · rw [readOn_eof hend, readOn_eof hend, List.append_nil]
    · cases hread : statement state.schema lexemes with
      | ok found =>
        obtain ⟨schema, rest⟩ := found
        have hturn : scriptStep state lexemes =
            .ok (.again { state with schema := schema }, rest) := by
          rw [scriptStep, if_neg hend, hread]
        have hshorter := length_scriptStep_lt hturn
        have hfresh : statement (⟨state.schema, []⟩ : Import).schema lexemes =
          .ok (schema, rest) := hread
        rw [readOn_of_turns (turns_accepted hend hread),
          readOn_of_turns (turns_accepted hend hfresh)]
        exact ih _ (hlength ▸ hshorter) _ rest rfl
      | error stop =>
        have hturn : scriptStep state lexemes = .ok (.again
            { state with diagnostics := state.diagnostics ++ [stop.diagnostic] },
            recover stop.rest) := by
          rw [scriptStep, if_neg hend, hread]
        have hshorter := length_scriptStep_lt hturn
        have hfresh : statement (⟨state.schema, []⟩ : Import).schema lexemes =
          .error stop := hread
        have hmore := ih _ (hlength ▸ hshorter)
        rw [readOn_of_turns (turns_refused hend hread),
          readOn_of_turns (turns_refused hend hfresh), hmore _ _ rfl]
        conv => rhs; rw [hmore _ _ rfl]
        simp only [List.append_assoc, List.nil_append]

/-- The statement changes a table that is there, by the actions that are left to read. -/
structure Alters (schema : Schema) (lexemes : List Lexeme) (table : Table)
    (actions : List Lexeme) : Prop where
  opening : next lexemes = .keyword .alter
  subject : ∃ rest name, eat? (.keyword .table) lexemes.tail = some rest ∧
    qualifiedName? (skip (.keyword .only) (skipIfExists rest)) = some (name, actions) ∧
      schema.tables.get? name = some table

/-- A change of a table fails with any of its actions, whatever the actions before that one did. -/
theorem Alters.statement_error {schema : Schema} {lexemes actions after : List Lexeme}
    {table changed : Table} {fault : Diagnostic} {left : Session}
    (halters : Alters schema lexemes table actions)
    (hturns : Turns alterStep table actions changed after)
    (hfault : Handler.alterStep changed ⟨schema, after⟩ = .error fault left) :
    Handler.statement ⟨schema, lexemes⟩ = .error fault left := by
  obtain ⟨rest, name, htable, hname, hfound⟩ := halters.subject
  rw [Handler.alterStep_eq, Handler.reading_apply] at hfault
  cases hstep : alterStep changed after with
  | ok read =>
    rw [hstep] at hfault
    cases hfault
  | error stop =>
    rw [hstep] at hfault
    cases hfault
    refine Handler.statement_eq_error_iff.2 ⟨stop, ?_, rfl, rfl⟩
    simp only [statement, halters.opening, alter, htable, hname, hfound,
      hturns.repeatedly_error hstep]
    rfl

/-- Wherever a script that is written in place comes to a statement whose handler fails, the schema
is the very schema that the statement found.  The script is read on from there, and gives what the
rest of it gives there, with the diagnostic of the statement in its place.  This is so for a change
of a table whichever of its actions fails. -/
theorem refused_keeps_schema (text : String) {state : Import} {lexemes : List Lexeme}
    {fault : Diagnostic} {left : Session}
    (hreached : Turns writeStep ⟨.empty, []⟩ (Lexeme.ofText text) state lexemes)
    (hstart : next lexemes ≠ .eof)
    (hrefused : Handler.statement ⟨state.schema, lexemes⟩ = .error fault left ∨
      ∃ table actions changed after, Alters state.schema lexemes table actions ∧
        Turns alterStep table actions changed after ∧
          Handler.alterStep changed ⟨state.schema, after⟩ = .error fault left) :
    Handler.statement ⟨state.schema, lexemes⟩ = .error fault left ∧
      left.schema = state.schema ∧
      Turns writeStep ⟨.empty, []⟩ (Lexeme.ofText text)
        ⟨left.schema, state.diagnostics ++ [fault]⟩ (recover left.rest) ∧
      writeScript text = Schema.ofSql text ∧
      writeScript text =
        ⟨resolveReferences (readOn ⟨state.schema, []⟩ (recover left.rest)).schema,
          state.diagnostics ++ fault ::
            (readOn ⟨state.schema, []⟩ (recover left.rest)).diagnostics⟩ := by
  have hstatement : Handler.statement ⟨state.schema, lexemes⟩ = .error fault left := by
    rcases hrefused with hrefused | ⟨table, actions, changed, after, halters, hturns, hfault⟩
    · exact hrefused
    · exact halters.statement_error hturns hfault
  obtain ⟨stop, hread, rfl, rfl⟩ := Handler.statement_eq_error_iff.1 hstatement
  have hturns := (writeStep_eq ▸ hreached).trans (turns_refused hstart hread)
  refine ⟨hstatement, rfl, writeStep_eq ▸ hturns, congrFun writeScript_eq text, ?_⟩
  rw [writeScript_eq, ofSql_eq_readOn, readOn_of_turns hturns, readOn_eq, List.append_assoc]
  rfl

def soleColumn (name column : String) : Table :=
  (Table.empty name).addColumn (Column.plain column "int")

/-- The second action of this change of a table gives a column no type, so the first one adds no
column either, and the table after it is read. -/
theorem refused_keeps_schema_secondAction :
    Schema.ofSql ("CREATE TABLE t (c int);\nALTER TABLE t ADD COLUMN a int, ADD COLUMN b;\n" ++
        "CREATE TABLE u (d int);") =
      ⟨(Schema.empty.addTable (soleColumn "t" "c")).addTable (soleColumn "u" "d"),
        [.error "column b has no type" (some 2)]⟩ := by
  let text := "CREATE TABLE t (c int);\nALTER TABLE t ADD COLUMN a int, ADD COLUMN b;\n" ++
    "CREATE TABLE u (d int);"
  let lexemes := Lexeme.ofText text
  let created := Schema.empty.addTable (soleColumn "t" "c")
  let changed := (soleColumn "t" "c").addColumn (Column.plain "a" "int")
  let stop : Halt := ⟨.error "column b has no type" (some 2), lexemes.drop 19⟩
  have htext : Lexeme.ofText text = Lexeme.lexemes 1 (_ ++ _) :=
    congrArg (Lexeme.lexemes 1) (String.toList_append.trans
      (congrArg₂ (· ++ ·) String.toList_ofList String.toList_ofList))
  -- one evaluation for all of these, since each of them takes the text apart anew
  obtain ⟨hstart, hcreated, hopening, htable, hname, hfound, hfirst, hshorter, hsecond, hmore,
      hread⟩ :
      next lexemes ≠ .eof ∧
      statement .empty lexemes = .ok (created, lexemes.drop 8) ∧
      next (lexemes.drop 8) = .keyword .alter ∧
      eat? (.keyword .table) (lexemes.drop 8).tail = some (lexemes.drop 10) ∧
      qualifiedName? (skip (.keyword .only) (skipIfExists (lexemes.drop 10))) =
        some ("t", lexemes.drop 11) ∧
      created.tables.get? "t" = some (soleColumn "t" "c") ∧
      alterStep (soleColumn "t" "c") (lexemes.drop 11) = .ok (.again changed, lexemes.drop 16) ∧
      (lexemes.drop 16).length < (lexemes.drop 11).length ∧
      alterStep changed (lexemes.drop 16) = .error stop ∧
      next (lexemes.drop 8) ≠ .eof ∧
      (resolveReferences (readOn ⟨created, []⟩ (recover stop.rest)).schema =
          (Schema.empty.addTable (soleColumn "t" "c")).addTable (soleColumn "u" "d") ∧
        (readOn ⟨created, []⟩ (recover stop.rest)).diagnostics = []) := by
    simp only [stop, lexemes, htext]
    decide +kernel
  have hreached : Turns writeStep ⟨.empty, []⟩ lexemes ⟨created, []⟩ (lexemes.drop 8) :=
    writeStep_eq ▸ turns_accepted hstart hcreated
  have halters : Alters created (lexemes.drop 8) (soleColumn "t" "c") (lexemes.drop 11) :=
    ⟨hopening, lexemes.drop 10, "t", htable, hname, hfound⟩
  have hturns : Turns alterStep (soleColumn "t" "c") (lexemes.drop 11) changed
      (lexemes.drop 16) := .single hfirst hshorter
  have hfault : Handler.alterStep changed ⟨created, lexemes.drop 16⟩ =
      .error stop.diagnostic ⟨created, stop.rest⟩ := by
    rw [Handler.alterStep_eq, Handler.reading_apply, hsecond]
    rfl
  obtain ⟨-, -, -, hscript, hwritten⟩ := refused_keeps_schema text hreached hmore
    (.inr ⟨_, _, _, _, halters, hturns, hfault⟩)
  rw [hread.1, hread.2] at hwritten
  exact hscript.symm.trans hwritten

variable {α β σ : Type}

/-- Where the reader fails, it leaves an error and not a warning. -/
def LeavesError (read : Except Halt α) : Prop :=
  ∀ stop, read = .error stop → stop.diagnostic.severity = .error

theorem LeavesError.ok (value : α) : LeavesError (.ok value) := nofun

theorem LeavesError.halt (message : String) (line : Option Nat) (rest : List Lexeme) :
    LeavesError (Sql.halt message line rest : Except Halt α) := by
  rintro _ ⟨⟩
  rfl

theorem LeavesError.bind {read : Except Halt α} {following : α → Except Halt β}
    (hread : LeavesError read) (hfollowing : ∀ value, LeavesError (following value)) :
    LeavesError (read >>= following) := by
  intro stop hstop
  cases read with
  | error fault =>
    cases hstop
    exact hread _ rfl
  | ok value => exact hfollowing value stop hstop

theorem leavesError_repeatedly {step : σ → List Lexeme → Except Halt (Turn σ × List Lexeme)}
    (hstep : ∀ state lexemes, LeavesError (step state lexemes)) (state : σ)
    (lexemes : List Lexeme) : LeavesError (repeatedly step state lexemes) := by
  intro stop hstop
  fun_induction repeatedly step state lexemes with
  | case1 state lexemes fault hfault =>
    cases hstop
    exact hstep state lexemes _ hfault
  | case2 | case4 => cases hstop
  | case3 state lexemes following after hturn hshorter ih => exact ih hstop

/-- A reference that cannot be read leaves an error. -/
theorem leavesError_readReference (lexemes : List Lexeme) :
    LeavesError (readReference lexemes) := by
  unfold readReference
  split
  · exact .halt _ _ _
  · refine leavesError_repeatedly (fun reference lexemes => ?_) _ _
    unfold referenceOption
    dsimp only
    split
    · split
      all_goals exact .ok _
    · split_ifs
      all_goals exact .ok _

theorem leavesError_readTableClause (lexemes : List Lexeme) :
    LeavesError (readTableClause lexemes) := by
  unfold readTableClause
  dsimp only
  split
  case h_3 =>
    split
    · exact .halt _ _ _
    · exact .bind (leavesError_readReference _) fun _ => .ok _
  all_goals exact .ok _

theorem leavesError_attributeStep (state : ColumnDefinition × Option String)
    (lexemes : List Lexeme) : LeavesError (ColumnDefinition.attributeStep state lexemes) := by
  unfold ColumnDefinition.attributeStep
  dsimp only
  split
  case h_3 =>
    split
    all_goals exact .ok _
  case h_7 => exact .bind (leavesError_readReference _) fun _ => .ok _
  case h_9 =>
    split_ifs
    all_goals exact .ok _
  all_goals exact .ok _

theorem leavesError_read (lexemes : List Lexeme) : LeavesError (ColumnDefinition.read lexemes) := by
  unfold ColumnDefinition.read
  dsimp only
  split
  · exact .halt _ _ _
  · exact .bind (leavesError_repeatedly leavesError_attributeStep _ _) fun _ => .ok _

/-- An element of a table that cannot be read leaves an error. -/
theorem leavesError_element (line : Option Nat) (d : TableDefinition) (lexemes : List Lexeme) :
    LeavesError (TableDefinition.element line d lexemes) := by
  have hclause (label : Option String) (after : List Lexeme) :
      LeavesError (readTableClause after >>= fun read =>
        pure (Turn.again (d.addClause label read.1), read.2)) :=
    .bind (leavesError_readTableClause after) fun _ => .ok _
  unfold TableDefinition.element
  split
  case h_1 | h_2 => exact .ok _
  case h_3 | h_4 | h_5 => exact .halt _ _ _
  case h_6 | h_7 | h_8 | h_9 | h_10 => exact hclause _ _
  case h_11 =>
    split
    · exact .ok _
    · split
      · exact .bind (leavesError_read lexemes) fun _ => .ok _
      · exact .ok _

/-- A table that cannot be read leaves an error. -/
theorem leavesError_createTable (line : Option Nat) (schema : Schema) (lexemes : List Lexeme) :
    LeavesError (createTable line schema lexemes) := by
  unfold createTable
  dsimp only
  split
  · exact .halt _ _ _
  · split
    · exact .ok _
    · refine .bind (leavesError_repeatedly (leavesError_element line) _ _) fun _ => ?_
      split
      · exact .halt _ _ _
      · exact .ok _

/-! ## Types and extensions -/

theorem leavesError_enumValues (name : String) (line : Option Nat) (lexemes : List Lexeme) :
    LeavesError (enumValues name line lexemes) := by
  induction lexemes with
  | nil => exact .halt _ _ _
  | cons lexeme rest ih =>
    unfold enumValues
    split
    · exact .bind ih fun _ => .ok _
    · exact ih
    · exact .ok _
    · exact .halt _ _ _

theorem leavesError_createType (line : Option Nat) (schema : Schema) (lexemes : List Lexeme) :
    LeavesError (createType line schema lexemes) := by
  unfold createType
  split
  · exact .halt _ _ _
  · split
    · exact .ok _
    · split
      · exact .ok _
      · split
        · exact .ok _
        · exact .bind (leavesError_enumValues _ _ _) fun _ => .ok _

theorem leavesError_createExtension (line : Option Nat) (schema : Schema) (lexemes : List Lexeme) :
    LeavesError (createExtension line schema lexemes) := by
  unfold createExtension
  dsimp only
  split
  · exact .halt _ _ _
  · refine .bind (leavesError_repeatedly (fun extension lexemes => ?_) _ _) fun _ => .ok _
    unfold extensionOption
    dsimp only
    split_ifs
    all_goals exact .ok _

end SchemaEvolution.Sql
