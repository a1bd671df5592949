import SchemaEvolution.Proofs.Sql.ClauseEntries
import SchemaEvolution.Proofs.Sql.CutElements
import SchemaEvolution.Proofs.Sql.Refusal
import SchemaEvolution.Proofs.Sql.WellKeyed

/-!
# Tables that are broken off

A table whose statement is broken off in front of another definition is refused there, and the
other definition is read as if it stood alone, wherever the reader that the cut finds at work
looks out for the start of a definition.  The readers of column lists, of conditions and of
whatever is skipped between parentheses do not, nor does the one of a constraint that has just
been given its name.  Behind a cut that one of them is at work on, the other table is lost: its
columns become columns of the first one, or nothing at all.
-/

namespace SchemaEvolution.Sql

open Syntax

variable {line : Option Nat} {schema after : Schema} {following lexemes rest : List Lexeme}

/-- An alteration keeps the tables where they are. -/
theorem alter_keys (hkeyed : schema.WellKeyed)
    (hread : alter line schema lexemes = .ok (after, rest)) :
    after.tables.keys = schema.tables.keys := by
  simp only [alter] at hread
  split at hread
  · cases hread
    rfl
  · split at hread
    · cases hread
    · split at hread
      · cases hread
      · next name _ _ table htable =>
        obtain ⟨⟨changed, left⟩, hactions, hafter⟩ := exists_of_bind_eq_ok hread
        cases hafter
        have hname : changed.name ∈ schema.tables.keys := by
          rw [(actions_staysKeyed hactions).name, hkeyed.1.of_get? htable]
          exact Keyed.mem_keys_iff.2 ⟨table, htable⟩
        rw [Schema.addTable, Keyed.keys_insert, if_pos hname]

/-- A comment keeps the tables where they are, whatever it stands at. -/
theorem addComment_keys {target : Token} {parts : List String} {comment : Option String}
    (hadd : addComment schema target parts comment = .ok after) :
    after.tables.keys = schema.tables.keys := by
  unfold addComment at hadd
  split at hadd
  · split at hadd
    · cases hadd
      exact Keyed.keys_update ..
    · cases hadd
  · split at hadd
    · cases hadd
      rfl
    · split at hadd
      · cases hadd
      · split at hadd
        · cases hadd
          exact Keyed.keys_update ..
        · cases hadd
  all_goals
    cases hadd
    rfl

/-- The statement of a comment keeps the tables where they are. -/
theorem comment_keys (hread : comment line schema lexemes = .ok (after, rest)) :
    after.tables.keys = schema.tables.keys := by
  simp only [comment] at hread
  split at hread
  · cases hread
    rfl
  · split at hread
    · cases hread
    · split at hread
      · next hadd =>
        cases hread
        exact addComment_keys hadd
      · cases hread

/-- Only a definition gives the schema another table. -/
theorem statement_keys (hkeyed : schema.WellKeyed) (hstart : next lexemes ≠ .keyword .create)
    (hread : statement schema lexemes = .ok (after, rest)) :
    after.tables.keys = schema.tables.keys := by
  rw [statement] at hread
  split at hread
  · exact absurd ‹_› hstart
  · exact alter_keys hkeyed hread
  · exact comment_keys hread
  · cases hread
    rfl

/-- Where no statement creates anything, no step adds a table. -/
theorem scriptStep_keys {state : Import} {turn : Turn Import} (hkeyed : state.schema.WellKeyed)
    (hnone : ∀ lexeme ∈ lexemes, lexeme.token ≠ .keyword .create)
    (hstep : scriptStep state lexemes = .ok (turn, rest)) :
    turn.state.schema.tables.keys = state.schema.tables.keys := by
  have hstart : next lexemes ≠ .keyword .create := by
    cases lexemes with
    | nil => rintro ⟨⟩
    | cons lexeme more => exact hnone lexeme List.mem_cons_self
  rw [scriptStep] at hstep
  split at hstep
  · cases hstep
    rfl
  · split at hstep
    · next hread =>
      cases hstep
      exact statement_keys hkeyed hstart hread
    · cases hstep
      rfl

/-- A script without the start of a definition, from wherever it is read, adds no table. -/
theorem readOn_keys {state : Import} (hkeyed : state.schema.WellKeyed)
    (hnone : ∀ lexeme ∈ lexemes, lexeme.token ≠ .keyword .create) :
    (readOn state lexemes).schema.tables.keys = state.schema.tables.keys := by
  rw [readOn]
  cases hread : repeatedly scriptStep state lexemes with
  | error fault => cases fault
  | ok found =>
    refine (repeatedly_keeps_left (fun reached rest => reached.schema.WellKeyed ∧
      (∀ lexeme ∈ rest, lexeme.token ≠ .keyword .create) ∧
        reached.schema.tables.keys = state.schema.tables.keys) ?_ ⟨hkeyed, hnone, rfl⟩ hread).2.2
    rintro reached rest turn left ⟨hkeyed, hnone, hkeys⟩ hstep
    have hsuffix := scriptStep_suffix hstep
    have hless : ∀ lexeme ∈ left, lexeme.token ≠ .keyword .create :=
      fun lexeme hmem => hnone lexeme (hsuffix.subset hmem)
    exact ⟨scriptStep_wellKeyed hkeyed hstep, hless,
      (scriptStep_keys hkeyed hnone hstep).trans hkeys⟩

theorem keys_resolveReferences (schema : Schema) :
    (resolveReferences schema).tables.keys = schema.tables.keys := by
  simp only [resolveReferences, Keyed.keys, Keyed.map, List.map_map]
  rfl

/-- The table that is read has the name that its statement gives it. -/
theorem readTable_ok {name : String}
    (hread : readTable line name schema lexemes = .ok (after, rest)) :
    ∃ read : Table, after = schema.addTable read ∧ read.name = name := by
  obtain ⟨⟨d, left⟩, helements, hafter⟩ := exists_of_bind_eq_ok hread
  dsimp only at hafter
  split at hafter
  · cases hafter
  · cases hafter
    exact ⟨d.finish, rfl, (TableDefinition.elements_staysKeyed helements).name⟩

/-- What is read of a table that is broken off, in front of the start of another definition. -/
theorem statement_cut {table : TableSyntax} {front back : Marked} (hsound : table.Sound)
    (hsplit : table.body = front ++ back) (hcreate : next following = .keyword .create)
    (hbegins : Begins (table.head ++ front.tokens) following lexemes) (schema : Schema) :
    Recovers following (fun _ => False) (lastSeen front) (statement schema lexemes) ∧
      ∀ after rest, statement schema lexemes = .ok (after, rest) →
        ∃ read : Table, after = schema.addTable read ∧ read.name = table.name.name := by
  obtain ⟨inside, hhead, hbody⟩ := hbegins.split
  obtain ⟨line, hstatement⟩ := hhead.statement_head hsound
  rw [hstatement]
  refine ⟨?_, fun after rest hread => readTable_ok hread⟩
  refine Recovers.bind (TableDefinition.body_cut hcreate hsound hsplit hbody _)
    (fun _ _ hnone => hnone.elim) fun d rest => ?_
  dsimp only
  split
  · exact List.suffix_refl _
  · exact skipStatement_suffix rest

theorem recover_start (hcreate : next following = .keyword .create) :
    recover following = following := by
  obtain ⟨start, rest, rfl⟩ : ∃ start rest, following = start :: rest := by
    cases following with
    | nil => cases hcreate
    | cons start rest => exact ⟨start, rest, rfl⟩
  have hstart : start.token = .keyword .create := hcreate
  rw [recover, List.dropWhile_cons_of_neg (by simp [hstart])]
  exact skip_start hcreate (by rintro ⟨⟩)

/-! ## Scripts -/

/-- A definition is read as if it stood alone behind a table that is broken off at a place where
its start is seen, but for the error that the table gives. -/
theorem readOn_cut_seen {table : TableSyntax} {front back : Marked} (hsound : table.Sound)
    (hsplit : table.body = front ++ back) (hcreate : next following = .keyword .create)
    (hbegins : Begins (table.head ++ front.tokens) following lexemes)
    (hmark : lastSeen front = true) (state : Import) :
    ∃ fault : Diagnostic, fault.severity = .error ∧
      readOn state lexemes =
        readOn { state with diagnostics := state.diagnostics ++ [fault] } following := by
  have hstart : next lexemes ≠ .eof := by
    rw [hbegins.next]
    rintro ⟨⟩
  have hrecovers := (statement_cut hsound hsplit hcreate hbegins state.schema).1
  rw [hmark] at hrecovers
  cases hread : statement state.schema lexemes with
  | ok found =>
    rw [hread] at hrecovers
    exact hrecovers.elim
  | error stop =>
    rw [hread] at hrecovers
    obtain ⟨hrest, hseverity⟩ := hrecovers
    refine ⟨stop.diagnostic, hseverity, ?_⟩
    rw [readOn_of_turns (turns_refused hstart hread), hrest, recover_start hcreate]

/-- A definition behind a table that is broken off at any other place adds no table. -/
theorem readOn_cut_unseen {table : TableSyntax} {front back : Marked} (hsound : table.Sound)
    (hsplit : table.body = front ++ back) (hcreate : next following = .keyword .create)
    (hbegins : Begins (table.head ++ front.tokens) following lexemes)
    (hmark : lastSeen front = false)
    (hsole : ∀ lexeme ∈ following.tail, lexeme.token ≠ .keyword .create) :
    ∀ name ∈ (readOn ⟨.empty, []⟩ lexemes).schema.tables.keys, name = table.name.name := by
  have hstart : next lexemes ≠ .eof := by
    rw [hbegins.next]
    rintro ⟨⟩
  obtain ⟨hleaves, hread⟩ := statement_cut hsound hsplit hcreate hbegins .empty
  rw [hmark] at hleaves
  cases hcase : statement .empty lexemes with
  | ok found =>
    obtain ⟨after, rest⟩ := found
    rw [hcase] at hleaves
    obtain ⟨read, rfl, hname⟩ := hread after rest hcase
    have hkeyed := statement_wellKeyed Schema.wellKeyed_empty hcase
    have hturns : Turns scriptStep ⟨.empty, []⟩ lexemes ⟨_, []⟩ rest :=
      turns_accepted hstart hcase
    rw [readOn_of_turns hturns,
      readOn_keys hkeyed fun lexeme hmem => hsole lexeme (hleaves.subset hmem)]
    intro name hmem
    have hempty : Schema.empty.tables.keys = [] := rfl
    rw [Schema.addTable, Keyed.keys_insert, hname, hempty, if_neg List.not_mem_nil] at hmem
    exact List.mem_singleton.1 hmem
  | error stop =>
    rw [hcase] at hleaves
    have hsuffix : recover stop.rest <:+ following.tail := (recover_suffix _).trans hleaves
    have hturns : Turns scriptStep ⟨.empty, []⟩ lexemes ⟨.empty, [stop.diagnostic]⟩ _ :=
      turns_refused hstart hcase
    rw [readOn_of_turns hturns, readOn_keys Schema.wellKeyed_empty
      fun lexeme hmem => hsole lexeme (hsuffix.subset hmem)]
    rintro name ⟨⟩

theorem readOn_definition {table : TableSyntax} (hsound : table.Sound)
    (hcolumns : table.columns ≠ []) (hbegins : Begins table.tokens rest lexemes)
    (hend : next rest = .eof) :
    ∃ read : Table, (∀ state : Import,
        readOn state lexemes = { state with schema := state.schema.addTable read }) ∧
      read.name = table.name.name ∧ ∀ column ∈ table.columns, column.label ∈ read.columns.keys := by
  obtain ⟨d, hstatement, hgains⟩ := hbegins.statement hsound hcolumns
  refine ⟨d.finish, fun state => ?_, hgains.keys_finish.1, fun column hmem => ?_⟩
  · have haccepted := turns_accepted (TableSyntax.next_ne_eof hbegins) (hstatement state.schema)
    rw [readOn_of_turns haccepted, readOn_eof hend]
  · rw [d.columns_finish]
    exact hgains.mem_columns hmem

/-- Of a table that is broken off in front of the definition of another one, however many of its
tokens there are, the script tells with an error, and the other table is read with its columns as
if it stood alone, where its start is seen.  Where it is not, that table is missing. -/
theorem ofSql_cut (text : String) {table other : TableSyntax} {count : Nat} (hsound : table.Sound)
    (hother : other.Sound) (hcolumns : other.columns ≠ [])
    (hname : other.name.name ≠ table.name.name)
    (htokens : (Lexeme.ofText text).map Lexeme.token =
      table.head ++ Marked.tokens (table.body.take count) ++ (other.tokens ++ [.eof])) :
    ∃ read : Table,
      readOn ⟨.empty, []⟩ ((Lexeme.ofText text).drop
          (table.head ++ Marked.tokens (table.body.take count)).length) =
        ⟨Schema.empty.addTable read, []⟩ ∧
      read.name = other.name.name ∧
      (∀ column ∈ other.columns, column.label ∈ read.columns.keys) ∧
      (lastSeen (table.body.take count) = true → ∃ fault : Diagnostic, fault.severity = .error ∧
        Schema.ofSql text = ⟨resolveReferences (Schema.empty.addTable read), [fault]⟩) ∧
      (lastSeen (table.body.take count) = false → .keyword .create ∉ other.tokens.tail →
        other.name.name ∉ (Schema.ofSql text).schema.tables.keys) := by
  obtain ⟨following, hfollowing, hbegins⟩ :=
    begins_of_tokens (List.suffix_refl _) htokens nofun
  have ⟨taken, htaken, _, hlexemes⟩ := hbegins
  obtain ⟨last, hlast, hdefinition⟩ :=
    begins_of_tokens ⟨taken, hlexemes.symm⟩ hfollowing nofun
  have hend : next last = .eof := by
    rw [next_eq_head?, hlast]
    rfl
  have hcreate : next following = .keyword .create := hdefinition.next
  have hdrop : (Lexeme.ofText text).drop
      (table.head ++ Marked.tokens (table.body.take count)).length = following := by
    rw [← htaken, hlexemes, List.length_map, List.drop_left]
  have hsplit := (List.take_append_drop count table.body).symm
  obtain ⟨read, hread, hreadName, hreadColumns⟩ :=
    readOn_definition hother hcolumns hdefinition hend
  refine ⟨read, by rw [hdrop, hread], hreadName, hreadColumns, fun hmark => ?_,
    fun hmark hsole => ?_⟩
  · obtain ⟨fault, hseverity, hreadOn⟩ :=
      readOn_cut_seen hsound hsplit hcreate hbegins hmark ⟨.empty, []⟩
    refine ⟨fault, hseverity, ?_⟩
    rw [ofSql_eq_readOn, hreadOn, hread]
    rfl
  · have hnone : ∀ lexeme ∈ following.tail, lexeme.token ≠ .keyword .create := by
      intro lexeme hmem heq
      have htail : following.tail.map Lexeme.token = other.tokens.tail ++ [.eof] := by
        rw [List.map_tail, hfollowing]
        rfl
      have hcreated : lexeme.token ∈ other.tokens.tail ++ [Token.eof] :=
        htail ▸ List.mem_map_of_mem hmem
      rw [heq, List.mem_append, List.mem_singleton] at hcreated
      exact hcreated.elim hsole (by rintro ⟨⟩)
    rw [ofSql_eq_readOn, keys_resolveReferences]
    exact fun hmem =>
      hname (readOn_cut_unseen hsound hsplit hcreate hbegins hmark hnone _ hmem)

def keyedTable : TableSyntax where
  words := []
  ifNotExists := false
  name := ⟨.word "a", []⟩
  first := .column ⟨.word "x", [.word "int"], [], none⟩
  more := [.clause none (.primaryKey [.word "x"]) []]
  rest := []

theorem sound_keyedTable : keyedTable.Sound where
  words := nofun
  name := ⟨rfl, nofun⟩
  isNotIf := fun _ => by decide
  first := fun behind => {
    name := rfl
    isNot := by decide +kernel
    typed := by decide
    type := by decide +kernel
    behindType := rfl
    attributes := trivial
    generated := nofun
    behind := .inl rfl }
  more := fun behind =>
    ⟨⟨nofun, by simp [ClauseSyntax.Fits, IsNameList], rfl, .inr rfl⟩, trivial⟩
  rest := nofun

/-- A table with two columns, the first of which has a type with a comma in it. -/
def twoColumns : TableSyntax where
  words := []
  ifNotExists := false
  name := ⟨.word "b", []⟩
  first := .column ⟨.word "y",
    [.word "numeric", .leftParen, .number "10", .comma, .number "2", .rightParen], [], none⟩
  more := [.column ⟨.word "z", [.word "int"], [], none⟩]
  rest := []

theorem sound_twoColumns : twoColumns.Sound where
  words := nofun
  name := ⟨rfl, nofun⟩
  isNotIf := fun _ => by decide
  first := fun behind => {
    name := rfl
    isNot := by decide +kernel
    typed := by decide
    type := by decide +kernel
    behindType := rfl
    attributes := trivial
    generated := nofun
    behind := .inl rfl }
  more := fun behind => ⟨{
    name := rfl
    isNot := by decide +kernel
    typed := by decide
    type := by decide +kernel
    behindType := rfl
    attributes := trivial
    generated := nofun
    behind := .inr rfl }, trivial⟩
  rest := nofun

/-- Between the parentheses of a key the start of the second table is not seen: the list of columns
goes on to the first parenthesis that is closed there. -/
theorem ofSql_cut_insideKey :
    lastSeen (keyedTable.body.take 7) = false ∧
      ∃ read : Table, read.name = "b" ∧ "y" ∈ read.columns.keys ∧ "z" ∈ read.columns.keys ∧
        readOn ⟨.empty, []⟩
            ((Lexeme.ofText ("CREATE TABLE a (x int, PRIMARY KEY (x\n" ++
              "CREATE TABLE b (y numeric(10,2), z int);")).drop 11) =
          ⟨Schema.empty.addTable read, []⟩ ∧
        "b" ∉ (Schema.ofSql ("CREATE TABLE a (x int, PRIMARY KEY (x\n" ++
          "CREATE TABLE b (y numeric(10,2), z int);")).schema.tables.keys := by
  have hmark : lastSeen (keyedTable.body.take 7) = false := by decide +kernel
  have htokens : (Lexeme.ofText ("CREATE TABLE a (x int, PRIMARY KEY (x\n" ++
      "CREATE TABLE b (y numeric(10,2), z int);")).map Lexeme.token =
        keyedTable.head ++ Marked.tokens (keyedTable.body.take 7) ++
          (twoColumns.tokens ++ [.eof]) := by decide +kernel
  obtain ⟨read, hread, hname, hcolumns, -, hlost⟩ := ofSql_cut _ sound_keyedTable sound_twoColumns
    (by decide +kernel) (by decide +kernel) htokens
  exact ⟨hmark, read, hname, hcolumns ⟨.word "y", _, [], none⟩ List.mem_cons_self,
    hcolumns ⟨.word "z", _, [], none⟩ (List.mem_cons_of_mem _ List.mem_cons_self), hread,
    hlost hmark (by decide +kernel)⟩

end SchemaEvolution.Sql
