import SchemaEvolution.Proofs.Sql.AlterationReading

/-!
# Reading scripts

An exported script is a row of sentences, each opened by a key word.  A sentence that is read as
some change of the schema is read so wherever it stands, so the reading of a script is followed
sentence by sentence.
-/

namespace SchemaEvolution.Sql

/-- The key word that opens a sentence and the pieces after it. -/
structure Sentence where
  opening : Keyword
  row : List Spaced

/-- A script of one statement that is read to its end. -/
theorem ofSql_of_statement {text : String} {schema : Schema} {last : Lexeme}
    (hstart : next (Lexeme.ofText text) ≠ .eof) (hlength : 1 < (Lexeme.ofText text).length)
    (hlast : last.token = .eof)
    (hstatement : statement .empty (Lexeme.ofText text) = .ok (schema, [last])) :
    Schema.ofSql text = ⟨resolveReferences schema, []⟩ := by
  have hturn : scriptStep ⟨.empty, []⟩ (Lexeme.ofText text) =
      .ok (.again ⟨schema, []⟩, [last]) := by
    simp only [scriptStep, if_neg hstart, hstatement]
  have hdone : scriptStep ⟨schema, []⟩ [last] = .ok (.done ⟨schema, []⟩, [last]) :=
    if_pos hlast
  have hshorter : [last].length < (Lexeme.ofText text).length := hlength
  rw [Schema.ofSql, repeatedly_again hshorter hturn, repeatedly_done hdone]

namespace Sentence

def rowAfter (sentence : Sentence) (gap : List Char) : List Spaced :=
  ⟨gap, .word sentence.opening.spelling⟩ :: sentence.row

def chars (sentence : Sentence) : List Char :=
  sentence.opening.spelling.toList ++ rowChars sentence.row

/-- The sentence takes the schema from `before` to `after`, wherever it stands. -/
def Reads (sentence : Sentence) (before after : Schema) : Prop :=
  ∀ gap rest lexemes, Opens (sentence.rowAfter gap) rest lexemes →
    statement before lexemes = .ok (after, rest)

theorem rowChars_rowAfter (sentence : Sentence) (gap : List Char) :
    rowChars (sentence.rowAfter gap) = gap ++ sentence.chars := by
  rw [rowAfter, chars, rowChars, List.flatMap_cons, Spaced.chars, List.append_assoc]
  rfl

variable {row : List Spaced} {before after : Schema}

/-- What follows the key word that creates something is left to `create`. -/
theorem statement_create {gap : List Char} {rest lexemes : List Lexeme}
    (hopens : Opens ((Sentence.mk .create row).rowAfter gap) rest lexemes) :
    statement before lexemes = create before lexemes.tail := by
  have hnext : next lexemes = .keyword .create := hopens.next.trans (token_keyword .create)
  simp only [statement, hnext]

theorem reads_create (hread : ∀ rest lexemes, Opens row rest lexemes →
    create before lexemes = .ok (after, rest)) : (Sentence.mk .create row).Reads before after := by
  intro gap rest lexemes hopens
  rw [statement_create hopens]
  exact hread rest lexemes.tail hopens.tail

theorem reads_alter (hread : ∀ line rest lexemes, Opens row rest lexemes →
    alter line before lexemes = .ok (after, rest)) :
    (Sentence.mk .alter row).Reads before after := by
  intro gap rest lexemes hopens
  have hnext : next lexemes = .keyword .alter := hopens.next.trans (token_keyword .alter)
  simp only [statement, hnext]
  exact hread _ rest lexemes.tail hopens.tail

theorem reads_comment (hread : ∀ line rest lexemes, Opens row rest lexemes →
    comment line before lexemes = .ok (after, rest)) :
    (Sentence.mk .comment row).Reads before after := by
  intro gap rest lexemes hopens
  have hnext : next lexemes = .keyword .comment := hopens.next.trans (token_keyword .comment)
  simp only [statement, hnext]
  exact hread _ rest lexemes.tail hopens.tail

end Sentence

section Create

variable {known : Keyword} {row : List Spaced} {rest lexemes : List Lexeme} {schema : Schema}

theorem isWord_keyword (word : String) (known : Keyword) :
    Token.isWord word (.keyword known) = false := rfl

/-- A key word is no word that says what kind of table comes. -/
theorem Opens.dropWhile_isOneOf (words : List String)
    (hopens : Opens (keyword known :: row) rest lexemes) :
    (lexemes.dropWhile fun lexeme => lexeme.token.isOneOf words) = lexemes := by
  obtain ⟨lexeme, others, hlexeme, -, rfl⟩ := hopens.cons
  have htoken : lexeme.token = .keyword known := hlexeme.2.2.trans (token_keyword known)
  rw [List.dropWhile_cons_of_neg]
  simp [htoken, Token.isOneOf, isWord_keyword]

theorem Opens.create_extension (hopens : Opens (keyword .extension :: row) rest lexemes) :
    create schema lexemes = createExtension (line? lexemes) schema lexemes.tail := by
  simp only [create, hopens.next_keyword, isWord_keyword, Bool.false_eq_true, if_false,
    hopens.dropWhile_isOneOf]

theorem Opens.create_type (hopens : Opens (keyword .type :: row) rest lexemes) :
    create schema lexemes = createType (line? lexemes) schema lexemes.tail := by
  simp only [create, hopens.next_keyword, isWord_keyword, Bool.false_eq_true, if_false,
    hopens.dropWhile_isOneOf]

theorem Opens.create_table (hopens : Opens (keyword .table :: row) rest lexemes) :
    create schema lexemes = createTable (line? lexemes) schema lexemes.tail := by
  simp only [create, hopens.next_keyword, isWord_keyword, Bool.false_eq_true, if_false,
    hopens.dropWhile_isOneOf]

end Create

namespace Sentence

variable {before : Schema}

theorem reads_extension {extension : Extension} (hname : extension.name ∉ reserved)
    (hplace : ∀ place ∈ extension.schema, place ∉ reserved) (hcomment : extension.comment = none) :
    (Sentence.mk .create (extensionRow extension)).Reads before
      (before.addExtension extension) := by
  refine reads_create fun rest lexemes hopens => ?_
  rw [hopens.create_extension]
  exact createExtension_of_opens hname hplace hcomment hopens

theorem reads_enum {type : EnumType} (hname : type.name ∉ reserved)
    (hcomment : type.comment = none) :
    (Sentence.mk .create (enumRow type)).Reads before (before.addEnum type) := by
  refine reads_create fun rest lexemes hopens => ?_
  rw [hopens.create_type]
  exact createType_of_opens hname hcomment hopens

theorem reads_table {table : Table} (hnamed : table.columns.Named Column.name)
    (hsome : table.columns.values ≠ []) (hplain : table.columns.All IsPlainColumn) :
    (Sentence.mk .create (tableRow table)).Reads before (before.addTable table.created) := by
  refine reads_create fun rest lexemes hopens => ?_
  rw [hopens.create_table]
  exact createTable_of_opens hnamed hsome hplain hopens

section Described

variable {owner : String} {table : Table} (htable : before.tables.get? owner = some table)

include htable

theorem reads_constraint {constraint : Constraint} (hplain : constraint.rule.kind ≠ "CHECK") :
    (Sentence.mk .alter (constraintRow owner constraint)).Reads before
      (before.addTable ((clauseOf constraint.rule).addTo (some constraint.name) table)) :=
  reads_alter fun _ _ _ hopens => alter_of_constraintRow hplain htable hopens

theorem reads_addedColumn {column : Column} (hplain : IsPlainColumn column)
    (hserial : TypeName.isSerial column.type = true → column.notNull = true) :
    (Sentence.mk .alter (addedColumnRow owner column)).Reads before
      (before.addTable (table.addColumn { column with comment := none })) :=
  reads_alter fun _ _ _ hopens => alter_of_addedColumnRow hplain hserial htable hopens

variable (hname : table.name = owner)

include hname

/-- The statement of an index is read as that index. -/
theorem reads_index {index : Index} (hplain : isPlainIdent index.type = true)
    (hfree : index.type ∉ reserved) :
    (Sentence.mk .create (indexRow owner index)).Reads before
      (before.addTable (table.addIndex index)) := by
  refine reads_create fun rest lexemes hopens => ?_
  have hread : ∀ line, createIndex line before lexemes =
      .ok (before.addTable (table.addIndex index), rest) :=
    fun line => createIndex_of_opens hplain hfree htable hname hopens
  rw [indexRow] at hopens
  cases hunique : index.unique with
  | true =>
    rw [hunique] at hopens
    have hkeyword : Opens (keyword .unique :: _) rest lexemes := hopens
    simp only [create, hkeyword.next_keyword, isWord_keyword, Bool.false_eq_true, if_false,
      hkeyword.dropWhile_isOneOf, hread]
  | false =>
    rw [hunique] at hopens
    have hkeyword : Opens (keyword .index :: _) rest lexemes := hopens
    simp only [create, hkeyword.next_keyword, isWord_keyword, Bool.false_eq_true, if_false,
      hkeyword.dropWhile_isOneOf, hread]

theorem reads_tableComment (text : String) :
    (Sentence.mk .comment (tableCommentRow owner text)).Reads before
      (before.addTable { table with comment := some text }) :=
  reads_comment fun _ _ _ hopens => comment_of_tableComment htable hname hopens

theorem reads_columnComment {name : String} (hcolumn : table.columns.contains name = true)
    (text : String) :
    (Sentence.mk .comment (columnCommentRow owner name text)).Reads before
      (before.addTable (withColumnComment table name text)) :=
  reads_comment fun _ _ _ hopens => comment_of_columnComment htable hname hcolumn hopens

end Described

end Sentence

/-- The sentences take the schema from one to the other, one after the other. -/
inductive Run : List Sentence → Schema → Schema → Prop
  | nil (schema : Schema) : Run [] schema schema
  | cons {sentence : Sentence} {more : List Sentence} {before middle after : Schema}
      (hreads : sentence.Reads before middle) (hmore : Run more middle after) :
      Run (sentence :: more) before after

theorem Run.append {left right : List Sentence} {before middle after : Schema}
    (hleft : Run left before middle) (hright : Run right middle after) :
    Run (left ++ right) before after := by
  induction hleft with
  | nil => exact hright
  | cons hreads _ ih => exact .cons hreads (ih hright)

theorem Run.single {sentence : Sentence} {before after : Schema}
    (hreads : sentence.Reads before after) : Run [sentence] before after :=
  .cons hreads (.nil after)

/-- What the parts of a list do, one after the other, where no part takes from another one what
it asks of the schema. -/
theorem Run.flatMap {α : Type} {items : List α} {part : α → List Sentence}
    {change : Schema → α → Schema} {Ready : α → Schema → Prop}
    (hpart : ∀ item ∈ items, ∀ before, Ready item before →
      Run (part item) before (change before item))
    (hkeeps : items.Pairwise fun item other => ∀ before, Ready other before →
      Ready other (change before item))
    {before : Schema} (hready : ∀ item ∈ items, Ready item before) :
    Run (items.flatMap part) before (items.foldl change before) := by
  induction items generalizing before with
  | nil => exact .nil before
  | cons item more ih =>
    rw [List.pairwise_cons] at hkeeps
    refine (hpart item List.mem_cons_self before (hready item List.mem_cons_self)).append
      (ih (fun other hmem => hpart other (List.mem_cons_of_mem _ hmem)) hkeeps.2 ?_)
    intro other hmem
    exact hkeeps.1 other hmem before (hready other (List.mem_cons_of_mem _ hmem))

/-- Parts that ask nothing of the schema. -/
theorem Run.flatMap_always {α : Type} {items : List α} {part : α → List Sentence}
    {change : Schema → α → Schema}
    (hpart : ∀ item ∈ items, ∀ before, Run (part item) before (change before item))
    (before : Schema) : Run (items.flatMap part) before (items.foldl change before) :=
  .flatMap (fun item hmem before (_ : True) => hpart item hmem before)
    (List.pairwise_of_forall fun _ _ _ => id) fun _ _ => trivial

/-- A sentence and the white space before it. -/
abbrev Placed := List Char × Sentence

def placedRow (placed : List Placed) : List Spaced :=
  placed.flatMap fun place => place.2.rowAfter place.1

/-- The sentences of a row are read one after the other. -/
theorem repeatedly_scriptStep {placed : List Placed} {before after : Schema}
    {row : List Spaced} {rest lexemes : List Lexeme} (hrun : Run (placed.map Prod.snd) before after)
    (diagnostics : List Diagnostic) (hopens : Opens (placedRow placed ++ row) rest lexemes) :
    ∃ others, Opens row rest others ∧ repeatedly scriptStep ⟨before, diagnostics⟩ lexemes =
      repeatedly scriptStep ⟨after, diagnostics⟩ others := by
  induction placed generalizing before lexemes with
  | nil =>
    cases hrun
    exact ⟨lexemes, hopens, rfl⟩
  | cons place more ih =>
    obtain ⟨gap, sentence⟩ := place
    cases hrun with
    | cons hreads hmore =>
      rw [placedRow, List.flatMap_cons, List.append_assoc] at hopens
      obtain ⟨taken, following, hplaces, hfollowing, rfl⟩ := hopens.append
      obtain ⟨others, hothers, hread⟩ := ih hmore hfollowing
      refine ⟨others, hothers, ?_⟩
      have hsentence : Opens (sentence.rowAfter gap) following (taken ++ following) :=
        ⟨taken, hplaces, rfl⟩
      have hend : next (taken ++ following) ≠ .eof := by
        refine hsentence.next_ne ?_
        rw [token_keyword]
        rintro ⟨⟩
      -- a sentence has at least its key word, so the turn shortens what is left
      refine (hopens.repeatedly_again hfollowing ?_ ?_).trans hread
      · simp only [Sentence.rowAfter, List.length_append, List.length_cons]
        omega
      · simp only [scriptStep, if_neg hend, hreads gap following _ hsentence]

theorem rowChars_placedRow (placed : List Placed) :
    rowChars (placedRow placed) = placed.flatMap fun place => place.1 ++ place.2.chars := by
  rw [placedRow, rowChars, List.flatMap_assoc]
  exact List.flatMap_congr fun place _ => place.2.rowChars_rowAfter place.1

/-- Sentences on lines of their own can stand after anything. -/
theorem sturdy_placedRow {placed : List Placed} (hplaced : ∀ place ∈ placed,
    (place.1 = ['\n'] ∨ place.1 = ['\n', '\n']) ∧ Sturdy place.2.row) :
    Sturdy (placedRow placed) := by
  refine sturdy_flatMap fun place hmem => ?_
  obtain ⟨hgap, hsturdy⟩ := hplaced place hmem
  rw [Sentence.rowAfter]
  rcases hgap with hgap | hgap
  · rw [hgap]
    exact .cons isBlankText_newline (sound_keyword _) rfl hsturdy
  · rw [hgap]
    exact .cons (List.all_eq_true.1 rfl) (sound_keyword _) rfl hsturdy

/-! ## Scripts -/

def tableCommentSentence (owner text : String) : Sentence :=
  ⟨.comment, tableCommentRow owner text⟩

def columnCommentSentence (owner name text : String) : Sentence :=
  ⟨.comment, columnCommentRow owner name text⟩

def commentSentences (table : Table) : List Sentence :=
  table.comment.toList.map (tableCommentSentence table.name) ++
    table.columns.values.flatMap fun column =>
      column.comment.toList.map (columnCommentSentence table.name column.name)

/-- The sentences of a statement that creates or adds something; none for others. -/
noncomputable def Statement.sentences : Statement → List Sentence
  | .createExtension extension => [⟨.create, extensionRow extension⟩]
  | .createEnum type => [⟨.create, enumRow type⟩]
  | .createTable table => ⟨.create, tableRow table⟩ :: commentSentences table
  | .createIndex owner index => [⟨.create, indexRow owner index⟩]
  | .alterTable owner (.addConstraint constraint) => [⟨.alter, constraintRow owner constraint⟩]
  | .alterTable owner (.addColumn column) => [⟨.alter, addedColumnRow owner column⟩]
  | .comment (.column owner name) (some text) => [columnCommentSentence owner name text]
  | _ => []

/-- The sentences are the text of the statement, each on a line of its own. -/
structure Statement.Prints (statement : Statement) : Prop where
  some : statement.sentences ≠ []
  sturdy : ∀ sentence ∈ statement.sentences, Sturdy sentence.row
  text : statement.sql.toList = ['\n'].intercalate (statement.sentences.map Sentence.chars)

/-- Sentences on lines of their own, the first one after a gap. -/
def placedAfter (gap : List Char) : List Sentence → List Placed
  | [] => []
  | first :: more => (gap, first) :: more.map (['\n'], ·)

theorem map_snd_placedAfter (gap : List Char) (sentences : List Sentence) :
    (placedAfter gap sentences).map Prod.snd = sentences := by
  cases sentences with
  | nil => rfl
  | cons first more => simp [placedAfter, Function.comp_def]

theorem mem_placedAfter {gap : List Char} {sentences : List Sentence} {place : Placed}
    (hmem : place ∈ placedAfter gap sentences) :
    (place.1 = gap ∨ place.1 = ['\n']) ∧ place.2 ∈ sentences := by
  cases sentences with
  | nil => cases hmem
  | cons first more =>
    rcases List.mem_cons.1 hmem with rfl | hother
    · exact ⟨.inl rfl, List.mem_cons_self⟩
    · obtain ⟨sentence, hsentence, rfl⟩ := List.mem_map.1 hother
      exact ⟨.inr rfl, List.mem_cons_of_mem _ hsentence⟩

theorem Statement.Prints.rowChars {statement : Statement} (hprints : statement.Prints)
    (gap : List Char) :
    rowChars (placedRow (placedAfter gap statement.sentences)) = gap ++ statement.sql.toList := by
  rw [hprints.text]
  cases hsentences : statement.sentences with
  | nil => exact absurd hsentences hprints.some
  | cons first more =>
    rw [List.map_cons, intercalate_cons, rowChars_placedRow, placedAfter, List.flatMap_cons,
      List.flatMap_map, List.flatMap_map, List.append_assoc]

/-- The sentences of a script that stands after a gap. -/
noncomputable def placedScript (gap : List Char) : List Statement → List Placed
  | [] => []
  | first :: more => placedAfter gap first.sentences ++ placedScript ['\n', '\n'] more

theorem map_snd_placedScript (gap : List Char) (statements : List Statement) :
    (placedScript gap statements).map Prod.snd = statements.flatMap Statement.sentences := by
  induction statements generalizing gap with
  | nil => rfl
  | cons first more ih =>
    rw [placedScript, List.map_append, map_snd_placedAfter, ih, List.flatMap_cons]

theorem placedRow_append (front back : List Placed) :
    placedRow (front ++ back) = placedRow front ++ placedRow back := List.flatMap_append

section Script

variable {statements : List Statement} (hprints : ∀ statement ∈ statements, statement.Prints)

include hprints

/-- The statements of a script are separated by blank lines. -/
theorem rowChars_placedScript_lines (gap : List Char) (hsome : statements ≠ []) :
    rowChars (placedRow (placedScript gap statements)) =
      gap ++ ['\n', '\n'].intercalate (statements.map fun statement => statement.sql.toList) := by
  induction statements generalizing gap with
  | nil => exact absurd rfl hsome
  | cons first more ih =>
    rw [placedScript, placedRow_append, rowChars_append,
      (hprints first List.mem_cons_self).rowChars gap, List.append_assoc, List.map_cons]
    cases more with
    | nil => simp [placedScript, placedRow, Sql.rowChars]
    | cons second others =>
      rw [ih (fun statement hmem => hprints statement (List.mem_cons_of_mem _ hmem)) _
        (List.cons_ne_nil second others), List.map_cons, List.intercalate_cons_cons]
      simp

theorem rowChars_placedScript (gap : List Char) (hsome : statements ≠ []) :
    rowChars (placedRow (placedScript gap statements)) ++ ['\n'] =
      gap ++ (script statements).toList := by
  have hlines : (script statements).toList =
      ['\n', '\n'].intercalate (statements.map fun statement => statement.sql.toList) ++ ['\n'] := by
    rw [script, List.isEmpty_eq_false_iff.2 hsome]
    simp [String.toList_intercalate, Function.comp_def]
  rw [rowChars_placedScript_lines hprints gap hsome, hlines, List.append_assoc]

/-- What stands in a script starts at the gap, on a new line or behind a blank one. -/
theorem mem_placedScript {gap : List Char} {place : Placed}
    (hmem : place ∈ placedScript gap statements) :
    (place.1 = gap ∨ place.1 = ['\n'] ∨ place.1 = ['\n', '\n']) ∧ Sturdy place.2.row := by
  induction statements generalizing gap with
  | nil => cases hmem
  | cons first more ih =>
    rcases List.mem_append.1 hmem with hfirst | hmore
    · obtain ⟨hgap, hsentence⟩ := mem_placedAfter hfirst
      exact ⟨hgap.imp_right .inl, (hprints first List.mem_cons_self).sturdy _ hsentence⟩
    · obtain ⟨hgap, hsturdy⟩ := ih (fun statement hmem =>
        hprints statement (List.mem_cons_of_mem _ hmem)) hmore
      exact ⟨.inr (hgap.elim .inr id), hsturdy⟩

/-- Sentences on lines of their own can stand after a script. -/
theorem fits_placedScript {placed : List Placed} (hplaced : ∀ place ∈ placed,
    (place.1 = ['\n'] ∨ place.1 = ['\n', '\n']) ∧ Sturdy place.2.row) (hsome : statements ≠ []) :
    Fits ['\n'] (placedRow (placedScript [] statements ++ placed)) := by
  obtain ⟨first, more, rfl⟩ := List.exists_cons_of_ne_nil hsome
  obtain ⟨opening, others, hsentences⟩ :=
    List.exists_cons_of_ne_nil (hprints first List.mem_cons_self).some
  have hsturdy := (hprints first List.mem_cons_self).sturdy
  rw [hsentences] at hsturdy
  have hrow : placedScript [] (first :: more) ++ placed = ([], opening) ::
      (others.map (['\n'], ·) ++ (placedScript ['\n', '\n'] more ++ placed)) := by
    rw [placedScript, hsentences, placedAfter, List.append_assoc, List.cons_append]
  rw [hrow, placedRow, List.flatMap_cons]
  refine fits_cons isBlankText_nil (sound_keyword _)
    ((hsturdy opening List.mem_cons_self).append (sturdy_placedRow ?_)) (closes_cons rfl [])
  refine List.forall_mem_append.2 ⟨List.forall_mem_map.2 fun sentence hsentence =>
    ⟨.inl rfl, hsturdy sentence (List.mem_cons_of_mem _ hsentence)⟩,
    List.forall_mem_append.2 ⟨fun place hmem => ?_, hplaced⟩⟩
  obtain ⟨hgap, hplace⟩ := mem_placedScript
    (fun statement hmem => hprints statement (List.mem_cons_of_mem _ hmem)) hmem
  exact ⟨hgap.elim .inr id, hplace⟩

/-- The lexemes of a script are the pieces of its sentences and then its end. -/
theorem opens_script : ∃ last final, Opens (placedRow (placedScript [] statements))
    [⟨last, [], .eof, final⟩] (Lexeme.ofText (script statements)) := by
  by_cases hsome : statements = []
  · subst hsome
    exact ⟨[], _, [], .nil, lexemes_of_end 1 rfl⟩
  · have hfits : Fits ['\n'] (placedRow (placedScript [] statements ++ [])) :=
      fits_placedScript hprints (fun _ hmem => absurd hmem List.not_mem_nil) hsome
    rw [List.append_nil] at hfits
    obtain ⟨lexemes, final, hplaces, hlexemes⟩ := lexemes_of_fits isBlankText_newline hfits 1
    rw [rowChars_placedScript hprints [] hsome] at hlexemes
    exact ⟨['\n'], final, lexemes, hplaces, hlexemes⟩

end Script

section Scripts

variable {front back : List Statement} (hfront : ∀ statement ∈ front, statement.Prints)
  (hback : ∀ statement ∈ back, statement.Prints)

include hfront hback

/-- One script after another: the line end of the first one stands before the second. -/
theorem opens_scripts : ∃ placed last final,
    placed.map Prod.snd = (front ++ back).flatMap Statement.sentences ∧
      Opens (placedRow placed) [⟨last, [], .eof, final⟩]
        (Lexeme.ofText (script front ++ script back)) := by
  have hnothing : script [] = "" := rfl
  by_cases hnone : front = []
  · obtain ⟨last, final, hopens⟩ := opens_script hback
    rw [hnone, hnothing, String.empty_append, List.nil_append]
    exact ⟨_, last, final, map_snd_placedScript [] back, hopens⟩
  · by_cases hlast : back = []
    · obtain ⟨last, final, hopens⟩ := opens_script hfront
      rw [hlast, hnothing, String.append_empty, List.append_nil]
      exact ⟨_, last, final, map_snd_placedScript [] front, hopens⟩
    · have hfits : Fits ['\n'] (placedRow (placedScript [] front ++ placedScript ['\n'] back)) :=
        fits_placedScript hfront
          (fun place hmem => (mem_placedScript hback hmem).imp_left (Or.elim · .inl id)) hnone
      obtain ⟨lexemes, final, hplaces, hlexemes⟩ := lexemes_of_fits isBlankText_newline hfits 1
      refine ⟨_, ['\n'], final, ?_, lexemes, hplaces, ?_⟩
      · rw [List.map_append, map_snd_placedScript, map_snd_placedScript, List.flatMap_append]
      · rw [placedRow_append, rowChars_append, List.append_assoc,
          rowChars_placedScript hback ['\n'] hlast, ← List.append_assoc,
          rowChars_placedScript hfront [] hnone] at hlexemes
        rw [Lexeme.ofText, String.toList_append]
        exact hlexemes

/-- Two scripts whose sentences are all understood are read as what they make, one after the
other, of the empty schema. -/
theorem ofSql_scripts {result : Schema}
    (hrun : Run ((front ++ back).flatMap Statement.sentences) .empty result) :
    Schema.ofSql (script front ++ script back) = ⟨resolveReferences result, []⟩ := by
  obtain ⟨placed, last, final, hplaced, hopens⟩ := opens_scripts hfront hback
  rw [← hplaced] at hrun
  rw [← List.append_nil (placedRow _)] at hopens
  obtain ⟨others, hothers, hread⟩ := repeatedly_scriptStep hrun [] hopens
  have hdone : scriptStep ⟨result, []⟩ others = .ok (.done ⟨result, []⟩, others) := by
    rw [opens_nil_iff.1 hothers]
    rfl
  rw [Schema.ofSql, hread, repeatedly_done hdone]

omit hback in
/-- A script whose sentences are all understood is read as what they make of the empty schema. -/
theorem ofSql_script {result : Schema}
    (hrun : Run (front.flatMap Statement.sentences) .empty result) :
    Schema.ofSql (script front) = ⟨resolveReferences result, []⟩ := by
  have hnothing : script front ++ script [] = script front := String.append_empty
  rw [← hnothing]
  exact ofSql_scripts hfront (fun _ hmem => absurd hmem List.not_mem_nil)
    (by rwa [List.append_nil])

end Scripts

/-! ## Statements of a script -/

namespace Statement

theorem prints_single {statement : Statement} {sentence : Sentence}
    (hsentences : statement.sentences = [sentence]) (hsturdy : Sturdy sentence.row)
    (htext : sentence.chars = statement.sql.toList) : statement.Prints := by
  refine ⟨by simp [hsentences], ?_, ?_⟩
  · intro other hmem
    rw [hsentences, List.mem_singleton] at hmem
    rw [hmem]
    exact hsturdy
  · rw [hsentences, ← htext]
    simp

theorem prints_extension (extension : Extension) : (createExtension extension).Prints :=
  prints_single rfl (sturdy_extensionRow extension) (text_extensionRow extension)

theorem prints_enum (type : EnumType) : (createEnum type).Prints :=
  prints_single rfl (sturdy_enumRow type) (text_enumRow type)

theorem prints_index (owner : String) {index : Index} (hplain : isPlainIdent index.type = true) :
    (createIndex owner index).Prints :=
  prints_single rfl (sturdy_indexRow owner hplain) (text_indexRow owner hplain)

theorem prints_constraint (owner : String) {constraint : Constraint}
    (hplain : constraint.rule.kind ≠ "CHECK") : (addConstraint owner constraint).Prints :=
  prints_single rfl (sturdy_constraintRow owner constraint) (text_constraintRow owner hplain)

theorem prints_addedColumn (owner : String) {column : Column} (hplain : IsPlainColumn column) :
    (alterTable owner (.addColumn column)).Prints :=
  prints_single rfl (sturdy_addedColumnRow owner hplain) (text_addedColumnRow owner hplain)

theorem prints_columnComment (owner name text : String) :
    (comment (.column owner name) (some text)).Prints :=
  prints_single rfl (sturdy_columnCommentRow owner name text) (text_columnCommentRow owner name text)

/-- The comments of a table are printed as their sentences. -/
theorem map_chars_commentSentences (table : Table) :
    (commentSentences table).map Sentence.chars = (tableComments table).map String.toList := by
  have hcolumns : (table.columns.values.flatMap fun column =>
      column.comment.toList.map fun text => columnCommentSentence table.name column.name text).map
        Sentence.chars = (table.columns.values.filterMap fun column =>
          column.comment.map fun text =>
            commentText (.column table.name column.name) (some text)).map String.toList := by
    rw [List.filterMap_eq_flatMap_toList, List.map_flatMap, List.map_flatMap]
    refine List.flatMap_congr fun column _ => ?_
    cases column.comment with
    | none => rfl
    | some text => exact congrArg (fun chars => [chars]) (text_columnCommentRow _ _ text)
  rw [commentSentences, tableComments, List.map_append, List.map_append, hcolumns]
  cases table.comment with
  | none => rfl
  | some text =>
    exact congrArg (fun chars => [chars] ++ _) (text_tableCommentRow table.name text)

theorem sturdy_commentSentences {table : Table} {sentence : Sentence}
    (hmem : sentence ∈ commentSentences table) : Sturdy sentence.row := by
  rcases List.mem_append.1 hmem with htable | hcolumn
  · obtain ⟨text, -, rfl⟩ := List.mem_map.1 htable
    exact sturdy_tableCommentRow table.name text
  · obtain ⟨column, -, htext⟩ := List.mem_flatMap.1 hcolumn
    obtain ⟨text, -, rfl⟩ := List.mem_map.1 htext
    exact sturdy_columnCommentRow table.name column.name text

/-- A table with plain columns can be printed. -/
theorem prints_table {table : Table} (hsome : table.columns.values ≠ [])
    (hplain : table.columns.All IsPlainColumn) : (createTable table).Prints := by
  refine ⟨by simp [sentences], ?_, ?_⟩
  · intro sentence hmem
    rcases List.mem_cons.1 hmem with rfl | hcomment
    · exact sturdy_tableRow hplain
    · exact sturdy_commentSentences hcomment
  · have hsentences : (createTable table).sentences =
        ⟨.create, tableRow table⟩ :: commentSentences table := rfl
    have hchars : (Sentence.mk .create (tableRow table)).chars =
        "CREATE".toList ++ rowChars (tableRow table) := rfl
    have hsql : (createTable table).sql = "\n".intercalate (("CREATE TABLE " ++
        quoteIdent table.name ++ " (\n" ++ ",\n".intercalate (table.columns.values.map
          fun column => "  " ++ columnDefinitionIn table column) ++ "\n);") ::
            tableComments table) := rfl
    have hline : "\n".toList = ['\n'] := rfl
    rw [hsql, hsentences, String.toList_intercalate, List.map_cons, List.map_cons,
      map_chars_commentSentences, hchars, text_tableRow hsome hplain, hline]

end Statement

end SchemaEvolution.Sql
