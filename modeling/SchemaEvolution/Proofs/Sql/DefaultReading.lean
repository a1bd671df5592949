import SchemaEvolution.Proofs.Sql.Boundary
import SchemaEvolution.Proofs.Sql.ScriptReading

/-!
# Reading a default back

The default of a column stands between a space and the end of a line.  Where nothing in it
reaches over that end, ends the default or leaves a parenthesis open, the statement of the table
is read as the table with the default that the text is.
-/

namespace SchemaEvolution.Sql

def stopsDefault (depth : Nat) (token : Token) : Bool :=
  endsDefault depth token || (depth == 0 && startsClause token)

/-- Nothing in the lexemes ends a default, and their parentheses are closed. -/
def IsUnbroken : List Lexeme → Prop
  | [] => False
  | first :: more =>
    endsDefault 0 first.token = false ∧
      Passes stopsDefault (depthAfter 0 first.token) (more.map Lexeme.token) 0

instance decidablePasses (stop : Nat → Token → Bool) :
    (depth : Nat) → (tokens : List Token) → (last : Nat) → Decidable (Passes stop depth tokens last)
  | depth, [], last => inferInstanceAs (Decidable (depth = last))
  | depth, token :: rest, last =>
    have := decidablePasses stop (depthAfter depth token) rest last
    inferInstanceAs (Decidable (_ ∧ _))

instance (body : List Lexeme) : Decidable (IsUnbroken body) :=
  match body with
  | [] => inferInstanceAs (Decidable False)
  | _ :: _ => inferInstanceAs (Decidable (_ ∧ _))

/-- The lexemes of a text between a space and the end of a line. -/
def lineOf (text : String) : List Lexeme := Lexeme.lexemes 1 (' ' :: (text.toList ++ ['\n']))

/-- Between a space and the end of a line, the text is cut into these lexemes, and all of them
belong to one default. -/
structure StandsAlone (text : String) (body : List Lexeme) : Prop where
  whole : ∃ final, lineOf text = body ++ [⟨['\n'], [], .eof, final⟩]
  unbroken : IsUnbroken body

variable {body others : List Lexeme}

theorem cutDefault_cons (first : Lexeme) (rest : List Lexeme) :
    cutDefault (first :: rest) =
      if endsDefault 0 first.token then ([], first :: rest)
      else
        (first :: (cut stopsDefault (depthAfter 0 first.token) rest).1,
          (cut stopsDefault (depthAfter 0 first.token) rest).2) := rfl

/-- A default that is unbroken is cut before what ends it. -/
theorem cutDefault_of_isUnbroken (hunbroken : IsUnbroken body) {closing : Lexeme}
    (hclosing : stopsDefault 0 closing.token = true) (rest : List Lexeme) :
    cutDefault (body ++ closing :: rest) = (body, closing :: rest) := by
  cases body with
  | nil => exact hunbroken.elim
  | cons first more =>
    obtain ⟨hfirst, hpasses⟩ := hunbroken
    rw [List.cons_append, cutDefault_cons, if_neg (by rw [hfirst]; decide),
      cut_of_passes hpasses hclosing rest]

theorem tokens_of_alike (halike : List.Forall₂ Lexeme.Alike body others) :
    body.map Lexeme.token = others.map Lexeme.token := by
  induction halike with
  | nil => rfl
  | cons hfirst _ ih => rw [List.map_cons, List.map_cons, hfirst.2.2, ih]

/-- Alike lexemes give the same text. -/
theorem textOf_of_alike (halike : List.Forall₂ Lexeme.Alike body others) :
    textOf body = textOf others := by
  cases halike with
  | nil => rfl
  | cons hfirst hmore =>
    have hrest : ∀ {left right : List Lexeme}, List.Forall₂ Lexeme.Alike left right →
        (left.flatMap fun lexeme => lexeme.gap ++ lexeme.text) =
          right.flatMap fun lexeme => lexeme.gap ++ lexeme.text := by
      intro left right halike
      induction halike with
      | nil => rfl
      | cons hnext _ ih => rw [List.flatMap_cons, List.flatMap_cons, hnext.1, hnext.2.1, ih]
    rw [textOf, textOf, hfirst.2.1, hrest hmore]

theorem isCast_of_alike (halike : List.Forall₂ Lexeme.Alike body others) :
    isCast body = isCast others := by
  cases halike with
  | nil => rfl
  | cons hfirst _ =>
    rw [isCast, isCast, next, next, hfirst.2.2, List.isEmpty_cons, List.isEmpty_cons]

theorem isUnbroken_of_alike (halike : List.Forall₂ Lexeme.Alike body others)
    (hunbroken : IsUnbroken body) : IsUnbroken others := by
  cases halike with
  | nil => exact hunbroken
  | cons hfirst hmore =>
    rw [IsUnbroken, hfirst.2.2, tokens_of_alike hmore] at hunbroken
    exact hunbroken

/-- What a default is does not depend on the lines on which it stands. -/
theorem defaultOf_of_alike (halike : List.Forall₂ Lexeme.Alike body others) :
    defaultOf body = defaultOf others := by
  have htext := textOf_of_alike halike
  cases halike with
  | nil => rfl
  | cons hfirst hmore =>
    have hempty := congrArg List.isEmpty (tokens_of_alike hmore)
    rw [List.isEmpty_map, List.isEmpty_map] at hempty
    simp only [defaultOf, htext, hfirst.2.2, isCast_of_alike hmore, hempty]

/-- A table whose one column is a text with a given default. -/
def textTable (name column : String) (notNull : Bool) (default : Option DefaultValue) : Table :=
  (Table.empty name).addColumn ⟨column, "text", default, none, notNull, none⟩

def headRow (name column : String) (notNull : Bool) : List Spaced :=
  ⟨[], .word Keyword.create.spelling⟩ :: keyword .table :: after (.name name) ::
    after .leftParen :: ⟨['\n', ' ', ' '], .name column⟩ :: after (.word "text") ::
      (flagRow notNull [.not, .null] ++ [keyword .default])

def closingRow : List Spaced := [⟨['\n'], .rightParen⟩, tight .semicolon]

variable (name column : String) (notNull : Bool)

/-- The statement is the row in front of the default, and the default. -/
theorem text_textTable (value : DefaultValue) :
    (createTableText (textTable name column notNull (some value))).toList =
      rowChars (headRow name column notNull) ++
        ' ' :: ((renderDefault value).toList ++ '\n' :: [')', ';']) := by
  have hattributes : ((textTable name column notNull (some value)).attributes
      ⟨column, "text", some value, none, notNull, none⟩).text =
        notNullClause notNull ++ defaultClause (some value) := by
    cases notNull <;> rfl
  have hdefinition : columnDefinitionIn (textTable name column notNull (some value))
      ⟨column, "text", some value, none, notNull, none⟩ =
        quoteIdent column ++ " text" ++ notNullClause notNull ++ " DEFAULT " ++
          renderDefault value := by
    rw [columnDefinitionIn_eq _ rfl, hattributes]
    simp [columnHead, defaultClause, String.append_assoc]
  have hcreate : createTableText (textTable name column notNull (some value)) =
      "CREATE TABLE " ++ quoteIdent name ++ " (\n" ++ ("  " ++ columnDefinitionIn
        (textTable name column notNull (some value))
          ⟨column, "text", some value, none, notNull, none⟩) ++ "\n);" := rfl
  rw [hcreate, hdefinition]
  cases notNull <;>
    simp [headRow, flagRow, notNullClause, rowChars, Spaced.chars, keyword, after, Keyword.spelling]

theorem sturdy_closingRow : Sturdy closingRow :=
  .cons isBlankText_newline trivial rfl sturdy_semicolon

theorem fits_headRow {tail : List Char} (hcloses : Closes tail) :
    Fits tail (headRow name column notNull) := by
  refine fits_cons isBlankText_nil (sound_keyword .create) ?_ hcloses
  exact .keyword _ (.after trivial (.after trivial (.cons (List.all_eq_true.1 rfl) trivial rfl
    (.after rfl ((sturdy_flagRow notNull _).append (.keyword _ sturdy_nil))))))

/-- The lexemes of the statement: its head, those of the default, and what closes it. -/
theorem opens_textTable {value : DefaultValue} (hstands : StandsAlone (renderDefault value) body) :
    ∃ others closing final, List.Forall₂ Lexeme.Alike body others ∧
      Opens closingRow [⟨[], [], .eof, final⟩] closing ∧
      Opens (headRow name column notNull) (others ++ closing)
        (Lexeme.ofText (createTableText (textTable name column notNull (some value)))) := by
  obtain ⟨⟨last, hwhole⟩, -⟩ := hstands
  obtain ⟨taken, next, hplaces, htaken⟩ := lexemes_append
    (fits_headRow name column notNull (closes_cons (rfl : isBoundary ' ' = true) _)) 1
  obtain ⟨others, line, halike, hothers⟩ :=
    Lexeme.lexemes_lineEnd [')', ';'] (' ' :: (renderDefault value).toList) hwhole next
  obtain ⟨closing, final, hclosing, hend⟩ :=
    lexemes_of_fits isBlankText_nil (sturdy_closingRow.fits [] closes_nil) line
  refine ⟨others, closing ++ [⟨[], [], .eof, final⟩], final, halike, ⟨closing, hclosing, rfl⟩,
    taken, hplaces, ?_⟩
  rw [Lexeme.ofText, text_textTable, htaken]
  rw [List.cons_append] at hothers
  rw [hothers]
  rw [← hend]
  rfl

/-! ## Reading the statement -/

def textDefinition (column : String) (notNull : Bool) (default : Option DefaultValue) :
    ColumnDefinition where
  column := ⟨column, "text", default, none, notNull, none⟩
  primaryKey := none
  unique := none
  references := []
  check := none

section Reading

variable {lexemes closing rest : List Lexeme} (hunbroken : IsUnbroken body)
  (hclosing : Opens closingRow rest closing)

include hunbroken hclosing

theorem readDefault_of_isUnbroken :
    readDefault (body ++ closing) = (defaultOf body, closing) := by
  obtain ⟨lexeme, more, hlexeme, -, rfl⟩ := hclosing.cons
  rw [readDefault, cutDefault_of_isUnbroken hunbroken (by rw [hlexeme.2.2]; rfl) more]

theorem repeatedly_attributeStep_default (d : ColumnDefinition)
    (hopens : Opens [keyword .default] (body ++ closing) lexemes) :
    repeatedly ColumnDefinition.attributeStep (d, none) lexemes =
      .ok (({ d with column := { d.column with default := defaultOf body } }, none), closing) := by
  have hturn : ColumnDefinition.attributeStep (d, none) lexemes = .ok (.again
      ({ d with column := { d.column with default := defaultOf body } }, none), closing) := by
    simp only [ColumnDefinition.attributeStep, hopens.next_keyword, opens_nil_iff.1 hopens.tail,
      readDefault_of_isUnbroken hunbroken hclosing]
  have hshorter : closing.length < lexemes.length := by
    rw [hopens.length_eq, List.length_append, List.length_singleton]
    omega
  rw [repeatedly_again hshorter hturn]
  exact repeatedly_done (ColumnDefinition.attributeStep_closing _ (.inr (.inl rfl)) hclosing)

/-- The column is read up to the parenthesis that closes the table. -/
theorem read_textColumn {gap : List Char}
    (hopens : Opens (⟨gap, .name column⟩ :: after (.word "text") ::
      (flagRow notNull [.not, .null] ++ [keyword .default])) (body ++ closing) lexemes) :
    ColumnDefinition.read lexemes =
      .ok (textDefinition column notNull (defaultOf body), closing) := by
  obtain ⟨type, more, htype, hmore, htail⟩ := hopens.tail.cons
  have hends : ∃ known left, Opens (keyword known :: left) (body ++ closing) more := by
    cases notNull with
    | true => exact ⟨_, _, hmore⟩
    | false => exact ⟨_, _, hmore⟩
  have hcut : cut endsType 0 lexemes.tail = ([type], more) := by
    obtain ⟨known, left, hknown⟩ := hends
    obtain ⟨lexeme, others, hlexeme, -, hcons⟩ := hknown.cons
    have hstop : endsType 0 lexeme.token = true := by
      rw [hlexeme.2.2, keyword, after, token_keyword]
      rfl
    have hpasses : Passes endsType 0 ([type].map Lexeme.token) 0 := by
      rw [List.map_singleton, htype.2.2]
      exact ⟨by decide +kernel, rfl⟩
    rw [htail, hcons]
    exact cut_of_passes hpasses hstop others
  have htext : textOf [type] = "text" := by
    rw [textOf, htype.2.1]
    decide +kernel
  have hname : next lexemes = .quotedName column := hopens.next
  obtain ⟨left, hleft, hflag⟩ := (ColumnDefinition.plain column "text").repeatedly_flag
    [.not, .null] (fun hnotNull => ⟨_, hnotNull.tail.tail,
      ColumnDefinition.attributeStep_notNull _ hnotNull⟩) (List.cons_ne_nil _ _) hmore
  have hdefault := repeatedly_attributeStep_default hunbroken hclosing
    ((ColumnDefinition.plain column "text").changeIf notNull ColumnDefinition.requireValue) hleft
  have hnormal : TypeName.normalize "text" = "text" := by decide +kernel
  have hempty : "text".isEmpty = false := by decide +kernel
  simp only [ColumnDefinition.read, hcut, htext, hname, hnormal, hempty, Bool.false_eq_true,
    if_false, Token.name?, Option.getD_some, hflag, hdefault]
  cases notNull <;> rfl

/-- The one column of the table is read, and then the parenthesis that closes the table. -/
theorem repeatedly_element_textColumn (line : Option Nat) {gap : List Char}
    (hopens : Opens (⟨gap, .name column⟩ :: after (.word "text") ::
      (flagRow notNull [.not, .null] ++ [keyword .default])) (body ++ closing) lexemes) :
    repeatedly (TableDefinition.element line) ⟨Table.empty name, []⟩ lexemes =
      .ok (⟨textTable name column notNull (defaultOf body), []⟩, closing.tail) := by
  have hread := read_textColumn column notNull hunbroken hclosing hopens
  have hname : next lexemes = .quotedName column := hopens.next
  have hturn : TableDefinition.element line ⟨Table.empty name, []⟩ lexemes =
      .ok (.again ⟨textTable name column notNull (defaultOf body), []⟩, closing) := by
    simp only [TableDefinition.element, hname, hread]
    rfl
  have hshorter : closing.length < lexemes.length := by
    rw [hopens.length_eq, List.length_append, List.length_cons]
    omega
  rw [repeatedly_again hshorter hturn]
  exact repeatedly_done (TableDefinition.element_closing _ hclosing)

/-- The statement adds the table with the default that the lexemes are. -/
theorem statement_textTable
    (hopens : Opens (headRow name column notNull) (body ++ closing) lexemes) :
    statement .empty lexemes =
      .ok (Schema.empty.addTable (textTable name column notNull (defaultOf body)), rest) := by
  have hsentence : Opens ((Sentence.mk .create (headRow name column notNull).tail).rowAfter [])
    (body ++ closing) lexemes := hopens
  have hcreate : statement .empty lexemes = create .empty lexemes.tail :=
    Sentence.statement_create hsentence
  have htable := hopens.tail
  have hname := htable.tail
  have hif : skipIfNotExists lexemes.tail.tail = lexemes.tail.tail := by
    rw [skipIfNotExists, hname.eat?_none (by rintro ⟨⟩)]
  have hqualified : qualifiedName? lexemes.tail.tail = some (name, lexemes.tail.tail.tail) :=
    hname.qualifiedName? rfl (hname.tail.next_ne (by rintro ⟨⟩))
  have hopening : eat? .leftParen lexemes.tail.tail.tail = some lexemes.tail.tail.tail.tail :=
    hname.tail.eat? rfl
  have hread := repeatedly_element_textColumn name column notNull hunbroken hclosing
    (line? lexemes.tail) hname.tail.tail
  rw [hcreate, htable.create_table]
  simp only [createTable, hif, hqualified, hopening, hread]
  simp only [bind, Except.bind, hclosing.tail.skipStatement]
  rfl

end Reading

/-- The statement of a table with one text column is read as that table, with the default that
the lexemes of the rendered one are, and without a diagnostic. -/
theorem ofSql_textTable {value : DefaultValue}
    (hstands : StandsAlone (renderDefault value) body) :
    Schema.ofSql (createTableText (textTable name column notNull (some value))) =
      ⟨Schema.empty.addTable (textTable name column notNull (defaultOf body)), []⟩ := by
  obtain ⟨others, closing, final, halike, hclosing, hopens⟩ :=
    opens_textTable name column notNull hstands
  have hstatement := statement_textTable name column notNull
    (isUnbroken_of_alike halike hstands.unbroken) hclosing hopens
  rw [← defaultOf_of_alike halike] at hstatement
  refine ofSql_of_statement (hopens.next_ne ?_) ?_ rfl hstatement
  · rw [token_keyword]
    rintro ⟨⟩
  · rw [hopens.length_eq, headRow, List.length_cons, List.length_cons]
    omega

end SchemaEvolution.Sql
