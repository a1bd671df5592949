import SchemaEvolution.Proofs.Sql.DefaultReading
import SchemaEvolution.Proofs.Sql.TypeSpelling

/-!
# Changing the type of a column

A type is read in two places: in the definition of a column, up to the token that ends it, and
where the type of a column is changed, for as long as its tokens are those of a type.  The second
reading stops at a comma and at a quoted name, which the first one takes.  What is behind them is
then read as actions of their own, which do nothing.
-/

namespace SchemaEvolution.Sql

/-- The text is read whole as a type: between a space and the parenthesis that closes a table it is
cut into these lexemes, none of which ends a type. -/
structure IsWholeType (written : String) (type : List Lexeme) : Prop where
  whole : ∃ gap line₁ line₂ line₃,
    Lexeme.lexemes 1 (' ' :: (written.toList ++ [')', ';'])) =
      type ++ [⟨gap, [')'], .rightParen, line₁⟩, ⟨[], [';'], .semicolon, line₂⟩,
        ⟨[], [], .eof, line₃⟩]
  passes : Passes endsType 0 (type.map Lexeme.token) 0
  nonempty : (textOf type).isEmpty = false

def columnStatement (name column written : String) : String :=
  "CREATE TABLE " ++ quoteIdent name ++ " (" ++ quoteIdent column ++ " " ++ written ++ ");"

def columnTable (name column type : String) : Table :=
  (Table.empty name).addColumn
    { Column.plain column type with notNull := TypeName.isSerial type }

/-- The type that a change of a column makes of the lexemes of a type: it is cut off before the
first token that is not one of a type. -/
def changedType (type : List Lexeme) : String :=
  TypeName.normalize (textOf (type.takeWhile fun lexeme => isTypeToken lexeme.token))

def withColumnType (table : Table) (column type : String) : Table :=
  { table with columns := table.columns.update column fun found => { found with type := type } }

namespace Lexeme

/-- A sign of one character after its gap. -/
theorem lexemes_sign {c : Char} {token : Token} (hscan : ∀ rest, scan c rest = (token, 0))
    {gap rest : List Char} (hgap : gapOf .between (gap ++ c :: rest) = gap) (line : Nat) :
    lexemes line (gap ++ c :: rest) = ⟨gap, [c], token, line + newlines gap⟩ ::
      lexemes (line + newlines gap + newlines [c]) rest := by
  have hdrop : (gap ++ c :: rest).drop (gapOf .between (gap ++ c :: rest)).length = c :: rest := by
    rw [hgap, List.drop_left]
  have hlexemes := lexemes_of_scan line hdrop
  rwa [hgap, hscan, List.take_zero, List.drop_zero] at hlexemes

/-- The gap of a lexeme that is not the last one is the one that the text starts with. -/
theorem gapOf_of_lexemes {line : Nat} {cs : List Char} {first second : Lexeme}
    {more : List Lexeme} (hlexemes : lexemes line cs = first :: second :: more) :
    gapOf .between cs = first.gap := by
  cases hdrop : cs.drop (gapOf .between cs).length with
  | nil =>
    rw [lexemes_of_end line hdrop] at hlexemes
    cases (List.cons.inj hlexemes).2
  | cons c tail =>
    rw [lexemes_of_scan line hdrop] at hlexemes
    exact congrArg Lexeme.gap (List.cons.inj hlexemes).1

end Lexeme

/-- The lexemes of a whole type are the same in front of any boundary. -/
theorem IsWholeType.lexemes_before {written : String} {type : List Lexeme}
    (htype : IsWholeType written type) :
    ∃ gap, ∀ b, isBoundary b = true → Text.isBlank b = false → ∀ rest line,
      ∃ others next, List.Forall₂ Lexeme.Alike type others ∧
        Lexeme.gapOf .between (gap ++ b :: rest) = gap ∧
        Lexeme.lexemes line (' ' :: (written.toList ++ b :: rest)) =
          others ++ Lexeme.lexemes next (gap ++ b :: rest) := by
  obtain ⟨gap, line₁, line₂, line₃, hwhole⟩ := htype.whole
  have hspelled : ' ' :: written.toList = Lexeme.spelled type ++ gap := by
    have hall := congrArg Lexeme.spelled hwhole
    rw [Lexeme.spelled_lexemes, Lexeme.spelled_append] at hall
    refine (List.append_left_inj [')', ';']).1 ?_
    simpa using hall
  have htexts := Lexeme.text_ne_nil_of_lexemes hwhole (List.cons_ne_nil _ _)
  have hlength : (Lexeme.spelled type).length ≤ (' ' :: written.toList).length := by
    rw [hspelled, List.length_append]
    omega
  refine ⟨gap, fun b hb hblank rest line => ?_⟩
  have hsolid : Text.isBlank b = true → Text.isBlank ')' = true := fun hwhite => by
    rw [hblank] at hwhite
    cases hwhite
  obtain ⟨cs, next, hcs, hnext, hothers⟩ := Lexeme.lexemes_boundary [';'] rest
    (rfl : isBoundary ')' = true) hb hsolid (' ' :: written.toList) hwhole htexts hlength
  obtain rfl : gap = cs := List.append_cancel_left (hspelled.symm.trans hcs)
  obtain ⟨others, next', halike, hlexemes⟩ := hothers line
  have hgap := Lexeme.gapOf_of_lexemes hnext
  refine ⟨others, next', halike, ?_, hlexemes⟩
  rw [Lexeme.gapOf_boundary [';'] rest (rfl : isBoundary ')' = true) hb hsolid .between gap
    (by rw [hgap])]
  exact hgap

/-- The lexemes of a whole type are cut out in front of the parenthesis or the semicolon after it,
whatever stands behind that. -/
theorem IsWholeType.lexemes {written : String} {type : List Lexeme}
    (htype : IsWholeType written type) :
    ∃ gap, ∀ sign : Piece, sign = .rightParen ∨ sign = .semicolon → ∀ rest line,
      ∃ others lexeme next, List.Forall₂ Lexeme.Alike type others ∧
        Spaced.IsLexeme ⟨gap, sign⟩ lexeme ∧
        Lexeme.lexemes line (' ' :: (written.toList ++ (sign.chars ++ rest))) =
          others ++ lexeme :: Lexeme.lexemes next rest := by
  obtain ⟨gap, hbefore⟩ := htype.lexemes_before
  refine ⟨gap, fun sign hsign rest line => ?_⟩
  rcases hsign with rfl | rfl
  · obtain ⟨others, next, halike, hgap, hlexemes⟩ := hbefore ')' rfl (by decide) rest line
    have hclosing : ∀ rest, Lexeme.scan ')' rest = (.rightParen, 0) := fun _ => rfl
    rw [Lexeme.lexemes_sign hclosing hgap] at hlexemes
    exact ⟨others, _, _, halike, ⟨rfl, rfl, rfl⟩, hlexemes⟩
  · obtain ⟨others, next, halike, hgap, hlexemes⟩ := hbefore ';' rfl (by decide) rest line
    have hclosing : ∀ rest, Lexeme.scan ';' rest = (.semicolon, 0) := fun _ => rfl
    rw [Lexeme.lexemes_sign hclosing hgap] at hlexemes
    exact ⟨others, _, _, halike, ⟨rfl, rfl, rfl⟩, hlexemes⟩

def columnHeadRow (name column : String) : List Spaced :=
  [⟨[], .word Keyword.create.spelling⟩, keyword .table, after (.name name), after .leftParen,
    tight (.name column)]

theorem text_columnStatement (name column written : String) :
    (columnStatement name column written).toList =
      rowChars (columnHeadRow name column) ++ ' ' :: (written.toList ++ [')', ';']) := by
  unfold columnStatement columnHeadRow
  simp only [rowChars, Spaced.chars, keyword, after, tight, String.toList_append,
    Piece.chars_name, Piece.chars_word, Piece.chars_leftParen, List.flatMap_cons,
    List.flatMap_nil, Keyword.spelling]
  simp

theorem fits_columnHeadRow (name column : String) {tail : List Char} (hcloses : Closes tail) :
    Fits tail (columnHeadRow name column) := by
  have hname : (Piece.name name).Sound := trivial
  have hgroup : Sturdy [after .leftParen, tight (.name column)] := by
    refine ⟨fun tail hcloses => ?_, fun tail _ => closes_cons rfl _⟩
    have hcolumn : Fits tail [tight (.name column)] :=
      fits_cons isBlankText_nil (by trivial) sturdy_nil hcloses
    exact ⟨isBlankText_space, trivial, trivial, hcolumn⟩
  exact fits_cons isBlankText_nil (sound_keyword .create)
    (.keyword _ (.after hname hgroup)) hcloses

section Definition

variable {name column : String} {type rest lexemes closing : List Lexeme} {gap : List Char}
  (hpasses : Passes endsType 0 (type.map Lexeme.token) 0)
  (hnonempty : (textOf type).isEmpty = false)
  (hclosing : Opens [⟨gap, .rightParen⟩, tight .semicolon] rest closing)

include hpasses hnonempty hclosing

/-- The head of a column is read with all that its type is made of. -/
theorem read_columnHead
    (hopens : Opens [tight (.name column)] (type ++ closing) lexemes) :
    ColumnDefinition.read lexemes =
      .ok (.plain column (TypeName.normalize (textOf type)), closing) := by
  obtain ⟨lexeme, more, hlexeme, -, hcons⟩ := hclosing.cons
  have hcut : cut endsType 0 lexemes.tail = (type, closing) := by
    rw [opens_nil_iff.1 hopens.tail, hcons]
    exact cut_of_passes hpasses (by rw [hlexeme.2.2]; rfl) more
  have hname : next lexemes = .quotedName column := hopens.next
  have hdone := repeatedly_done (ColumnDefinition.attributeStep_closing
    (.plain column (TypeName.normalize (textOf type))) (.inr (.inl rfl)) hclosing)
  simp only [ColumnDefinition.read, hcut, hname, hnonempty, Bool.false_eq_true, if_false,
    Token.name?, Option.getD_some, hdone]
  rfl

/-- The statement of that head creates a table of one column. -/
theorem statement_columnHead (schema : Schema)
    (hopens : Opens (columnHeadRow name column) (type ++ closing) lexemes) :
    statement schema lexemes =
      .ok (schema.addTable (columnTable name column (TypeName.normalize (textOf type))), rest) := by
  have hsentence : Opens ((Sentence.mk .create (columnHeadRow name column).tail).rowAfter [])
    (type ++ closing) lexemes := hopens
  have hcreate : statement schema lexemes = create schema lexemes.tail :=
    Sentence.statement_create hsentence
  have htable := hopens.tail
  have hname := htable.tail
  have hif : skipIfNotExists lexemes.tail.tail = lexemes.tail.tail := by
    rw [skipIfNotExists, hname.eat?_none (by rintro ⟨⟩)]
  have hqualified : qualifiedName? lexemes.tail.tail = some (name, lexemes.tail.tail.tail) :=
    hname.qualifiedName? rfl (hname.tail.next_ne (by rintro ⟨⟩))
  have hopening : eat? .leftParen lexemes.tail.tail.tail = some lexemes.tail.tail.tail.tail :=
    hname.tail.eat? rfl
  have hcolumn := hname.tail.tail
  have hread := read_columnHead hpasses hnonempty hclosing hcolumn
  have hfirst : next lexemes.tail.tail.tail.tail = .quotedName column := hcolumn.next
  have hturn : TableDefinition.element (line? lexemes.tail) ⟨Table.empty name, []⟩
      lexemes.tail.tail.tail.tail =
        .ok (.again ⟨columnTable name column (TypeName.normalize (textOf type)), []⟩,
          closing) := by
    simp only [TableDefinition.element, hfirst, hread]
    rfl
  have hshorter : closing.length < lexemes.tail.tail.tail.tail.length := by
    rw [hcolumn.length_eq, List.length_append, List.length_singleton]
    omega
  have hbody : repeatedly (TableDefinition.element (line? lexemes.tail)) ⟨Table.empty name, []⟩
      lexemes.tail.tail.tail.tail =
        .ok (⟨columnTable name column (TypeName.normalize (textOf type)), []⟩,
          closing.tail) := by
    rw [repeatedly_again hshorter hturn]
    exact repeatedly_done (TableDefinition.element_closing _ hclosing)
  rw [hcreate, htable.create_table]
  simp only [createTable, hif, hqualified, hopening, hbody]
  simp only [bind, Except.bind, hclosing.tail.skipStatement]
  rfl

end Definition

/-- What does not end the type in a column belongs to the type, commas and quoted names excepted. -/
theorem isTypeToken_of_endsType {depth : Nat} {token : Token}
    (hends : endsType depth token = false) (hcomma : token ≠ .comma)
    (hquoted : ∀ name, token ≠ .quotedName name) : isTypeToken token = true := by
  cases token with
  | word => rfl
  | number => rfl
  | leftParen => rfl
  | rightParen => rfl
  | dot => rfl
  | operator spelling =>
    rw [isTypeToken]
    · simpa [endsType] using hends
    all_goals nofun
  | comma => exact absurd rfl hcomma
  | quotedName name => exact absurd rfl (hquoted name)
  | _ => cases hends

theorem depthAfter_mono {depth deeper : Nat} (hle : depth ≤ deeper) (token : Token) :
    depthAfter depth token ≤ depthAfter deeper token := by
  cases token with
  | leftParen => exact Nat.succ_le_succ hle
  | rightParen => exact Nat.sub_le_sub_right hle 1
  | _ => exact hle

theorem cut_takeWhile (holds : Token → Bool) (depth : Nat) (lexemes : List Lexeme) :
    cut (fun _ token => !holds token) depth lexemes =
      (lexemes.takeWhile fun lexeme => holds lexeme.token,
        lexemes.dropWhile fun lexeme => holds lexeme.token) := by
  induction lexemes generalizing depth with
  | nil => rfl
  | cons lexeme more ih =>
    rw [cut, List.takeWhile_cons, List.dropWhile_cons]
    cases holds lexeme.token with
    | true => rw [ih]; rfl
    | false => rfl

def endsAction (token : Token) : Bool := token = .comma || token = .semicolon

section Change

variable {type rest lexemes closing : List Lexeme} {gap : List Char}
  (hclosing : Opens [⟨gap, .semicolon⟩] rest closing)

include hclosing

/-- An action that starts within a type ends at a comma of the type, behind which there is less of
it, or at the end of the statement. -/
theorem cut_endsAction {depth deeper : Nat} (hle : depth ≤ deeper)
    (hpasses : Passes endsType deeper (type.map Lexeme.token) 0) :
    (cut (fun depth token => token = .eof || (depth == 0 && endsAction token)) depth
      (type ++ closing)).2 = closing ∨
    ∃ comma more deeper', comma.token = .comma ∧ more.length < type.length ∧
      Passes endsType deeper' (more.map Lexeme.token) 0 ∧
      (cut (fun depth token => token = .eof || (depth == 0 && endsAction token)) depth
        (type ++ closing)).2 = comma :: (more ++ closing) := by
  induction type generalizing depth deeper with
  | nil =>
    obtain ⟨lexeme, others, hlexeme, -, rfl⟩ := hclosing.cons
    obtain rfl : deeper = 0 := hpasses
    obtain rfl : depth = 0 := Nat.le_zero.1 hle
    have htoken : lexeme.token = .semicolon := hlexeme.2.2
    exact .inl (by simp [cut, htoken, endsAction])
  | cons lexeme more ih =>
    obtain ⟨hends, hmore⟩ := hpasses
    have heof : lexeme.token ≠ .eof := by
      intro htoken
      rw [htoken] at hends
      cases hends
    have hsemicolon : lexeme.token ≠ .semicolon := by
      intro htoken
      rw [htoken] at hends
      cases hends
    rw [List.cons_append, cut]
    by_cases hstop : depth = 0 ∧ lexeme.token = .comma
    · have hcomma : (lexeme.token = .eof || (depth == 0 && endsAction lexeme.token)) = true := by
        simp [hstop.1, hstop.2, endsAction]
      rw [if_pos hcomma]
      exact .inr ⟨lexeme, more, _, hstop.2, Nat.lt_succ_self _, hmore, rfl⟩
    · have hgoes : ¬ (lexeme.token = .eof || (depth == 0 && endsAction lexeme.token)) = true := by
        simp only [endsAction, heof, hsemicolon, decide_false, Bool.false_or, Bool.or_false,
          Bool.and_eq_true, beq_iff_eq, decide_eq_true_eq]
        exact hstop
      rw [if_neg hgoes]
      rcases ih (depthAfter_mono hle lexeme.token) hmore with hend | hcomma
      · exact .inl hend
      · obtain ⟨comma, others, deeper', htoken, hlength, hothers, hcut⟩ := hcomma
        exact .inr ⟨comma, others, deeper', htoken, Nat.lt_succ_of_lt hlength, hothers, hcut⟩

/-- What is left of a type is no action that changes anything. -/
theorem alterAction_type (table : Table) {depth : Nat}
    (hpasses : Passes endsType depth (type.map Lexeme.token) 0) :
    alterAction table (type ++ closing) =
      .ok (table, (cutOutside endsAction (type ++ closing)).2) := by
  have hkeyword : ∀ known, next (type ++ closing) ≠ .keyword known := by
    intro known
    cases type with
    | nil => exact hclosing.next_ne (by rintro ⟨⟩)
    | cons lexeme more =>
      intro htoken
      have hends := hpasses.1
      rw [show lexeme.token = .keyword known from htoken] at hends
      cases hends
  unfold alterAction
  split
  · exact absurd ‹_› (hkeyword .add)
  · exact absurd ‹_› (hkeyword .alter)
  · rfl

/-- After an action that ends within a type, nothing is changed any more. -/
theorem repeatedly_alterStep_type {table changed : Table} {depth : Nat}
    (hpasses : Passes endsType depth (type.map Lexeme.token) 0)
    (hlength : (type ++ closing).length ≤ lexemes.length)
    (haction : alterAction table lexemes =
      .ok (changed, (cutOutside endsAction (type ++ closing)).2)) :
    repeatedly alterStep table lexemes = .ok (changed, closing) := by
  induction hsize : type.length using Nat.strong_induction_on generalizing
    type lexemes table depth with
  | _ size ih =>
    rcases cut_endsAction hclosing (Nat.zero_le depth) hpasses with hend | hcomma
    · rw [cutOutside, hend] at haction
      refine repeatedly_done ?_
      have hnone : eat? .comma closing = none := hclosing.eat?_none (by rintro ⟨⟩)
      simp only [alterStep, haction, bind, Except.bind, hnone]
      rfl
    · obtain ⟨comma, more, depth', htoken, hless, hmore, hcut⟩ := hcomma
      rw [cutOutside, hcut] at haction
      have hturn : alterStep table lexemes = .ok (.again changed, more ++ closing) := by
        simp only [alterStep, haction, bind, Except.bind, eat?, if_pos htoken]
        rfl
      have hshorter : (more ++ closing).length < lexemes.length := by
        simp only [List.length_append] at hlength ⊢
        omega
      rw [repeatedly_again hshorter hturn]
      exact ih more.length (by omega) hmore (Nat.le_refl _)
        (alterAction_type hclosing changed hmore) rfl

end Change

def changeHeadRow (name column : String) : List Spaced :=
  [⟨[], .word Keyword.alter.spelling⟩, keyword .table, after (.name name), keyword .alter,
    keyword .column, after (.name column), keyword .type]

theorem text_setType (name column written : String) :
    (Statement.alterTable name (.setType column written)).sql.toList =
      rowChars (changeHeadRow name column) ++ ' ' :: (written.toList ++ [';']) := by
  unfold Statement.sql Alteration.sql changeHeadRow
  simp only [rowChars, Spaced.chars, keyword, after, String.toList_append, Piece.chars_name,
    Piece.chars_word, List.flatMap_cons, List.flatMap_nil, Keyword.spelling]
  simp

theorem fits_changeHeadRow (name column : String) {tail : List Char} (hcloses : Closes tail) :
    Fits tail (changeHeadRow name column) := by
  have hname : ∀ name, (Piece.name name).Sound := fun _ => trivial
  exact fits_cons isBlankText_nil (sound_keyword .alter) (.keyword _ (.after (hname _)
    (.keyword _ (.keyword _ (.after (hname _) (.keyword _ sturdy_nil)))))) hcloses

section Statement

variable {name column : String} {type rest lexemes closing : List Lexeme} {gap : List Char}
  (hclosing : Opens [⟨gap, .semicolon⟩] rest closing)

include hclosing

/-- The action gives the column the type up to the first token that is not one of a type. -/
theorem alterColumn_type {table : Table} (hcolumn : table.columns.contains column = true)
    (hopens : Opens [keyword .type] (type ++ closing) lexemes) :
    alterColumn table column lexemes =
      (withColumnType table column (changedType type),
        (cutOutside endsAction (type.dropWhile (fun lexeme => isTypeToken lexeme.token) ++
          closing)).2) := by
  obtain ⟨lexeme, more, hlexeme, -, hcons⟩ := hclosing.cons
  have hsemicolon : lexeme.token = .semicolon := hlexeme.2.2
  have hstop : isTypeToken lexeme.token = false := by
    rw [hsemicolon]
    rfl
  have htype : (type ++ closing).takeWhile (fun lexeme => isTypeToken lexeme.token) =
      type.takeWhile fun lexeme => isTypeToken lexeme.token := by
    rw [hcons, List.takeWhile_append, List.takeWhile_cons_of_neg (by rw [hstop]; decide)]
    split_ifs with hall
    · rw [List.append_nil, (List.takeWhile_prefix _).eq_of_length hall]
    · rfl
  have hbehind : (type ++ closing).dropWhile (fun lexeme => isTypeToken lexeme.token) =
      type.dropWhile (fun lexeme => isTypeToken lexeme.token) ++ closing := by
    have hboth := List.takeWhile_append_dropWhile
      (p := fun lexeme : Lexeme => isTypeToken lexeme.token) (l := type ++ closing)
    rw [htype] at hboth
    conv at hboth =>
      rhs
      rw [← List.takeWhile_append_dropWhile
        (p := fun lexeme : Lexeme => isTypeToken lexeme.token) (l := type), List.append_assoc]
    exact List.append_cancel_left hboth
  have hcut := cut_takeWhile isTypeToken 0 (type ++ closing)
  rw [htype, hbehind] at hcut
  simp only [alterColumn, hopens.next_keyword, isWord_keyword, Bool.false_eq_true, if_false,
    hcolumn, Bool.not_true, opens_nil_iff.1 hopens.tail, hcut]
  rfl

/-- The change of a type up to the end of its statement. -/
theorem statement_changeHead (hpasses : Passes endsType 0 (type.map Lexeme.token) 0)
    {schema : Schema} {table : Table}
    (htable : schema.tables.get? name = some table)
    (hcolumn : table.columns.contains column = true)
    (hopens : Opens (changeHeadRow name column) (type ++ closing) lexemes) :
    statement schema lexemes =
      .ok (schema.addTable (withColumnType table column (changedType type)), rest) := by
  have hstatement : statement schema lexemes =
      alter (line? lexemes) schema lexemes.tail := by
    have hnext : next lexemes = .keyword .alter := hopens.next.trans (token_keyword .alter)
    simp only [statement, hnext]
  have hhead := hopens.tail
  have howner := hhead.tail
  have haction := howner.tail
  have hif : skipIfExists lexemes.tail.tail = lexemes.tail.tail := by
    rw [skipIfExists, howner.eat?_none (by rintro ⟨⟩)]
  have honly : skip (.keyword .only) lexemes.tail.tail = lexemes.tail.tail :=
    howner.skip_none (by rintro ⟨⟩)
  have hname : qualifiedName? lexemes.tail.tail = some (name, lexemes.tail.tail.tail) :=
    howner.qualifiedName? rfl (haction.next_ne (token_keyword_ne (by rintro ⟨⟩)))
  have hlabel : next lexemes.tail.tail.tail.tail.tail = .quotedName column :=
    haction.tail.tail.next
  have hread := alterColumn_type hclosing hcolumn haction.tail.tail.tail
  have hfirst : alterAction table lexemes.tail.tail.tail =
      .ok (withColumnType table column (changedType type),
        (cutOutside endsAction (type.dropWhile (fun lexeme => isTypeToken lexeme.token) ++
          closing)).2) := by
    simp only [alterAction, haction.next_keyword, haction.tail.skip (token_keyword .column),
      hlabel, Token.name?, Option.getD_some, hread]
  have hsplit := hpasses
  rw [← List.takeWhile_append_dropWhile
    (p := fun lexeme : Lexeme => isTypeToken lexeme.token) (l := type), List.map_append] at hsplit
  obtain ⟨depth, -, hbehind⟩ := hsplit.split
  have hlength : (type.dropWhile (fun lexeme => isTypeToken lexeme.token) ++ closing).length ≤
      lexemes.tail.tail.tail.length := by
    have hsuffix := (List.dropWhile_suffix
      (l := type) fun lexeme : Lexeme => isTypeToken lexeme.token).length_le
    rw [haction.length_eq]
    simp only [List.length_append, List.length_cons]
    omega
  have hactions := repeatedly_alterStep_type hclosing hbehind hlength hfirst
  rw [hstatement]
  simp only [alter, hhead.eat?_keyword, hif, honly, hname, htable, hactions, bind, Except.bind]
  obtain ⟨lexeme, others, hlexeme, hothers, rfl⟩ := hclosing.cons
  have hsemicolon : lexeme.token = .semicolon := hlexeme.2.2
  have hskip : skipStatement (lexeme :: others) = rest := by
    rw [opens_nil_iff.1 hothers, skipStatement,
      List.dropWhile_cons_of_neg (by simp [hsemicolon]), skip, eat?, if_pos hsemicolon]
    rfl
  rw [hskip]
  rfl

end Statement

/-! ## What is lost -/

/-- The token is a comma or a quoted name only where it starts with one of these marks. -/
def MarkedBy (c : Char) (token : Token) : Prop :=
  (token = .comma → c = ',') ∧ ∀ name, token = .quotedName name → c = '"'

/-- Tokens other than commas and quoted names. -/
def isOrdinary : Token → Bool
  | .comma | .quotedName _ => false
  | _ => true

theorem markedBy_of_ordinary {c : Char} {token : Token} (hordinary : isOrdinary token = true) :
    MarkedBy c token := by
  constructor
  · rintro rfl
    cases hordinary
  · rintro name rfl
    cases hordinary

/-- A lexeme is a comma or a quoted name only where its first character says so. -/
theorem markedBy_scan (c : Char) (rest : List Char) : MarkedBy c (Lexeme.scan c rest).1 := by
  have hword : ∀ spelling, MarkedBy c (Token.ofWord spelling) := by
    intro spelling
    unfold Token.ofWord
    split <;> exact markedBy_of_ordinary rfl
  have hoperator : MarkedBy c (Lexeme.scanOperator c rest).1 := by
    unfold Lexeme.scanOperator
    split <;> exact markedBy_of_ordinary rfl
  have htagged : MarkedBy c (Lexeme.scanTagged rest).1 := by
    unfold Lexeme.scanTagged
    dsimp only
    split
    · exact markedBy_of_ordinary rfl
    · split <;> exact markedBy_of_ordinary rfl
  unfold Lexeme.scan
  let marked (scanned : Token × Nat) : Prop := MarkedBy c scanned.1
  refine iteInduction (motive := marked) (fun _ => ?_) fun _ => ?_
  · exact iteInduction (motive := marked) (fun _ => markedBy_of_ordinary rfl) fun _ => hoperator
  refine iteInduction (motive := marked) (fun _ => markedBy_of_ordinary rfl) fun _ => ?_
  refine iteInduction (motive := marked) (fun _ => markedBy_of_ordinary rfl) fun _ => ?_
  refine iteInduction (motive := marked) (fun hcomma => ⟨fun _ => hcomma, nofun⟩) fun _ => ?_
  refine iteInduction (motive := marked) (fun _ => markedBy_of_ordinary rfl) fun _ => ?_
  refine iteInduction (motive := marked) (fun _ => ?_) fun _ => ?_
  · exact iteInduction (motive := marked) (fun _ => markedBy_of_ordinary rfl)
      fun _ => markedBy_of_ordinary rfl
  refine iteInduction (motive := marked) (fun hquote => ⟨nofun, fun _ _ => hquote⟩) fun _ => ?_
  refine iteInduction (motive := marked) (fun _ => markedBy_of_ordinary rfl) fun _ => ?_
  refine iteInduction (motive := marked) (fun _ => htagged) fun _ => ?_
  refine iteInduction (motive := marked) (fun _ => markedBy_of_ordinary rfl) fun _ => ?_
  refine iteInduction (motive := marked) (fun _ => markedBy_of_ordinary rfl) fun _ => ?_
  refine iteInduction (motive := marked) (fun _ => ?_) fun _ => hoperator
  dsimp only [marked]
  exact hword _

/-- The text of a comma or of a quoted name has a mark. -/
theorem exists_mark_of_mem {line : Nat} {cs : List Char} {lexeme : Lexeme}
    (hmem : lexeme ∈ Lexeme.lexemes line cs)
    (hlost : lexeme.token = .comma ∨ ∃ name, lexeme.token = .quotedName name) :
    ∃ c, IsMark c ∧ c ∈ lexeme.text := by
  induction hsize : cs.length using Nat.strong_induction_on generalizing line cs with
  | _ size ih =>
    cases hdrop : cs.drop (Lexeme.gapOf .between cs).length with
    | nil =>
      rw [lexemes_of_end line hdrop] at hmem
      rw [List.mem_singleton.1 hmem] at hlost
      rcases hlost with hcomma | ⟨name, hquoted⟩
      · cases hcomma
      · cases hquoted
    | cons c rest =>
      rw [lexemes_of_scan line hdrop] at hmem
      have hlength := congrArg List.length hdrop
      rw [List.length_drop, List.length_cons] at hlength
      rcases List.mem_cons.1 hmem with rfl | hmore
      · refine ⟨c, ?_, List.mem_cons_self⟩
        rcases hlost with hcomma | ⟨name, hquoted⟩
        · exact .inl ((markedBy_scan c rest).1 hcomma)
        · exact .inr ((markedBy_scan c rest).2 name hquoted)
      · refine ih _ ?_ hmore rfl
        rw [List.length_drop]
        omega

theorem count_textOf {c : Char} (hmark : IsMark c) (first : Lexeme) (more : List Lexeme) :
    (textOf (first :: more)).toList.count c =
      first.text.count c + (Lexeme.spelled more).count c := by
  rw [textOf, String.toList_ofList, count_trim (isBlank_of_isMark hmark), List.count_append]
  rfl

/-- The text has more marks with a lexeme that has one. -/
theorem count_textOf_lt {c : Char} (hmark : IsMark c) (front : List Lexeme) {lexeme : Lexeme}
    (hmem : c ∈ lexeme.text) (behind : List Lexeme) :
    (textOf front).toList.count c < (textOf (front ++ lexeme :: behind)).toList.count c := by
  have hpos : 0 < lexeme.text.count c := List.count_pos_iff.2 hmem
  cases front with
  | nil =>
    have hempty : (textOf []).toList.count c = 0 := by simp [textOf]
    rw [List.nil_append, count_textOf hmark, hempty]
    omega
  | cons first more =>
    rw [List.cons_append, count_textOf hmark, count_textOf hmark, Lexeme.spelled_append,
      Lexeme.spelled_cons, List.count_append, List.count_append, List.count_append]
    omega

/-- The changed type is the one that a definition gives unless something is lost of it. -/
theorem changedType_eq_iff {written : String} {type : List Lexeme}
    (htype : IsWholeType written type) :
    changedType type = TypeName.normalize (textOf type) ↔
      ∀ lexeme ∈ type, lexeme.token ≠ .comma ∧ ∀ name, lexeme.token ≠ .quotedName name := by
  have hends : ∀ lexeme ∈ type, ∃ depth, endsType depth lexeme.token = false := by
    intro lexeme hmem
    obtain ⟨front, behind, rfl⟩ := List.append_of_mem hmem
    have hpasses := htype.passes
    rw [List.map_append, List.map_cons] at hpasses
    obtain ⟨depth, -, hbehind⟩ := hpasses.split
    exact ⟨depth, hbehind.1⟩
  have hsplit := List.takeWhile_append_dropWhile
    (p := fun lexeme : Lexeme => isTypeToken lexeme.token) (l := type)
  constructor
  · intro heq lost hmem
    by_contra hlost
    rw [not_and_or, not_not, not_forall_not] at hlost
    have hnot : ¬ isTypeToken lost.token = true := by
      rcases hlost with hcomma | ⟨name, hquoted⟩
      · rw [hcomma]
        decide
      · rw [hquoted]
        exact Bool.false_ne_true
    cases hbehind : type.dropWhile fun lexeme => isTypeToken lexeme.token with
    | nil => exact hnot (List.dropWhile_eq_nil_iff.1 hbehind lost hmem)
    | cons first behind =>
      rw [hbehind] at hsplit
      have hfirst : first ∈ type := by
        rw [← hsplit]
        exact List.mem_append_right _ List.mem_cons_self
      have hstop : ¬ isTypeToken first.token = true := by
        have hhead := List.head?_dropWhile_not (fun lexeme => isTypeToken lexeme.token) type
        rw [hbehind] at hhead
        simpa using hhead
      obtain ⟨depth, hdepth⟩ := hends first hfirst
      have htoken : first.token = .comma ∨ ∃ name, first.token = .quotedName name := by
        by_contra hneither
        rw [not_or, not_exists] at hneither
        exact hstop (isTypeToken_of_endsType hdepth hneither.1 hneither.2)
      obtain ⟨gap, line₁, line₂, line₃, hwhole⟩ := htype.whole
      obtain ⟨c, hmark, hc⟩ := exists_mark_of_mem
        (by rw [hwhole]; exact List.mem_append_left _ hfirst) htoken
      have hless := count_textOf_lt hmark
        (type.takeWhile fun lexeme => isTypeToken lexeme.token) hc behind
      have hcounts := congrArg (fun text : String => text.toList.count c) heq
      simp only [changedType, count_normalize hmark] at hcounts
      rw [hsplit, hcounts] at hless
      exact Nat.lt_irrefl _ hless
  · intro hkept
    have hall : ∀ lexeme ∈ type, isTypeToken lexeme.token = true := by
      intro lexeme hmem
      obtain ⟨depth, hdepth⟩ := hends lexeme hmem
      exact isTypeToken_of_endsType hdepth (hkept lexeme hmem).1 (hkept lexeme hmem).2
    rw [changedType, List.takeWhile_eq_self_iff.2 hall]

/-! ## Both readings -/

/-- A whole type that a column is created with is stored as it is normalized. -/
theorem ofSql_columnStatement {written : String} {type : List Lexeme}
    (htype : IsWholeType written type) (name column : String) :
    Schema.ofSql (columnStatement name column written) =
      ⟨Schema.empty.addTable (columnTable name column (TypeName.normalize (textOf type))), []⟩ := by
  obtain ⟨taken, next, hplaces, htaken⟩ := lexemes_append
    (fits_columnHeadRow name column (closes_cons (rfl : isBoundary ' ' = true) _)) 1
  obtain ⟨gap, hlexemes⟩ := htype.lexemes
  obtain ⟨others, lexeme, final, halike, hlexeme, hothers⟩ :=
    hlexemes .rightParen (.inl rfl) [';'] next
  obtain ⟨closing, last, hclosing, hend⟩ :=
    lexemes_of_fits isBlankText_nil (sturdy_semicolon.fits [] closes_nil) final
  have hclosed : Opens [⟨gap, .rightParen⟩, tight .semicolon] [⟨[], [], .eof, last⟩]
      (lexeme :: (closing ++ [⟨[], [], .eof, last⟩])) :=
    ⟨lexeme :: closing, .cons hlexeme hclosing, rfl⟩
  have htext : Lexeme.ofText (columnStatement name column written) =
      taken ++ (others ++ (lexeme :: (closing ++ [⟨[], [], .eof, last⟩]))) := by
    rw [Lexeme.ofText, text_columnStatement, htaken]
    rw [Piece.chars_rightParen, List.singleton_append] at hothers
    rw [hothers, ← hend]
    rfl
  have hopens : Opens (columnHeadRow name column)
      (others ++ (lexeme :: (closing ++ [⟨[], [], .eof, last⟩])))
      (Lexeme.ofText (columnStatement name column written)) := ⟨taken, hplaces, htext⟩
  have hpasses := htype.passes
  have hnonempty := htype.nonempty
  rw [tokens_of_alike halike] at hpasses
  rw [textOf_of_alike halike] at hnonempty ⊢
  refine ofSql_of_statement (hopens.next_ne ?_) ?_ rfl
    (statement_columnHead hpasses hnonempty hclosed .empty hopens)
  · rw [token_keyword]
    rintro ⟨⟩
  · rw [hopens.length_eq, columnHeadRow, List.length_cons, List.length_cons]
    omega

/-- Alike lexemes change a type alike. -/
theorem changedType_of_alike {type others : List Lexeme}
    (halike : List.Forall₂ Lexeme.Alike type others) : changedType type = changedType others := by
  have hfront : List.Forall₂ Lexeme.Alike
      (type.takeWhile fun lexeme => isTypeToken lexeme.token)
      (others.takeWhile fun lexeme => isTypeToken lexeme.token) := by
    induction halike with
    | nil => exact .nil
    | cons hfirst hmore ih =>
      rw [List.takeWhile_cons, List.takeWhile_cons, hfirst.2.2]
      split
      · exact .cons hfirst ih
      · exact .nil
  rw [changedType, changedType, textOf_of_alike hfront]

/-- A type that is set is stored as far as the alteration reads it. -/
theorem statement_setType {written : String} {type : List Lexeme}
    (htype : IsWholeType written type) {schema : Schema} {name column : String} {table : Table}
    (htable : schema.tables.get? name = some table)
    (hcolumn : table.columns.contains column = true) :
    ∃ last, last.token = .eof ∧
      statement schema (Lexeme.ofText (Statement.alterTable name (.setType column written)).sql) =
        .ok (schema.addTable (withColumnType table column (changedType type)), [last]) := by
  obtain ⟨taken, next, hplaces, htaken⟩ := lexemes_append
    (fits_changeHeadRow name column (closes_cons (rfl : isBoundary ' ' = true) _)) 1
  obtain ⟨gap, hlexemes⟩ := htype.lexemes
  obtain ⟨others, lexeme, final, halike, hlexeme, hothers⟩ :=
    hlexemes .semicolon (.inr rfl) [] next
  have hclosed : Opens [⟨gap, .semicolon⟩] (Lexeme.lexemes final [])
      (lexeme :: Lexeme.lexemes final []) := ⟨[lexeme], .cons hlexeme .nil, rfl⟩
  have hopens : Opens (changeHeadRow name column) (others ++ (lexeme :: Lexeme.lexemes final []))
      (Lexeme.ofText (Statement.alterTable name (.setType column written)).sql) := by
    refine ⟨taken, hplaces, ?_⟩
    rw [Lexeme.ofText, text_setType, htaken]
    rw [Piece.chars_semicolon, List.singleton_append] at hothers
    rw [hothers]
  have hpasses := htype.passes
  rw [tokens_of_alike halike] at hpasses
  have hread := statement_changeHead hclosed hpasses htable hcolumn hopens
  rw [lexemes_blank isBlankText_nil, ← changedType_of_alike halike] at hread
  exact ⟨_, rfl, hread⟩

/-- A text that the definition of a column takes whole as its type is, without a diagnostic, made
the type of any column that there is.  The column then has the type that the definition gives
exactly if no token of the type is a comma or a quoted name. -/
theorem setType_agrees_iff {written : String} {type : List Lexeme}
    (htype : IsWholeType written type) {schema : Schema} {name column : String} {table : Table}
    (htable : schema.tables.get? name = some table)
    (hcolumn : table.columns.contains column = true) :
    Schema.ofSql (columnStatement name column written) =
        ⟨Schema.empty.addTable (columnTable name column (TypeName.normalize (textOf type))), []⟩ ∧
      (∃ last, last.token = .eof ∧
        statement schema (Lexeme.ofText (Statement.alterTable name (.setType column written)).sql) =
          .ok (schema.addTable (withColumnType table column (changedType type)), [last])) ∧
      (changedType type = TypeName.normalize (textOf type) ↔
        ∀ lexeme ∈ type, lexeme.token ≠ .comma ∧ ∀ name, lexeme.token ≠ .quotedName name) :=
  ⟨ofSql_columnStatement htype name column, statement_setType htype htable hcolumn,
    changedType_eq_iff htype⟩

/-- A number with a scale is taken whole by a definition, and up to its comma by a change. -/
theorem setType_agrees_numeric :
    Schema.ofSql (columnStatement "t" "c" "numeric(10,2)") =
        ⟨Schema.empty.addTable (columnTable "t" "c" "numeric(10,2)"), []⟩ ∧
      ∃ last, last.token = .eof ∧
        statement (Schema.empty.addTable (columnTable "t" "c" "int")) (Lexeme.ofText
            (Statement.alterTable "t" (.setType "c" "numeric(10,2)")).sql) =
          .ok ((Schema.empty.addTable (columnTable "t" "c" "int")).addTable
            (withColumnType (columnTable "t" "c" "int") "c" "numeric(10"), [last]) := by
  have hwhole : Lexeme.lexemes 1 (' ' :: ("numeric(10,2)".toList ++ [')', ';'])) =
      (Lexeme.lexemes 1 (' ' :: ("numeric(10,2)".toList ++ [')', ';']))).take 6 ++
        [⟨[], [')'], .rightParen, 1⟩, ⟨[], [';'], .semicolon, 1⟩, ⟨[], [], .eof, 1⟩] := by
    decide +kernel
  have htype : IsWholeType "numeric(10,2)"
      ((Lexeme.lexemes 1 (' ' :: ("numeric(10,2)".toList ++ [')', ';']))).take 6) :=
    ⟨⟨_, _, _, _, hwhole⟩, by decide +kernel, by decide +kernel⟩
  have hdefined : TypeName.normalize (textOf
      ((Lexeme.lexemes 1 (' ' :: ("numeric(10,2)".toList ++ [')', ';']))).take 6)) =
        "numeric(10,2)" := by decide +kernel
  have hchanged : changedType
      ((Lexeme.lexemes 1 (' ' :: ("numeric(10,2)".toList ++ [')', ';']))).take 6) =
        "numeric(10" := by decide +kernel
  have htable : (Schema.empty.addTable (columnTable "t" "c" "int")).tables.get? "t" =
      some (columnTable "t" "c" "int") := by decide +kernel
  have hcolumn : (columnTable "t" "c" "int").columns.contains "c" = true := by decide +kernel
  obtain ⟨hdefinition, hchange, -⟩ := setType_agrees_iff htype htable hcolumn
  rw [hdefined] at hdefinition
  rw [hchanged] at hchange
  exact ⟨hdefinition, hchange⟩

end SchemaEvolution.Sql
