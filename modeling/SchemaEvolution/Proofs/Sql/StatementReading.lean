import SchemaEvolution.Proofs.Sql.StatementRow

/-!
# Reading statements

The lexemes of an exported statement are read as that statement, and nothing after it is
touched.
-/

namespace SchemaEvolution.Sql

variable {row : List Spaced} {rest lexemes : List Lexeme} {line : Option Nat} {schema : Schema}

theorem isWord_of_toLower {spelling word : String} (hword : spelling.toLower = word) :
    Token.isWord word (.word spelling) = true := beq_iff_eq.2 hword

theorem isWord_eq_false {spelling word : String} (hword : spelling.toLower ≠ word) :
    Token.isWord word (.word spelling) = false := beq_eq_false_iff_ne.2 hword

theorem extensionOption_semicolon (extension : Extension)
    (hopens : Opens (tight .semicolon :: row) rest lexemes) :
    extensionOption extension lexemes = .ok (.done extension, lexemes) := by
  have hnext : next lexemes = .semicolon := hopens.next
  simp only [extensionOption, hnext]
  rfl

theorem extensionOption_version (extension : Extension) {version : String}
    (hopens : Opens (after (.word "VERSION") :: after (.literal version) :: row) rest lexemes) :
    extensionOption extension lexemes =
      .ok (.again { extension with version := some version }, lexemes.tail.tail) := by
  have hnext : next lexemes = .word "VERSION" := hopens.next
  have hversion : next lexemes.tail = .string version := hopens.tail.next
  have hword : "VERSION".toLower = "version" := toLower_ofList (by decide)
  have hwith : "VERSION".toLower ≠ "with" := by simp [hword]
  have hschema : "VERSION".toLower ≠ "schema" := by simp [hword]
  simp only [extensionOption, hnext, hversion, isWord_eq_false hwith, isWord_eq_false hschema,
    isWord_of_toLower hword, versionOf]
  rfl

/-- The version of an extension is read into it. -/
theorem repeatedly_version (extension : Extension) (hnone : extension.version = none)
    (version : Option String)
    (hopens : Opens (versionRow version ++ [tight .semicolon]) rest lexemes) :
    ∃ after, Opens [tight .semicolon] rest after ∧ repeatedly extensionOption extension lexemes =
      .ok ({ extension with version := version }, after) := by
  cases version with
  | none =>
    rw [← hnone]
    exact ⟨lexemes, hopens, repeatedly_done (extensionOption_semicolon _ hopens)⟩
  | some version =>
    refine ⟨_, hopens.tail.tail, ?_⟩
    rw [hopens.repeatedly_again hopens.tail.tail (by simp [versionRow])
      (extensionOption_version extension hopens)]
    exact repeatedly_done (extensionOption_semicolon _ hopens.tail.tail)

theorem next_versionRow {version : Option String}
    (hopens : Opens (versionRow version ++ [tight .semicolon]) rest lexemes) :
    next lexemes ≠ .dot := by
  cases version with
  | none => exact hopens.next_ne (by rintro ⟨⟩)
  | some version => exact hopens.next_ne (by rintro ⟨⟩)

theorem extensionOption_with (extension : Extension)
    (hopens : Opens (after (.word "WITH") :: row) rest lexemes) :
    extensionOption extension lexemes = .ok (.again extension, lexemes.tail) := by
  have hnext : next lexemes = .word "WITH" := hopens.next
  have hword : "WITH".toLower = "with" := toLower_ofList (by decide)
  simp only [extensionOption, hnext, isWord_of_toLower hword]
  rfl

theorem extensionOption_place (extension : Extension)
    (hopens : Opens (after (.word "SCHEMA") :: row) rest lexemes) :
    extensionOption extension lexemes =
      .ok (.again { extension with schema := (optionalQualifiedName lexemes.tail).1 },
        (optionalQualifiedName lexemes.tail).2) := by
  have hnext : next lexemes = .word "SCHEMA" := hopens.next
  have hword : "SCHEMA".toLower = "schema" := toLower_ofList (by decide)
  have hwith : "SCHEMA".toLower ≠ "with" := by simp [hword]
  simp only [extensionOption, hnext, isWord_eq_false hwith, isWord_of_toLower hword]
  rfl

theorem extensionOption_schema (extension : Extension) {place : String} (hplace : place ∉ reserved)
    (hopens : Opens (after (.word "SCHEMA") :: after (.ident place) :: row) rest lexemes)
    (hdot : next lexemes.tail.tail ≠ .dot) :
    extensionOption extension lexemes =
      .ok (.again { extension with schema := some place }, lexemes.tail.tail) := by
  have hname := hopens.tail.qualifiedName? (Piece.name?_ident hplace) hdot
  rw [extensionOption_place extension hopens, optionalQualifiedName, hname]

/-- The options of an extension are read in their order. -/
theorem repeatedly_options {extension : Extension}
    (hplace : ∀ place ∈ extension.schema, place ∉ reserved) (hcomment : extension.comment = none)
    (hopens : Opens (placeRow extension.schema ++
      (versionRow extension.version ++ [tight .semicolon])) rest lexemes) :
    ∃ after, Opens [tight .semicolon] rest after ∧
      repeatedly extensionOption ⟨extension.name, none, none, none⟩ lexemes =
        .ok (extension, after) := by
  obtain ⟨name, schema, version, comment⟩ := extension
  cases hcomment
  cases schema with
  | none => exact repeatedly_version _ rfl version hopens
  | some place =>
    have hversion := hopens.tail.tail.tail
    obtain ⟨after, hafter, hread⟩ :=
      repeatedly_version ⟨name, some place, none, none⟩ rfl version hversion
    refine ⟨after, hafter, ?_⟩
    rw [hopens.repeatedly_again hopens.tail (by simp [placeRow]) (extensionOption_with _ hopens),
      hopens.tail.repeatedly_again hversion (by simp)
        (extensionOption_schema _ (hplace place rfl) hopens.tail (next_versionRow hversion))]
    exact hread

theorem next_placeRow {place version : Option String}
    (hopens : Opens (placeRow place ++ (versionRow version ++ [tight .semicolon])) rest lexemes) :
    next lexemes ≠ .dot := by
  cases place with
  | none => exact next_versionRow hopens
  | some place => exact hopens.next_ne (by rintro ⟨⟩)

theorem Opens.skipIfNotExists
    (hopens : Opens (keyword .if :: keyword .not :: keyword .exists :: row) rest lexemes) :
    skipIfNotExists lexemes = lexemes.tail.tail.tail := by
  rw [Sql.skipIfNotExists, hopens.eat?_keyword]
  exact (congrArg _ (hopens.tail.skip (token_keyword .not))).trans
    (hopens.tail.tail.skip (token_keyword .exists))

theorem createExtension_of_opens {extension : Extension} (hname : extension.name ∉ reserved)
    (hplace : ∀ place ∈ extension.schema, place ∉ reserved) (hcomment : extension.comment = none)
    (hopens : Opens (extensionRow extension) rest lexemes) :
    createExtension line schema lexemes.tail = .ok (schema.addExtension extension, rest) := by
  have hif := hopens.tail
  have hlabel := hif.tail.tail.tail
  have hqualified := hlabel.qualifiedName? (Piece.name?_ident hname) (next_placeRow hlabel.tail)
  obtain ⟨after, hafter, hread⟩ := repeatedly_options hplace hcomment hlabel.tail
  simp only [createExtension, hif.skipIfNotExists, hqualified, hread]
  simp only [bind, Except.bind, hafter.skipStatement]
  rfl

/-- The values that follow in an enum are read up to its bracket. -/
theorem enumValues_more (name : String) (line : Option Nat) {values : List String}
    (hopens : Opens (moreRow [' '] (values.map .literal) ++ tight .rightParen :: row)
      rest lexemes) :
    ∃ after, Opens row rest after ∧ enumValues name line lexemes = .ok (values, after) := by
  induction values generalizing lexemes with
  | nil =>
    obtain ⟨closing, after, hclosing, hafter, rfl⟩ := hopens.cons
    refine ⟨after, hafter, ?_⟩
    simp only [enumValues, hclosing.2.2, tight, Piece.token]
  | cons value more ih =>
    obtain ⟨comma, others, hcomma, hothers, rfl⟩ := hopens.cons
    obtain ⟨lexeme, following, hlexeme, hfollowing, rfl⟩ := hothers.cons
    obtain ⟨after, hafter, hread⟩ := ih hfollowing
    refine ⟨after, hafter, ?_⟩
    simp only [enumValues, hcomma.2.2, hlexeme.2.2, tight, Piece.token, hread]
    rfl

/-- The values of an enum are read in their order. -/
theorem enumValues_of_opens (name : String) (line : Option Nat) {values : List String}
    (hopens : Opens (listRow [' '] (values.map .literal) ++ tight .rightParen :: row)
      rest lexemes) :
    ∃ after, Opens row rest after ∧ enumValues name line lexemes = .ok (values, after) := by
  cases values with
  | nil =>
    have hinside : Opens (moreRow [' '] (([] : List String).map .literal) ++
        tight .rightParen :: row) rest lexemes := hopens
    exact enumValues_more name line hinside
  | cons value more =>
    obtain ⟨lexeme, others, hlexeme, hothers, rfl⟩ := hopens.cons
    obtain ⟨after, hafter, hread⟩ := enumValues_more name line hothers
    refine ⟨after, hafter, ?_⟩
    simp only [enumValues, hlexeme.2.2, tight, Piece.token, hread]
    rfl

/-- The statement of a type is read as that type. -/
theorem createType_of_opens {type : EnumType} (hname : type.name ∉ reserved)
    (hcomment : type.comment = none) (hopens : Opens (enumRow type) rest lexemes) :
    createType line schema lexemes.tail = .ok (schema.addEnum type, rest) := by
  have hlabel := hopens.tail
  have henum : next lexemes.tail.tail.tail = .word "ENUM" := hlabel.tail.tail.next
  have hword : "ENUM".toLower = "enum" := toLower_ofList (by decide)
  have hqualified := hlabel.qualifiedName? (Piece.name?_ident hname)
    (hlabel.tail.next_ne (by rw [keyword, after, token_keyword]; rintro ⟨⟩))
  have hgroup := hlabel.tail.tail.tail
  rw [groupRow, List.cons_append, List.append_assoc] at hgroup
  have hopening : eat? .leftParen lexemes.tail.tail.tail.tail =
      some lexemes.tail.tail.tail.tail.tail := hgroup.eat? rfl
  obtain ⟨after, hafter, hread⟩ := enumValues_of_opens type.name line hgroup.tail
  obtain ⟨name, values, comment⟩ := type
  cases hcomment
  simp only [createType, hqualified, hlabel.tail.eat?_keyword, henum, isWord_of_toLower hword,
    hopening, hread]
  simp only [bind, Except.bind, hafter.skipStatement]
  rfl

/-! ## Indexes -/

/-- A name is cut off before the sign after it. -/
theorem cut_element {gap : List Char} {name : String} {closing : Spaced}
    (hclosing : ColumnDefinition.IsClosing closing)
    (hopens : Opens (⟨gap, .name name⟩ :: closing :: row) rest lexemes) :
    ∃ lexeme, lexeme.token = .quotedName name ∧
      cut (fun depth token => token = .eof || token = .semicolon ||
        (depth == 0 && (token = .rightParen || token = .comma))) 0 lexemes =
        ([lexeme], lexemes.tail) := by
  obtain ⟨lexeme, others, hlexeme, hothers, rfl⟩ := hopens.cons
  obtain ⟨sign, more, hsign, -, rfl⟩ := hothers.cons
  have htoken : lexeme.token = .quotedName name := hlexeme.2.2
  have hstop : sign.token = .comma ∨ sign.token = .rightParen ∨ sign.token = .semicolon := by
    rw [hsign.2.2]
    rcases hclosing with hpiece | hpiece | hpiece
    · exact .inl (by rw [hpiece]; rfl)
    · exact .inr (.inl (by rw [hpiece]; rfl))
    · exact .inr (.inr (by rw [hpiece]; rfl))
  refine ⟨lexeme, htoken, ?_⟩
  rcases hstop with hsign | hsign | hsign <;> simp [cut, htoken, hsign, depthAfter]

theorem indexStep_comma {gap : List Char} {name : String} (elements : List String)
    (hopens : Opens (⟨gap, .name name⟩ :: tight .comma :: row) rest lexemes) :
    indexStep elements lexemes = .ok (.again (elements ++ [name]), lexemes.tail.tail) := by
  obtain ⟨lexeme, htoken, hcut⟩ := cut_element (.inl rfl) hopens
  have hcomma : next lexemes.tail = .comma := hopens.tail.next
  simp only [indexStep, hcut, hcomma, indexElement, htoken, Token.name?, List.all_nil, if_true]

theorem indexStep_closing {gap : List Char} {name : String} (elements : List String)
    (hopens : Opens (⟨gap, .name name⟩ :: tight .rightParen :: row) rest lexemes) :
    indexStep elements lexemes = .ok (.done (elements ++ [name]), lexemes.tail.tail) := by
  obtain ⟨lexeme, htoken, hcut⟩ := cut_element (.inr (.inl rfl)) hopens
  have hclosing : next lexemes.tail = .rightParen := hopens.tail.next
  simp only [indexStep, hcut, hclosing, indexElement, htoken, Token.name?, List.all_nil, if_true]

/-- The columns of an index are read in their order. -/
theorem repeatedly_elements {gap : List Char} {name : String} {more : List String}
    (elements : List String) (hopens : Opens (⟨gap, .name name⟩ ::
      (moreRow [' '] (more.map .name) ++ tight .rightParen :: row)) rest lexemes) :
    ∃ after, Opens row rest after ∧ repeatedly indexStep elements lexemes =
      .ok (elements ++ name :: more, after) := by
  induction more generalizing gap name elements lexemes with
  | nil => exact ⟨_, hopens.tail.tail, repeatedly_done (indexStep_closing elements hopens)⟩
  | cons second others ih =>
    have hcomma : Opens (⟨gap, .name name⟩ :: tight .comma :: ⟨[' '], .name second⟩ ::
        (moreRow [' '] (others.map .name) ++ tight .rightParen :: row)) rest lexemes := hopens
    obtain ⟨after, hafter, hread⟩ := ih (elements ++ [name]) hcomma.tail.tail
    refine ⟨after, hafter, ?_⟩
    rw [hcomma.repeatedly_again hcomma.tail.tail (by simp) (indexStep_comma elements hcomma),
      hread, List.append_assoc]
    rfl

/-- The list of an index's columns is read up to its bracket. -/
theorem indexElements_of_opens {names : List String}
    (hopens : Opens (namesRow names ++ row) rest lexemes) :
    ∃ after, Opens row rest after ∧ indexElements lexemes = .ok (names, after) := by
  rw [namesRow, groupRow, List.cons_append, List.append_assoc] at hopens
  have hopening : eat? .leftParen lexemes = some lexemes.tail := hopens.eat? rfl
  rw [indexElements, hopening]
  cases names with
  | nil =>
    have hclosing : Opens (tight .rightParen :: row) rest lexemes.tail := hopens.tail
    obtain ⟨lexeme, after, hlexeme, hafter, hlexemes⟩ := hclosing.cons
    have htoken : lexeme.token = .rightParen := hlexeme.2.2
    refine ⟨after, hafter, ?_⟩
    rw [hlexemes]
    refine repeatedly_done ?_
    simp [indexStep, cut, htoken, next, indexElement]
  | cons name more => exact repeatedly_elements [] hopens.tail

/-- The word for a unique index is read for its flag. -/
theorem skip_unique {unique : Bool} {gap : List Char} {name : String}
    (hopens : Opens (flagRow unique [.unique] ++ keyword .index :: ⟨gap, .name name⟩ :: row)
      rest lexemes) :
    ∃ after, Opens (⟨gap, .name name⟩ :: row) rest after ∧
      decide (next lexemes = .keyword .unique) = unique ∧
        skip (.keyword .index) (skip (.keyword .unique) lexemes) = after := by
  cases unique with
  | true =>
    have hkeyword : Opens (keyword .unique :: keyword .index :: ⟨gap, .name name⟩ :: row)
      rest lexemes := hopens
    refine ⟨_, hkeyword.tail.tail, by rw [hkeyword.next_keyword]; rfl, ?_⟩
    rw [hkeyword.skip (token_keyword .unique), hkeyword.tail.skip (token_keyword .index)]
  | false =>
    have hkeyword : Opens (keyword .index :: ⟨gap, .name name⟩ :: row) rest lexemes := hopens
    refine ⟨_, hkeyword.tail, by rw [hkeyword.next_keyword]; rfl, ?_⟩
    rw [hkeyword.skip_none (by rw [keyword, after, token_keyword]; rintro ⟨⟩),
      hkeyword.skip (token_keyword .index)]

theorem addTable_update {owner : String} {table : Table}
    (htable : schema.tables.get? owner = some table) {change : Table → Table}
    (hname : (change table).name = owner) :
    { schema with tables := schema.tables.update owner change } =
      schema.addTable (change table) := by
  rw [Schema.addTable, hname, Keyed.update_eq_insert htable]

/-- An index is added to its table. -/
theorem createIndex_of_opens {owner : String} {index : Index}
    (hplain : isPlainIdent index.type = true) (hfree : index.type ∉ reserved) {table : Table}
    (htable : schema.tables.get? owner = some table) (hname : table.name = owner)
    (hopens : Opens (indexRow owner index) rest lexemes) :
    createIndex line schema lexemes = .ok (schema.addTable (table.addIndex index), rest) := by
  obtain ⟨labelled, hlabel, hunique, hskipped⟩ := skip_unique hopens
  have hon := hlabel.tail
  have howner := hon.tail
  have husing := howner.tail
  have hkeyword : ∀ {known : Keyword} {token : Token}, Token.keyword known ≠ token →
      (keyword known).piece.token ≠ token := by
    intro known token hne
    rw [keyword, after, token_keyword]
    exact hne
  have hword : skipIfNotExists (skipWord "concurrently" labelled) = labelled := by
    rw [hlabel.skipWord_none rfl, skipIfNotExists, hlabel.eat?_none (by rintro ⟨⟩)]
  have hnext : next labelled ≠ .keyword .on := hlabel.next_ne (by rintro ⟨⟩)
  have hlabelName : qualifiedName? labelled = some (index.name, labelled.tail) :=
    hlabel.qualifiedName? rfl (hon.next_ne (hkeyword (by rintro ⟨⟩)))
  have hownerName : qualifiedName? labelled.tail.tail = some (owner, labelled.tail.tail.tail) :=
    howner.qualifiedName? rfl (husing.next_ne (hkeyword (by rintro ⟨⟩)))
  have honly : skip (.keyword .only) labelled.tail.tail = labelled.tail.tail :=
    howner.skip_none (by rintro ⟨⟩)
  obtain ⟨after, hafter, hread⟩ := indexElements_of_opens husing.tail.tail
  have hmethodName : (Piece.word index.type).token.name? = some index.type :=
    name?_ofWord hplain hfree
  have hmethod : indexMethod labelled.tail.tail.tail =
      (index.type, labelled.tail.tail.tail.tail.tail) := by
    rw [indexMethod, husing.eat?_keyword]
    dsimp only
    rw [husing.tail.optionalName hmethodName]
    rfl
  simp only [createIndex, hskipped, hword, if_neg hnext, optionalQualifiedName, hlabelName,
    hon.eat?_keyword, honly, hownerName, hmethod,
    hread, bind, Except.bind, hafter.skipStatement, htable, hunique]
  exact congrArg (fun schema => Except.ok (schema, rest)) (addTable_update htable hname)

end SchemaEvolution.Sql
