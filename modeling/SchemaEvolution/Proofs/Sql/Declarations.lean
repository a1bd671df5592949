import SchemaEvolution.Proofs.Sql.ScriptReading
import SchemaEvolution.Repeated

/-!
# Enumerated types and extensions on their own

The statement of an enumerated type or of an extension is a whole script.  It is read as what it
declares unless one of its names is reserved: such a name is printed without quotes, and then it
is no name where it is read.
-/

namespace SchemaEvolution.Sql

variable {row : List Spaced} {rest lexemes : List Lexeme} {line : Option Nat}
  {schema result : Schema} {text : String}

/-- The lexemes of a sentence that is a whole script. -/
theorem opens_sentence {sentence : Sentence} (hsturdy : Sturdy sentence.row)
    (htext : sentence.chars = text.toList) :
    ∃ final, Opens (sentence.rowAfter []) [⟨[], [], .eof, final⟩] (Lexeme.ofText text) := by
  have hfits : Fits [] (sentence.rowAfter []) :=
    fits_cons isBlankText_nil (sound_keyword _) hsturdy closes_nil
  obtain ⟨lexemes, final, hplaces, hlexemes⟩ := lexemes_of_fits isBlankText_nil hfits 1
  rw [Sentence.rowChars_rowAfter, htext, List.nil_append, List.append_nil] at hlexemes
  exact ⟨final, lexemes, hplaces, hlexemes⟩

/-- A sentence that is understood is read as what it makes of the empty schema. -/
theorem ofSql_of_reads {sentence : Sentence} (hsturdy : Sturdy sentence.row)
    (htext : sentence.chars = text.toList) (hreads : sentence.Reads .empty result) :
    Schema.ofSql text = ⟨resolveReferences result, []⟩ := by
  obtain ⟨final, hopens⟩ := opens_sentence hsturdy htext
  refine ofSql_of_statement (hopens.next_ne ?_) ?_ rfl (hreads [] _ _ hopens)
  · rw [token_keyword]
    rintro ⟨⟩
  · rw [hopens.length_eq, Sentence.rowAfter, List.length_cons, List.length_singleton]
    omega

/-- A diagnostic that has been noted stays. -/
theorem scriptStep_keeps_diagnostic {state : Import} {turn : Turn Import}
    (hnoted : state.diagnostics ≠ []) (hstep : scriptStep state lexemes = .ok (turn, rest)) :
    turn.state.diagnostics ≠ [] := by
  rw [scriptStep] at hstep
  split at hstep
  · cases hstep
    exact hnoted
  · split at hstep
    · cases hstep
      exact hnoted
    · cases hstep
      exact List.append_ne_nil_of_left_ne_nil hnoted _

/-- A script whose first statement is refused is not read without a diagnostic. -/
theorem ofSql_ne_of_error {sentence : Sentence} (hsturdy : Sturdy sentence.row)
    (htext : sentence.chars = text.toList) (hhalts : ∀ rest lexemes,
      Opens (sentence.rowAfter []) rest lexemes → ∃ stop, statement .empty lexemes = .error stop) :
    Schema.ofSql text ≠ ⟨schema, []⟩ := by
  obtain ⟨final, hopens⟩ := opens_sentence hsturdy htext
  obtain ⟨stop, hstop⟩ := hhalts _ _ hopens
  have hstart : next (Lexeme.ofText text) ≠ .eof := hopens.next_ne (by
    rw [token_keyword]
    rintro ⟨⟩)
  have hstep : scriptStep ⟨.empty, []⟩ (Lexeme.ofText text) =
      .ok (.again ⟨.empty, [stop.diagnostic]⟩, recover stop.rest) := by
    simp only [scriptStep, if_neg hstart, hstop, List.nil_append]
  intro hread
  rw [Schema.ofSql] at hread
  split at hread
  next result rest hresult =>
  have hnoted : result.diagnostics ≠ [] := by
    rw [repeatedly, hstep] at hresult
    dsimp only at hresult
    split at hresult
    · exact repeatedly_keeps (fun state : Import => state.diagnostics ≠ [])
        (fun _ _ _ _ hnoted hstep => scriptStep_keeps_diagnostic hnoted hstep)
        (List.cons_ne_nil _ _) hresult
    · cases hresult
      exact List.cons_ne_nil _ _
  exact hnoted (congrArg Import.diagnostics hread)

/-- A reserved name is written as a key word that is no name. -/
theorem token_ident_reserved : ∀ name ∈ reserved, ∃ known ∈ Keyword.all,
    (Piece.ident name).token = .keyword known ∧ known.name? = none := by
  decide

section Reserved

variable {gap : List Char} {name : String} (hname : name ∈ reserved)
  (hopens : Opens (⟨gap, .ident name⟩ :: row) rest lexemes)

include hname hopens

theorem Opens.next_reserved : ∃ known, Sql.next lexemes = .keyword known ∧ known.name? = none := by
  obtain ⟨known, -, htoken, hnone⟩ := token_ident_reserved name hname
  exact ⟨known, hopens.next.trans htoken, hnone⟩

theorem Opens.qualifiedName?_reserved : Sql.qualifiedName? lexemes = none := by
  obtain ⟨known, hnext, hnone⟩ := hopens.next_reserved hname
  rw [Sql.qualifiedName?, hnext, Token.name?, hnone]
  rfl

theorem Opens.skipStatement_reserved :
    Sql.skipStatement lexemes = Sql.skipStatement lexemes.tail := by
  obtain ⟨known, -, htoken, -⟩ := token_ident_reserved name hname
  have hne : ∀ token, Token.keyword known ≠ token → (Piece.ident name).token ≠ token :=
    fun token hne => htoken ▸ hne
  exact hopens.skipStatement_cons (hne _ (by rintro ⟨⟩)) (hne _ (by rintro ⟨⟩))

/-- No option of an extension begins with a reserved name. -/
theorem extensionOption_reserved (extension : Extension) :
    extensionOption extension lexemes = .ok (.done extension, lexemes) := by
  obtain ⟨known, hnext, hnone⟩ := hopens.next_reserved hname
  have hcascade : Token.keyword known ≠ .keyword .cascade := by
    rintro ⟨⟩
    cases hnone
  simp only [extensionOption, hnext, isWord_keyword, hcascade, decide_false, Bool.or_self,
    Bool.false_eq_true, if_false]

end Reserved

theorem createType_of_reserved {type : EnumType} (hname : type.name ∈ reserved)
    (hopens : Opens (enumRow type) rest lexemes) :
    createType line schema lexemes.tail =
      halt "CREATE TYPE without a name" line lexemes.tail := by
  have hnone := hopens.tail.qualifiedName?_reserved hname
  simp only [createType, hnone]

theorem addEnum_empty_injective {type other : EnumType}
    (heq : Schema.empty.addEnum type = Schema.empty.addEnum other) : type = other :=
  List.head_eq_of_cons_eq (congrArg (fun schema => schema.enums.values) heq)

/-- The statement of an enumerated type is read as that type, and nothing else, exactly when the
type has no comment and its name is not reserved. -/
theorem ofSql_createEnumText_iff (type : EnumType) :
    Schema.ofSql (createEnumText type) = ⟨Schema.empty.addEnum type, []⟩ ↔
      type.comment = none ∧ type.name ∉ reserved := by
  have hsturdy := sturdy_enumRow type
  have htext : (Sentence.mk .create (enumRow type)).chars = (createEnumText type).toList :=
    text_enumRow type
  by_cases hname : type.name ∈ reserved
  · refine iff_of_false (ofSql_ne_of_error hsturdy htext ?_) fun hboth => hboth.2 hname
    intro rest lexemes hopens
    have hcreate : Opens (enumRow type) rest lexemes.tail := hopens.tail
    rw [Sentence.statement_create hopens, hcreate.create_type, createType_of_reserved hname hcreate]
    exact ⟨_, rfl⟩
  · let bare : EnumType := { type with comment := none }
    have hreads : (Sentence.mk .create (enumRow bare)).Reads .empty
        (Schema.empty.addEnum bare) := Sentence.reads_enum hname rfl
    have hresolved : ∀ type, resolveReferences (Schema.empty.addEnum type) =
        Schema.empty.addEnum type := fun _ => rfl
    rw [ofSql_of_reads hsturdy htext hreads, hresolved]
    constructor
    · intro heq
      have htype := addEnum_empty_injective (congrArg Import.schema heq)
      exact ⟨(congrArg EnumType.comment htype).symm, hname⟩
    · rintro ⟨hcomment, -⟩
      simp only [bare, ← hcomment]

theorem createExtension_of_reserved {extension : Extension} (hname : extension.name ∈ reserved)
    (hopens : Opens (extensionRow extension) rest lexemes) :
    createExtension line schema lexemes.tail =
      halt "CREATE EXTENSION without a name" line lexemes.tail.tail.tail.tail := by
  have hif := hopens.tail
  have hnone := hif.tail.tail.tail.qualifiedName?_reserved hname
  simp only [createExtension, hif.skipIfNotExists, hnone]

theorem skipStatement_versionRow {version : Option String}
    (hopens : Opens (versionRow version ++ [tight .semicolon]) rest lexemes) :
    skipStatement lexemes = rest := by
  cases version with
  | none => exact hopens.skipStatement
  | some version =>
    have hversion : Opens [after (.word "VERSION"), after (.literal version), tight .semicolon]
      rest lexemes := hopens
    rw [hversion.skipStatement_cons (by rintro ⟨⟩) (by rintro ⟨⟩),
      hversion.tail.skipStatement_cons (by rintro ⟨⟩) (by rintro ⟨⟩),
      hversion.tail.tail.skipStatement]

theorem extensionOption_reservedPlace (extension : Extension) {place : String}
    (hplace : place ∈ reserved)
    (hopens : Opens (after (.word "SCHEMA") :: after (.ident place) :: row) rest lexemes) :
    extensionOption extension lexemes =
      .ok (.again { extension with schema := none }, lexemes.tail) := by
  rw [extensionOption_place extension hopens, optionalQualifiedName,
    hopens.tail.qualifiedName?_reserved hplace]

theorem repeatedly_reservedPlace (extension : Extension) (hnone : extension.schema = none)
    {place : String} (hplace : place ∈ reserved)
    (hopens : Opens (after (.word "WITH") :: after (.word "SCHEMA") :: after (.ident place) :: row)
      rest lexemes) :
    repeatedly extensionOption extension lexemes = .ok (extension, lexemes.tail.tail) := by
  have hoption := extensionOption_reservedPlace extension hplace hopens.tail
  rw [← hnone] at hoption
  rw [hopens.repeatedly_again hopens.tail (by simp) (extensionOption_with _ hopens),
    hopens.tail.repeatedly_again hopens.tail.tail (by simp) hoption]
  exact repeatedly_done (extensionOption_reserved hplace hopens.tail.tail _)

/-- Where the schema of an extension is reserved, nothing after its name is read. -/
theorem createExtension_of_reservedPlace {extension : Extension} {place : String}
    (hname : extension.name ∉ reserved) (hsome : extension.schema = some place)
    (hplace : place ∈ reserved) (hopens : Opens (extensionRow extension) rest lexemes) :
    createExtension line schema lexemes.tail =
      .ok (schema.addExtension ⟨extension.name, none, none, none⟩, rest) := by
  have hif := hopens.tail
  have hlabel := hif.tail.tail.tail
  have hqualified := hlabel.qualifiedName? (Piece.name?_ident hname) (next_placeRow hlabel.tail)
  have hoptions : Opens (placeRow (some place) ++
      (versionRow extension.version ++ [tight .semicolon])) rest lexemes.tail.tail.tail.tail.tail :=
    hsome ▸ hlabel.tail
  have hread := repeatedly_reservedPlace ⟨extension.name, none, none, none⟩ rfl hplace hoptions
  have hskipped := hoptions.tail.tail
  simp only [createExtension, hif.skipIfNotExists, hqualified, hread]
  simp only [bind, Except.bind, hskipped.skipStatement_reserved hplace,
    skipStatement_versionRow hskipped.tail]
  rfl

theorem addExtension_empty_injective {extension other : Extension}
    (heq : Schema.empty.addExtension extension = Schema.empty.addExtension other) :
    extension = other :=
  List.head_eq_of_cons_eq (congrArg (fun schema => schema.extensions.values) heq)

/-- The statement of an extension is read as that extension, and nothing else, exactly when the
extension has no comment and neither its name nor its schema is reserved. -/
theorem ofSql_createExtensionText_iff (extension : Extension) :
    Schema.ofSql (createExtensionText extension) = ⟨Schema.empty.addExtension extension, []⟩ ↔
      extension.comment = none ∧ extension.name ∉ reserved ∧
        ∀ place ∈ extension.schema, place ∉ reserved := by
  have hsturdy := sturdy_extensionRow extension
  have htext : (Sentence.mk .create (extensionRow extension)).chars =
      (createExtensionText extension).toList := text_extensionRow extension
  have hresolved : ∀ extension, resolveReferences (Schema.empty.addExtension extension) =
      Schema.empty.addExtension extension := fun _ => rfl
  by_cases hname : extension.name ∈ reserved
  · refine iff_of_false (ofSql_ne_of_error hsturdy htext ?_) fun hall => hall.2.1 hname
    intro rest lexemes hopens
    have hcreate : Opens (extensionRow extension) rest lexemes.tail := hopens.tail
    rw [Sentence.statement_create hopens, hcreate.create_extension,
      createExtension_of_reserved hname hcreate]
    exact ⟨_, rfl⟩
  by_cases hplaces : ∀ place ∈ extension.schema, place ∉ reserved
  · let bare : Extension := { extension with comment := none }
    have hreads : (Sentence.mk .create (extensionRow bare)).Reads .empty
        (Schema.empty.addExtension bare) := Sentence.reads_extension hname hplaces rfl
    rw [ofSql_of_reads hsturdy htext hreads, hresolved]
    constructor
    · intro heq
      have hsame := addExtension_empty_injective (congrArg Import.schema heq)
      exact ⟨(congrArg Extension.comment hsame).symm, hname, hplaces⟩
    · rintro ⟨hcomment, -, -⟩
      simp only [bare, ← hcomment]
  · refine iff_of_false ?_ fun hall => hplaces hall.2.2
    push Not at hplaces
    obtain ⟨place, hsome, hplace⟩ := hplaces
    have hreads : (Sentence.mk .create (extensionRow extension)).Reads .empty
        (Schema.empty.addExtension ⟨extension.name, none, none, none⟩) := by
      refine Sentence.reads_create fun rest lexemes hopens => ?_
      rw [hopens.create_extension]
      exact createExtension_of_reservedPlace hname hsome hplace hopens
    rw [ofSql_of_reads hsturdy htext hreads, hresolved]
    intro heq
    have hsame := addExtension_empty_injective (congrArg Import.schema heq)
    rw [← hsame] at hsome
    cases hsome

/-! ## Declarations -/

/-- Enumerated types and extensions are read back from their statements, exactly as they were and
without a diagnostic, unless they have a comment or a name that is reserved. -/
theorem ofSql_declarations_iff (type : EnumType) (extension : Extension) :
    (Schema.ofSql (createEnumText type) = ⟨Schema.empty.addEnum type, []⟩ ↔
      type.comment = none ∧ type.name ∉ reserved) ∧
    (Schema.ofSql (createExtensionText extension) = ⟨Schema.empty.addExtension extension, []⟩ ↔
      extension.comment = none ∧ extension.name ∉ reserved ∧
        ∀ place ∈ extension.schema, place ∉ reserved) :=
  ⟨ofSql_createEnumText_iff type, ofSql_createExtensionText_iff extension⟩

end SchemaEvolution.Sql
