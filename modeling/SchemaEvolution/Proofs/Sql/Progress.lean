import Mathlib.Data.List.Infix
import SchemaEvolution.Repeated
import SchemaEvolution.Sql.Import

/-!
# What readers leave

A reader leaves an end of the lexemes that it was given, also where it fails: it neither makes up
lexemes nor takes some out of the middle.  A statement takes at least one lexeme, unless the script
is at its end, so a script is read to its end whatever its statements are.
-/

namespace SchemaEvolution.Sql

variable {α β σ : Type} {lexemes others rest : List Lexeme} {line : Option Nat} {schema : Schema}

/-- What is left after a reading, whether or not it failed, is an end of the lexemes. -/
def Leaves (lexemes : List Lexeme) : Except Halt (α × List Lexeme) → Prop
  | .ok (_, rest) => rest <:+ lexemes
  | .error stop => stop.rest <:+ lexemes

theorem Leaves.mono {outcome : Except Halt (α × List Lexeme)} (hleaves : Leaves others outcome)
    (hsuffix : others <:+ lexemes) : Leaves lexemes outcome := by
  cases outcome with
  | error stop => exact List.IsSuffix.trans hleaves hsuffix
  | ok found => exact List.IsSuffix.trans hleaves hsuffix

theorem Leaves.bind {outcome : Except Halt (α × List Lexeme)}
    {next : α × List Lexeme → Except Halt (β × List Lexeme)} (hleaves : Leaves lexemes outcome)
    (hnext : ∀ value rest, rest <:+ lexemes → Leaves lexemes (next (value, rest))) :
    Leaves lexemes (outcome >>= next) := by
  cases outcome with
  | error stop => exact hleaves
  | ok found => exact hnext found.1 found.2 hleaves

/-- If every turn leaves an end of its lexemes, so does the loop. -/
theorem leaves_repeatedly {step : σ → List Lexeme → Except Halt (Turn σ × List Lexeme)}
    (hstep : ∀ state lexemes, Leaves lexemes (step state lexemes)) (state : σ)
    (lexemes : List Lexeme) : Leaves lexemes (repeatedly step state lexemes) := by
  fun_induction repeatedly step state lexemes with
  | case1 state lexemes stop hturn =>
    have hleaves := hstep state lexemes
    rwa [hturn] at hleaves
  | case2 state lexemes last after hturn =>
    have hleaves := hstep state lexemes
    rwa [hturn] at hleaves
  | case3 state lexemes following after hturn hshorter ih =>
    have hleaves := hstep state lexemes
    rw [hturn] at hleaves
    exact ih.mono hleaves
  | case4 state lexemes following after hturn hlength =>
    have hleaves := hstep state lexemes
    rwa [hturn] at hleaves

theorem cut_suffix (stop : Nat → Token → Bool) (depth : Nat) (lexemes : List Lexeme) :
    (cut stop depth lexemes).2 <:+ lexemes := by
  induction lexemes generalizing depth with
  | nil => exact List.suffix_refl _
  | cons lexeme rest ih =>
    rw [cut]
    split
    · exact List.suffix_refl _
    · exact (ih _).trans (List.suffix_cons lexeme rest)

theorem cutOutside_suffix (stop : Token → Bool) (lexemes : List Lexeme) :
    (cutOutside stop lexemes).2 <:+ lexemes := cut_suffix _ 0 lexemes

theorem skipGroup_suffix (lexemes : List Lexeme) : skipGroup lexemes <:+ lexemes := by
  cases lexemes with
  | nil => exact List.suffix_refl _
  | cons lexeme rest =>
    rw [skipGroup]
    split
    · exact (cut_suffix _ 1 rest).trans (List.suffix_cons lexeme rest)
    · exact List.suffix_cons lexeme rest

theorem skipDefinition_suffix (lexemes : List Lexeme) : skipDefinition lexemes <:+ lexemes :=
  cut_suffix _ 0 lexemes

theorem eat?_suffix {token : Token} (heat : eat? token lexemes = some rest) :
    rest <:+ lexemes := by
  cases lexemes with
  | nil => cases heat
  | cons lexeme more =>
    rw [eat?] at heat
    split at heat
    · exact Option.some.inj heat ▸ List.suffix_cons lexeme more
    · cases heat

theorem skip_suffix (token : Token) (lexemes : List Lexeme) : skip token lexemes <:+ lexemes := by
  rw [skip]
  cases heat : eat? token lexemes with
  | none => exact List.suffix_refl _
  | some rest => exact eat?_suffix heat

theorem skipWord_suffix (word : String) (lexemes : List Lexeme) :
    skipWord word lexemes <:+ lexemes := by
  rw [skipWord]
  split
  · exact List.tail_suffix lexemes
  · exact List.suffix_refl _

theorem skipStatement_suffix (lexemes : List Lexeme) : skipStatement lexemes <:+ lexemes :=
  (skip_suffix _ _).trans (List.dropWhile_suffix _)

theorem recover_suffix (lexemes : List Lexeme) : recover lexemes <:+ lexemes :=
  (skip_suffix _ _).trans (List.dropWhile_suffix _)

theorem skipIfNotExists_suffix (lexemes : List Lexeme) : skipIfNotExists lexemes <:+ lexemes := by
  rw [skipIfNotExists]
  split
  · next heat =>
    exact (skip_suffix _ _).trans ((skip_suffix _ _).trans (eat?_suffix heat))
  · exact List.suffix_refl _

theorem skipIfExists_suffix (lexemes : List Lexeme) : skipIfExists lexemes <:+ lexemes := by
  rw [skipIfExists]
  split
  · next heat => exact (skip_suffix _ _).trans (eat?_suffix heat)
  · exact List.suffix_refl _

theorem optionalName_suffix (lexemes : List Lexeme) : (optionalName lexemes).2 <:+ lexemes := by
  rw [optionalName]
  split
  · exact List.tail_suffix lexemes
  · exact List.suffix_refl _

/-- A name leaves an end of the lexemes that it is read from. -/
theorem lastName_suffix (name : String) (lexemes : List Lexeme) :
    (lastName name lexemes).2 <:+ lexemes := by
  fun_induction lastName name lexemes with
  | case1 name dot part rest hdot inner hname ih =>
    exact ih.trans ((List.suffix_cons part rest).trans (List.suffix_cons dot _))
  | case2 name dot part rest => exact List.suffix_cons dot _
  | case3 => exact List.suffix_refl _
  | case4 name dot =>
    dsimp only
    split
    · exact List.nil_suffix
    · exact List.suffix_refl _
  | case5 => exact List.suffix_refl _

theorem qualifiedName?_suffix {name : String} (hname : qualifiedName? lexemes = some (name, rest)) :
    rest <:+ lexemes := by
  obtain ⟨first, -, hlast⟩ := Option.map_eq_some_iff.1 hname
  have hsuffix := lastName_suffix first lexemes.tail
  rw [hlast] at hsuffix
  exact hsuffix.trans (List.tail_suffix lexemes)

theorem optionalQualifiedName_suffix (lexemes : List Lexeme) :
    (optionalQualifiedName lexemes).2 <:+ lexemes := by
  rw [optionalQualifiedName]
  split
  · next hname => exact qualifiedName?_suffix hname
  · exact List.suffix_refl _

theorem nameParts_suffix (lexemes : List Lexeme) : (nameParts lexemes).2 <:+ lexemes := by
  fun_induction nameParts lexemes with
  | case1 => exact List.suffix_refl _
  | case2 => exact List.nil_suffix
  | case3 => exact List.suffix_refl _
  | case4 lexeme dot rest part hname hdot parts after hparts ih =>
    rw [hparts] at ih
    exact ih.trans ((List.suffix_cons dot rest).trans (List.suffix_cons lexeme _))
  | case5 lexeme dot rest => exact List.suffix_cons lexeme _
  | case6 => exact List.suffix_refl _

theorem namesInside_suffix (lexemes : List Lexeme) : (namesInside lexemes).2 <:+ lexemes := by
  fun_induction namesInside lexemes with
  | case1 => exact List.suffix_refl _
  | case2 lexeme rest _ ih => exact ih.trans (List.suffix_cons lexeme rest)
  | case3 lexeme rest => exact List.suffix_cons lexeme rest
  | case4 => exact List.suffix_refl _
  | case5 => exact List.suffix_refl _
  | case6 lexeme rest names after hnames _ _ _ _ ih =>
    rw [hnames] at ih
    exact ih.trans (List.suffix_cons lexeme rest)

theorem nameList_suffix (lexemes : List Lexeme) : (nameList lexemes).2 <:+ lexemes := by
  rw [nameList]
  split
  · next heat => exact (namesInside_suffix _).trans (eat?_suffix heat)
  · exact List.suffix_refl _

theorem parenthesized_suffix (lexemes : List Lexeme) : (parenthesized lexemes).2 <:+ lexemes := by
  rw [parenthesized]
  split
  · next heat => exact (skip_suffix _ _).trans ((cut_suffix _ 0 _).trans (eat?_suffix heat))
  · exact List.suffix_refl _

theorem cutDefault_suffix (lexemes : List Lexeme) : (cutDefault lexemes).2 <:+ lexemes := by
  cases lexemes with
  | nil => exact List.suffix_refl _
  | cons first rest =>
    rw [cutDefault]
    split
    · exact List.suffix_refl _
    · exact (cut_suffix _ _ rest).trans (List.suffix_cons first rest)

theorem readDefault_suffix (lexemes : List Lexeme) : (readDefault lexemes).2 <:+ lexemes :=
  cutDefault_suffix lexemes

/-- An action leaves an end of the lexemes that it is read from. -/
theorem readAction_suffix (lexemes : List Lexeme) : (readAction lexemes).2 <:+ lexemes := by
  have htail := List.tail_suffix lexemes
  have hgroup : (if next lexemes.tail.tail = .leftParen then skipGroup lexemes.tail.tail
      else lexemes.tail.tail) <:+ lexemes := by
    have hsecond := (List.tail_suffix lexemes.tail).trans htail
    split
    · exact (skipGroup_suffix _).trans hsecond
    · exact hsecond
  generalize hothers : (if next lexemes.tail.tail = .leftParen then skipGroup lexemes.tail.tail
    else lexemes.tail.tail) = others at hgroup
  unfold readAction
  dsimp only
  rw [hothers]
  split
  · exact htail
  · exact htail
  · split
    · split
      · exact hgroup
      · exact hgroup
      · exact htail
    · split
      · exact (skipWord_suffix _ _).trans htail
      · exact List.suffix_refl _

theorem leaves_referenceOption (reference : Reference) (lexemes : List Lexeme) :
    Leaves lexemes (referenceOption reference lexemes) := by
  have htail := List.tail_suffix lexemes
  have hsecond := (List.tail_suffix lexemes.tail).trans htail
  rw [referenceOption]
  split
  · split
    · exact (readAction_suffix _).trans hsecond
    · exact (readAction_suffix _).trans hsecond
    · exact htail
  · split
    · exact hsecond
    · split
      · exact htail
      · split
        · exact hsecond
        · exact List.suffix_refl _

theorem leaves_readReference (lexemes : List Lexeme) : Leaves lexemes (readReference lexemes) := by
  rw [readReference]
  split
  · exact List.suffix_refl _
  · next hname =>
    exact (leaves_repeatedly leaves_referenceOption _ _).mono
      ((nameList_suffix _).trans (qualifiedName?_suffix hname))

theorem leaves_readTableClause (lexemes : List Lexeme) :
    Leaves lexemes (readTableClause lexemes) := by
  have htail := List.tail_suffix lexemes
  have hnames : (nameList (skip (.keyword .key) lexemes.tail)).2 <:+ lexemes :=
    (nameList_suffix _).trans ((skip_suffix _ _).trans htail)
  unfold readTableClause
  split
  · exact (skipDefinition_suffix _).trans hnames
  · exact (skipDefinition_suffix _).trans hnames
  · dsimp only
    split
    · exact hnames
    · next heat =>
      refine Leaves.bind ((leaves_readReference _).mono ((eat?_suffix heat).trans hnames)) ?_
      exact fun reference rest hrest => (skipDefinition_suffix rest).trans hrest
  · exact (skipDefinition_suffix _).trans ((parenthesized_suffix _).trans htail)
  · exact cutOutside_suffix _ _

theorem ColumnDefinition.leaves_attributeStep (state : ColumnDefinition × Option String)
    (lexemes : List Lexeme) : Leaves lexemes (attributeStep state lexemes) := by
  have htail := List.tail_suffix lexemes
  unfold attributeStep
  dsimp only
  split
  · exact (optionalName_suffix _).trans htail
  · exact (skip_suffix _ _).trans htail
  · split
    · next heat => exact (eat?_suffix heat).trans htail
    · exact htail
  · exact htail
  · exact htail
  · exact (readDefault_suffix _).trans htail
  · exact Leaves.bind ((leaves_readReference _).mono htail) fun reference rest hrest => hrest
  · exact (parenthesized_suffix _).trans htail
  · split
    · exact (optionalQualifiedName_suffix _).trans htail
    · split
      · exact cutOutside_suffix _ _
      · split
        · exact List.suffix_refl _
        · exact skipGroup_suffix _

theorem ColumnDefinition.leaves_read (lexemes : List Lexeme) : Leaves lexemes (read lexemes) := by
  have htype : (cut endsType 0 lexemes.tail).2 <:+ lexemes :=
    (cut_suffix _ 0 _).trans (List.tail_suffix lexemes)
  unfold read
  dsimp only
  split
  · exact htype
  · exact Leaves.bind ((leaves_repeatedly leaves_attributeStep _ _).mono htype)
      fun state rest hrest => hrest

/-- An element of a table leaves an end of its lexemes, also where it fails. -/
theorem TableDefinition.leaves_element (line : Option Nat) (d : TableDefinition)
    (lexemes : List Lexeme) : Leaves lexemes (element line d lexemes) := by
  have htail := List.tail_suffix lexemes
  have hclause : Leaves lexemes (readTableClause lexemes >>= fun read =>
      pure (Turn.again (d.addClause none read.1), read.2)) :=
    Leaves.bind (leaves_readTableClause lexemes) fun clause rest hrest => hrest
  unfold element
  split
  · exact htail
  · exact htail
  · exact List.suffix_refl _
  · exact List.suffix_refl _
  · exact List.suffix_refl _
  · refine Leaves.bind ((leaves_readTableClause _).mono ((optionalName_suffix _).trans htail)) ?_
    exact fun clause rest hrest => hrest
  · exact hclause
  · exact hclause
  · exact hclause
  · exact hclause
  · split
    · exact cutOutside_suffix _ _
    · split
      · exact Leaves.bind (ColumnDefinition.leaves_read lexemes) fun definition rest hrest => hrest
      · exact htail

/-- The statement of a table leaves an end of its lexemes, also where it fails. -/
theorem leaves_createTable (line : Option Nat) (schema : Schema) (lexemes : List Lexeme) :
    Leaves lexemes (createTable line schema lexemes) := by
  have hskip := skipIfNotExists_suffix lexemes
  unfold createTable
  dsimp only
  split
  · exact hskip
  · next hname =>
    have hrest := (qualifiedName?_suffix hname).trans hskip
    split
    · exact (skipStatement_suffix _).trans hrest
    · next heat =>
      refine Leaves.bind ((leaves_repeatedly (TableDefinition.leaves_element line) _ _).mono
        ((eat?_suffix heat).trans hrest)) fun d after hafter => ?_
      dsimp only
      split
      · exact hafter
      · exact (skipStatement_suffix _).trans hafter

theorem leaves_indexStep (elements : List String) (lexemes : List Lexeme) :
    Leaves lexemes (indexStep elements lexemes) := by
  unfold indexStep
  dsimp only
  split
  · exact (List.tail_suffix _).trans (cut_suffix _ 0 lexemes)
  · exact (List.tail_suffix _).trans (cut_suffix _ 0 lexemes)
  · exact cut_suffix _ 0 lexemes

theorem leaves_indexElements (lexemes : List Lexeme) : Leaves lexemes (indexElements lexemes) := by
  unfold indexElements
  split
  · next heat => exact (leaves_repeatedly leaves_indexStep _ _).mono (eat?_suffix heat)
  · exact List.suffix_refl _

theorem indexMethod_suffix (lexemes : List Lexeme) : (indexMethod lexemes).2 <:+ lexemes := by
  unfold indexMethod
  split
  · next heat => exact (optionalName_suffix _).trans (eat?_suffix heat)
  · exact List.suffix_refl _

theorem leaves_createIndex (line : Option Nat) (schema : Schema) (lexemes : List Lexeme) :
    Leaves lexemes (createIndex line schema lexemes) := by
  have hopening : skipIfNotExists (skipWord "concurrently"
      (skip (.keyword .index) (skip (.keyword .unique) lexemes))) <:+ lexemes :=
    (skipIfNotExists_suffix _).trans ((skipWord_suffix _ _).trans
      ((skip_suffix _ _).trans (skip_suffix _ _)))
  generalize hothers : skipIfNotExists (skipWord "concurrently"
    (skip (.keyword .index) (skip (.keyword .unique) lexemes))) = others at hopening
  have hlabel : (if next others = .keyword .on then (none, others)
      else optionalQualifiedName others).2 <:+ lexemes := by
    split
    · exact hopening
    · exact (optionalQualifiedName_suffix _).trans hopening
  unfold createIndex
  dsimp only
  rw [hothers]
  split
  · exact hlabel
  · next heat =>
    have hon := (skip_suffix (.keyword .only) _).trans ((eat?_suffix heat).trans hlabel)
    split
    · exact hon
    · next hname =>
      have hmethod := (indexMethod_suffix _).trans ((qualifiedName?_suffix hname).trans hon)
      refine Leaves.bind ((leaves_indexElements _).mono hmethod) fun columns after hafter => ?_
      have hrest := (skipStatement_suffix after).trans hafter
      dsimp only
      split
      · exact hrest
      · exact hrest

theorem leaves_enumValues (name : String) (line : Option Nat) (lexemes : List Lexeme) :
    Leaves lexemes (enumValues name line lexemes) := by
  induction lexemes with
  | nil => exact List.suffix_refl _
  | cons lexeme rest ih =>
    have hrest := List.suffix_cons lexeme rest
    unfold enumValues
    split
    · exact Leaves.bind (ih.mono hrest) fun values after hafter => hafter
    · exact ih.mono hrest
    · exact hrest
    · exact List.suffix_refl _

theorem leaves_createType (line : Option Nat) (schema : Schema) (lexemes : List Lexeme) :
    Leaves lexemes (createType line schema lexemes) := by
  unfold createType
  split
  · exact List.suffix_refl _
  · next hname =>
    have hrest := qualifiedName?_suffix hname
    split
    · exact (skipStatement_suffix _).trans hrest
    · next heat =>
      have has := (eat?_suffix heat).trans hrest
      have henum := (List.tail_suffix _).trans has
      split
      · exact (skipStatement_suffix _).trans has
      · split
        · exact (skipStatement_suffix _).trans henum
        · next hopening =>
          refine Leaves.bind ((leaves_enumValues _ line _).mono
            ((eat?_suffix hopening).trans henum)) fun values after hafter => ?_
          exact (skipStatement_suffix after).trans hafter

theorem leaves_extensionOption (extension : Extension) (lexemes : List Lexeme) :
    Leaves lexemes (extensionOption extension lexemes) := by
  have htail := List.tail_suffix lexemes
  unfold extensionOption
  dsimp only
  split
  · exact htail
  · split
    · exact (optionalQualifiedName_suffix _).trans htail
    · split
      · exact (List.tail_suffix _).trans htail
      · exact List.suffix_refl _

theorem leaves_createExtension (line : Option Nat) (schema : Schema) (lexemes : List Lexeme) :
    Leaves lexemes (createExtension line schema lexemes) := by
  have hskip := skipIfNotExists_suffix lexemes
  unfold createExtension
  dsimp only
  split
  · exact hskip
  · next hname =>
    refine Leaves.bind ((leaves_repeatedly leaves_extensionOption _ _).mono
      ((qualifiedName?_suffix hname).trans hskip)) fun extension after hafter => ?_
    exact (skipStatement_suffix after).trans hafter

/-- Whatever a statement creates, it leaves an end of its lexemes. -/
theorem leaves_create (schema : Schema) (lexemes : List Lexeme) :
    Leaves lexemes (create schema lexemes) := by
  have hreplace : (if (next lexemes).isWord "or" then skipWord "replace" lexemes.tail
      else lexemes) <:+ lexemes := by
    split
    · exact (skipWord_suffix _ _).trans (List.tail_suffix lexemes)
    · exact List.suffix_refl _
  have hkind := (List.dropWhile_suffix fun lexeme : Lexeme => lexeme.token.isOneOf
    ["temp", "temporary", "unlogged", "global", "local"]).trans hreplace
  have htail := (List.tail_suffix _).trans hkind
  unfold create
  dsimp only
  split
  · exact (leaves_createTable _ schema _).mono htail
  · exact (leaves_createIndex _ schema _).mono hkind
  · exact (leaves_createIndex _ schema _).mono hkind
  · exact (leaves_createType _ schema _).mono htail
  · exact (leaves_createExtension _ schema _).mono htail
  · exact (skipStatement_suffix _).trans hkind

/-! ## Changes of tables and comments -/

theorem alterColumn_suffix (table : Table) (column : String) (lexemes : List Lexeme) :
    (alterColumn table column lexemes).2 <:+ lexemes := by
  have htail := List.tail_suffix lexemes
  have hopening : (if (next lexemes).isWord "set" then skipWord "data" lexemes.tail
      else if (next lexemes).isWord "drop" then lexemes.tail else lexemes) <:+ lexemes := by
    split
    · exact (skipWord_suffix _ _).trans htail
    · split
      · exact htail
      · exact List.suffix_refl _
  generalize hothers : (if (next lexemes).isWord "set" then skipWord "data" lexemes.tail
    else if (next lexemes).isWord "drop" then lexemes.tail else lexemes) = others at hopening
  have hsecond := (List.tail_suffix others).trans hopening
  unfold alterColumn
  dsimp only
  rw [hothers]
  refine (cutOutside_suffix _ _).trans ?_
  split
  · exact hopening
  · split
    · split
      · exact (readDefault_suffix _).trans hsecond
      · split
        · exact hsecond
        · exact hopening
    · exact (skip_suffix _ _).trans hsecond
    · split
      · exact hopening
      · exact (cut_suffix _ 0 _).trans hsecond
    · exact hopening

theorem leaves_alterAction (table : Table) (lexemes : List Lexeme) :
    Leaves lexemes (alterAction table lexemes) := by
  have htail := List.tail_suffix lexemes
  have hclause : Leaves lexemes (readTableClause lexemes.tail >>= fun read =>
      pure ((read.1.map fun clause => clause.addTo none table).getD table, read.2)) :=
    Leaves.bind ((leaves_readTableClause _).mono htail) fun clause rest hrest => hrest
  unfold alterAction
  dsimp only
  split
  · split
    · refine Leaves.bind ((leaves_readTableClause _).mono ((optionalName_suffix _).trans
        ((List.tail_suffix _).trans htail))) ?_
      exact fun clause rest hrest => hrest
    · exact hclause
    · exact hclause
    · exact hclause
    · exact hclause
    · refine Leaves.bind ((ColumnDefinition.leaves_read _).mono ((skipIfNotExists_suffix _).trans
        ((skip_suffix _ _).trans htail))) ?_
      exact fun definition rest hrest => hrest
  · exact (alterColumn_suffix table _ _).trans
      ((List.tail_suffix _).trans ((skip_suffix _ _).trans htail))
  · exact cutOutside_suffix _ _

theorem leaves_alterStep (table : Table) (lexemes : List Lexeme) :
    Leaves lexemes (alterStep table lexemes) := by
  refine Leaves.bind (leaves_alterAction table lexemes) fun changed rest hrest => ?_
  dsimp only
  split
  · next heat => exact (eat?_suffix heat).trans hrest
  · exact hrest

/-- An alteration leaves an end of its lexemes, also where it fails. -/
theorem leaves_alter (line : Option Nat) (schema : Schema) (lexemes : List Lexeme) :
    Leaves lexemes (alter line schema lexemes) := by
  unfold alter
  split
  · exact skipStatement_suffix _
  · next htable =>
    have honly := (skip_suffix (.keyword .only) _).trans
      ((skipIfExists_suffix _).trans (eat?_suffix htable))
    dsimp only
    split
    · exact honly
    · next hname =>
      have hrest := (qualifiedName?_suffix hname).trans honly
      split
      · exact (skipStatement_suffix _).trans hrest
      · refine Leaves.bind ((leaves_repeatedly leaves_alterStep _ _).mono hrest) ?_
        exact fun table after hafter => (skipStatement_suffix after).trans hafter

theorem leaves_comment (line : Option Nat) (schema : Schema) (lexemes : List Lexeme) :
    Leaves lexemes (comment line schema lexemes) := by
  unfold comment
  split
  · exact skipStatement_suffix _
  · next heat =>
    have hparts := (nameParts_suffix _).trans ((List.tail_suffix _).trans (eat?_suffix heat))
    dsimp only
    split
    · exact (skipStatement_suffix _).trans hparts
    · next his =>
      have hrest := (skipStatement_suffix _).trans ((eat?_suffix his).trans hparts)
      split
      · exact hrest
      · exact hrest

/-! ## Statements -/

/-- To skip a statement is to go on, unless the end is reached. -/
theorem length_skipStatement_lt (hstart : next lexemes ≠ .eof) :
    (skipStatement lexemes).length < lexemes.length := by
  cases lexemes with
  | nil => exact absurd rfl hstart
  | cons lexeme rest =>
    have heof : lexeme.token ≠ .eof := hstart
    rw [List.length_cons, Nat.lt_succ_iff]
    by_cases hsemicolon : lexeme.token = .semicolon
    · rw [skipStatement, List.dropWhile_cons_of_neg (by simp [hsemicolon]), skip, eat?,
        if_pos hsemicolon]
      exact Nat.le_refl _
    · rw [skipStatement, List.dropWhile_cons_of_pos (by simp [hsemicolon, heof])]
      exact ((skip_suffix _ _).trans (List.dropWhile_suffix _)).length_le

theorem leaves_statement (schema : Schema) (lexemes : List Lexeme) :
    Leaves lexemes (statement schema lexemes) := by
  unfold statement
  split
  · exact (leaves_create schema _).mono (List.tail_suffix _)
  · exact (leaves_alter _ schema _).mono (List.tail_suffix _)
  · exact (leaves_comment _ schema _).mono (List.tail_suffix _)
  · exact skipStatement_suffix _

/-- A step of the script leaves an end of its lexemes. -/
theorem scriptStep_suffix {state : Import} {turn : Turn Import}
    (hstep : scriptStep state lexemes = .ok (turn, rest)) : rest <:+ lexemes := by
  have hleaves := leaves_statement state.schema lexemes
  unfold scriptStep at hstep
  split at hstep
  · cases hstep
    exact List.suffix_refl _
  · split at hstep
    · next hread =>
      cases hstep
      rwa [hread] at hleaves
    · next hread =>
      cases hstep
      rw [hread] at hleaves
      exact (recover_suffix _).trans hleaves

/-- What is left of a script at any time is an end of it. -/
theorem turns_scriptStep_suffix {state following : Import}
    (hturns : Turns scriptStep state lexemes following rest) : rest <:+ lexemes := by
  induction hturns with
  | none => exact List.suffix_refl _
  | more hturn _ _ ih => exact ih.trans (scriptStep_suffix hturn)

/-- A statement takes at least one lexeme, and what is left after a fault is less as well. -/
theorem length_scriptStep_lt {state following : Import}
    (hturn : scriptStep state lexemes = .ok (.again following, rest)) :
    rest.length < lexemes.length := by
  have htail : ∀ {read : Except Halt (Schema × List Lexeme)}, next lexemes ≠ .eof →
      Leaves lexemes.tail read → statement state.schema lexemes = read →
        rest.length < lexemes.length := by
    intro read hstart hleaves hstatement
    have hshorter : lexemes.tail.length < lexemes.length := by
      cases lexemes with
      | nil => exact absurd rfl hstart
      | cons lexeme more => exact Nat.lt_succ_self _
    rw [scriptStep, if_neg hstart, hstatement] at hturn
    cases read with
    | error stop =>
      cases hturn
      exact ((recover_suffix _).trans hleaves).length_le.trans_lt hshorter
    | ok found =>
      cases hturn
      exact (List.IsSuffix.length_le hleaves).trans_lt hshorter
  have hstart : next lexemes ≠ .eof := by
    intro heof
    rw [scriptStep, if_pos heof] at hturn
    cases hturn
  by_cases hcreate : next lexemes = .keyword .create
  · exact htail hstart (leaves_create state.schema _) (by simp only [statement, hcreate])
  by_cases halter : next lexemes = .keyword .alter
  · exact htail hstart (leaves_alter (line? lexemes) state.schema _)
      (by simp only [statement, halter])
  by_cases hcomment : next lexemes = .keyword .comment
  · exact htail hstart (leaves_comment (line? lexemes) state.schema _)
      (by simp only [statement, hcomment])
  have hother : statement state.schema lexemes = .ok (state.schema, skipStatement lexemes) := by
    unfold statement
    split
    · exact absurd ‹_› hcreate
    · exact absurd ‹_› halter
    · exact absurd ‹_› hcomment
    · rfl
  rw [scriptStep, if_neg hstart, hother] at hturn
  cases hturn
  exact length_skipStatement_lt hstart

end SchemaEvolution.Sql
