import SchemaEvolution.Proofs.Sql.Locality

/-!
# Definitions are read where they stand

The readers of references, constraints, columns and elements of tables are made of readers that
look no further than they read, and so do they.
-/

namespace SchemaEvolution.Sql

variable {rest other lexemes others : List Lexeme}

section References

variable (hmirrors : Mirrors rest other lexemes others)

include hmirrors

/-- What stands behind `ON`. -/
theorem Mirrors.referenceEvent (reference : Reference) :
    let read (lexemes : List Lexeme) : Except Halt (Turn Reference × List Lexeme) :=
      match next lexemes with
      | .keyword .delete =>
        let (action, after) := Sql.readAction lexemes.tail
        .ok (.again { reference with onDelete := action }, after)
      | .keyword .update =>
        let (action, after) := Sql.readAction lexemes.tail
        .ok (.again { reference with onUpdate := action }, after)
      | _ => .ok (.done reference, lexemes)
    FollowsOk rest other (read lexemes) (read others) := by
  intro read
  cases hmirrors with
  | behind hend =>
    have hdone {row : List Lexeme}
        (hrow : next row = .semicolon ∨ next row = .comma ∨ next row = .rightParen) :
        read row = .ok (.done reference, row) := by
      rcases hrow with hrow | hrow | hrow
      all_goals simp only [read, hrow]
    rw [hdone hend.cases_next.1, hdone hend.cases_next.2]
    exact .ok fun _ => .behind hend
  | @cons first second more behind halike hmore =>
    have hmirrors : Mirrors rest other (first :: more) (second :: behind) := .cons halike hmore
    dsimp only [read, next_cons, List.tail_cons]
    rw [← halike.2.2]
    generalize first.token = token
    cases token with
    | keyword known =>
      cases known with
      | delete => exact .of_follows hmore.readAction fun action =>
          Turn.again { reference with onDelete := action }
      | update => exact .of_follows hmore.readAction fun action =>
          Turn.again { reference with onUpdate := action }
      | _ => exact .ok fun _ => hmirrors
    | _ => exact .ok fun _ => hmirrors

theorem Mirrors.referenceOption (reference : Reference) :
    FollowsOk rest other (referenceOption reference lexemes)
      (referenceOption reference others) := by
  cases hmirrors with
  | behind hend =>
    have hdone {row : List Lexeme}
        (hrow : next row = .semicolon ∨ next row = .comma ∨ next row = .rightParen) :
        Sql.referenceOption reference row = .ok (.done reference, row) := by
      rcases hrow with hrow | hrow | hrow
      all_goals
        simp only [Sql.referenceOption, hrow]
        rfl
    rw [hdone hend.cases_next.1, hdone hend.cases_next.2]
    exact .ok fun _ => .behind hend
  | @cons first second more behind halike hmore =>
    have hmirrors : Mirrors rest other (first :: more) (second :: behind) := .cons halike hmore
    unfold Sql.referenceOption
    dsimp only [next_cons, List.tail_cons]
    rw [← halike.2.2, hmore.next_eq (Token.isWord "deferrable") rfl]
    by_cases hon : first.token = .keyword .on
    · rw [if_pos hon, if_pos hon]
      exact hmore.referenceEvent reference
    rw [if_neg hon, if_neg hon]
    split
    · exact .ok fun hlength => (hmore.step hlength).2
    · split
      · exact .ok fun _ => hmore
      · split
        · exact .ok fun hlength => (hmore.step hlength).2
        · exact .ok fun _ => hmirrors

/-- A reference that ends before the cut is read the same on both sides. -/
theorem Mirrors.readReference :
    FollowsOk rest other (readReference lexemes) (readReference others) := by
  intro reference left hread hlength
  rw [Sql.readReference] at hread
  cases hname : Sql.qualifiedName? lexemes with
  | none =>
    rw [hname] at hread
    cases hread
  | some found =>
    obtain ⟨table, behindTable⟩ := found
    rw [hname] at hread
    dsimp only at hread
    have hoptions : left <:+ (Sql.nameList behindTable).2 :=
      (leaves_repeatedly leaves_referenceOption _ _).suffix hread
    have hnames := hlength.trans hoptions.length_le
    obtain ⟨behindTable', hname', htable⟩ :=
      hmirrors.qualifiedName?_some hname (hnames.trans (nameList_suffix _).length_le)
    obtain ⟨hcolumns, hbehind⟩ := htable.nameList hnames
    rw [Sql.readReference, hname']
    dsimp only
    rw [hcolumns]
    exact hbehind.repeatedly leaves_referenceOption
      (fun reference lexemes others hmirrors => hmirrors.referenceOption reference) _ _ _ hread
      hlength

end References

section Clauses

variable (hmirrors : Mirrors rest other lexemes others)

include hmirrors

theorem Mirrors.keyNames :
    Follows rest other (Sql.nameList (Sql.skip (.keyword .key) lexemes))
      (Sql.nameList (Sql.skip (.keyword .key) others)) := fun hlength =>
  (hmirrors.skip rfl (hlength.trans (nameList_suffix _).length_le)).nameList hlength

omit hmirrors in
/-- What is left of a definition is skipped. -/
theorem FollowsOk.skipDefinition {α β : Type} {found found' : α × List Lexeme}
    (hfollows : Follows rest other found found') (change : α → β) :
    FollowsOk rest other (.ok (change found.1, Sql.skipDefinition found.2))
      (.ok (change found'.1, Sql.skipDefinition found'.2)) := by
  rintro _ _ ⟨⟩ hlength
  obtain ⟨hvalue, hleft⟩ := hfollows (hlength.trans (skipDefinition_suffix _).length_le)
  exact ⟨_, by rw [hvalue], hleft.skipDefinition hlength⟩

/-- The columns of a foreign key and what they refer to. -/
theorem Mirrors.readForeignKey (message : String) (line line' : Option Nat) :
    let read (line : Option Nat) (lexemes : List Lexeme) :
        Except Halt (Option TableClause × List Lexeme) :=
      let (columns, after) := Sql.nameList (Sql.skip (.keyword .key) lexemes)
      match eat? (.keyword .references) after with
      | none => halt message line after
      | some after => do
        let (reference, after) ← Sql.readReference after
        return (some (.foreignKey columns reference), Sql.skipDefinition after)
    FollowsOk rest other (read line lexemes) (read line' others) := by
  intro read clause left hread hlength
  dsimp only [read] at hread ⊢
  generalize hfound : Sql.nameList (Sql.skip (.keyword .key) lexemes) = found at hread
  cases heat : eat? (.keyword .references) found.2 with
  | none =>
    rw [heat] at hread
    cases hread
  | some target =>
    rw [heat] at hread
    dsimp only at hread
    have hsuffix : left <:+ target := by
      refine Leaves.suffix ?_ hread
      exact Leaves.bind (leaves_readReference target) fun reference rest hrest =>
        (skipDefinition_suffix rest).trans hrest
    have htarget := hlength.trans hsuffix.length_le
    obtain ⟨hcolumns, hbehind⟩ :=
      hmirrors.keyNames (by rw [hfound]; exact htarget.trans (eat?_suffix heat).length_le)
    rw [hfound] at hcolumns hbehind
    obtain ⟨heat', htarget'⟩ := hbehind.eat?_some rfl heat htarget
    rw [heat', hcolumns]
    refine FollowsOk.bind htarget'.readReference (fun reference rest => ?_)
      (fun reference after after' hafter => ?_) _ _ hread hlength
    · exact skipDefinition_suffix rest
    · exact FollowsOk.ok hafter.skipDefinition

/-- A constraint that ends before the cut is read the same on both sides. -/
theorem Mirrors.readTableClause :
    FollowsOk rest other (readTableClause lexemes) (readTableClause others) := by
  cases hmirrors with
  | behind hend =>
    have hnone {row : List Lexeme}
        (hrow : next row = .semicolon ∨ next row = .comma ∨ next row = .rightParen) :
        Sql.readTableClause row = .ok (none, row) := by
      cases row with
      | nil =>
        rcases hrow with hrow | hrow | hrow
        all_goals cases hrow
      | cons first more =>
        rw [next_cons] at hrow
        rcases hrow with hrow | hrow | hrow
        all_goals
          simp only [Sql.readTableClause, next_cons, hrow, cutOutside, Sql.cut]
          rfl
    rw [hnone hend.cases_next.1, hnone hend.cases_next.2]
    exact .ok fun _ => .behind hend
  | @cons first second more behind halike hmore =>
    have hmirrors : Mirrors rest other (first :: more) (second :: behind) := .cons halike hmore
    have hother : FollowsOk (α := Option TableClause) rest other
        (.ok (none, (cutOutside (fun token =>
          token = .comma || token = .rightParen || token = .semicolon) (first :: more)).2))
        (.ok (none, (cutOutside (fun token =>
          token = .comma || token = .rightParen || token = .semicolon) (second :: behind)).2)) :=
      .ok fun hlength =>
        (hmirrors.cut_of_same (fun depth => by cases depth <;> rfl) hlength).2
    unfold Sql.readTableClause
    dsimp only [next_cons, List.tail_cons]
    rw [← halike.2.2]
    generalize first.token = token
    cases token with
    | keyword known =>
      cases known with
      | primary =>
        exact .skipDefinition hmore.keyNames fun columns => some (TableClause.primaryKey columns)
      | unique =>
        exact .skipDefinition hmore.keyNames fun columns => some (TableClause.unique columns)
      | foreign => exact hmore.readForeignKey _ _ _
      | check =>
        exact .skipDefinition hmore.parenthesized fun condition => some (TableClause.check condition)
      | _ => exact hother
    | _ => exact hother

end Clauses

section Columns

variable (hmirrors : Mirrors rest other lexemes others)

include hmirrors

/-- A word among the attributes, or whatever else is none of them. -/
theorem Mirrors.otherAttribute (state : ColumnDefinition × Option String) (token : Token) :
    let read (lexemes : List Lexeme) :
        Except Halt (Turn (ColumnDefinition × Option String) × List Lexeme) :=
      if token.isWord "collate" then
        .ok (.again state, (Sql.optionalQualifiedName lexemes.tail).2)
      else if token.isWord "generated" then
        let (taken, after) :=
          cutOutside (fun token => token = .comma || token = .rightParen) lexemes
        let isIdentity :=
          Text.contains (Text.lower (textOf taken)).toList "identity".toList
        .ok (.again (if isIdentity then state.1.requireValue else state.1, state.2), after)
      else if endsDefinition token then .ok (.done state, lexemes)
      else .ok (.again state, Sql.skipGroup lexemes)
    FollowsOk rest other (read lexemes) (read others) := by
  intro read
  dsimp only [read]
  split
  · refine .ok fun hlength => ?_
    have htail := (hmirrors.step (hlength.trans (optionalQualifiedName_suffix _).length_le)).2
    exact (htail.optionalQualifiedName hlength).2
  · split
    · rintro _ _ ⟨⟩ hlength
      obtain ⟨htaken, hleft⟩ := hmirrors.cut_of_same (fun depth => by cases depth <;> rfl) hlength
      exact ⟨_, by rw [cutOutside, cutOutside, textOf_of_alike htaken], hleft⟩
    · split
      · exact .ok fun _ => hmirrors
      · exact .ok hmirrors.skipGroup

/-- An attribute that ends before the cut is read the same on both sides. -/
theorem Mirrors.attributeStep (state : ColumnDefinition × Option String) :
    FollowsOk rest other (ColumnDefinition.attributeStep state lexemes)
      (ColumnDefinition.attributeStep state others) := by
  obtain ⟨d, label⟩ := state
  cases hmirrors with
  | behind hend =>
    have hends {row : List Lexeme}
        (hrow : next row = .semicolon ∨ next row = .comma ∨ next row = .rightParen) :
        ColumnDefinition.attributeStep (d, label) row = .ok (.done (d, label), row) := by
      rcases hrow with hrow | hrow | hrow
      all_goals
        simp only [ColumnDefinition.attributeStep, hrow]
        rfl
    rw [hends hend.cases_next.1, hends hend.cases_next.2]
    exact .ok fun _ => .behind hend
  | @cons first second more behind halike hmore =>
    have hother := Mirrors.otherAttribute (.cons halike hmore) (d, label) first.token
    unfold ColumnDefinition.attributeStep
    dsimp only [next_cons, List.tail_cons] at hother ⊢
    rw [← halike.2.2]
    generalize first.token = token at hother
    cases token with
    | keyword known =>
      cases known with
      | constraint => exact .of_follows hmore.optionalName fun label => Turn.again (d, label)
      | primary => exact .ok (hmore.skip rfl)
      | not =>
        dsimp only
        cases heat : eat? (.keyword .null) more with
        | none =>
          rw [hmore.eat?_none rfl heat]
          exact .ok fun _ => hmore
        | some after =>
          rintro _ _ ⟨⟩ hlength
          obtain ⟨heat', hafter⟩ := hmore.eat?_some rfl heat hlength
          rw [heat']
          exact ⟨_, rfl, hafter⟩
      | null => exact .ok fun _ => hmore
      | unique => exact .ok fun _ => hmore
      | default => exact .of_follows hmore.readDefault fun value =>
          Turn.again ({ d with column := { d.column with default := value } }, label)
      | references =>
        refine FollowsOk.bind hmore.readReference (fun reference after => ?_)
          fun reference after after' hafter => ?_
        · exact List.suffix_refl after
        · exact FollowsOk.ok fun _ => hafter
      | check => exact .of_follows hmore.parenthesized fun condition =>
          Turn.again ({ d with
            column := { d.column with check := some condition }
            check := some (label, condition) }, none)
      | _ => exact hother
    | _ => exact hother

/-- A column that ends before the cut is read the same on both sides. -/
theorem Mirrors.readColumn :
    FollowsOk rest other (ColumnDefinition.read lexemes) (ColumnDefinition.read others) := by
  intro definition left hread hlength
  have hname := hmirrors.next_eq Token.name? rfl
  unfold ColumnDefinition.read at hread ⊢
  dsimp only at hread ⊢
  by_cases hempty : (textOf (Sql.cut endsType 0 lexemes.tail).1).isEmpty = true
  · rw [if_pos hempty] at hread
    cases hread
  rw [if_neg hempty] at hread
  obtain ⟨⟨⟨d, label⟩, after⟩, hattributes, hafter⟩ := exists_of_bind_eq_ok hread
  cases hafter
  have hsuffix : after <:+ (Sql.cut endsType 0 lexemes.tail).2 :=
    (leaves_repeatedly ColumnDefinition.leaves_attributeStep _ _).suffix hattributes
  have htype := hlength.trans hsuffix.length_le
  have htail := (hmirrors.step (htype.trans (cut_suffix _ _ _).length_le)).2
  obtain ⟨htaken, hbehind⟩ := htail.cut_of_same (fun depth => by cases depth <;> rfl) htype
  obtain ⟨left', hattributes', hleft⟩ := hbehind.repeatedly ColumnDefinition.leaves_attributeStep
    (fun state lexemes others hmirrors => hmirrors.attributeStep state) _ _ _ hattributes hlength
  refine ⟨left', ?_, hleft⟩
  rw [hname, ← textOf_of_alike htaken, if_neg hempty, hattributes']
  rfl

end Columns

section Elements

variable (hmirrors : Mirrors rest other lexemes others)

include hmirrors

theorem Mirrors.clauseElement (label : Option String) (d : TableDefinition) :
    FollowsOk rest other
      (Sql.readTableClause lexemes >>= fun read =>
        pure (Turn.again (d.addClause label read.1), read.2))
      (Sql.readTableClause others >>= fun read =>
        pure (Turn.again (d.addClause label read.1), read.2)) := by
  refine FollowsOk.bind hmirrors.readTableClause (fun clause after => ?_)
    fun clause after after' hafter => ?_
  · exact List.suffix_refl after
  · exact FollowsOk.ok fun _ => hafter

/-- An element that is a column, or none that is read. -/
theorem Mirrors.otherElement (d : TableDefinition) (token : Token) :
    let read (lexemes : List Lexeme) : Except Halt (Turn TableDefinition × List Lexeme) :=
      if token.isOneOf ["like", "exclude"] then
        .ok (.again d, (cutOutside (fun token => token = .comma || token = .rightParen) lexemes).2)
      else if token.name?.isSome then do
        let (definition, after) ← ColumnDefinition.read lexemes
        return (.again { d with table := definition.addTo d.table }, after)
      else .ok (.again d, lexemes.tail)
    FollowsOk rest other (read lexemes) (read others) := by
  intro read
  dsimp only [read]
  split
  · exact .ok fun hlength =>
      (hmirrors.cut_of_same (fun depth => by cases depth <;> rfl) hlength).2
  · split
    · refine FollowsOk.bind hmirrors.readColumn (fun definition after => ?_)
        fun definition after after' hafter => ?_
      · exact List.suffix_refl after
      · exact FollowsOk.ok fun _ => hafter
    · exact .ok fun hlength => (hmirrors.step hlength).2

/-- An element that ends before the cut is read the same on both sides, but for its line. -/
theorem Mirrors.element (line line' : Option Nat) (d : TableDefinition) :
    FollowsOk rest other (TableDefinition.element line d lexemes)
      (TableDefinition.element line' d others) := by
  cases hmirrors with
  | behind hend =>
    -- An element takes the token at the end or is broken off before it.
    intro turn left hread hlength
    have hpositive := List.length_pos_iff.2 hend.ne_nil
    have hshort : left.length = rest.tail.length := by
      unfold TableDefinition.element at hread
      rcases hend.cases_next.1 with hnext | hnext | hnext
      all_goals
        rw [hnext] at hread
        cases hread
      all_goals rfl
    rw [hshort, List.length_tail] at hlength
    omega
  | @cons first second more behind halike hmore =>
    have hmirrors : Mirrors rest other (first :: more) (second :: behind) := .cons halike hmore
    have hother := hmirrors.otherElement d first.token
    have hclause := hmirrors.clauseElement none d
    unfold TableDefinition.element
    dsimp only [next_cons, List.tail_cons] at hother ⊢
    rw [← halike.2.2]
    generalize first.token = token at hother
    cases token with
    | rightParen | comma => exact .ok fun _ => hmore
    | eof | semicolon => exact .error
    | keyword known =>
      cases known with
      | create => exact .error
      | constraint =>
        intro turn left hread hlength
        have hsuffix : left <:+ (Sql.optionalName more).2 := by
          refine Leaves.suffix ?_ hread
          exact Leaves.bind (leaves_readTableClause _) fun clause after hafter => hafter
        obtain ⟨hlabel, hbehind⟩ := hmore.optionalName (hlength.trans hsuffix.length_le)
        have hfollows := hbehind.clauseElement (Sql.optionalName more).1 d turn left hread hlength
        dsimp only
        rw [hlabel]
        exact hfollows
      | primary | «foreign» | unique | check => exact hclause
      | _ => exact hother
    | _ => exact hother

end Elements

/-! ## Types and extensions -/

section Others

variable (hmirrors : Mirrors rest other lexemes others)

include hmirrors

theorem Mirrors.enumValues (name : String) (line line' : Option Nat) :
    FollowsOk rest other (enumValues name line lexemes) (enumValues name line' others) := by
  induction hmirrors with
  | behind hend =>
    -- The values are closed before the end or broken off there.
    intro values left hread hlength
    have hpositive := List.length_pos_iff.2 hend.ne_nil
    cases rest with
    | nil => exact absurd rfl hend.ne_nil
    | cons first more =>
      have hshort : left.length ≤ more.length := by
        unfold Sql.enumValues at hread
        rcases hend.cases_next.1 with hnext | hnext | hnext
        all_goals
          rw [next_cons] at hnext
          rw [hnext] at hread
        · cases hread
        · exact ((leaves_enumValues name line more).suffix hread).length_le
        · cases hread
          exact Nat.le_refl _
      exact absurd (hlength.trans hshort) (Nat.not_succ_le_self _)
  | @cons first second more behind halike hmore ih =>
    unfold Sql.enumValues
    rw [← halike.2.2]
    generalize first.token = token
    cases token with
    | string value =>
      refine FollowsOk.bind ih (fun values after => ?_) fun values after after' hafter => ?_
      · exact List.suffix_refl after
      · exact FollowsOk.ok fun _ => hafter
    | comma => exact ih
    | rightParen => exact .ok fun _ => hmore
    | _ => exact .error

theorem Mirrors.extensionOption (extension : Extension) :
    FollowsOk rest other (extensionOption extension lexemes)
      (extensionOption extension others) := by
  cases hmirrors with
  | behind hend =>
    have hdone {row : List Lexeme}
        (hrow : next row = .semicolon ∨ next row = .comma ∨ next row = .rightParen) :
        Sql.extensionOption extension row = .ok (.done extension, row) := by
      rcases hrow with hrow | hrow | hrow
      all_goals
        simp only [Sql.extensionOption, hrow]
        rfl
    rw [hdone hend.cases_next.1, hdone hend.cases_next.2]
    exact .ok fun _ => .behind hend
  | @cons first second more behind halike hmore =>
    have hmirrors : Mirrors rest other (first :: more) (second :: behind) := .cons halike hmore
    unfold Sql.extensionOption
    dsimp only [next_cons, List.tail_cons]
    rw [← halike.2.2]
    split
    · exact .ok fun _ => hmore
    · split
      · exact .of_follows hmore.optionalQualifiedName fun place =>
          Turn.again { extension with schema := place }
      · split
        · rintro _ _ ⟨⟩ hlength
          obtain ⟨hnext, htail⟩ := hmore.step hlength
          rw [hnext]
          exact ⟨_, rfl, htail⟩
        · exact .ok fun _ => hmirrors

end Others

theorem suffix_of_turns {σ : Type} {step : σ → List Lexeme → Except Halt (Turn σ × List Lexeme)}
    (hleaves : ∀ state lexemes, Leaves lexemes (step state lexemes)) {state last : σ}
    {left : List Lexeme} (hturns : Turns step state lexemes last left) : left <:+ lexemes := by
  induction hturns with
  | none => exact List.suffix_refl _
  | more hturn _ _ ih => exact ih.trans ((hleaves _ _).suffix hturn)

/-- Turns that stay in front of the end are taken alike. -/
theorem Mirrors.turns {σ : Type} {step : σ → List Lexeme → Except Halt (Turn σ × List Lexeme)}
    (hstep : ∀ state lexemes others, Mirrors rest other lexemes others →
      FollowsOk rest other (step state lexemes) (step state others))
    {state last : σ} {left : List Lexeme} (hturns : Turns step state lexemes last left)
    (hmirrors : Mirrors rest other lexemes others) (hlength : rest.length ≤ left.length) :
    ∃ left', Turns step state others last left' ∧ Mirrors rest other left left' := by
  induction hturns generalizing others with
  | none state lexemes => exact ⟨others, .none _ _, hmirrors⟩
  | @more state next last lexemes after left hturn hshorter hmore ih =>
    have hleft : left.length ≤ after.length := hmore.length_le
    obtain ⟨after', hturn', hafter⟩ := hstep state lexemes others hmirrors _ _ hturn
      (hlength.trans hleft)
    obtain ⟨left', hmore', hmirrors'⟩ := ih hafter hlength
    refine ⟨left', .more hturn' ?_ hmore', hmirrors'⟩
    have hbefore := hmirrors.length_add
    have hbehind := hafter.length_add
    omega

end SchemaEvolution.Sql
