import SchemaEvolution.Proofs.Sql.Progress
import SchemaEvolution.Proofs.Sql.TokenRow

/-!
# Readers look no further than they read

Two rows of lexemes that are alike up to a comma, a closing parenthesis or a semicolon are read
alike by every reader that stays in front of that token: it reads the same, and what it leaves is
alike again up to there.  What comes behind has no say in it.
-/

namespace SchemaEvolution.Sql

variable {α β σ : Type} {rest other lexemes others : List Lexeme}

theorem next_cons (lexeme : Lexeme) (rest : List Lexeme) : next (lexeme :: rest) = lexeme.token :=
  rfl

/-- Both go on with a semicolon, or with what ends an element of a table. -/
def SameEnd (rest other : List Lexeme) : Prop :=
  (next rest = .semicolon ∧ next other = .semicolon) ∨
    ((next rest = .comma ∨ next rest = .rightParen) ∧
      (next other = .comma ∨ next other = .rightParen))

/-- The lexemes are alike up to `rest` and `other`, which come behind them. -/
inductive Mirrors (rest other : List Lexeme) : List Lexeme → List Lexeme → Prop
  | behind (hend : SameEnd rest other) : Mirrors rest other rest other
  | cons {first second : Lexeme} {more behind : List Lexeme} (halike : first.Alike second)
      (hmore : Mirrors rest other more behind) :
      Mirrors rest other (first :: more) (second :: behind)

theorem SameEnd.ne_nil (hend : SameEnd rest other) : rest ≠ [] := by
  rintro rfl
  rcases hend with ⟨hnext, -⟩ | ⟨hnext | hnext, -⟩
  all_goals cases hnext

theorem SameEnd.test_eq (hend : SameEnd rest other) (test : Token → β)
    (hsame : test .comma = test .rightParen) : test (next other) = test (next rest) := by
  rcases hend with ⟨hrest, hother⟩ | ⟨hrest | hrest, hother | hother⟩
  all_goals simp only [hrest, hother, hsame]

theorem Mirrors.of_alike {taken taken' : List Lexeme} (hend : SameEnd rest other)
    (halike : List.Forall₂ Lexeme.Alike taken taken') :
    Mirrors rest other (taken ++ rest) (taken' ++ other) := by
  induction halike with
  | nil => exact .behind hend
  | cons hfirst _ ih => exact .cons hfirst ih

section Mirrors

variable (hmirrors : Mirrors rest other lexemes others)

include hmirrors

theorem Mirrors.suffix : rest <:+ lexemes := by
  induction hmirrors with
  | behind => exact List.suffix_refl _
  | cons _ _ ih => exact ih.trans (List.suffix_cons _ _)

theorem Mirrors.length_add : lexemes.length + other.length = others.length + rest.length := by
  induction hmirrors with
  | behind => exact Nat.add_comm _ _
  | cons _ _ ih =>
    rw [List.length_cons, List.length_cons]
    omega

theorem Mirrors.exists_taken : ∃ taken taken', List.Forall₂ Lexeme.Alike taken taken' ∧
    lexemes = taken ++ rest ∧ others = taken' ++ other := by
  induction hmirrors with
  | behind => exact ⟨[], [], .nil, rfl, rfl⟩
  | cons halike _ ih =>
    obtain ⟨taken, taken', htaken, rfl, rfl⟩ := ih
    exact ⟨_ :: taken, _ :: taken', .cons halike htaken, rfl, rfl⟩

theorem Mirrors.sameEnd : SameEnd rest other := by
  induction hmirrors with
  | behind hend => exact hend
  | cons _ _ ih => exact ih

/-- A test that tells no comma from a closing parenthesis comes out the same. -/
theorem Mirrors.next_eq (test : Token → β) (hsame : test .comma = test .rightParen) :
    test (next others) = test (next lexemes) := by
  cases hmirrors with
  | behind hend => exact hend.test_eq test hsame
  | cons halike _ => exact congrArg test halike.2.2.symm

theorem Mirrors.next_iff {token : Token} (hcomma : token ≠ .comma) (hparen : token ≠ .rightParen) :
    next others = token ↔ next lexemes = token := by
  have hsame := hmirrors.next_eq (fun found => decide (found = token))
    ((decide_eq_false hcomma.symm).trans (decide_eq_false hparen.symm).symm)
  exact decide_eq_decide.1 hsame

theorem Mirrors.next_of_lt (hlength : rest.length < lexemes.length) :
    next others = next lexemes := by
  cases hmirrors with
  | behind => exact absurd hlength (Nat.lt_irrefl _)
  | cons halike _ => exact halike.2.2.symm

/-- A reader that takes a token and stays in front of the end goes on with rows that are alike. -/
theorem Mirrors.step (hlength : rest.length ≤ lexemes.tail.length) :
    next others = next lexemes ∧ Mirrors rest other lexemes.tail others.tail := by
  cases hmirrors with
  | behind hend =>
    have hpositive := List.length_pos_iff.2 hend.ne_nil
    rw [List.length_tail] at hlength
    omega
  | cons halike hmore => exact ⟨halike.2.2.symm, hmore⟩

end Mirrors

/-- Where the first reading stays in front of the end, the second one reads the same. -/
def Follows (rest other : List Lexeme) (found found' : α × List Lexeme) : Prop :=
  rest.length ≤ found.2.length → found'.1 = found.1 ∧ Mirrors rest other found.2 found'.2

/-- As `Follows`, for readings that may fail. -/
def FollowsOk (rest other : List Lexeme) (read read' : Except Halt (α × List Lexeme)) : Prop :=
  ∀ value left, read = .ok (value, left) → rest.length ≤ left.length →
    ∃ left', read' = .ok (value, left') ∧ Mirrors rest other left left'

theorem Leaves.suffix {read : Except Halt (α × List Lexeme)} {value : α} {left : List Lexeme}
    (hleaves : Leaves lexemes read) (hread : read = .ok (value, left)) : left <:+ lexemes := by
  rwa [hread] at hleaves

theorem FollowsOk.ok {value : α} {left left' : List Lexeme}
    (hleft : rest.length ≤ left.length → Mirrors rest other left left') :
    FollowsOk rest other (.ok (value, left)) (.ok (value, left')) := by
  rintro _ _ ⟨⟩ hlength
  exact ⟨left', rfl, hleft hlength⟩

theorem FollowsOk.of_follows {found found' : α × List Lexeme}
    (hfollows : Follows rest other found found') (change : α → β) :
    FollowsOk rest other (.ok (change found.1, found.2)) (.ok (change found'.1, found'.2)) := by
  rintro _ _ ⟨⟩ hlength
  obtain ⟨hvalue, hleft⟩ := hfollows hlength
  exact ⟨found'.2, by rw [hvalue], hleft⟩

theorem FollowsOk.error {read : Except Halt (α × List Lexeme)} {stop : Halt} :
    FollowsOk rest other (.error stop) read := nofun

theorem FollowsOk.bind {read read' : Except Halt (α × List Lexeme)}
    {following following' : α × List Lexeme → Except Halt (β × List Lexeme)}
    (hread : FollowsOk rest other read read')
    (hleaves : ∀ value left, Leaves left (following (value, left)))
    (hfollowing : ∀ value left left', Mirrors rest other left left' →
      FollowsOk rest other (following (value, left)) (following' (value, left'))) :
    FollowsOk rest other (read >>= following) (read' >>= following') := by
  intro result final hbind hlength
  obtain ⟨⟨value, left⟩, hok, hnext⟩ := exists_of_bind_eq_ok hbind
  have hsuffix : final <:+ left := (hleaves value left).suffix hnext
  obtain ⟨left', hok', hmirrors⟩ := hread value left hok (hlength.trans hsuffix.length_le)
  obtain ⟨final', hnext', hfinal⟩ := hfollowing value left left' hmirrors result final hnext hlength
  exact ⟨final', by rw [hok']; exact hnext', hfinal⟩

/-- A repetition of turns that are read alike is read alike. -/
theorem Mirrors.repeatedly {step step' : σ → List Lexeme → Except Halt (Turn σ × List Lexeme)}
    (hleaves : ∀ state lexemes, Leaves lexemes (step state lexemes))
    (hstep : ∀ state lexemes others, Mirrors rest other lexemes others →
      FollowsOk rest other (step state lexemes) (step' state others))
    (state : σ) (hmirrors : Mirrors rest other lexemes others) :
    FollowsOk rest other (repeatedly step state lexemes) (repeatedly step' state others) := by
  intro result final hread hlength
  fun_induction SchemaEvolution.repeatedly step state lexemes generalizing others with
  | case1 state lexemes fault hfault => cases hread
  | case2 state lexemes last after hturn =>
    cases hread
    obtain ⟨after', hturn', hafter⟩ := hstep state lexemes others hmirrors _ _ hturn hlength
    refine ⟨after', ?_, hafter⟩
    unfold SchemaEvolution.repeatedly
    rw [hturn']
  | case3 state lexemes following after hturn hshorter ih =>
    have hsuffix : final <:+ after := (leaves_repeatedly hleaves following after).suffix hread
    obtain ⟨after', hturn', hafter⟩ :=
      hstep state lexemes others hmirrors _ _ hturn (hlength.trans hsuffix.length_le)
    have hshorter' : after'.length < others.length := by
      have hbefore := hmirrors.length_add
      have hbehind := hafter.length_add
      omega
    obtain ⟨final', hread', hfinal⟩ := ih hafter hread
    refine ⟨final', ?_, hfinal⟩
    unfold SchemaEvolution.repeatedly
    simp only [hturn', if_pos hshorter', hread']
  | case4 state lexemes following after hturn hlonger =>
    cases hread
    obtain ⟨after', hturn', hafter⟩ := hstep state lexemes others hmirrors _ _ hturn hlength
    have hlonger' : ¬ after'.length < others.length := by
      have hbefore := hmirrors.length_add
      have hbehind := hafter.length_add
      omega
    refine ⟨after', ?_, hafter⟩
    unfold SchemaEvolution.repeatedly
    simp only [hturn', if_neg hlonger']

theorem eat?_eq_some_iff {token : Token} {left : List Lexeme} (heof : token ≠ .eof) :
    eat? token lexemes = some left ↔ next lexemes = token ∧ left = lexemes.tail := by
  cases lexemes with
  | nil => exact iff_of_false (by rintro ⟨⟩) fun hboth => heof hboth.1.symm
  | cons first more =>
    rw [eat?]
    split
    · next htoken => exact ⟨fun hsome => ⟨htoken, (Option.some.inj hsome).symm⟩,
        fun hboth => congrArg some hboth.2.symm⟩
    · next htoken => exact iff_of_false (by rintro ⟨⟩) fun hboth => htoken hboth.1

theorem eat?_eq_none_iff {token : Token} (heof : token ≠ .eof) :
    eat? token lexemes = none ↔ next lexemes ≠ token := by
  cases heat : eat? token lexemes with
  | none =>
    refine iff_of_true rfl fun hnext => ?_
    rw [(eat?_eq_some_iff heof).2 ⟨hnext, rfl⟩] at heat
    cases heat
  | some left => exact iff_of_false nofun fun hnext => hnext ((eat?_eq_some_iff heof).1 heat).1

theorem skip_of_next {token : Token} (hnext : next lexemes = token) (heof : token ≠ .eof) :
    skip token lexemes = lexemes.tail := by
  rw [skip, (eat?_eq_some_iff heof).2 ⟨hnext, rfl⟩]
  rfl

/-- A cut ends where it is stopped or at the end. -/
theorem stop_next_cut {stop : Nat → Token → Bool} {depth : Nat}
    (hsome : (cut stop depth lexemes).2 ≠ []) :
    ∃ last, stop last (next (cut stop depth lexemes).2) = true := by
  induction lexemes generalizing depth with
  | nil => exact absurd rfl hsome
  | cons first more ih =>
    rw [cut] at hsome ⊢
    split
    · next hstop => exact ⟨depth, hstop⟩
    · next hpass =>
      rw [if_neg hpass] at hsome
      exact ih hsome

/-- A token that tells neither an end from another one nor the end of the script. -/
def isInner : Token → Bool
  | .comma | .rightParen | .eof => false
  | _ => true

theorem ne_of_isInner {token : Token} (hinner : isInner token = true) :
    token ≠ .eof ∧ token ≠ .comma ∧ token ≠ .rightParen := by
  refine ⟨?_, ?_, ?_⟩
  all_goals
    rintro rfl
    cases hinner

section Skipping

variable (hmirrors : Mirrors rest other lexemes others)

include hmirrors

theorem Mirrors.eat?_some {token : Token} (hinner : isInner token = true) {left : List Lexeme}
    (heat : eat? token lexemes = some left) (hlength : rest.length ≤ left.length) :
    eat? token others = some others.tail ∧ Mirrors rest other left others.tail := by
  have heof := (ne_of_isInner hinner).1
  obtain ⟨hnext, rfl⟩ := (eat?_eq_some_iff heof).1 heat
  obtain ⟨hsame, htail⟩ := hmirrors.step hlength
  exact ⟨(eat?_eq_some_iff heof).2 ⟨hsame.trans hnext, rfl⟩, htail⟩

theorem Mirrors.eat?_none {token : Token} (hinner : isInner token = true)
    (heat : eat? token lexemes = none) : eat? token others = none := by
  obtain ⟨heof, hcomma, hparen⟩ := ne_of_isInner hinner
  exact (eat?_eq_none_iff heof).2 fun hnext =>
    (eat?_eq_none_iff heof).1 heat ((hmirrors.next_iff hcomma hparen).1 hnext)

/-- Skipping a token in front of the cut keeps the lexemes alike up to it. -/
theorem Mirrors.skip {token : Token} (hinner : isInner token = true)
    (hlength : rest.length ≤ (skip token lexemes).length) :
    Mirrors rest other (skip token lexemes) (skip token others) := by
  rw [Sql.skip] at hlength ⊢
  rw [Sql.skip]
  cases heat : eat? token lexemes with
  | none =>
    rw [hmirrors.eat?_none hinner heat]
    exact hmirrors
  | some left =>
    rw [heat] at hlength
    obtain ⟨heat', hleft⟩ := hmirrors.eat?_some hinner heat hlength
    rw [heat']
    exact hleft

theorem Mirrors.skipWord {word : String} (hlength : rest.length ≤ (skipWord word lexemes).length) :
    Mirrors rest other (skipWord word lexemes) (skipWord word others) := by
  rw [Sql.skipWord] at hlength ⊢
  rw [Sql.skipWord, hmirrors.next_eq (Token.isWord word) rfl]
  split
  · next hword =>
    rw [if_pos hword] at hlength
    exact (hmirrors.step hlength).2
  · exact hmirrors

theorem Mirrors.skipIfNotExists (hlength : rest.length ≤ (skipIfNotExists lexemes).length) :
    Mirrors rest other (skipIfNotExists lexemes) (skipIfNotExists others) := by
  rw [Sql.skipIfNotExists] at hlength ⊢
  rw [Sql.skipIfNotExists]
  cases heat : eat? (.keyword .if) lexemes with
  | none =>
    rw [hmirrors.eat?_none (by decide) heat]
    exact hmirrors
  | some left =>
    rw [heat] at hlength
    have hnot : rest.length ≤ (Sql.skip (.keyword .not) left).length :=
      hlength.trans (skip_suffix _ _).length_le
    obtain ⟨heat', hleft⟩ :=
      hmirrors.eat?_some (by decide) heat (hnot.trans (skip_suffix _ _).length_le)
    rw [heat']
    exact (hleft.skip (by decide) hnot).skip (by decide) hlength

/-- What is cut off is alike, unless the cut goes up to the end and only one end stops it. -/
theorem Mirrors.cut {stop : Nat → Token → Bool} {depth : Nat}
    (hlength : rest.length ≤ (cut stop depth lexemes).2.length)
    (hstop : rest.length < (cut stop depth lexemes).2.length ∨
      ∀ depth, stop depth (next rest) = true → stop depth (next other) = true) :
    List.Forall₂ Lexeme.Alike (Sql.cut stop depth lexemes).1 (Sql.cut stop depth others).1 ∧
      Mirrors rest other (Sql.cut stop depth lexemes).2 (Sql.cut stop depth others).2 := by
  induction hmirrors generalizing depth with
  | behind hend =>
    have hstopped : stop depth (next rest) = true := by
      cases rest with
      | nil => exact absurd rfl hend.ne_nil
      | cons first more =>
        by_contra hpass
        have hpass' : ¬stop depth first.token = true := hpass
        rw [Sql.cut, if_neg hpass'] at hlength
        exact absurd (hlength.trans (cut_suffix _ _ more).length_le) (Nat.not_succ_le_self _)
    have hstopped' := hstop.resolve_left (Nat.not_lt.2 (cut_suffix _ _ rest).length_le) _ hstopped
    have hcut {row : List Lexeme} (hrow : stop depth (next row) = true) :
        Sql.cut stop depth row = ([], row) := by
      cases row with
      | nil => rfl
      | cons first more => exact if_pos hrow
    rw [hcut hstopped, hcut hstopped']
    exact ⟨.nil, .behind hend⟩
  | cons halike hmore ih =>
    rw [Sql.cut] at hlength hstop ⊢
    rw [Sql.cut, ← halike.2.2]
    split
    · exact ⟨.nil, .cons halike hmore⟩
    · next hpass =>
      rw [if_neg hpass] at hlength hstop
      obtain ⟨htaken, hleft⟩ := ih hlength hstop
      exact ⟨.cons halike htaken, hleft⟩

/-- As `Mirrors.cut`, where the cut does not tell the ends from each other. -/
theorem Mirrors.cut_of_same {stop : Nat → Token → Bool} {depth : Nat}
    (hsame : ∀ depth, stop depth .comma = stop depth .rightParen)
    (hlength : rest.length ≤ (Sql.cut stop depth lexemes).2.length) :
    List.Forall₂ Lexeme.Alike (Sql.cut stop depth lexemes).1 (Sql.cut stop depth others).1 ∧
      Mirrors rest other (Sql.cut stop depth lexemes).2 (Sql.cut stop depth others).2 := by
  refine hmirrors.cut hlength (.inr fun depth hrest => ?_)
  rw [hmirrors.sameEnd.test_eq (stop depth) (hsame depth)]
  exact hrest

theorem Mirrors.skipGroup (hlength : rest.length ≤ (skipGroup lexemes).length) :
    Mirrors rest other (skipGroup lexemes) (skipGroup others) := by
  cases hmirrors with
  | behind hend =>
    cases rest with
    | nil => exact absurd rfl hend.ne_nil
    | cons first more =>
      have hleft : (Sql.skipGroup (first :: more)).length ≤ more.length := by
        rw [Sql.skipGroup]
        split
        · exact (cut_suffix _ _ _).length_le
        · exact Nat.le_refl _
      exact absurd (hlength.trans hleft) (Nat.not_succ_le_self _)
  | cons halike hmore =>
    rw [Sql.skipGroup] at hlength ⊢
    rw [Sql.skipGroup, ← halike.2.2]
    split
    · next hopening =>
      rw [if_pos hopening] at hlength
      exact (hmore.cut_of_same (fun depth => by cases depth <;> rfl) hlength).2
    · exact hmore

theorem Mirrors.skipDefinition (hlength : rest.length ≤ (skipDefinition lexemes).length) :
    Mirrors rest other (skipDefinition lexemes) (skipDefinition others) :=
  (hmirrors.cut_of_same (fun depth => by cases depth <;> rfl) hlength).2

theorem Mirrors.optionalName :
    Follows rest other (optionalName lexemes) (optionalName others) := by
  intro hlength
  rw [Sql.optionalName] at hlength ⊢
  rw [Sql.optionalName, hmirrors.next_eq Token.name? rfl]
  cases hname : (next lexemes).name? with
  | none => exact ⟨rfl, hmirrors⟩
  | some name =>
    rw [hname] at hlength
    exact ⟨rfl, (hmirrors.step hlength).2⟩

end Skipping

/-- The name after a name and a dot is the next one, and nothing else is looked at. -/
theorem lastName_cons (name : String) (first : Lexeme) (more : List Lexeme) :
    lastName name (first :: more) =
      if first.token = .dot then
        match (next more).name? with
        | some inner => lastName inner more.tail
        | none => (name, more)
      else (name, first :: more) := by
  cases more with
  | nil =>
    rw [lastName]
    split <;> rfl
  | cons part behind =>
    rw [lastName]
    rfl

/-- A name that ends before the cut is read the same on both sides. -/
theorem Mirrors.lastName (name : String) (hmirrors : Mirrors rest other lexemes others) :
    Follows rest other (lastName name lexemes) (lastName name others) := by
  intro hlength
  induction hsize : lexemes.length using Nat.strong_induction_on
    generalizing name lexemes others with
  | _ size ih =>
    cases hmirrors with
    | behind hend =>
      have hdot := hend.test_eq (fun token => decide (token = .dot)) rfl
      have hrest : next rest ≠ .dot := by
        rcases hend with ⟨hnext, -⟩ | ⟨hnext | hnext, -⟩
        all_goals
          rw [hnext]
          exact nofun
      rw [lastName_of_next name hrest,
        lastName_of_next name (of_decide_eq_false (hdot.trans (decide_eq_false hrest)))]
      exact ⟨rfl, .behind hend⟩
    | cons halike hmore =>
      rw [lastName_cons] at hlength ⊢
      rw [lastName_cons, ← halike.2.2, hmore.next_eq Token.name? rfl]
      split
      · next hdot =>
        rw [if_pos hdot] at hlength
        cases hname : (next _).name? with
        | none => exact ⟨rfl, hmore⟩
        | some inner =>
          rw [hname] at hlength
          have htail := (hmore.step (hlength.trans (lastName_suffix _ _).length_le)).2
          refine ih _ ?_ inner htail hlength rfl
          rw [← hsize, List.length_tail, List.length_cons]
          omega
      · exact ⟨rfl, .cons halike hmore⟩

section Names

variable (hmirrors : Mirrors rest other lexemes others)

include hmirrors

theorem Mirrors.qualifiedName?_none (hnone : qualifiedName? lexemes = none) :
    qualifiedName? others = none := by
  rw [Sql.qualifiedName?, Option.map_eq_none_iff] at hnone ⊢
  rw [hmirrors.next_eq Token.name? rfl, hnone]

/-- A qualified name that ends before the cut is read the same on both sides. -/
theorem Mirrors.qualifiedName?_some {name : String} {left : List Lexeme}
    (hsome : qualifiedName? lexemes = some (name, left)) (hlength : rest.length ≤ left.length) :
    ∃ left', qualifiedName? others = some (name, left') ∧ Mirrors rest other left left' := by
  rw [Sql.qualifiedName?] at hsome ⊢
  rw [hmirrors.next_eq Token.name? rfl]
  obtain ⟨first, hfirst, hlast⟩ := Option.map_eq_some_iff.1 hsome
  have hsuffix : left <:+ lexemes.tail := by
    have hleaves := lastName_suffix first lexemes.tail
    rwa [hlast] at hleaves
  have htail := (hmirrors.step (hlength.trans hsuffix.length_le)).2
  obtain ⟨hvalue, hleft⟩ := htail.lastName first (by rw [hlast]; exact hlength)
  rw [hlast] at hvalue hleft
  exact ⟨_, by rw [hfirst, Option.map_some]; exact congrArg some (Prod.ext hvalue rfl), hleft⟩

theorem Mirrors.optionalQualifiedName :
    Follows rest other (optionalQualifiedName lexemes) (optionalQualifiedName others) := by
  intro hlength
  rw [Sql.optionalQualifiedName] at hlength ⊢
  rw [Sql.optionalQualifiedName]
  cases hname : Sql.qualifiedName? lexemes with
  | none =>
    rw [hmirrors.qualifiedName?_none hname]
    exact ⟨rfl, hmirrors⟩
  | some found =>
    rw [hname] at hlength
    obtain ⟨left', hname', hleft⟩ := hmirrors.qualifiedName?_some hname hlength
    rw [hname']
    exact ⟨rfl, hleft⟩

theorem Mirrors.namesInside :
    Follows rest other (namesInside lexemes) (namesInside others) := by
  intro hlength
  induction hmirrors with
  | behind hend =>
    have hshort : next rest = .comma ∨ next rest = .rightParen →
        (Sql.namesInside rest).2.length < rest.length := by
      intro hnext
      cases rest with
      | nil => exact absurd rfl hend.ne_nil
      | cons first more =>
        have htoken : first.token = .comma ∨ first.token = .rightParen := hnext
        rw [List.length_cons, Nat.lt_succ_iff]
        rcases htoken with htoken | htoken
        · simp only [Sql.namesInside, htoken]
          exact (namesInside_suffix more).length_le
        · simp only [Sql.namesInside, htoken]
          exact Nat.le_refl _
    have hstopped {row : List Lexeme} (hrow : next row = .semicolon) :
        Sql.namesInside row = ([], row) := by
      cases row with
      | nil => cases hrow
      | cons first more =>
        have htoken : first.token = .semicolon := hrow
        simp only [Sql.namesInside, htoken]
    obtain ⟨hrest, hother⟩ := hend.resolve_right fun hparts =>
      absurd hlength (Nat.not_le.2 (hshort hparts.1))
    rw [hstopped hrest, hstopped hother]
    exact ⟨rfl, .behind hend⟩
  | @cons first second more behind halike hmore ih =>
    unfold Sql.namesInside at hlength ⊢
    rw [← halike.2.2]
    generalize first.token = token at hlength
    cases token with
    | comma => exact ih hlength
    | rightParen => exact ⟨rfl, hmore⟩
    | semicolon | eof => exact ⟨rfl, .cons halike hmore⟩
    | _ =>
      obtain ⟨hvalue, hleft⟩ := ih hlength
      refine ⟨?_, hleft⟩
      dsimp only
      rw [hvalue]

theorem Mirrors.nameList : Follows rest other (nameList lexemes) (nameList others) := by
  intro hlength
  rw [Sql.nameList] at hlength ⊢
  rw [Sql.nameList]
  cases heat : eat? .leftParen lexemes with
  | none =>
    rw [hmirrors.eat?_none (by decide) heat]
    exact ⟨rfl, hmirrors⟩
  | some inside =>
    rw [heat] at hlength
    obtain ⟨heat', hinside⟩ := hmirrors.eat?_some (by decide) heat
      (hlength.trans (namesInside_suffix inside).length_le)
    rw [heat']
    exact hinside.namesInside hlength

/-! ## Texts -/

/-- A group in parentheses that ends before the cut is read the same on both sides. -/
theorem Mirrors.parenthesized :
    Follows rest other (parenthesized lexemes) (parenthesized others) := by
  intro hlength
  cases heat : eat? .leftParen lexemes with
  | none =>
    have hnone {row : List Lexeme} (hrow : eat? .leftParen row = none) :
        Sql.parenthesized row = ("", row) := by rw [Sql.parenthesized, hrow]
    rw [hnone heat, hnone (hmirrors.eat?_none (by decide) heat)]
    exact ⟨rfl, hmirrors⟩
  | some inside =>
    rw [parenthesized_eq heat] at hlength ⊢
    dsimp only at hlength ⊢
    have hcut : rest.length ≤ (Sql.cut Syntax.stopsCondition 0 inside).2.length :=
      hlength.trans (skip_suffix _ _).length_le
    obtain ⟨heat', hinside⟩ := hmirrors.eat?_some (by decide) heat
      (hcut.trans (cut_suffix _ _ _).length_le)
    rw [parenthesized_eq heat']
    dsimp only
    rcases hcut.lt_or_eq with hlong | hend
    · obtain ⟨htaken, hafter⟩ := hinside.cut hcut (.inl hlong)
      have hnext := hafter.next_of_lt hlong
      refine ⟨(textOf_of_alike htaken).symm, ?_⟩
      by_cases hclosing : next (Sql.cut Syntax.stopsCondition 0 inside).2 = .rightParen
      · rw [skip_of_next hclosing (by decide)] at hlength ⊢
        rw [skip_of_next (hnext.trans hclosing) (by decide)]
        exact (hafter.step hlength).2
      · rw [skip_of_next_ne hclosing, skip_of_next_ne (by rw [hnext]; exact hclosing)]
        exact hafter
    · -- The text goes up to the end, which then is a semicolon.
      have hrest : rest = (Sql.cut Syntax.stopsCondition 0 inside).2 :=
        (List.suffix_of_suffix_length_le hinside.suffix (cut_suffix _ _ _) hcut).eq_of_length hend
      have hopen : next rest ≠ .rightParen := by
        intro hnext
        have hskip : Sql.skip .rightParen rest = rest.tail :=
          skip_of_next hnext (by decide)
        rw [← hrest, hskip, List.length_tail] at hlength
        have hpositive := List.length_pos_iff.2 hmirrors.sameEnd.ne_nil
        omega
      have hsome : (Sql.cut Syntax.stopsCondition 0 inside).2 ≠ [] :=
        hrest ▸ hmirrors.sameEnd.ne_nil
      obtain ⟨depth, hstopped⟩ := stop_next_cut hsome
      rw [← hrest] at hstopped
      obtain ⟨hsemicolon, hsemicolon'⟩ : next rest = .semicolon ∧ next other = .semicolon := by
        refine hmirrors.sameEnd.resolve_right fun hparts => ?_
        rw [hparts.1.resolve_right hopen] at hstopped
        simp [Syntax.stopsCondition] at hstopped
      obtain ⟨htaken, hafter⟩ := hinside.cut hcut (.inr fun depth _ => by
        rw [hsemicolon']
        rfl)
      have hnext := (hafter.next_iff (by decide : Token.semicolon ≠ .comma) (by decide)).2
        (hrest ▸ hsemicolon)
      refine ⟨(textOf_of_alike htaken).symm, ?_⟩
      rw [skip_of_next_ne (hrest ▸ hopen), skip_of_next_ne (by rw [hnext]; decide)]
      exact hafter

/-- A default that ends before the cut is read the same on both sides. -/
theorem Mirrors.readDefault : Follows rest other (readDefault lexemes) (readDefault others) := by
  intro hlength
  cases hmirrors with
  | behind hend =>
    have hstopped {row : List Lexeme} (hrow : endsDefault 0 (next row) = true) :
        Sql.readDefault row = (none, row) := by
      cases row with
      | nil => rfl
      | cons first more =>
        have htoken : endsDefault 0 first.token = true := hrow
        rw [Sql.readDefault, cutDefault_cons, if_pos htoken]
        rfl
    have hrest : endsDefault 0 (next rest) = true := by
      rcases hend with ⟨hnext, -⟩ | ⟨hnext | hnext, -⟩
      all_goals
        rw [hnext]
        rfl
    rw [hstopped hrest, hstopped ((hend.test_eq (endsDefault 0) rfl).trans hrest)]
    exact ⟨rfl, .behind hend⟩
  | @cons first second more behind halike hmore =>
    rw [Sql.readDefault, cutDefault_cons] at hlength ⊢
    rw [Sql.readDefault, cutDefault_cons, ← halike.2.2]
    by_cases hends : endsDefault 0 first.token = true
    · rw [if_pos hends, if_pos hends]
      exact ⟨rfl, .cons halike hmore⟩
    · rw [if_neg hends] at hlength ⊢
      rw [if_neg hends]
      obtain ⟨htaken, hleft⟩ := hmore.cut_of_same (fun depth => by cases depth <;> rfl) hlength
      exact ⟨(defaultOf_of_alike (.cons halike htaken)).symm, hleft⟩

/-! ## References -/

omit hmirrors in
/-- What stands behind an end opens nothing. -/
theorem SameEnd.cases_next (hend : SameEnd rest other) :
    (next rest = .semicolon ∨ next rest = .comma ∨ next rest = .rightParen) ∧
      (next other = .semicolon ∨ next other = .comma ∨ next other = .rightParen) := by
  rcases hend with ⟨hrest, hother⟩ | ⟨hrest, hother⟩
  · exact ⟨.inl hrest, .inl hother⟩
  · exact ⟨.inr hrest, .inr hother⟩

theorem Mirrors.behindSet {value : α} :
    Follows rest other
      (value, if next lexemes = .leftParen then Sql.skipGroup lexemes else lexemes)
      (value, if next others = .leftParen then Sql.skipGroup others else others) := by
  intro hlength
  have hsame := hmirrors.next_iff (by decide : Token.leftParen ≠ .comma) (by decide)
  by_cases hopening : next lexemes = .leftParen
  · simp only [if_pos hopening] at hlength ⊢
    simp only [if_pos (hsame.2 hopening)]
    exact ⟨trivial, hmirrors.skipGroup hlength⟩
  · simp only [if_neg hopening, if_neg (mt hsame.1 hopening)]
    exact ⟨trivial, hmirrors⟩

/-- What `SET` sets, and where the action ends. -/
theorem Mirrors.readSet :
    let read (lexemes : List Lexeme) : ForeignKeyAction × List Lexeme :=
      let afterGroup := if next lexemes.tail = .leftParen then Sql.skipGroup lexemes.tail
        else lexemes.tail
      match next lexemes with
      | .keyword .null => (.setNull, afterGroup)
      | .keyword .default => (.setDefault, afterGroup)
      | _ => (.noAction, lexemes)
    Follows rest other (read lexemes) (read others) := by
  intro read hlength
  cases hmirrors with
  | behind hend =>
    have hnone {row : List Lexeme}
        (hrow : next row = .semicolon ∨ next row = .comma ∨ next row = .rightParen) :
        read row = (.noAction, row) := by
      rcases hrow with hrow | hrow | hrow
      all_goals simp only [read, hrow]
    rw [hnone hend.cases_next.1, hnone hend.cases_next.2]
    exact ⟨rfl, .behind hend⟩
  | @cons first second more behind halike hmore =>
    have hmirrors : Mirrors rest other (first :: more) (second :: behind) := .cons halike hmore
    simp only [read, next, List.tail_cons, ← halike.2.2] at hlength ⊢
    generalize first.token = token at hlength ⊢
    cases token with
    | keyword known =>
      cases known with
      | null | default => exact hmore.behindSet hlength
      | _ => exact ⟨rfl, hmirrors⟩
    | _ => exact ⟨rfl, hmirrors⟩

theorem Mirrors.readAction : Follows rest other (readAction lexemes) (readAction others) := by
  intro hlength
  cases hmirrors with
  | behind hend =>
    have hnone {row : List Lexeme}
        (hrow : next row = .semicolon ∨ next row = .comma ∨ next row = .rightParen) :
        Sql.readAction row = (.noAction, row) := by
      rcases hrow with hrow | hrow | hrow
      all_goals
        simp only [Sql.readAction, hrow]
        rfl
    rw [hnone hend.cases_next.1, hnone hend.cases_next.2]
    exact ⟨rfl, .behind hend⟩
  | @cons first second more behind halike hmore =>
    simp only [Sql.readAction, next, List.tail_cons, ← halike.2.2] at hlength ⊢
    have hmirrors : Mirrors rest other (first :: more) (second :: behind) := .cons halike hmore
    generalize first.token = token at hlength ⊢
    cases token with
    | keyword known =>
      cases known with
      | cascade | restrict => exact ⟨rfl, hmore⟩
      | _ => exact ⟨rfl, hmirrors⟩
    | word spelling =>
      dsimp only at hlength ⊢
      by_cases hset : (Token.word spelling).isWord "set" = true
      · rw [if_pos hset] at hlength ⊢
        rw [if_pos hset]
        exact hmore.readSet hlength
      · rw [if_neg hset] at hlength ⊢
        rw [if_neg hset]
        by_cases hno : (Token.word spelling).isWord "no" = true
        · rw [if_pos hno] at hlength ⊢
          rw [if_pos hno]
          exact ⟨rfl, hmore.skipWord hlength⟩
        · rw [if_neg hno, if_neg hno]
          exact ⟨rfl, hmirrors⟩
    | _ => exact ⟨rfl, hmirrors⟩

end Names

end SchemaEvolution.Sql
