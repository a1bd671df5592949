import SchemaEvolution.Proofs.Drizzle.Lookahead
import SchemaEvolution.Proofs.Drizzle.References

/-!
# Declarations that are cut off

A declaration of a table that is cut off gives a warning, and reading goes on where the value could
not be read any further.  This is mostly the equals sign of the next declaration, which is lost
then.  The next declaration is read where reading comes to its first word, and whether it does
depends on what has been left of the declaration that is cut off.
-/

namespace SchemaEvolution.Drizzle

/-- What is left after one step, whatever has been declared. -/
def advance (row : List Lexeme) : List Lexeme :=
  match row with
  | [] => []
  | lexeme :: rest =>
    if !declares lexeme then rest
    else
      match next rest with
      | .word _ =>
        match initializer rest.tail with
        | .error after => after
        | .ok value => (readExpression value).2
      | _ => rest

/-- In front of a declaration a step of the walk passes one lexeme. -/
theorem sourceStep_eq (state : Extract) (lexeme : Lexeme) (rest : List Lexeme) :
    ∃ after, sourceStep state (lexeme :: rest) =
      .ok (.again after, advance (lexeme :: rest)) := by
  obtain ⟨d, diagnostics⟩ := state
  rw [sourceStep, advance]
  cases declares lexeme with
  | false => exact ⟨_, rfl⟩
  | true =>
    cases next rest with
    | word variableName =>
      cases initializer rest.tail with
      | error after => exact ⟨_, rfl⟩
      | ok value =>
        dsimp only
        rcases readExpression value with ⟨_ | expression, after⟩
        · exact ⟨_, rfl⟩
        · dsimp only
          cases addValue d variableName lexeme.line expression with
          | ok d => exact ⟨_, rfl⟩
          | error warning => exact ⟨_, rfl⟩
    | _ => exact ⟨_, rfl⟩

/-- By steps that leave less, reading comes from one place of a source to another. -/
inductive Comes (place : List Lexeme) : List Lexeme → Prop
  | here : Comes place place
  | step {row : List Lexeme} (hshorter : (advance row).length < row.length)
      (hmore : Comes place (advance row)) : Comes place row

theorem Comes.length_le {row place : List Lexeme} (hcomes : Comes place row) :
    place.length ≤ row.length := by
  induction hcomes with
  | here => exact Nat.le_refl _
  | step hshorter _ ih => exact Nat.le_trans ih (Nat.le_of_lt hshorter)

/-- A row leads to a place exactly if the walk gets there by its steps, whatever it has found
before. -/
theorem comes_iff {row place : List Lexeme} (first : Extract) :
    Comes place row ↔ ∃ last, Turns sourceStep first row last place := by
  constructor
  · intro hcomes
    induction hcomes generalizing first with
    | here => exact ⟨first, .none _ _⟩
    | @step row hshorter hmore ih =>
      cases row with
      | nil => cases hshorter
      | cons lexeme rest =>
        obtain ⟨after, hstep⟩ := sourceStep_eq first lexeme rest
        obtain ⟨last, hturns⟩ := ih after
        exact ⟨last, .more hstep hshorter hturns⟩
  · rintro ⟨last, hturns⟩
    induction hturns with
    | none => exact .here
    | @more state next last rest after left hturn hshorter hmore ih =>
      cases rest with
      | nil => cases hshorter
      | cons lexeme more =>
        obtain ⟨other, hstep⟩ := sourceStep_eq state lexeme more
        rw [hstep] at hturn
        cases hturn
        exact .step hshorter ih

/-! ## Steps before an equals sign -/

section Steps

variable {sequel : Sequel} {row place : List Lexeme}

theorem initializer_cons (lexeme : Lexeme) (rest : List Lexeme) :
    initializer (lexeme :: rest) =
      if lexeme.token = .equals then .ok rest
      else if lexeme.token = .semicolon ∨ lexeme.token = .eof then .error (lexeme :: rest)
      else initializer rest := by
  by_cases hequals : lexeme.token = .equals
  · simp [initializer, hequals]
  · by_cases hends : lexeme.token = .semicolon ∨ lexeme.token = .eof
    · rcases hends with hends | hends <;> simp [initializer, hends]
    · obtain ⟨hsemicolon, heof⟩ := not_or.1 hends
      simp [initializer, hequals, hsemicolon, heof]

/-- The value of a variable starts behind the same equals sign, or the variable has none. -/
theorem initializer_join (hwithin : sequel.Within row) (hrow : row ≠ []) :
    (∃ after, initializer row = .error after ∧
        initializer (sequel.join row) = .error (sequel.join after) ∧ after <:+ row) ∨
      (∃ value, initializer row = .ok value ∧
        initializer (sequel.join row) = .ok (sequel.join value) ∧ value <:+ row) ∨
      initializer row = .ok [] ∧ initializer (sequel.join row) = .ok sequel.lexemes := by
  induction row with
  | nil => exact absurd rfl hrow
  | cons lexeme rest ih =>
    rw [initializer_cons, Sequel.join, initializer_cons]
    by_cases hequals : lexeme.token = .equals
    · rw [if_pos hequals, if_pos hequals]
      cases rest with
      | nil => exact .inr (.inr ⟨rfl, rfl⟩)
      | cons other more => exact .inr (.inl ⟨_, rfl, rfl, List.suffix_cons _ _⟩)
    · have hrest : rest ≠ [] := fun hnil => hequals (hnil ▸ hwithin).last
      rw [if_neg hequals, if_neg hequals]
      by_cases hends : lexeme.token = .semicolon ∨ lexeme.token = .eof
      · rw [if_pos hends, if_pos hends]
        exact .inl ⟨_, rfl, rfl, List.suffix_refl _⟩
      · rw [if_neg hends, if_neg hends, ← Sequel.join_eq_append hrest]
        rcases ih hwithin.tail hrest with ⟨after, herror, hjoined, hsuffix⟩ |
          ⟨value, hok, hjoined, hsuffix⟩ | hlast
        · exact .inl ⟨after, herror, hjoined, hsuffix.trans (List.suffix_cons _ _)⟩
        · exact .inr (.inl ⟨value, hok, hjoined, hsuffix.trans (List.suffix_cons _ _)⟩)
        · exact .inr (.inr hlast)

/-- Before the equals sign, steps do not depend on what stands behind it. -/
theorem advance_join (hvalue : (readExpression sequel.lexemes).2 = sequel.rest)
    (hwithin : sequel.Within row) (hlong : 2 ≤ row.length) :
    advance (sequel.join row) = sequel.join (advance row) ∧ sequel.Within (advance row) := by
  obtain ⟨lexeme, first, more, rfl⟩ : ∃ lexeme first more, row = lexeme :: first :: more := by
    match row, hlong with
    | lexeme :: first :: more, _ => exact ⟨lexeme, first, more, rfl⟩
  change advance (lexeme :: sequel.join (first :: more)) = _ ∧ _
  rw [advance, advance]
  cases declares lexeme with
  | false => exact ⟨rfl, hwithin.tail⟩
  | true =>
    have hnext : next (sequel.join (first :: more)) = first.token := rfl
    rw [hnext, next]
    cases hfirst : first.token with
    | word name =>
      have hother : first.token ≠ .equals := by rw [hfirst]; rintro ⟨⟩
      have hmore : more ≠ [] := fun hnil => hother (hnil ▸ hwithin.tail).last
      have hinner := hwithin.tail.tail
      rw [Sequel.join_cons hwithin.tail hother]
      dsimp only [Bool.not_true, List.tail_cons]
      rcases initializer_join hinner hmore with ⟨after, herror, hjoined, hsuffix⟩ |
        ⟨value, hok, hjoined, hsuffix⟩ | ⟨hok, hjoined⟩
      · rw [herror, hjoined]
        exact ⟨rfl, hinner.of_suffix hsuffix⟩
      · obtain ⟨hread, hleft⟩ := (Sequel.readsOn (hinner.of_suffix hsuffix)).expression
        rw [hok, hjoined]
        dsimp only
        rw [hread]
        exact ⟨rfl, hleft⟩
      · rw [hok, hjoined]
        dsimp only
        rw [hvalue, readExpression_nil]
        exact ⟨rfl, .nil⟩
    | _ => exact ⟨rfl, hwithin.tail⟩

/-- Behind a place in the row, the continued row tells which place it is. -/
theorem join_inj (hplace : place ≠ []) (hlength : sequel.rest.length ≤ sequel.lexemes.length)
    (hjoin : sequel.join row = sequel.join place) : row = place := by
  rw [Sequel.join_eq_append hplace] at hjoin
  cases row with
  | nil =>
    have hlengths := congrArg List.length hjoin
    rw [List.length_append, Sequel.join] at hlengths
    have := List.length_pos_iff.2 hplace
    omega
  | cons lexeme rest => exact List.append_cancel_right hjoin

/-- Whether reading comes to a place before the equals sign does not depend on what stands behind
it. -/
theorem comes_join (hvalue : (readExpression sequel.lexemes).2 = sequel.rest)
    (hwithin : sequel.Within row) (hlong : 2 ≤ place.length) :
    Comes (sequel.join place) (sequel.join row) ↔ Comes place row := by
  have hplace : place ≠ [] := List.ne_nil_of_length_pos (by omega)
  constructor
  · intro hcomes
    generalize hfull : sequel.join row = full at hcomes
    induction hcomes generalizing row with
    | here => exact join_inj hplace sequel.length_rest_le hfull ▸ .here
    | @step full hshorter hmore ih =>
      subst hfull
      have hrow : place.length < row.length := by
        have hle := hmore.length_le
        exact sequel.length_join_lt_iff.1 (Nat.lt_of_le_of_lt hle hshorter)
      obtain ⟨hadvance, hafter⟩ := advance_join hvalue hwithin (by omega)
      rw [hadvance] at hshorter
      exact .step (sequel.length_join_lt_iff.1 hshorter) (ih hafter hadvance.symm)
  · intro hcomes
    induction hcomes with
    | here => exact .here
    | @step row hshorter hmore ih =>
      have hle := hmore.length_le
      obtain ⟨hadvance, hafter⟩ := advance_join hvalue hwithin (by omega)
      refine .step ?_ ?_
      · rw [hadvance]
        exact sequel.length_join_lt_iff.2 hshorter
      · rw [hadvance]
        exact ih hafter

end Steps

/-! ## What is declared -/

/-- What is declared and reported from a place on, with what has been before. -/
def readFrom (state : Extract) (row : List Lexeme) : Extract :=
  match repeatedly sourceStep state row with
  | .ok (state, _) => state

theorem readFrom_of_turns {first last : Extract} {row place : List Lexeme}
    (hturns : Turns sourceStep first row last place) : readFrom first row = readFrom last place := by
  rw [readFrom, readFrom, hturns.repeatedly_eq]

/-- Declarations and reports, with others behind them. -/
def withFound (state found : Extract) : Extract :=
  (⟨state.1.tables ++ found.1.tables, state.1.enums ++ found.1.enums⟩, state.2 ++ found.2)

/-- What a step finds does not depend on what has been found before it. -/
theorem sourceStep_withFound (start state : Extract) (row : List Lexeme) :
    sourceStep (withFound start state) row =
      (sourceStep state row).map (Prod.map (Turn.map (withFound start)) id) := by
  obtain ⟨d, diagnostics⟩ := state
  obtain ⟨before, reported⟩ := start
  cases row with
  | nil => rfl
  | cons lexeme rest =>
    rw [withFound, sourceStep, sourceStep]
    cases declares lexeme with
    | false => rfl
    | true =>
      cases next rest with
      | word variableName =>
        cases initializer rest.tail with
        | error after => rfl
        | ok value =>
          dsimp only
          rcases readExpression value with ⟨_ | expression, after⟩
          · cases namesTable value with
            | true =>
              simp only [Bool.not_true, Bool.false_eq_true, if_false, if_true, List.append_assoc]
              rfl
            | false => rfl
          · dsimp only
            rw [addValue_eq, addValue_eq d]
            cases addValue .empty variableName lexeme.line expression with
            | ok new =>
              simp only [Except.map, List.append_assoc]
              rfl
            | error warning =>
              simp only [Except.map, List.append_assoc]
              rfl
      | _ => rfl

/-- What has been declared before does not change what is declared from a place on. -/
theorem readFrom_eq (state : Extract) (row : List Lexeme) :
    readFrom state row = withFound state (readFrom (.empty, []) row) := by
  have hstart : withFound state (.empty, []) = state := by
    obtain ⟨d, diagnostics⟩ := state
    simp only [withFound, Declarations.empty, List.append_nil]
  have hrun := repeatedly_map (withFound state) (sourceStep_withFound state) (.empty, []) row
  rw [hstart] at hrun
  rw [readFrom, hrun, readFrom]
  cases repeatedly sourceStep (.empty, []) row with
  | error fault => exact fault.elim
  | ok outcome => rfl

/-- Tokens that start no declaration are passed over. -/
theorem turns_plain (state : Extract) {skipped : List Lexeme} (place : List Lexeme)
    (hplain : ∀ lexeme ∈ skipped, declares lexeme = false) :
    Turns sourceStep state (skipped ++ place) state place := by
  induction skipped with
  | nil => exact .none _ _
  | cons lexeme more ih =>
    obtain ⟨hlexeme, hmore⟩ := List.forall_mem_cons.1 hplain
    refine .more ?_ (Nat.lt_succ_self _) (ih hmore)
    rw [List.cons_append, sourceStep, hlexeme]
    rfl

/-- The first words of a declaration, up to its equals sign. -/
structure Opening where
  sign : Lexeme
  name : Lexeme
  equals : Lexeme
  variableName : String
  hsign : declares sign = true
  hname : name.token = .word variableName
  hequals : equals.token = .equals

namespace Opening

def lexemes (o : Opening) : List Lexeme := [o.sign, o.name, o.equals]

theorem length_lexemes (o : Opening) : o.lexemes.length = 3 := rfl

/-- What is reported of a table whose declaration can not be read. -/
def warning (o : Opening) : Diagnostic :=
  .warning ("could not interpret table definition \x60" ++ o.variableName ++ "\x60")
    (some o.sign.line)

theorem initializer_eq (o : Opening) (value : List Lexeme) :
    initializer (o.equals :: value) = .ok value := by
  rw [initializer_cons, if_pos o.hequals]

theorem sourceStep_eq (o : Opening) (state : Extract) (value : List Lexeme) :
    sourceStep state (o.lexemes ++ value) =
      match readExpression value with
      | (some expression, after) =>
        match addValue state.1 o.variableName o.sign.line expression with
        | .ok d => .ok (.again (d, state.2), after)
        | .error warning => .ok (.again (state.1, state.2 ++ [warning]), after)
      | (none, after) =>
        .ok (.again (state.1, if namesTable value then state.2 ++ [o.warning] else state.2),
          after) := by
  change sourceStep state (o.sign :: o.name :: o.equals :: value) = _
  rw [sourceStep, o.hsign, next, o.hname]
  dsimp only [Bool.not_true, List.tail_cons]
  rw [o.initializer_eq]
  rfl

theorem turns_equals (o : Opening) (state : Extract) (place : List Lexeme) :
    Turns sourceStep state (o.equals :: place) state place := by
  have hplain : declares o.equals = false := by
    rw [declares, o.hequals]
    exact Bool.and_false _
  exact turns_plain state place (List.forall_mem_singleton.2 hplain)

/-- The end of an opening declares nothing. -/
theorem turns_end (o : Opening) (state : Extract) {row : List Lexeme} (place : List Lexeme)
    (hsuffix : row <:+ o.lexemes) (hshort : row.length < 3) :
    Turns sourceStep state (row ++ place) state place := by
  have hname : sourceStep state (o.name :: o.equals :: place) =
      .ok (.again state, o.equals :: place) := by
    rw [sourceStep, next, o.hequals]
    cases declares o.name <;> rfl
  rcases List.suffix_cons_iff.1 hsuffix with rfl | hsuffix
  · exact absurd hshort (Nat.lt_irrefl 3)
  · rcases List.suffix_cons_iff.1 hsuffix with rfl | hsuffix
    · exact .more hname (Nat.lt_succ_self _) (o.turns_equals state place)
    · rcases List.suffix_cons_iff.1 hsuffix with rfl | hsuffix
      · exact o.turns_equals state place
      · obtain rfl := List.suffix_nil.1 hsuffix
        exact .none _ _

end Opening

/-- A value that starts with the function of a table is a table's. -/
theorem namesTable_of_next {row : List Lexeme} {function : String}
    (hfunction : function ∈ tableFunctions) (hnext : next row = .word function) :
    namesTable row = true := by
  cases row with
  | nil => cases hnext
  | cons lexeme rest =>
    have htoken : lexeme.token = .word function := hnext
    have hany : (tableFunctions.any fun name => lexeme.token == .word name) = true :=
      List.any_eq_true.2 ⟨function, hfunction, by rw [htoken, beq_self_eq_true]⟩
    rw [namesTable, List.takeWhile_cons_of_pos (by rw [htoken]; rfl), List.any_cons, hany,
      Bool.true_or]

/-- A source in which the declaration of a table is cut off and can not be read, and the
declaration of another table follows. -/
structure CutSource where
  text : String
  /-- What has been declared and reported before. -/
  start : Extract
  broken : Opening
  /-- The value of the declaration, as far as it goes. -/
  cut : List Lexeme
  /-- What stands before the following declaration, such as `export`. -/
  lead : List Lexeme
  following : Opening
  value : List Lexeme
  expression : Expression
  table : TableDeclaration
  /-- What stands before and behind the equals sign of the following declaration. -/
  sequel : Sequel
  hfront : sequel.front = cut ++ (lead ++ following.lexemes)
  hlexemes : sequel.lexemes = value ++ sequel.rest
  hbefore : Turns sourceStep (.empty, []) (Lexeme.ofText text) start
    (broken.lexemes ++ (sequel.front ++ sequel.lexemes))
  hfunction : ∃ function ∈ tableFunctions, next cut = .word function
  hunread : (readExpression (sequel.front ++ sequel.lexemes)).1 = none
  hlead : ∀ lexeme ∈ lead, declares lexeme = false
  hvalue : readExpression sequel.lexemes = (some expression, sequel.rest)
  htable : addValue .empty following.variableName following.sign.line expression =
    .ok ⟨[table], []⟩

namespace CutSource

variable (s : CutSource)

/-- What is left, up to the equals sign of the following declaration, where the declaration that is
cut off can not be read any further. -/
def left : List Lexeme := (readExpression s.sequel.front).2

/-- What is declared and reported behind the following declaration. -/
def later : Extract := readFrom (.empty, []) s.sequel.rest

/-- What has been declared and reported when the declaration that is cut off has been left. -/
def reported : Extract := (s.start.1, s.start.2 ++ [s.broken.warning])

theorem join_front : s.sequel.join s.sequel.front = s.sequel.front ++ s.sequel.lexemes := by
  refine Sequel.join_eq_append ?_
  rw [s.hfront, Opening.lexemes]
  simp

theorem left_suffix : s.left <:+ s.sequel.front :=
  (Sequel.readsOn (List.suffix_refl s.sequel.front)).expression.2

theorem readExpression_eq :
    readExpression (s.sequel.front ++ s.sequel.lexemes) = (none, s.sequel.join s.left) := by
  have hread := (Sequel.readsOn (List.suffix_refl s.sequel.front)).expression.1
  rw [s.join_front] at hread
  refine Prod.ext s.hunread ?_
  rw [hread]
  rfl

/-- The declaration that is cut off is reported, and reading goes on with what is left of it. -/
theorem sourceStep_broken :
    sourceStep s.start (s.broken.lexemes ++ (s.sequel.front ++ s.sequel.lexemes)) =
      .ok (.again s.reported, s.sequel.join s.left) := by
  obtain ⟨function, hfunction, hnext⟩ := s.hfunction
  have hnames : namesTable (s.sequel.front ++ s.sequel.lexemes) = true := by
    refine namesTable_of_next hfunction ?_
    rw [s.hfront]
    cases hcut : s.cut with
    | nil =>
      rw [hcut] at hnext
      cases hnext
    | cons lexeme rest =>
      rw [hcut] at hnext
      exact hnext
  rw [s.broken.sourceStep_eq, s.readExpression_eq]
  simp only [hnames, if_true]
  rfl

theorem turns_broken : Turns sourceStep s.start (s.broken.lexemes ++ (s.sequel.front ++
    s.sequel.lexemes)) s.reported (s.sequel.join s.left) := by
  refine .single s.sourceStep_broken ?_
  have hle := mt s.sequel.length_join_lt_iff.1
    (Nat.not_lt.2 s.left_suffix.length_le)
  rw [s.join_front] at hle
  rw [List.length_append, s.broken.length_lexemes]
  omega

/-- The following declaration is read from its first word on. -/
theorem turns_following (state : Extract) :
    Turns sourceStep state (s.following.lexemes ++ s.sequel.lexemes)
      (⟨state.1.tables ++ [s.table], state.1.enums⟩, state.2) s.sequel.rest := by
  refine .single ?_ ?_
  · rw [s.following.sourceStep_eq, s.hvalue]
    dsimp only
    rw [addValue_eq, s.htable]
    simp only [Except.map, List.append_nil]
  · have hle := s.sequel.length_rest_le
    rw [List.length_append, s.following.length_lexemes]
    omega

/-- Whether reading comes to the following declaration depends on what is left of the one before,
and not on what stands behind its equals sign. -/
theorem comes_ofText_iff :
    Comes (s.following.lexemes ++ s.sequel.lexemes) (Lexeme.ofText s.text) ↔
      Comes s.following.lexemes s.left := by
  have hvalue : (readExpression s.sequel.lexemes).2 = s.sequel.rest := by rw [s.hvalue]
  have hlength : (s.following.lexemes ++ s.sequel.lexemes).length <
      (s.broken.lexemes ++ (s.sequel.front ++ s.sequel.lexemes)).length := by
    rw [s.hfront]
    simp only [List.length_append, Opening.length_lexemes]
    omega
  have hjoin := comes_join hvalue s.left_suffix
    (show 2 ≤ s.following.lexemes.length by rw [Opening.length_lexemes]; omega)
  rw [← hjoin]
  constructor
  · intro hcomes
    obtain ⟨state, hturns⟩ := (comes_iff (.empty, [])).1 hcomes
    have hbroken := s.hbefore.later hturns (Nat.le_of_lt hlength)
    have hstep := s.sourceStep_broken
    generalize s.broken.lexemes ++ (s.sequel.front ++ s.sequel.lexemes) = place
      at hbroken hlength hstep
    cases hbroken with
    | none => exact absurd rfl (Nat.ne_of_lt hlength)
    | more hturn _ hmore =>
      rw [hstep] at hturn
      cases hturn
      exact (comes_iff s.reported).2 ⟨state, hmore⟩
  · intro hcomes
    obtain ⟨state, hturns⟩ := (comes_iff s.reported).1 hcomes
    exact (comes_iff (.empty, [])).2 ⟨state, (s.hbefore.trans s.turns_broken).trans hturns⟩

/-- What a source declares and reports from the place on that reading comes to. -/
theorem readDeclarations_of_turns {state : Extract} {place : List Lexeme}
    (hturns : Turns sourceStep (.empty, []) (Lexeme.ofText s.text) state place) :
    readDeclarations s.text = withFound state (readFrom (.empty, []) place) :=
  (readFrom_of_turns hturns).trans (readFrom_eq state place)

/-- Where the following declaration is read, its table is declared. -/
theorem table_mem (hcomes : Comes s.following.lexemes s.left) :
    s.table ∈ (readDeclarations s.text).1.tables := by
  obtain ⟨state, hturns⟩ := (comes_iff (.empty, [])).1 (s.comes_ofText_iff.2 hcomes)
  rw [s.readDeclarations_of_turns (hturns.trans (s.turns_following state))]
  exact List.mem_append_left _ (List.mem_append_right _ (List.mem_singleton_self _))

theorem warning_mem : s.broken.warning ∈ (readDeclarations s.text).2 := by
  rw [s.readDeclarations_of_turns (s.hbefore.trans s.turns_broken)]
  exact List.mem_append_left _ (List.mem_append_right _ (List.mem_singleton_self _))

/-- Without the declaration that is cut off, the following one is read. -/
theorem readFrom_absent :
    readFrom s.start (s.lead ++ (s.following.lexemes ++ s.sequel.lexemes)) =
      withFound (⟨s.start.1.tables ++ [s.table], s.start.1.enums⟩, s.start.2) s.later := by
  have hlead := turns_plain s.start (s.following.lexemes ++ s.sequel.lexemes) s.hlead
  rw [readFrom_of_turns (hlead.trans (s.turns_following s.start)), readFrom_eq]
  rfl

/-- Where enough is left, the following declaration is read as well. -/
theorem readDeclarations_kept (hplain : ∀ lexeme ∈ s.cut, declares lexeme = false)
    (hlong : 3 ≤ s.left.length) :
    readDeclarations s.text =
      withFound (⟨s.start.1.tables ++ [s.table], s.start.1.enums⟩,
        s.start.2 ++ [s.broken.warning]) s.later := by
  have hsuffix : s.following.lexemes <:+ s.sequel.front := by
    rw [s.hfront, ← List.append_assoc]
    exact List.suffix_append _ _
  obtain ⟨skipped, hskipped⟩ := List.suffix_of_suffix_length_le hsuffix s.left_suffix hlong
  obtain ⟨taken, htaken⟩ := s.left_suffix
  rw [← hskipped, s.hfront, ← List.append_assoc, ← List.append_assoc] at htaken
  have hrow := List.append_cancel_right htaken
  have hdeclares : ∀ lexeme ∈ skipped, declares lexeme = false := fun lexeme hmem =>
    List.forall_mem_append.2 ⟨hplain, s.hlead⟩ lexeme (hrow ▸ List.mem_append_right _ hmem)
  have hjoin : s.sequel.join s.left = skipped ++ (s.following.lexemes ++ s.sequel.lexemes) := by
    rw [Sequel.join_eq_append (List.ne_nil_of_length_pos (by omega)), ← hskipped,
      List.append_assoc]
  have hturns := turns_plain s.reported (s.following.lexemes ++ s.sequel.lexemes) hdeclares
  rw [← hjoin] at hturns
  exact s.readDeclarations_of_turns
    (((s.hbefore.trans s.turns_broken).trans hturns).trans (s.turns_following s.reported))

/-- Where less is left, the following declaration is lost. -/
theorem readDeclarations_lost (hplain : ∀ lexeme ∈ s.value, declares lexeme = false)
    (hshort : s.left.length < 3) : readDeclarations s.text = withFound s.reported s.later := by
  have hturns : Turns sourceStep s.reported (s.sequel.join s.left) s.reported s.sequel.rest := by
    by_cases hnil : s.left = []
    · rw [hnil]
      exact .none _ _
    · have hsuffix : s.following.lexemes <:+ s.sequel.front := by
        rw [s.hfront, ← List.append_assoc]
        exact List.suffix_append _ _
      have hleft : s.left <:+ s.following.lexemes :=
        List.suffix_of_suffix_length_le s.left_suffix hsuffix (Nat.le_of_lt hshort)
      rw [Sequel.join_eq_append hnil, s.hlexemes]
      exact (s.following.turns_end s.reported _ hleft hshort).trans
        (turns_plain s.reported s.sequel.rest hplain)
  exact s.readDeclarations_of_turns ((s.hbefore.trans s.turns_broken).trans hturns)

end CutSource

/-- A table whose declaration is cut off is reported.  What follows is read as it is without that
declaration where reading comes to the first word of the following one, and this depends on what is
left before the equals sign of that one alone.  Where less than those words is left, the following
declaration is lost. -/
theorem following_read_iff (s : CutSource) :
    s.broken.warning ∈ (readDeclarations s.text).2 ∧
      readFrom s.start (s.lead ++ (s.following.lexemes ++ s.sequel.lexemes)) =
        withFound (⟨s.start.1.tables ++ [s.table], s.start.1.enums⟩, s.start.2) s.later ∧
      ((∃ state, Turns sourceStep (.empty, []) (Lexeme.ofText s.text) state
          (s.following.lexemes ++ s.sequel.lexemes)) ↔
        ∃ state, Turns sourceStep (.empty, []) s.left state s.following.lexemes) ∧
      ((∃ state, Turns sourceStep (.empty, []) s.left state s.following.lexemes) →
        s.table ∈ (readDeclarations s.text).1.tables) ∧
      ((∀ lexeme ∈ s.cut, declares lexeme = false) → 3 ≤ s.left.length →
        readDeclarations s.text =
          withFound (⟨s.start.1.tables ++ [s.table], s.start.1.enums⟩,
            s.start.2 ++ [s.broken.warning]) s.later) ∧
      ((∀ lexeme ∈ s.value, declares lexeme = false) → s.left.length < 3 →
        readDeclarations s.text =
          withFound (s.start.1, s.start.2 ++ [s.broken.warning]) s.later) := by
  have hcomes := s.comes_ofText_iff
  rw [comes_iff (.empty, []), comes_iff (.empty, [])] at hcomes
  exact ⟨s.warning_mem, s.readFrom_absent, hcomes,
    fun hread => s.table_mem ((comes_iff (.empty, [])).2 hread),
    s.readDeclarations_kept, s.readDeclarations_lost⟩

def onLine (line : Nat) (tokens : List Token) : List Lexeme :=
  tokens.map fun token => ⟨token, line, true⟩

/-- The columns of a table are cut off behind their opening brace. -/
def cutColumnsText : String :=
  "const x = pgTable('x', \x7b\nexport const b = pgTable('b', \x7bid: integer('id')\x7d);"

def cutColumnsSequel : Sequel where
  front := onLine 1 [.word "pgTable", .leftParen, .string "x", .comma, .leftBrace] ++
    onLine 2 [.word "export", .word "const", .word "b", .equals]
  lexemes := onLine 2 [.word "pgTable", .leftParen, .string "b", .comma, .leftBrace, .word "id",
    .colon, .word "integer", .leftParen, .string "id", .rightParen, .rightBrace, .rightParen,
    .semicolon, .eof]
  rest := onLine 2 [.semicolon, .eof]
  sign := by decide
  brackets := rfl
  types := rfl
  ends := .inl rfl

theorem ofText_cutColumnsText : Lexeme.ofText cutColumnsText =
    onLine 1 [.word "const", .word "x", .equals] ++
      (cutColumnsSequel.front ++ cutColumnsSequel.lexemes) :=
  (Lexeme.ofText_ofList _).trans (by decide +kernel)

def cutColumns : CutSource where
  text := cutColumnsText
  start := (.empty, [])
  broken := ⟨⟨.word "const", 1, true⟩, ⟨.word "x", 1, true⟩, ⟨.equals, 1, true⟩, "x", rfl, rfl, rfl⟩
  cut := onLine 1 [.word "pgTable", .leftParen, .string "x", .comma, .leftBrace]
  lead := onLine 2 [.word "export"]
  following :=
    ⟨⟨.word "const", 2, true⟩, ⟨.word "b", 2, true⟩, ⟨.equals, 2, true⟩, "b", rfl, rfl, rfl⟩
  value := onLine 2 [.word "pgTable", .leftParen, .string "b", .comma, .leftBrace, .word "id",
    .colon, .word "integer", .leftParen, .string "id", .rightParen, .rightBrace, .rightParen]
  expression :=
    .call (.word "pgTable") [.string "b", .object [("id", .call (.word "integer") [.string "id"])]]
  table := ⟨"b", "b", [⟨"id", "id", ⟨"integer", [.string "id"], []⟩⟩], none, [], 2⟩
  sequel := cutColumnsSequel
  hfront := rfl
  hlexemes := rfl
  hbefore := by
    rw [ofText_cutColumnsText]
    exact .none _ _
  hfunction := ⟨"pgTable", List.mem_cons_self, rfl⟩
  hunread := by decide +kernel
  hlead := by decide
  hvalue := by decide +kernel
  htable := rfl

/-- The brace takes the words of the following declaration as keys, and its table is lost. -/
theorem following_read_iff_columns :
    cutColumns.left.length = 1 ∧
      (readDeclarations cutColumnsText).1.tables = [] ∧
      (readDeclarations cutColumnsText).2 = [cutColumns.broken.warning] := by
  have hleft : cutColumns.left.length = 1 := by decide +kernel
  have hlater : cutColumns.later = (.empty, []) := by decide +kernel
  obtain ⟨-, -, -, -, -, hlost⟩ := following_read_iff cutColumns
  have hread : readDeclarations cutColumnsText = _ :=
    hlost (by decide) (by rw [hleft]; decide)
  rw [hread, hlater]
  exact ⟨hleft, rfl, rfl⟩

end SchemaEvolution.Drizzle
