import SchemaEvolution.Drizzle.Expression

/-!
# How far expressions are read

No expression goes on past an equals sign, so what stands behind one does not change what is read
before it.  There are two ways over the sign: brackets may be closed behind it, and open type
arguments go on to the end of the statement.
-/

namespace SchemaEvolution.Drizzle

variable {row left : List Lexeme} {lexeme : Lexeme} {token : Token}

/-- What stands behind a group is the end of the row in which the group stands. -/
theorem suffix_of_closing? {depth : Nat} {inside after : List Lexeme}
    (hclosing : closing? depth row = some (inside, after)) : after <:+ row := by
  induction row generalizing depth inside with
  | nil => cases hclosing
  | cons lexeme rest ih =>
    have hmore {depth : Nat} (hmap : (closing? depth rest).map
        (fun pair => (lexeme :: pair.1, pair.2)) = some (inside, after)) :
        after <:+ lexeme :: rest := by
      obtain ⟨⟨inner, after'⟩, hfound, heq⟩ := Option.map_eq_some_iff.1 hmap
      cases heq
      exact (ih hfound).trans (List.suffix_cons _ _)
    rw [closing?.eq_2] at hclosing
    cases htoken : lexeme.token with
    | leftParen | leftBrace | leftBracket => exact hmore (by rwa [htoken] at hclosing)
    | rightParen | rightBrace | rightBracket =>
      rw [htoken] at hclosing
      dsimp only at hclosing
      split at hclosing
      · cases hclosing
        exact List.suffix_cons _ _
      · exact hmore hclosing
    | eof =>
      rw [htoken] at hclosing
      cases hclosing
    | _ => exact hmore (by rwa [htoken] at hclosing)

/-- Skipping type arguments stops at an end of the row. -/
theorem suffix_skipTypeArguments (depth : Nat) (row : List Lexeme) :
    skipTypeArguments depth row <:+ row := by
  induction row generalizing depth with
  | nil => exact List.suffix_refl _
  | cons lexeme rest ih =>
    have hmore (depth : Nat) := (ih depth).trans (List.suffix_cons lexeme rest)
    rw [skipTypeArguments.eq_2]
    cases lexeme.token with
    | less => exact hmore _
    | greater =>
      dsimp only
      split
      · exact List.suffix_cons _ _
      · exact hmore _
    | eof | semicolon => exact List.suffix_refl _
    | _ => exact hmore _

theorem suffix_skipOptionalTypeArguments (row : List Lexeme) :
    skipOptionalTypeArguments row <:+ row := by
  cases row with
  | nil => exact List.suffix_refl _
  | cons lexeme rest =>
    rw [skipOptionalTypeArguments]
    split
    · exact (suffix_skipTypeArguments 1 rest).trans (List.suffix_cons _ _)
    · exact List.suffix_refl _

/-- The token opens a bracket. -/
inductive Opens : Token → Prop
  | leftParen : Opens .leftParen
  | leftBrace : Opens .leftBrace
  | leftBracket : Opens .leftBracket

theorem skipType_of_opens (hopens : Opens lexeme.token) :
    skipType (lexeme :: row) =
      ((closing? 1 row).map fun found => skipType found.2).getD (lexeme :: row) := by
  rw [skipType.eq_def]
  generalize htoken : lexeme.token = token at hopens
  cases hopens <;> dsimp only <;> rw [htoken] <;> dsimp only <;> split <;>
    · rename_i hclosing
      rw [hclosing]
      rfl

theorem suffix_skipType (row : List Lexeme) : skipType row <:+ row := by
  fun_induction skipType row with
  | case1 | case6 | case8 | case10 | case12 | case13 => exact List.suffix_refl _
  | case2 _ _ _ _ ih | case3 _ _ _ ih | case11 _ _ _ _ _ ih => exact ih.trans (List.suffix_cons _ _)
  | case4 lexeme rest _ ih =>
    exact (ih.trans (suffix_skipTypeArguments 1 rest)).trans (List.suffix_cons _ _)
  | case5 _ _ _ _ _ hclosing ih | case7 _ _ _ _ _ hclosing ih | case9 _ _ _ _ _ hclosing ih =>
    exact (ih.trans (suffix_of_closing? hclosing)).trans (List.suffix_cons _ _)

theorem suffix_skip (token : Token) (row : List Lexeme) : skip token row <:+ row := by
  rw [skip]
  split
  · exact List.tail_suffix row
  · exact List.suffix_refl _

theorem suffix_of_afterGroup? (hgroup : afterGroup? row = some left) : left <:+ row := by
  cases row with
  | nil => cases hgroup
  | cons first rest =>
    obtain ⟨⟨inside, after⟩, hclosing, rfl⟩ := Option.map_eq_some_iff.1 hgroup
    exact (suffix_of_closing? hclosing).trans (List.suffix_cons _ _)

theorem suffix_of_afterReturn? {size : Nat} (hreturn : afterReturn? size row = some left) :
    left <:+ row := by
  rw [afterReturn?] at hreturn
  split at hreturn
  · cases hreturn
    exact List.drop_suffix _ _
  · cases hreturn

/-- Goes on with what has been read, as long as some of the row has been. -/
def andThen {α β : Type} (size : Nat) (outcome : Option α × List Lexeme)
    (more : α → List Lexeme → Option β × List Lexeme) : Option β × List Lexeme :=
  match outcome with
  | (some value, after) => if after.length < size then more value after else (none, after)
  | (none, after) => (none, after)

theorem readExpression_eq (row : List Lexeme) :
    readExpression row = andThen row.length (readPrimary row) readTrailer := by
  rw [readExpression.eq_def]
  rcases readPrimary row with ⟨_ | value, after⟩ <;> rfl

theorem readExpression_nil : readExpression [] = (none, []) := by
  rw [readExpression.eq_def, readPrimary.eq_def]
  rfl

/-- The names of parameters, if an arrow comes next. -/
def beforeArrow (names : List String) (row : List Lexeme) : Option (List String) × List Lexeme :=
  if next row = .arrow then (some names, row.tail) else (none, row)

/-- The value of a body in braces, and what follows its closing brace. -/
def bracedBody (names : List String) (first : Lexeme) (body : List Lexeme) :
    Option Expression × List Lexeme :=
  match closing? 1 body with
  | none => (none, first :: body)
  | some (inside, after) =>
    let value := (afterReturn? inside.length body).bind fun row => (readExpression row).1
    (some (.arrow names (value.getD .unknown)), after)

def arrowBody (size : Nat) (names : List String) (row : List Lexeme) :
    Option Expression × List Lexeme :=
  match row with
  | [] => (none, [])
  | first :: body =>
    if (first :: body).length < size then
      if first.token = .leftBrace then bracedBody names first body
      else ((readExpression row).1.map (.arrow names), (readExpression row).2)
    else (none, first :: body)

/-- A function is read as its parameters and then its body, and is given up without the first. -/
theorem readArrow_eq (row : List Lexeme) :
    readArrow row =
      match readParameters row with
      | (none, rest) => (none, rest)
      | (some names, rest) => arrowBody row.length names rest := by
  rw [readArrow.eq_def]
  rcases readParameters row with ⟨_ | names, _ | ⟨first, body⟩⟩
  · rfl
  · rfl
  · rfl
  · dsimp only [arrowBody]
    split
    · split
      · rw [bracedBody]
        cases closing? 1 body with
        | none => rfl
        | some found =>
          dsimp only
          split
          · next heq => rw [heq]; rfl
          · next heq => rw [heq]; rfl
      · rfl
    · rfl

/-- What a minus sign makes of what comes next. -/
def negative (row : List Lexeme) : Option Expression × List Lexeme :=
  match next row with
  | .number digits => (some (.number ("-" ++ digits)), row.tail)
  | _ => (some .unknown, row)

theorem readTrailer_call (htoken : lexeme.token = .leftParen) (value : Expression)
    (row : List Lexeme) :
    readTrailer value (lexeme :: row) =
      andThen (lexeme :: row).length (readArguments .rightParen row)
        fun arguments => readTrailer (.call value arguments) := by
  rw [readTrailer.eq_def]
  simp only [htoken]
  rcases readArguments .rightParen row with ⟨_ | arguments, after⟩ <;> rfl

/-- Whether an argument starts with a token that does not close the arguments. -/
def startsItem : Token → Bool
  | .comma | .eof | .spread => false
  | _ => true

theorem readArguments_spread {close : Token} (hclose : lexeme.token ≠ close)
    (htoken : lexeme.token = .spread) (row : List Lexeme) :
    readArguments close (lexeme :: row) =
      andThen (lexeme :: row).length (readExpression row) fun _ => readArguments close := by
  rw [htoken] at hclose
  rw [readArguments.eq_def]
  simp only [htoken, if_neg hclose]
  rcases readExpression row with ⟨_ | value, after⟩ <;> rfl

/-- An item of a list is read as an expression, and the rest of the list behind it. -/
theorem readArguments_item {close : Token} (hclose : lexeme.token ≠ close)
    (hitem : startsItem lexeme.token = true) (row : List Lexeme) :
    readArguments close (lexeme :: row) =
      andThen (lexeme :: row).length (readExpression (lexeme :: row)) fun item after =>
        ((readArguments close after).1.map (item :: ·), (readArguments close after).2) := by
  rw [readArguments.eq_def]
  dsimp only
  rw [if_neg hclose]
  cases htoken : lexeme.token with
  | comma | eof | spread =>
    rw [htoken] at hitem
    cases hitem
  | _ => rcases readExpression (lexeme :: row) with ⟨_ | value, after⟩ <;> rfl

def keyOf? : Token → Option String
  | .word key | .string key | .number key => some key
  | _ => none

/-- The entries behind a method; its parameters come next. -/
def afterMethod (sign : Lexeme) (row : List Lexeme) :
    Option (List (String × Expression)) × List Lexeme :=
  match closing? 1 row with
  | none => (none, sign :: row)
  | some (_, after) =>
    if next after = .leftBrace then
      match afterGroup? after with
      | none => (none, after)
      | some rest => readEntries rest
    else readEntries after

/-- An entry with a key is a value behind a colon, a method, or the variable of that name. -/
theorem readEntries_key {key : String} {sign : Lexeme} (hkey : keyOf? lexeme.token = some key)
    (row : List Lexeme) :
    readEntries (lexeme :: sign :: row) =
      if sign.token = .colon then
        andThen (lexeme :: sign :: row).length (readExpression row) fun value after =>
          ((readEntries after).1.map ((key, value) :: ·), (readEntries after).2)
      else if sign.token = .leftParen then afterMethod sign row
      else ((readEntries (sign :: row)).1.map ((key, .word key) :: ·),
        (readEntries (sign :: row)).2) := by
  rw [readEntries.eq_def]
  cases htoken : lexeme.token with
  | word | string | number =>
    rw [htoken] at hkey
    cases hkey
    simp only [htoken]
    split
    · rcases readExpression row with ⟨_ | value, after⟩ <;> rfl
    · split
      · rw [afterMethod]
        split
        · next hclosing => rw [hclosing]
        · next inside after hclosing =>
          rw [hclosing]
          dsimp only
          split
          · split
            · next hgroup => rw [hgroup]
            · next hgroup => rw [hgroup]
          · rfl
      · rfl
  | _ =>
    rw [htoken] at hkey
    cases hkey

theorem readEntries_spread (htoken : lexeme.token = .spread) (row : List Lexeme) :
    readEntries (lexeme :: row) =
      andThen (lexeme :: row).length (readExpression row) fun _ => readEntries := by
  rw [readEntries.eq_def]
  simp only [htoken]
  rcases readExpression row with ⟨_ | value, after⟩ <;> rfl

/-- An entry with a computed key is left out once its key is closed. -/
theorem readEntries_computed (htoken : lexeme.token = .leftBracket) (row : List Lexeme) :
    readEntries (lexeme :: row) =
      match closing? 1 row with
      | none => (none, lexeme :: row)
      | some (_, after) =>
        if (skip .colon after).length < (lexeme :: row).length then
          andThen (lexeme :: row).length (readExpression (skip .colon after)) fun _ => readEntries
        else (none, skip .colon after) := by
  rw [readEntries.eq_def]
  simp only [htoken]
  split
  · next hclosing => rw [hclosing]
  · next inside after hclosing =>
    rw [hclosing]
    dsimp only
    split
    · rcases readExpression (skip .colon after) with ⟨_ | value, left⟩ <;> rfl
    · rfl

/-- A bracket that is not closed at a depth is not closed at a greater one. -/
theorem closing?_eq_none {row : List Lexeme} {depth : Nat}
    (hnone : closing? (depth + 1) row = none) (more : Nat) :
    closing? (depth + more + 1) row = none := by
  induction row generalizing depth with
  | nil => rfl
  | cons lexeme rest ih =>
    rw [closing?.eq_2] at hnone ⊢
    cases htoken : lexeme.token with
    | leftParen | leftBrace | leftBracket =>
      rw [htoken] at hnone
      have hrest := ih (Option.map_eq_none_iff.1 hnone)
      rw [show depth + 1 + more + 1 = depth + more + 1 + 1 by omega] at hrest
      exact Option.map_eq_none_iff.2 hrest
    | rightParen | rightBrace | rightBracket =>
      rw [htoken] at hnone
      cases depth with
      | zero => cases hnone
      | succ depth =>
        dsimp only at hnone ⊢
        rw [if_neg (by omega)] at hnone ⊢
        have hrest := ih (Option.map_eq_none_iff.1 hnone)
        rw [show depth + 1 + more + 1 - 1 = depth + more + 1 by omega]
        exact Option.map_eq_none_iff.2 hrest
    | eof => rfl
    | _ =>
      rw [htoken] at hnone
      exact Option.map_eq_none_iff.2 (ih (Option.map_eq_none_iff.1 hnone))

/-- A row up to and with an equals sign, what stands behind the sign, and what is left of that from
the end of the statement on.  Brackets that are open before the sign are not closed behind it, and
open type arguments go on to the end of the statement. -/
structure Sequel where
  front : List Lexeme
  lexemes : List Lexeme
  rest : List Lexeme
  sign : ∀ last ∈ front.getLast?, last.token = .equals
  brackets : closing? 1 lexemes = none
  types : skipTypeArguments 1 lexemes = rest
  ends : next rest = .semicolon ∨ next rest = .eof

namespace Sequel

variable (sequel : Sequel)

/-- The row is what is left of the front after some of it has been read. -/
def Within (row : List Lexeme) : Prop := row <:+ sequel.front

/-- What is left where the front is continued: nothing is left of the front only where type
arguments have gone on to the end of the statement. -/
def join : List Lexeme → List Lexeme
  | [] => sequel.rest
  | lexeme :: row => lexeme :: (row ++ sequel.lexemes)

variable {sequel}

theorem Within.nil : sequel.Within [] := List.nil_suffix

theorem Within.of_suffix (hwithin : sequel.Within row) (hsuffix : left <:+ row) :
    sequel.Within left := hsuffix.trans hwithin

theorem Within.tail (hwithin : sequel.Within (lexeme :: row)) : sequel.Within row :=
  hwithin.of_suffix (List.suffix_cons _ _)

theorem Within.last (hwithin : sequel.Within [lexeme]) : lexeme.token = .equals := by
  obtain ⟨front, hfront⟩ := hwithin
  refine sequel.sign lexeme ?_
  rw [← hfront, List.getLast?_concat]
  rfl

theorem rest_cases (sequel : Sequel) : sequel.rest = [] ∨
    ∃ lexeme more, sequel.rest = lexeme :: more ∧
      (lexeme.token = .semicolon ∨ lexeme.token = .eof) := by
  have hends := sequel.ends
  cases hrest : sequel.rest with
  | nil => exact .inl rfl
  | cons lexeme more =>
    rw [hrest] at hends
    exact .inr ⟨lexeme, more, rfl, hends⟩

theorem join_cons (hwithin : sequel.Within (lexeme :: row)) (htoken : lexeme.token ≠ .equals) :
    sequel.join (lexeme :: row) = lexeme :: sequel.join row := by
  cases row with
  | nil => exact absurd hwithin.last htoken
  | cons other more => rfl

theorem join_eq_append (hrow : row ≠ []) : sequel.join row = row ++ sequel.lexemes := by
  cases row with
  | nil => exact absurd rfl hrow
  | cons lexeme rest => rfl

/-- A group that closes within the row closes at the same place when the row goes on. -/
theorem closing?_join (hwithin : sequel.Within row) (hrow : row ≠ []) (depth : Nat) :
    closing? (depth + 1) (sequel.join row) =
      (closing? (depth + 1) row).map (Prod.map id sequel.join) := by
  induction row generalizing depth with
  | nil => exact absurd rfl hrow
  | cons lexeme rest ih =>
    cases rest with
    | nil =>
      have htoken : lexeme.token = .equals := hwithin.last
      have hnone := closing?_eq_none sequel.brackets depth
      rw [Nat.zero_add] at hnone
      change closing? (depth + 1) (lexeme :: sequel.lexemes) = _
      simp only [closing?, htoken, hnone, Option.map_none]
    | cons other more =>
      have hmore (depth : Nat) : ((closing? (depth + 1) (sequel.join (other :: more))).map
          fun pair => (lexeme :: pair.1, pair.2)) =
            ((closing? (depth + 1) (other :: more)).map
              fun pair => (lexeme :: pair.1, pair.2)).map (Prod.map id sequel.join) := by
        rw [ih hwithin.tail (List.cons_ne_nil _ _), Option.map_map, Option.map_map]
        rfl
      change closing? (depth + 1) (lexeme :: sequel.join (other :: more)) = _
      rw [closing?.eq_2, closing?.eq_2]
      cases lexeme.token with
      | leftParen | leftBrace | leftBracket => exact hmore (depth + 1)
      | rightParen | rightBrace | rightBracket =>
        cases depth with
        | zero => rfl
        | succ depth => exact hmore depth
      | eof => rfl
      | _ => exact hmore depth

/-- Nothing is skipped at the end of a statement. -/
theorem skipTypeArguments_rest (sequel : Sequel) (depth : Nat) :
    skipTypeArguments depth sequel.rest = sequel.rest := by
  rcases sequel.rest_cases with hnil | ⟨lexeme, more, hrest, hends⟩
  · rw [hnil]
    rfl
  · rw [hrest, skipTypeArguments.eq_2]
    rcases hends with hends | hends <;> rw [hends]

/-- Nothing behind the equals sign belongs to type arguments. -/
theorem skipTypeArguments_lexemes (sequel : Sequel) (depth : Nat) :
    skipTypeArguments (depth + 1) sequel.lexemes = sequel.rest := by
  have hdeeper (row : List Lexeme) (depth : Nat)
      (hrow : skipTypeArguments (depth + 1) row = sequel.rest) :
      skipTypeArguments (depth + 2) row = sequel.rest := by
    induction row generalizing depth with
    | nil => exact hrow
    | cons lexeme rest ih =>
      rw [skipTypeArguments.eq_2] at hrow ⊢
      cases htoken : lexeme.token with
      | less => exact ih (depth + 1) (by rwa [htoken] at hrow)
      | greater =>
        rw [htoken] at hrow
        cases depth with
        | zero =>
          rw [show rest = sequel.rest from hrow]
          exact sequel.skipTypeArguments_rest 1
        | succ depth => exact ih depth hrow
      | eof | semicolon => rwa [htoken] at hrow
      | _ => exact ih depth (by rwa [htoken] at hrow)
  induction depth with
  | zero => exact sequel.types
  | succ depth ih => exact hdeeper _ depth ih

/-- Type arguments end within the row or at its equals sign, whatever stands behind it. -/
theorem skipTypeArguments_join (hwithin : sequel.Within row) (depth : Nat) :
    skipTypeArguments (depth + 1) (sequel.join row) =
      sequel.join (skipTypeArguments (depth + 1) row) := by
  induction row generalizing depth with
  | nil => exact sequel.skipTypeArguments_rest (depth + 1)
  | cons lexeme rest ih =>
    cases rest with
    | nil =>
      have htoken : lexeme.token = .equals := hwithin.last
      have htypes := sequel.skipTypeArguments_lexemes depth
      change skipTypeArguments (depth + 1) (lexeme :: sequel.lexemes) = _
      simp only [skipTypeArguments, htoken, htypes]
      rfl
    | cons other more =>
      change skipTypeArguments (depth + 1) (lexeme :: sequel.join (other :: more)) = _
      rw [skipTypeArguments.eq_2, skipTypeArguments.eq_2]
      cases lexeme.token with
      | less => exact ih hwithin.tail (depth + 1)
      | greater =>
        cases depth with
        | zero => rfl
        | succ depth => exact ih hwithin.tail depth
      | eof | semicolon => rfl
      | _ => exact ih hwithin.tail depth

/-- Type arguments that may be missing end within the row or at its equals sign. -/
theorem skipOptionalTypeArguments_join (hwithin : sequel.Within row) :
    skipOptionalTypeArguments (sequel.join row) = sequel.join (skipOptionalTypeArguments row) := by
  cases row with
  | nil =>
    have hends := sequel.ends
    change skipOptionalTypeArguments sequel.rest = sequel.rest
    cases hrest : sequel.rest with
    | nil => rfl
    | cons lexeme more =>
      rw [hrest] at hends
      rw [skipOptionalTypeArguments, if_neg]
      intro hless
      rcases hends with hends | hends <;> exact Token.noConfusion (hless.symm.trans hends)
  | cons lexeme rest =>
    by_cases hless : lexeme.token = .less
    · rw [join_cons hwithin (by rw [hless]; rintro ⟨⟩), skipOptionalTypeArguments,
        skipOptionalTypeArguments, if_pos hless, if_pos hless]
      exact skipTypeArguments_join hwithin.tail 0
    · rw [join, skipOptionalTypeArguments, skipOptionalTypeArguments, if_neg hless, if_neg hless]
      rfl

/-- A type ends within the row or in front of its equals sign, whatever stands behind it. -/
theorem skipType_join (hwithin : sequel.Within row) :
    skipType (sequel.join row) = sequel.join (skipType row) := by
  have hbracket {lexeme : Lexeme} {rest : List Lexeme} (hwithin : sequel.Within (lexeme :: rest))
      (hopens : Opens lexeme.token)
      (ih : ∀ inside after, closing? 1 rest = some (inside, after) →
        skipType (sequel.join after) = sequel.join (skipType after)) :
      skipType (sequel.join (lexeme :: rest)) = sequel.join (skipType (lexeme :: rest)) := by
    have hother : lexeme.token ≠ .equals := fun heq => by rw [heq] at hopens; cases hopens
    have hrest : rest ≠ [] := fun hnil => hother (hnil ▸ hwithin).last
    rw [join_cons hwithin hother, skipType_of_opens hopens, skipType_of_opens hopens,
      closing?_join hwithin.tail hrest 0]
    cases hclosing : closing? 1 rest with
    | none => exact (join_cons hwithin hother).symm
    | some found => exact ih found.1 found.2 hclosing
  induction hsize : row.length using Nat.strongRecOn generalizing row with
  | _ size ih =>
    cases row with
    | nil =>
      have hnothing : skipType [] = [] := by rw [skipType.eq_def]
      rw [hnothing, join]
      rcases sequel.rest_cases with hnil | ⟨lexeme, more, hrest, hends⟩
      · rw [hnil, skipType.eq_def]
      · rw [hrest, skipType.eq_def]
        rcases hends with hends | hends <;> simp only [hends]
    | cons lexeme rest =>
      have hmore {left : List Lexeme} (hsuffix : left <:+ rest) :
          skipType (sequel.join left) = sequel.join (skipType left) :=
        ih left.length (by have := hsuffix.length_le; rw [← hsize, List.length_cons]; omega)
          (hwithin.tail.of_suffix hsuffix) rfl
      have hopened (hopens : Opens lexeme.token) :=
        hbracket hwithin hopens fun inside after hclosing => hmore (suffix_of_closing? hclosing)
      have hstep (htoken : lexeme.token ≠ .equals) :
          sequel.join (lexeme :: rest) = lexeme :: sequel.join rest := join_cons hwithin htoken
      have hstays : sequel.join (lexeme :: rest) = lexeme :: (rest ++ sequel.lexemes) := rfl
      cases htoken : lexeme.token with
      | leftParen => exact hopened (htoken ▸ .leftParen)
      | leftBrace => exact hopened (htoken ▸ .leftBrace)
      | leftBracket => exact hopened (htoken ▸ .leftBracket)
      | word | dot =>
        rw [hstep (by rw [htoken]; rintro ⟨⟩), skipType.eq_def, skipType.eq_def (lexeme :: rest)]
        simp only [htoken]
        exact hmore (List.suffix_refl _)
      | less =>
        rw [hstep (by rw [htoken]; rintro ⟨⟩), skipType.eq_def, skipType.eq_def (lexeme :: rest)]
        simp only [htoken]
        rw [skipTypeArguments_join hwithin.tail 0]
        exact hmore (suffix_skipTypeArguments 1 rest)
      | operator spelling =>
        rw [hstep (by rw [htoken]; rintro ⟨⟩), skipType.eq_def, skipType.eq_def (lexeme :: rest)]
        simp only [htoken]
        split
        · exact hmore (List.suffix_refl _)
        · exact (hstep (by rw [htoken]; rintro ⟨⟩)).symm
      | _ =>
        rw [hstays, skipType.eq_def, skipType.eq_def (lexeme :: rest)]
        simp only [htoken]
        rfl

/-! ## The next token -/

theorem next_join_iff (hsemicolon : token ≠ .semicolon) (heof : token ≠ .eof) :
    next (sequel.join row) = token ↔ next row = token := by
  cases row with
  | nil =>
    refine iff_of_false ?_ heof.symm
    rintro rfl
    exact sequel.ends.elim hsemicolon heof
  | cons lexeme rest => exact Iff.rfl

theorem tail_join (hwithin : sequel.Within row) (heof : next row ≠ .eof)
    (hequals : next row ≠ .equals) : (sequel.join row).tail = sequel.join row.tail := by
  cases row with
  | nil => exact absurd rfl heof
  | cons lexeme rest =>
    rw [join_cons hwithin hequals]
    rfl

theorem skip_join (hwithin : sequel.Within row) (hsemicolon : token ≠ .semicolon)
    (heof : token ≠ .eof) (hequals : token ≠ .equals) :
    skip token (sequel.join row) = sequel.join (skip token row) := by
  rw [skip, skip]
  by_cases hnext : next row = token
  · rw [if_pos ((next_join_iff hsemicolon heof).2 hnext), if_pos hnext]
    exact tail_join hwithin (hnext ▸ heof) (hnext ▸ hequals)
  · rw [if_neg (mt (next_join_iff hsemicolon heof).1 hnext), if_neg hnext]

/-! ## Parameters -/

/-- Whether a function comes next is seen within the row. -/
theorem isArrowAhead_join (hwithin : sequel.Within row) :
    isArrowAhead (sequel.join row) = isArrowAhead row := by
  have harrow (left : List Lexeme) :
      decide (next (sequel.join left) = .arrow) = decide (next left = .arrow) :=
    decide_eq_decide.2 (next_join_iff (by decide) (by decide))
  have hcolon (left : List Lexeme) :
      decide (next (sequel.join left) = .colon) = decide (next left = .colon) :=
    decide_eq_decide.2 (next_join_iff (by decide) (by decide))
  cases row with
  | nil =>
    change isArrowAhead sequel.rest = _
    rcases sequel.rest_cases with hnil | ⟨lexeme, more, hrest, hends⟩
    · rw [hnil]
    · rw [hrest, isArrowAhead.eq_def]
      rcases hends with hends | hends <;> simp only [hends] <;> rfl
  | cons lexeme rest =>
    cases htoken : lexeme.token with
    | word name =>
      rw [join_cons hwithin (by rw [htoken]; rintro ⟨⟩), isArrowAhead, isArrowAhead]
      simp only [htoken]
      exact harrow rest
    | leftParen =>
      have hrest : rest ≠ [] := by
        rintro rfl
        cases htoken.symm.trans hwithin.last
      rw [join_cons hwithin (by rw [htoken]; rintro ⟨⟩), isArrowAhead, isArrowAhead]
      simp only [htoken]
      rw [closing?_join hwithin.tail hrest 0]
      cases closing? 1 rest with
      | none => rfl
      | some found =>
        dsimp only [Option.map_some, Prod.map]
        rw [harrow, hcolon]
    | _ =>
      rw [join, isArrowAhead, isArrowAhead]
      simp only [htoken]

/-- A reader gives the same for a continued row, and leaves the same, continued. -/
def Follows {α : Type} (sequel : Sequel) (read : List Lexeme → Option α × List Lexeme)
    (row : List Lexeme) : Prop :=
  read (sequel.join row) = Prod.map id sequel.join (read row) ∧ sequel.Within (read row).2

/-- The arrow of a function is found within the row. -/
theorem follows_beforeArrow (hwithin : sequel.Within row) (names : List String) :
    sequel.Follows (beforeArrow names) row := by
  have harrow : next (sequel.join row) = .arrow ↔ next row = .arrow :=
    next_join_iff (by decide) (by decide)
  by_cases hnext : next row = .arrow
  · have htail := tail_join hwithin (by rw [hnext]; rintro ⟨⟩)
      (by rw [hnext]; rintro ⟨⟩)
    rw [Follows, beforeArrow, beforeArrow, if_pos (harrow.2 hnext), if_pos hnext, htail]
    exact ⟨rfl, hwithin.of_suffix (List.tail_suffix row)⟩
  · rw [Follows, beforeArrow, beforeArrow, if_neg (mt harrow.1 hnext), if_neg hnext]
    exact ⟨rfl, hwithin⟩

/-- Parameters are read within the row, with or without parentheses around them. -/
theorem follows_readParameters (hwithin : sequel.Within row) :
    sequel.Follows readParameters row := by
  cases row with
  | nil =>
    refine ⟨?_, .nil⟩
    change readParameters sequel.rest = (none, sequel.rest)
    rcases sequel.rest_cases with hnil | ⟨lexeme, more, hrest, hends⟩
    · rw [hnil]
      rfl
    · rw [hrest, readParameters]
      rcases hends with hends | hends <;> simp only [hends]
  | cons lexeme rest =>
    cases htoken : lexeme.token with
    | word name =>
      have hread (left : List Lexeme) :
          readParameters (lexeme :: left) = beforeArrow [name] left := by
        simp only [readParameters, htoken]
        rfl
      rw [Follows, join_cons hwithin (by rw [htoken]; rintro ⟨⟩), hread, hread]
      exact follows_beforeArrow hwithin.tail _
    | leftParen =>
      have hrest : rest ≠ [] := by
        rintro rfl
        cases htoken.symm.trans hwithin.last
      have hread (left : List Lexeme) : readParameters (lexeme :: left) =
          match closing? 1 left with
          | none => (none, lexeme :: left)
          | some (inside, after) => beforeArrow (parameterNames .leftParen inside)
              (if next after = .colon then skipType after.tail else after) := by
        simp only [readParameters, htoken]
        rfl
      have hjoin := join_cons hwithin (by rw [htoken]; rintro ⟨⟩)
      rw [Follows, hjoin, hread, hread, closing?_join hwithin.tail hrest 0]
      cases hclosing : closing? 1 rest with
      | none =>
        refine ⟨?_, hwithin⟩
        rw [Prod.map, hjoin]
        rfl
      | some found =>
        obtain ⟨inside, after⟩ := found
        have hafter := hwithin.tail.of_suffix (suffix_of_closing? hclosing)
        have htail := hafter.of_suffix (List.tail_suffix after)
        have hcolon : next (sequel.join after) = .colon ↔ next after = .colon :=
          next_join_iff (by decide) (by decide)
        dsimp only [Option.map_some, Prod.map, id]
        by_cases hnext : next after = .colon
        · rw [if_pos (hcolon.2 hnext), if_pos hnext, tail_join hafter (by rw [hnext]; rintro ⟨⟩)
            (by rw [hnext]; rintro ⟨⟩), skipType_join htail]
          exact follows_beforeArrow (htail.of_suffix (suffix_skipType _)) _
        · rw [if_neg (mt hcolon.1 hnext), if_neg hnext]
          exact follows_beforeArrow hafter _
    | _ =>
      rw [Follows, join, readParameters, readParameters]
      simp only [htoken]
      exact ⟨rfl, hwithin⟩

/-! ## Readers -/

theorem length_rest_le (sequel : Sequel) : sequel.rest.length ≤ sequel.lexemes.length := by
  rw [← sequel.types]
  exact length_skipTypeArguments_le _ _

theorem length_join_lt_iff (sequel : Sequel) :
    (sequel.join left).length < (sequel.join row).length ↔ left.length < row.length := by
  have hrest := sequel.length_rest_le
  cases left <;> cases row <;> simp only [join, List.length_cons, List.length_append,
    List.length_nil] <;> omega

/-- Two readers one after the other stay within the row if each of them does. -/
theorem andThen_join {α β : Type} {read : List Lexeme → Option α × List Lexeme}
    {more : α → List Lexeme → Option β × List Lexeme} (hread : sequel.Follows read left)
    (hmore : ∀ value after, after.length < row.length → sequel.Within after →
      sequel.Follows (more value) after) :
    andThen (sequel.join row).length (read (sequel.join left)) more =
        Prod.map id sequel.join (andThen row.length (read left) more) ∧
      sequel.Within (andThen row.length (read left) more).2 := by
  obtain ⟨hjoin, hwithin⟩ := hread
  rw [hjoin]
  generalize read left = outcome at hwithin ⊢
  obtain ⟨_ | value, after⟩ := outcome
  · exact ⟨rfl, hwithin⟩
  · by_cases hshorter : after.length < row.length
    · simp only [andThen, Prod.map, id, if_pos hshorter, if_pos (sequel.length_join_lt_iff.2 hshorter)]
      exact hmore value after hshorter hwithin
    · simp only [andThen, Prod.map, id, if_neg hshorter,
        if_neg (mt sequel.length_join_lt_iff.1 hshorter)]
      exact ⟨trivial, hwithin⟩

theorem Follows.map {α β : Type} {read : List Lexeme → Option α × List Lexeme}
    (hread : sequel.Follows read row) (change : α → β) :
    sequel.Follows (fun row => ((read row).1.map change, (read row).2)) row := by
  refine ⟨?_, hread.2⟩
  simp only [hread.1, Prod.map, id]

/-- Every reader of the row goes on in the same way where the row is continued. -/
structure ReadsOn (sequel : Sequel) (row : List Lexeme) : Prop where
  expression : sequel.Follows readExpression row
  trailer : ∀ value, sequel.Follows (readTrailer value) row
  arguments : ∀ close, close ≠ .semicolon → close ≠ .eof → close ≠ .equals →
    sequel.Follows (readArguments close) row
  entries : sequel.Follows readEntries row

/-- Nothing can be read at the end of a statement. -/
theorem readPrimary_rest (sequel : Sequel) : readPrimary sequel.rest = (none, sequel.rest) := by
  rw [readPrimary.eq_def]
  rcases sequel.rest_cases with hnil | ⟨lexeme, more, hrest, hends⟩
  · rw [hnil, isArrowAhead]
    rfl
  · rw [hrest, isArrowAhead]
    rcases hends with hends | hends <;> simp only [hends] <;> rfl

theorem readExpression_rest (sequel : Sequel) :
    readExpression sequel.rest = (none, sequel.rest) := by
  rw [readExpression.eq_def, readPrimary_rest]

/-- The return in the body of a function is found within the row. -/
theorem afterReturn?_join {size : Nat} (hsize : size < row.length) :
    afterReturn? size (sequel.join row) = (afterReturn? size row).map sequel.join := by
  cases row with
  | nil => cases hsize
  | cons lexeme rest =>
    have hjoin : sequel.join (lexeme :: rest) = (lexeme :: rest) ++ sequel.lexemes := rfl
    rw [afterReturn?, afterReturn?, hjoin, List.take_append_of_le_length (Nat.le_of_lt hsize)]
    split
    · next hfound =>
      rw [List.drop_append_of_le_length (by omega)]
      cases hleft : (lexeme :: rest).drop _ with
      | nil =>
        have hlength := congrArg List.length hleft
        rw [List.length_drop] at hlength
        simp only [List.length_nil] at hlength
        omega
      | cons first more =>
        rfl
    · rfl

/-- A negative number is read within the row. -/
theorem follows_negative (hwithin : sequel.Within row) : sequel.Follows negative row := by
  cases row with
  | nil =>
    refine ⟨?_, .nil⟩
    rw [negative, negative, join]
    rcases sequel.ends with hends | hends <;> rw [hends] <;> rfl
  | cons first more =>
    have hnext : next (sequel.join (first :: more)) = first.token := rfl
    rw [Follows, negative, negative, hnext, next]
    cases hfirst : first.token with
    | number digits =>
      rw [join_cons hwithin (by rw [hfirst]; rintro ⟨⟩)]
      exact ⟨rfl, hwithin.tail⟩
    | _ => exact ⟨rfl, hwithin⟩

/-- A group in braces ends within the row or not at all. -/
theorem afterGroup?_join (hwithin : sequel.Within row) (hnext : next row = .leftBrace) :
    afterGroup? (sequel.join row) = (afterGroup? row).map sequel.join := by
  cases row with
  | nil => cases hnext
  | cons first rest =>
    have hrest : rest ≠ [] := by
      rintro rfl
      cases hnext.symm.trans hwithin.last
    have hother : first.token ≠ .equals := fun heq => by cases heq.symm.trans hnext
    rw [join_cons hwithin hother, afterGroup?, afterGroup?, closing?_join hwithin.tail hrest 0,
      Option.map_map, Option.map_map]
    rfl

section Readers

variable (hwithin : sequel.Within row)
  (ih : ∀ left, left.length < row.length → sequel.Within left → sequel.ReadsOn left)

include ih

/-- A body in braces is read within the row, up to its return or to its end. -/
theorem bracedBody_join {names : List String} {first : Lexeme} {body : List Lexeme}
    (hbody : sequel.Within (first :: body)) (hfirst : first.token = .leftBrace)
    (hshorter : (first :: body).length < row.length) :
    bracedBody names first (sequel.join body) =
        Prod.map id sequel.join (bracedBody names first body) ∧
      sequel.Within (bracedBody names first body).2 := by
  have hne : body ≠ [] := by
    rintro rfl
    cases hfirst.symm.trans hbody.last
  rw [bracedBody, bracedBody, closing?_join hbody.tail hne 0]
  cases hclosing : closing? 1 body with
  | none =>
    refine ⟨?_, hbody⟩
    rw [Prod.map, join_cons hbody (by rw [hfirst]; rintro ⟨⟩)]
    rfl
  | some found =>
    obtain ⟨inside, after⟩ := found
    have hlength := length_of_closing? hclosing
    refine ⟨?_, hbody.tail.of_suffix (suffix_of_closing? hclosing)⟩
    dsimp only [Option.map_some, Prod.map, id]
    rw [afterReturn?_join (by omega)]
    cases hreturn : afterReturn? inside.length body with
    | none => rfl
    | some returned =>
      have hsuffix := suffix_of_afterReturn? hreturn
      have hreturned := hsuffix.length_le
      rw [List.length_cons] at hshorter
      have hread := (ih returned (by omega) (hbody.tail.of_suffix hsuffix)).expression.1
      rw [Option.map_some, Option.bind_some, Option.bind_some, hread]
      rfl

/-- The body of a function is read within the row, in braces or without them. -/
theorem arrowBody_join {names : List String} (hleft : sequel.Within left) :
    arrowBody (sequel.join row).length names (sequel.join left) =
        Prod.map id sequel.join (arrowBody row.length names left) ∧
      sequel.Within (arrowBody row.length names left).2 := by
  cases left with
  | nil =>
    refine ⟨?_, .nil⟩
    change arrowBody _ names sequel.rest = (none, sequel.rest)
    have hread := sequel.readExpression_rest
    rcases sequel.rest_cases with hnil | ⟨first, more, hrest, hends⟩
    · rw [hnil, arrowBody]
    · rw [hrest] at hread ⊢
      have hfirst : first.token ≠ .leftBrace := by
        rcases hends with hends | hends <;> rw [hends] <;> rintro ⟨⟩
      rw [arrowBody, if_neg hfirst, hread]
      split <;> rfl
  | cons first body =>
    by_cases hshorter : (first :: body).length < row.length
    · by_cases hbrace : first.token = .leftBrace
      · have hjoin := sequel.length_join_lt_iff.2 hshorter
        rw [join_cons hleft (by rw [hbrace]; rintro ⟨⟩)] at hjoin ⊢
        rw [arrowBody, arrowBody, if_pos hshorter, if_pos hjoin, if_pos hbrace, if_pos hbrace]
        exact bracedBody_join ih hleft hbrace hshorter
      · have hjoin := sequel.length_join_lt_iff.2 hshorter
        have hread := (ih _ hshorter hleft).expression
        rw [join] at hjoin ⊢
        rw [arrowBody, arrowBody, if_pos hshorter, if_pos hjoin, if_neg hbrace, if_neg hbrace]
        exact hread.map _
    · have hjoin := mt sequel.length_join_lt_iff.1 hshorter
      rw [join] at hjoin ⊢
      rw [arrowBody, arrowBody, if_neg hshorter, if_neg hjoin]
      exact ⟨rfl, hleft⟩

include hwithin

/-- What follows a value, calls and members alike, is read within the row. -/
theorem follows_readTrailer (value : Expression) : sequel.Follows (readTrailer value) row := by
  cases row with
  | nil =>
    refine ⟨?_, by rw [readTrailer.eq_def]; exact .nil⟩
    change readTrailer value sequel.rest = _
    rw [readTrailer.eq_def value []]
    rcases sequel.rest_cases with hnil | ⟨lexeme, more, hrest, hends⟩
    · rw [hnil, readTrailer.eq_def]
      exact congrArg (some value, ·) hnil.symm
    · rw [hrest, readTrailer.eq_def]
      rcases hends with hends | hends <;> simp only [hends] <;>
        exact congrArg (some value, ·) hrest.symm
  | cons lexeme rest =>
    have hstep (htoken : lexeme.token ≠ .equals) :
        sequel.join (lexeme :: rest) = lexeme :: sequel.join rest := join_cons hwithin htoken
    cases htoken : lexeme.token with
    | dot =>
      cases rest with
      | nil => cases htoken.symm.trans hwithin.last
      | cons property more =>
        rw [Follows, hstep (by rw [htoken]; rintro ⟨⟩)]
        cases hproperty : property.token with
        | word name =>
          have hread (left : List Lexeme) : readTrailer value (lexeme :: property :: left) =
              readTrailer (.member value name) (skipOptionalTypeArguments left) := by
            rw [readTrailer.eq_def]
            simp only [htoken, hproperty]
          have hmore := suffix_skipOptionalTypeArguments more
          have hlength := hmore.length_le
          rw [join_cons hwithin.tail (by rw [hproperty]; rintro ⟨⟩), hread, hread,
            skipOptionalTypeArguments_join hwithin.tail.tail]
          refine (ih _ ?_ (hwithin.tail.tail.of_suffix hmore)).trailer _
          rw [List.length_cons, List.length_cons]
          omega
        | _ =>
          have hread (left : List Lexeme) :
              readTrailer value (lexeme :: property :: left) = (none, property :: left) := by
            rw [readTrailer.eq_def]
            simp only [htoken, hproperty]
          rw [join, hread, hread]
          exact ⟨rfl, hwithin.tail⟩
    | leftParen =>
      have hjoin := hstep (by rw [htoken]; rintro ⟨⟩)
      rw [Follows, hjoin, readTrailer_call htoken, readTrailer_call htoken, ← hjoin]
      have harguments := (ih rest (Nat.lt_succ_self _) hwithin.tail).arguments .rightParen
        (by decide) (by decide) (by decide)
      exact andThen_join harguments
        fun arguments after hshorter hafter => (ih after hshorter hafter).trailer _
    | template text =>
      have hread (left : List Lexeme) :
          readTrailer value (lexeme :: left) = readTrailer (.sql text) left := by
        rw [readTrailer.eq_def]
        simp only [htoken]
      rw [Follows, hstep (by rw [htoken]; rintro ⟨⟩), hread, hread]
      exact (ih rest (Nat.lt_succ_self _) hwithin.tail).trailer _
    | bang =>
      have hread (left : List Lexeme) :
          readTrailer value (lexeme :: left) = readTrailer value left := by
        rw [readTrailer.eq_def]
        simp only [htoken]
      rw [Follows, hstep (by rw [htoken]; rintro ⟨⟩), hread, hread]
      exact (ih rest (Nat.lt_succ_self _) hwithin.tail).trailer _
    | word name =>
      have hread (left : List Lexeme) : readTrailer value (lexeme :: left) =
          if name == "as" || name == "satisfies" then readTrailer value (skipType left)
          else (some value, lexeme :: left) := by
        rw [readTrailer.eq_def]
        simp only [htoken]
      have hjoin := hstep (by rw [htoken]; rintro ⟨⟩)
      rw [Follows, hjoin, hread, hread]
      split
      · rw [skipType_join hwithin.tail]
        have hlength := (suffix_skipType rest).length_le
        exact (ih _ (Nat.lt_succ_of_le hlength)
          (hwithin.tail.of_suffix (suffix_skipType rest))).trailer _
      · rw [← hjoin]
        exact ⟨rfl, hwithin⟩
    | _ =>
      have hread (left : List Lexeme) :
          readTrailer value (lexeme :: left) = (some value, lexeme :: left) := by
        rw [readTrailer.eq_def]
        simp only [htoken]
      rw [Follows, join, hread, hread]
      exact ⟨rfl, hwithin⟩

theorem follows_readArrow : sequel.Follows readArrow row := by
  obtain ⟨hjoin, hleft⟩ := follows_readParameters hwithin
  rw [Follows, readArrow_eq, readArrow_eq, hjoin]
  generalize readParameters row = outcome at hleft ⊢
  obtain ⟨_ | names, left⟩ := outcome
  · exact ⟨rfl, hleft⟩
  · exact arrowBody_join ih hleft

/-- An expression with nothing done to it is read within the row. -/
theorem follows_readPrimary : sequel.Follows readPrimary row := by
  cases row with
  | nil =>
    have hnothing : readPrimary [] = (none, []) := by
      rw [readPrimary.eq_def]
      rfl
    rw [Follows, hnothing]
    exact ⟨sequel.readPrimary_rest, .nil⟩
  | cons lexeme rest =>
    rw [Follows, readPrimary.eq_def, readPrimary.eq_def (lexeme :: rest), isArrowAhead_join hwithin]
    by_cases harrow : isArrowAhead (lexeme :: rest) = true
    · rw [if_pos harrow, if_pos harrow]
      exact follows_readArrow hwithin ih
    · rw [if_neg harrow, if_neg harrow]
      have hstep (htoken : lexeme.token ≠ .equals) :
          sequel.join (lexeme :: rest) = lexeme :: sequel.join rest := join_cons hwithin htoken
      have hrest := ih rest (Nat.lt_succ_self _) hwithin.tail
      cases htoken : lexeme.token with
      | word name =>
        rw [hstep (by rw [htoken]; rintro ⟨⟩)]
        by_cases hnew : name = "new"
        · subst hnew
          simp only [htoken]
          exact hrest.expression
        · simp only [htoken]
          exact ⟨rfl, hwithin.tail⟩
      | string | template | number =>
        rw [hstep (by rw [htoken]; rintro ⟨⟩)]
        simp only [htoken]
        exact ⟨rfl, hwithin.tail⟩
      | operator spelling =>
        by_cases hminus : spelling = "-"
        · subst hminus
          rw [hstep (by rw [htoken]; rintro ⟨⟩)]
          simp only [htoken]
          exact follows_negative hwithin.tail
        · rw [join]
          simp only [htoken]
          split
          case h_10 => exact ⟨rfl, hwithin⟩
          all_goals
            rename_i heq
            first
            | exact absurd (Token.operator.inj heq) hminus
            | cases heq
      | leftBracket =>
        rw [hstep (by rw [htoken]; rintro ⟨⟩)]
        simp only [htoken]
        exact (hrest.arguments .rightBracket (by decide) (by decide) (by decide)).map _
      | leftBrace =>
        rw [hstep (by rw [htoken]; rintro ⟨⟩)]
        simp only [htoken]
        exact hrest.entries.map _
      | leftParen =>
        rw [hstep (by rw [htoken]; rintro ⟨⟩)]
        simp only [htoken]
        obtain ⟨hjoin, hafter⟩ := hrest.expression
        rw [hjoin]
        generalize readExpression rest = outcome at hafter ⊢
        obtain ⟨_ | value, after⟩ := outcome
        · exact ⟨rfl, hafter⟩
        · refine ⟨?_, hafter.of_suffix (suffix_skip _ _)⟩
          have hskip : skip .rightParen (sequel.join after) =
              sequel.join (skip .rightParen after) :=
            skip_join hafter (by decide) (by decide) (by decide)
          simp only [Prod.map, id, Option.isSome_some, if_true, hskip]
      | _ =>
        rw [join]
        simp only [htoken]
        exact ⟨rfl, hwithin⟩

theorem follows_readExpression : sequel.Follows readExpression row := by
  rw [Follows, readExpression_eq, readExpression_eq]
  exact andThen_join (follows_readPrimary hwithin ih) fun value after hshorter hafter =>
    (ih after hshorter hafter).trailer value

/-- A list of arguments is read within the row, if its closing bracket does not end the row. -/
theorem follows_readArguments {close : Token} (hsemicolon : close ≠ .semicolon)
    (heof : close ≠ .eof) (hequals : close ≠ .equals) :
    sequel.Follows (readArguments close) row := by
  cases row with
  | nil =>
    have hnothing : readArguments close [] = (none, []) := by rw [readArguments.eq_def]
    rw [Follows, hnothing]
    refine ⟨?_, .nil⟩
    change readArguments close sequel.rest = (none, sequel.rest)
    have hread := sequel.readExpression_rest
    rcases sequel.rest_cases with hnil | ⟨lexeme, more, hrest, hends⟩
    · rw [hnil, hnothing]
    · rw [hrest] at hread ⊢
      rw [readArguments.eq_def]
      rcases hends with hends | hends
      · simp only [hends, if_neg hsemicolon.symm, hread]
      · simp only [hends, if_neg heof.symm]
  | cons lexeme rest =>
    have hstep (htoken : lexeme.token ≠ .equals) :
        sequel.join (lexeme :: rest) = lexeme :: sequel.join rest := join_cons hwithin htoken
    have hmore {left : List Lexeme} (hshorter : left.length < (lexeme :: rest).length)
        (hleft : sequel.Within left) : sequel.Follows (readArguments close) left :=
      (ih left hshorter hleft).arguments close hsemicolon heof hequals
    by_cases hclose : lexeme.token = close
    · rw [Follows, hstep (by rwa [hclose]), readArguments.eq_def, readArguments.eq_def _ (_ :: _)]
      simp only [if_pos hclose]
      exact ⟨rfl, hwithin.tail⟩
    · cases htoken : lexeme.token with
      | comma =>
        rw [htoken] at hclose
        have hread (left : List Lexeme) :
            readArguments close (lexeme :: left) = readArguments close left := by
          rw [readArguments.eq_def]
          simp only [htoken, if_neg hclose]
        rw [Follows, hstep (by rw [htoken]; rintro ⟨⟩), hread, hread]
        exact hmore (Nat.lt_succ_self _) hwithin.tail
      | eof =>
        rw [htoken] at hclose
        have hread (left : List Lexeme) :
            readArguments close (lexeme :: left) = (none, lexeme :: left) := by
          rw [readArguments.eq_def]
          simp only [htoken, if_neg hclose]
        rw [Follows, join, hread, hread]
        exact ⟨rfl, hwithin⟩
      | spread =>
        have hjoin := hstep (by rw [htoken]; rintro ⟨⟩)
        rw [Follows, hjoin, readArguments_spread hclose htoken, readArguments_spread hclose htoken,
          ← hjoin]
        exact andThen_join (ih rest (Nat.lt_succ_self _) hwithin.tail).expression
          fun _ after hshorter hafter => hmore hshorter hafter
      | _ =>
        have hitem : startsItem lexeme.token = true := by rw [htoken]; rfl
        rw [Follows, join, readArguments_item hclose hitem, readArguments_item hclose hitem]
        exact andThen_join (follows_readExpression hwithin ih)
          fun item after hshorter hafter => (hmore hshorter hafter).map _

omit hwithin in
/-- What follows the name of a method in an object is skipped within the row. -/
theorem afterMethod_join {sign : Lexeme} (hleft : sequel.Within (sign :: left))
    (htoken : sign.token = .leftParen) (hshorter : left.length < row.length) :
    afterMethod sign (sequel.join left) = Prod.map id sequel.join (afterMethod sign left) ∧
      sequel.Within (afterMethod sign left).2 := by
  have hne : left ≠ [] := by
    rintro rfl
    cases htoken.symm.trans hleft.last
  rw [afterMethod, afterMethod, closing?_join hleft.tail hne 0]
  cases hclosing : closing? 1 left with
  | none =>
    refine ⟨?_, hleft⟩
    rw [Prod.map, join_cons hleft (by rw [htoken]; rintro ⟨⟩)]
    rfl
  | some found =>
    obtain ⟨inside, after⟩ := found
    have hsuffix := suffix_of_closing? hclosing
    have hafter := hleft.tail.of_suffix hsuffix
    have hlength := hsuffix.length_le
    have hbrace : next (sequel.join after) = .leftBrace ↔ next after = .leftBrace :=
      next_join_iff (by decide) (by decide)
    dsimp only [Option.map_some, Prod.map, id]
    by_cases hnext : next after = .leftBrace
    · rw [if_pos (hbrace.2 hnext), if_pos hnext, afterGroup?_join hafter hnext]
      cases hgroup : afterGroup? after with
      | none => exact ⟨rfl, hafter⟩
      | some rest =>
        have hrest := suffix_of_afterGroup? hgroup
        have hlength' := hrest.length_le
        exact (ih rest (by omega) (hafter.of_suffix hrest)).entries
    · rw [if_neg (mt hbrace.1 hnext), if_neg hnext]
      exact (ih after (by omega) hafter).entries

omit hwithin ih in
/-- An entry with a key is read within the row, whatever its sign is. -/
theorem follows_keyEntry {lexeme : Lexeme} {rest : List Lexeme}
    (hwithin : sequel.Within (lexeme :: rest))
    (ih : ∀ left, left.length < (lexeme :: rest).length → sequel.Within left → sequel.ReadsOn left)
    {key : String} (hkey : keyOf? lexeme.token = some key) :
    sequel.Follows readEntries (lexeme :: rest) := by
  have hother : lexeme.token ≠ .equals := fun heq => by rw [heq] at hkey; cases hkey
  cases rest with
  | nil => exact absurd hwithin.last hother
  | cons sign more =>
    have hjoin := join_cons hwithin hother
    have hshorter : more.length < (lexeme :: sign :: more).length := by
      rw [List.length_cons, List.length_cons]
      omega
    rw [Follows, hjoin]
    by_cases hcolon : sign.token = .colon
    · have hjoin' := join_cons hwithin.tail (by rw [hcolon]; rintro ⟨⟩)
      rw [hjoin', readEntries_key hkey, readEntries_key hkey, if_pos hcolon, if_pos hcolon,
        ← hjoin', ← hjoin]
      exact andThen_join (ih more hshorter hwithin.tail.tail).expression
        fun value after hshorter hafter => (ih after hshorter hafter).entries.map _
    · by_cases hparen : sign.token = .leftParen
      · rw [join_cons hwithin.tail (by rw [hparen]; rintro ⟨⟩),
          readEntries_key hkey, readEntries_key hkey, if_neg hcolon, if_neg hcolon,
          if_pos hparen, if_pos hparen]
        exact afterMethod_join ih hwithin.tail hparen hshorter
      · have hmore := (ih (sign :: more) (Nat.lt_succ_self _) hwithin.tail).entries
        rw [join, readEntries_key hkey, readEntries_key hkey, if_neg hcolon, if_neg hcolon,
          if_neg hparen, if_neg hparen]
        exact hmore.map _

/-- The entries of an object are read within the row. -/
theorem follows_readEntries : sequel.Follows readEntries row := by
  cases row with
  | nil =>
    have hnothing : readEntries [] = (none, []) := by rw [readEntries.eq_def]
    rw [Follows, hnothing]
    refine ⟨?_, .nil⟩
    change readEntries sequel.rest = (none, sequel.rest)
    rcases sequel.rest_cases with hnil | ⟨lexeme, more, hrest, hends⟩
    · rw [hnil, hnothing]
    · rw [hrest, readEntries.eq_def]
      rcases hends with hends | hends <;> simp only [hends]
  | cons lexeme rest =>
    have hstep (htoken : lexeme.token ≠ .equals) :
        sequel.join (lexeme :: rest) = lexeme :: sequel.join rest := join_cons hwithin htoken
    have hmore {left : List Lexeme} (hshorter : left.length < (lexeme :: rest).length)
        (hleft : sequel.Within left) : sequel.ReadsOn left := ih left hshorter hleft
    cases htoken : lexeme.token with
    | rightBrace =>
      have hread (left : List Lexeme) : readEntries (lexeme :: left) = (some [], left) := by
        rw [readEntries.eq_def]
        simp only [htoken]
      rw [Follows, hstep (by rw [htoken]; rintro ⟨⟩), hread, hread]
      exact ⟨rfl, hwithin.tail⟩
    | comma =>
      have hread (left : List Lexeme) : readEntries (lexeme :: left) = readEntries left := by
        rw [readEntries.eq_def]
        simp only [htoken]
      rw [Follows, hstep (by rw [htoken]; rintro ⟨⟩), hread, hread]
      exact (hmore (Nat.lt_succ_self _) hwithin.tail).entries
    | spread =>
      have hjoin := hstep (by rw [htoken]; rintro ⟨⟩)
      rw [Follows, hjoin, readEntries_spread htoken, readEntries_spread htoken, ← hjoin]
      exact andThen_join (hmore (Nat.lt_succ_self _) hwithin.tail).expression
        fun _ after hshorter hafter => (hmore hshorter hafter).entries
    | word key | string key | number key =>
      exact follows_keyEntry hwithin ih (show keyOf? lexeme.token = some key by rw [htoken]; rfl)
    | leftBracket =>
      have hother : lexeme.token ≠ .equals := by rw [htoken]; rintro ⟨⟩
      have hne : rest ≠ [] := by
        rintro rfl
        exact hother hwithin.last
      have hjoin := hstep hother
      rw [Follows, hjoin, readEntries_computed htoken, readEntries_computed htoken,
        closing?_join hwithin.tail hne 0]
      cases hclosing : closing? 1 rest with
      | none =>
        refine ⟨?_, hwithin⟩
        rw [Prod.map, hjoin]
        rfl
      | some found =>
        have hafter := hwithin.tail.of_suffix (suffix_of_closing? hclosing)
        have hcolon := hafter.of_suffix (suffix_skip .colon found.2)
        have hskip : skip .colon (sequel.join found.2) = sequel.join (skip .colon found.2) :=
          skip_join hafter (by decide) (by decide) (by decide)
        dsimp only [Option.map_some, Prod.map, id]
        rw [hskip, ← hjoin]
        by_cases hshorter : (skip .colon found.2).length < (lexeme :: rest).length
        · rw [if_pos hshorter, if_pos (sequel.length_join_lt_iff.2 hshorter)]
          exact andThen_join (hmore hshorter hcolon).expression
            fun _ after hshorter hafter => (hmore hshorter hafter).entries
        · rw [if_neg hshorter, if_neg (mt sequel.length_join_lt_iff.1 hshorter)]
          exact ⟨rfl, hcolon⟩
    | _ =>
      have hread (left : List Lexeme) : readEntries (lexeme :: left) = (none, lexeme :: left) := by
        rw [readEntries.eq_def]
        simp only [htoken]
      rw [Follows, join, hread, hread]
      exact ⟨rfl, hwithin⟩

end Readers

/-- What stands behind the sign changes nothing in what is read up to it. -/
theorem readsOn (hwithin : sequel.Within row) : sequel.ReadsOn row := by
  induction hsize : row.length using Nat.strongRecOn generalizing row with
  | _ size ih =>
    have hshorter (left : List Lexeme) (hlength : left.length < row.length)
        (hleft : sequel.Within left) : sequel.ReadsOn left :=
      ih left.length (hsize ▸ hlength) hleft rfl
    exact ⟨follows_readExpression hwithin hshorter, follows_readTrailer hwithin hshorter,
      fun close => follows_readArguments hwithin hshorter, follows_readEntries hwithin hshorter⟩

end Sequel

end SchemaEvolution.Drizzle
