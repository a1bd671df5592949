import SchemaEvolution.Proofs.Drizzle.CutDeclaration

/-!
# Reading expressions moves on

The readers of expressions stop where a reading leaves as much as it has found.  They never have
to: readers that call one another with no such stop come to an end, with the same outcome.  A body
in braces is left behind the bracket that matches its first one, which may be before the place that
the value in it has been read to.  The number of lexemes left from the first bracket on goes down
all the same, and readers that start at one place call one another in one order only.
-/

namespace SchemaEvolution.Drizzle

variable {α β : Type} {row left : List Lexeme} {lexeme : Lexeme}

/-- Goes on with what has been read, if there is an outcome. -/
def thenIn (outcome : Option (Option α × List Lexeme))
    (more : α → List Lexeme → Option (Option β × List Lexeme)) :
    Option (Option β × List Lexeme) :=
  match outcome with
  | none => none
  | some (none, after) => some (none, after)
  | some (some value, after) => more value after

/-- Makes something of what has been read, if there is an outcome. -/
def mapIn (f : α → β) (outcome : Option (Option α × List Lexeme)) :
    Option (Option β × List Lexeme) :=
  outcome.map fun found => (found.1.map f, found.2)

/-- The body of a function after its arrow, with a reader of expressions. -/
def arrowBodyIn (read : List Lexeme → Option (Option Expression × List Lexeme))
    (names : List String) (body : List Lexeme) : Option (Option Expression × List Lexeme) :=
  if next body = .leftBrace then
    match closing? 1 body.tail with
    | none => some (none, body)
    | some (inside, after) =>
      match afterReturn? inside.length body.tail with
      | none => some (some (.arrow names .unknown), after)
      | some returned =>
        (read returned).map fun found => (some (.arrow names (found.1.getD .unknown)), after)
  else mapIn (.arrow names) (read body)

/-- What follows a method, whose parameters come next, with a reader for it. -/
def afterMethodIn (read : List Lexeme → Option (Option α × List Lexeme)) (row : List Lexeme) :
    Option (Option α × List Lexeme) :=
  match afterGroup? row with
  | none => some (none, row)
  | some after =>
    if next after = .leftBrace then
      match afterGroup? after with
      | none => some (none, after)
      | some more => read more
    else read after

mutual

/-- Reads an expression with everything that is done to it.  There is no outcome where more than
`depth` readings stand in one another; nothing else stops a reading. -/
def expressionIn (depth : Nat) (row : List Lexeme) : Option (Option Expression × List Lexeme) :=
  match depth with
  | 0 => none
  | depth + 1 => thenIn (primaryIn depth row) fun value after => trailerIn depth value after

/-- Reads the members, calls, templates and types that follow an expression. -/
def trailerIn (depth : Nat) (value : Expression) (row : List Lexeme) :
    Option (Option Expression × List Lexeme) :=
  match depth with
  | 0 => none
  | depth + 1 =>
    match row with
    | [] => some (some value, [])
    | lexeme :: rest =>
      match lexeme.token with
      | .dot =>
        match next rest with
        | .word name =>
          trailerIn depth (.member value name) (skipOptionalTypeArguments rest.tail)
        | _ => some (none, rest)
      | .leftParen =>
        thenIn (argumentsIn depth .rightParen rest) fun arguments after =>
          trailerIn depth (.call value arguments) after
      | .template text => trailerIn depth (.sql text) rest
      | .bang => trailerIn depth value rest
      | .word name =>
        if name == "as" || name == "satisfies" then trailerIn depth value (skipType rest)
        else some (some value, lexeme :: rest)
      | _ => some (some value, lexeme :: rest)

/-- Reads an expression with nothing done to it. -/
def primaryIn (depth : Nat) (row : List Lexeme) : Option (Option Expression × List Lexeme) :=
  match depth with
  | 0 => none
  | depth + 1 =>
    if isArrowAhead row then arrowIn depth row
    else
      match row with
      | [] => some (none, [])
      | lexeme :: rest =>
        match lexeme.token with
        | .word name =>
          if name = "new" then expressionIn depth rest
          else some (some (wordExpression name), rest)
        | .string value => some (some (.string value), rest)
        | .template text => some (some (.string text), rest)
        | .number digits => some (some (.number digits), rest)
        | .operator spelling =>
          if spelling = "-" then some (negative rest) else some (none, lexeme :: rest)
        | .leftBracket => mapIn .list (argumentsIn depth .rightBracket rest)
        | .leftBrace => mapIn .object (entriesIn depth rest)
        | .leftParen =>
          thenIn (expressionIn depth rest) fun value after =>
            some (some value, skip .rightParen after)
        | _ => some (none, lexeme :: rest)

def arrowIn (depth : Nat) (row : List Lexeme) : Option (Option Expression × List Lexeme) :=
  match depth with
  | 0 => none
  | depth + 1 =>
    thenIn (some (readParameters row)) fun names body =>
      arrowBodyIn (expressionIn depth) names body

/-- Reads expressions up to a closing bracket. -/
def argumentsIn (depth : Nat) (close : Token) (row : List Lexeme) :
    Option (Option (List Expression) × List Lexeme) :=
  match depth with
  | 0 => none
  | depth + 1 =>
    match row with
    | [] => some (none, [])
    | lexeme :: rest =>
      if lexeme.token = close then some (some [], rest)
      else
        match lexeme.token with
        | .comma => argumentsIn depth close rest
        | .eof => some (none, lexeme :: rest)
        | .spread => thenIn (expressionIn depth rest) fun _ after => argumentsIn depth close after
        | _ =>
          thenIn (expressionIn depth (lexeme :: rest)) fun item after =>
            mapIn (item :: ·) (argumentsIn depth close after)

/-- Reads the entries of an object up to its closing brace. -/
def entriesIn (depth : Nat) (row : List Lexeme) :
    Option (Option (List (String × Expression)) × List Lexeme) :=
  match depth with
  | 0 => none
  | depth + 1 =>
    match row with
    | [] => some (none, [])
    | lexeme :: rest =>
      match lexeme.token with
      | .rightBrace => some (some [], rest)
      | .comma => entriesIn depth rest
      | .spread => thenIn (expressionIn depth rest) fun _ after => entriesIn depth after
      | .word key | .string key | .number key =>
        if next rest = .colon then
          thenIn (expressionIn depth rest.tail) fun value after =>
            mapIn ((key, value) :: ·) (entriesIn depth after)
        else if next rest = .leftParen then afterMethodIn (entriesIn depth) rest
        else mapIn ((key, .word key) :: ·) (entriesIn depth rest)
      | .leftBracket =>
        match closing? 1 rest with
        | none => some (none, lexeme :: rest)
        | some (_, after) =>
          thenIn (expressionIn depth (skip .colon after)) fun _ after => entriesIn depth after
      | _ => some (none, lexeme :: rest)

end

/-- A reading comes to an end with a result, and goes on from a place that is not before the one it
has started at. -/
structure Goes (row : List Lexeme) (outcome : Option (Option α × List Lexeme))
    (result : Option α × List Lexeme) : Prop where
  ends : outcome = some result
  suffix : result.2 <:+ row

/-- As `Goes`, and what has been read is not empty. -/
structure Reads (row : List Lexeme) (outcome : Option (Option α × List Lexeme))
    (result : Option α × List Lexeme) : Prop extends Goes row outcome result where
  shorter : result.1.isSome → result.2.length < row.length

section Outcomes

variable {outcome : Option (Option α × List Lexeme)} {result : Option α × List Lexeme}

theorem Reads.failed (hleft : left <:+ row) :
    Reads (α := α) row (some (none, left)) (none, left) :=
  ⟨⟨rfl, hleft⟩, nofun⟩

theorem Reads.found (hleft : left <:+ row) (value : Option α) :
    Reads (lexeme :: row) (some (value, left)) (value, left) :=
  ⟨⟨rfl, hleft.trans (List.suffix_cons _ _)⟩, fun _ => Nat.lt_succ_of_le hleft.length_le⟩

/-- Where a reading starts behind a lexeme, that lexeme has been read. -/
theorem Goes.behind (hgoes : Goes left outcome result) (hleft : left <:+ row) :
    Reads (lexeme :: row) outcome result :=
  have hsuffix := hgoes.suffix.trans hleft
  ⟨⟨hgoes.ends, hsuffix.trans (List.suffix_cons _ _)⟩,
    fun _ => Nat.lt_succ_of_le hsuffix.length_le⟩

theorem Reads.map (hreads : Reads row outcome result) (f : α → β) :
    Reads row (mapIn f outcome) (result.1.map f, result.2) := by
  refine ⟨⟨by rw [hreads.ends]; rfl, hreads.suffix⟩, fun hsome => hreads.shorter ?_⟩
  rwa [Option.isSome_map] at hsome

/-- What has been read is never empty, so reading goes on. -/
theorem Reads.andThen (hreads : Reads left outcome result) (hleft : left <:+ row)
    {moreIn : α → List Lexeme → Option (Option β × List Lexeme)}
    {more : α → List Lexeme → Option β × List Lexeme}
    (hmore : ∀ value after, after.length < left.length →
      Goes after (moreIn value after) (more value after)) :
    Reads row (thenIn outcome moreIn) (andThen row.length result more) := by
  obtain ⟨⟨hends, hsuffix⟩, hshorter⟩ := hreads
  subst hends
  rcases result with ⟨_ | value, after⟩
  · exact .failed (hsuffix.trans hleft)
  · have hread : after.length < left.length := hshorter rfl
    have hbefore : after.length < row.length := Nat.lt_of_lt_of_le hread hleft.length_le
    obtain ⟨hends, hafter⟩ := hmore value after hread
    rw [Drizzle.andThen, if_pos hbefore]
    exact ⟨⟨hends, hafter.trans (hsuffix.trans hleft)⟩,
      fun _ => Nat.lt_of_le_of_lt hafter.length_le hbefore⟩

end Outcomes

theorem reads_beforeArrow (names : List String) (hleft : left <:+ row) :
    Reads (lexeme :: row) (some (beforeArrow names left)) (beforeArrow names left) := by
  rw [beforeArrow]
  split
  · exact .found ((List.tail_suffix left).trans hleft) _
  · exact .failed (hleft.trans (List.suffix_cons _ _))

/-- Parameters leave an end of the row. -/
theorem reads_readParameters (row : List Lexeme) :
    Reads row (some (readParameters row)) (readParameters row) := by
  cases row with
  | nil => exact .failed (List.suffix_refl _)
  | cons lexeme rest =>
    cases htoken : lexeme.token with
    | word name =>
      simp only [readParameters, htoken]
      exact reads_beforeArrow [name] (List.suffix_refl rest)
    | leftParen =>
      simp only [readParameters, htoken]
      cases hclosing : closing? 1 rest with
      | none => exact .failed (List.suffix_refl _)
      | some found =>
        have hafter : found.2 <:+ rest := suffix_of_closing? hclosing
        refine reads_beforeArrow (parameterNames .leftParen found.1) ?_
        split
        · exact (suffix_skipType _).trans ((List.tail_suffix _).trans hafter)
        · exact hafter
    | _ =>
      simp only [readParameters, htoken]
      exact .failed (List.suffix_refl _)

theorem goes_negative (row : List Lexeme) : Goes row (some (negative row)) (negative row) := by
  refine ⟨rfl, ?_⟩
  rw [negative]
  split
  · exact List.tail_suffix row
  · exact List.suffix_refl row

/-- Readings of rows that are short enough for a depth end with what the readers give.  A reader
that calls another one at the same place needs more than that one. -/
structure Settled (depth : Nat) : Prop where
  expression : ∀ row, 4 * row.length + 2 < depth →
    Reads row (expressionIn depth row) (readExpression row)
  trailer : ∀ value row, 4 * row.length < depth →
    Goes row (trailerIn depth value row) (readTrailer value row)
  primary : ∀ row, 4 * row.length + 1 < depth →
    Reads row (primaryIn depth row) (readPrimary row)
  arrow : ∀ row, 4 * row.length < depth → Reads row (arrowIn depth row) (readArrow row)
  arguments : ∀ close row, 4 * row.length + 3 < depth →
    Reads row (argumentsIn depth close row) (readArguments close row)
  entries : ∀ row, 4 * row.length + 3 < depth →
    Reads row (entriesIn depth row) (readEntries row)

namespace Settled

variable {depth : Nat} (ih : Settled depth)

include ih

theorem succ_expression (hdepth : 4 * row.length + 2 < depth + 1) :
    Reads row (expressionIn (depth + 1) row) (readExpression row) := by
  rw [expressionIn, readExpression_eq]
  exact (ih.primary row (by omega)).andThen (List.suffix_refl _)
    fun value after hafter => ih.trailer value after (by omega)

/-- With one more level of depth a trailer is read as without guards. -/
theorem succ_trailer (value : Expression) (hdepth : 4 * row.length < depth + 1) :
    Goes row (trailerIn (depth + 1) value row) (readTrailer value row) := by
  cases row with
  | nil =>
    rw [trailerIn, readTrailer.eq_def]
    exact ⟨rfl, List.suffix_refl _⟩
  | cons lexeme rest =>
    rw [List.length_cons] at hdepth
    have hmore (value : Expression) {left : List Lexeme} (hleft : left <:+ rest) :
        Goes (lexeme :: rest) (trailerIn depth value left) (readTrailer value left) :=
      have hlength := hleft.length_le
      ((ih.trailer value left (by omega)).behind hleft).toGoes
    rw [trailerIn, readTrailer.eq_def]
    cases htoken : lexeme.token with
    | dot =>
      simp only [htoken]
      cases rest with
      | nil => exact ⟨rfl, List.suffix_cons _ _⟩
      | cons property more =>
        have hsuffix :=
          (suffix_skipOptionalTypeArguments more).trans (List.suffix_cons property more)
        simp only [next, List.tail_cons]
        cases hproperty : property.token with
        | word name => exact hmore _ hsuffix
        | _ => exact ⟨rfl, List.suffix_cons _ _⟩
    | leftParen =>
      have hcall := (ih.arguments .rightParen rest (by omega)).andThen
        (List.suffix_cons lexeme rest) fun arguments after hafter =>
          ih.trailer (.call value arguments) after (by omega)
      have hread := readTrailer_call htoken value rest
      rw [readTrailer.eq_def] at hread
      simp only [htoken] at hread ⊢
      rw [hread]
      exact hcall.toGoes
    | template text =>
      simp only [htoken]
      exact hmore _ (List.suffix_refl _)
    | bang =>
      simp only [htoken]
      exact hmore _ (List.suffix_refl _)
    | word name =>
      simp only [htoken]
      split
      · exact hmore _ (suffix_skipType rest)
      · exact ⟨rfl, List.suffix_refl _⟩
    | _ =>
      simp only [htoken]
      exact ⟨rfl, List.suffix_refl _⟩

/-- With one more level of depth an expression with nothing done to it is read as without guards. -/
theorem succ_primary (hdepth : 4 * row.length + 1 < depth + 1) :
    Reads row (primaryIn (depth + 1) row) (readPrimary row) := by
  rw [primaryIn.eq_def, readPrimary.eq_def]
  dsimp only
  by_cases harrow : isArrowAhead row = true
  · rw [if_pos harrow, if_pos harrow]
    exact ih.arrow row (by omega)
  · rw [if_neg harrow, if_neg harrow]
    cases row with
    | nil => exact .failed (List.suffix_refl _)
    | cons lexeme rest =>
      rw [List.length_cons] at hdepth
      have hrest := ih.expression rest (by omega)
      cases htoken : lexeme.token with
      | word name =>
        by_cases hnew : name = "new"
        · subst hnew
          simp only [htoken, if_true]
          exact hrest.behind (List.suffix_refl _)
        · simp only [htoken, if_neg hnew]
          exact .found (List.suffix_refl _) _
      | string | template | number =>
        simp only [htoken]
        exact .found (List.suffix_refl _) _
      | operator spelling =>
        by_cases hminus : spelling = "-"
        · subst hminus
          simp only [htoken, if_true]
          exact (goes_negative rest).behind (List.suffix_refl _)
        · simp only [htoken, if_neg hminus]
          split
          case h_10 => exact .failed (List.suffix_refl _)
          all_goals
            rename_i heq
            first
            | exact absurd (Token.operator.inj heq) hminus
            | cases heq
      | leftBracket =>
        simp only [htoken]
        exact ((ih.arguments .rightBracket rest (by omega)).map _).behind (List.suffix_refl _)
      | leftBrace =>
        simp only [htoken]
        exact ((ih.entries rest (by omega)).map _).behind (List.suffix_refl _)
      | leftParen =>
        simp only [htoken]
        obtain ⟨⟨hends, hsuffix⟩, -⟩ := hrest
        rw [hends]
        generalize readExpression rest = outcome at hsuffix ⊢
        obtain ⟨_ | value, after⟩ := outcome
        · exact .failed (hsuffix.trans (List.suffix_cons _ _))
        · exact .found ((suffix_skip _ _).trans hsuffix) _
      | _ =>
        simp only [htoken]
        exact .failed (List.suffix_refl _)

/-- The body of a function is read as without guards, since it is shorter than the function. -/
theorem goes_arrowBody (names : List String) {body : List Lexeme}
    (hbody : body.length < row.length) (hdepth : 4 * row.length < depth + 1) :
    Goes body (arrowBodyIn (expressionIn depth) names body) (arrowBody row.length names body) := by
  have hread := ih.expression body (by omega)
  cases body with
  | nil =>
    rw [readExpression_nil] at hread
    exact (hread.map _).toGoes
  | cons first rest =>
    have hnext : next (first :: rest) = first.token := rfl
    rw [arrowBodyIn, arrowBody, if_pos hbody, hnext]
    by_cases hbrace : first.token = .leftBrace
    · rw [if_pos hbrace, if_pos hbrace, bracedBody, List.tail_cons]
      cases hclosing : closing? 1 rest with
      | none => exact ⟨rfl, List.suffix_refl _⟩
      | some found =>
        have hafter := (suffix_of_closing? hclosing).trans (List.suffix_cons first rest)
        dsimp only
        cases hreturn : afterReturn? found.1.length rest with
        | none => exact ⟨rfl, hafter⟩
        | some returned =>
          -- The value may be read past the bracket that matches the first one.
          have hlength := (suffix_of_afterReturn? hreturn).length_le
          rw [List.length_cons] at hbody
          have hreturned := ih.expression returned (by omega)
          refine ⟨?_, hafter⟩
          dsimp only
          rw [hreturned.ends]
          rfl
    · rw [if_neg hbrace, if_neg hbrace]
      exact (hread.map _).toGoes

/-- With one more level of depth a function is read as without guards. -/
theorem succ_arrow (hdepth : 4 * row.length < depth + 1) :
    Reads row (arrowIn (depth + 1) row) (readArrow row) := by
  have hparameters := reads_readParameters row
  rw [arrowIn, readArrow_eq]
  generalize readParameters row = outcome at hparameters ⊢
  obtain ⟨_ | names, body⟩ := outcome
  · exact .failed hparameters.suffix
  · have hbody : body.length < row.length := hparameters.shorter rfl
    obtain ⟨hends, hsuffix⟩ := ih.goes_arrowBody names hbody hdepth
    exact ⟨⟨hends, hsuffix.trans hparameters.suffix⟩,
      fun _ => Nat.lt_of_le_of_lt hsuffix.length_le hbody⟩

/-- With one more level of depth arguments are read as without guards, for each of them is shorter.
-/
theorem succ_arguments (close : Token) (hdepth : 4 * row.length + 3 < depth + 1) :
    Reads row (argumentsIn (depth + 1) close row) (readArguments close row) := by
  cases row with
  | nil =>
    rw [argumentsIn, readArguments.eq_def]
    exact .failed (List.suffix_refl _)
  | cons lexeme rest =>
    have hmore {left : List Lexeme} (hleft : left.length < (lexeme :: rest).length) :=
      ih.arguments close left (by omega)
    have hspread := (ih.expression rest (by rw [List.length_cons] at hdepth; omega)).andThen
      (List.suffix_cons lexeme rest) fun _ after hafter =>
        (hmore (Nat.lt_trans hafter (Nat.lt_succ_self _))).toGoes
    have hitem := (ih.expression (lexeme :: rest) (by omega)).andThen
      (List.suffix_refl _) fun item after hafter => ((hmore hafter).map (item :: ·)).toGoes
    rw [argumentsIn]
    by_cases hclose : lexeme.token = close
    · rw [readArguments.eq_def]
      simp only [if_pos hclose]
      exact .found (List.suffix_refl _) _
    · rw [if_neg hclose]
      cases htoken : lexeme.token with
      | comma =>
        rw [htoken] at hclose
        rw [readArguments.eq_def]
        simp only [htoken, if_neg hclose]
        exact (hmore (Nat.lt_succ_self _)).behind (List.suffix_refl _)
      | eof =>
        rw [htoken] at hclose
        rw [readArguments.eq_def]
        simp only [htoken, if_neg hclose]
        exact .failed (List.suffix_refl _)
      | spread =>
        rw [readArguments_spread hclose htoken]
        exact hspread
      | _ =>
        rw [readArguments_item hclose (by rw [htoken]; rfl)]
        exact hitem

/-- What follows the name of a method is skipped as without guards. -/
theorem goes_afterMethod {sign : Lexeme} {rest : List Lexeme}
    (hdepth : 4 * rest.length + 3 < depth) :
    Goes (sign :: rest) (afterMethodIn (entriesIn depth) (sign :: rest))
      (afterMethod sign rest) := by
  rw [afterMethodIn, afterMethod, afterGroup?]
  cases hclosing : closing? 1 rest with
  | none => exact ⟨rfl, List.suffix_refl _⟩
  | some found =>
    obtain ⟨inside, after⟩ := found
    have hafter := suffix_of_closing? hclosing
    have hlength := hafter.length_le
    dsimp only [Option.map_some]
    by_cases hbrace : next after = .leftBrace
    · rw [if_pos hbrace, if_pos hbrace]
      cases hgroup : afterGroup? after with
      | none => exact ⟨rfl, hafter.trans (List.suffix_cons _ _)⟩
      | some more =>
        have hmore := suffix_of_afterGroup? hgroup
        have hlength' := hmore.length_le
        exact ((ih.entries more (by omega)).behind (hmore.trans hafter)).toGoes
    · rw [if_neg hbrace, if_neg hbrace]
      exact ((ih.entries after (by omega)).behind hafter).toGoes

/-- An entry with a key is read as without guards. -/
theorem succ_keyEntry {rest : List Lexeme} {key : String} (hkey : keyOf? lexeme.token = some key)
    (hdepth : 4 * (lexeme :: rest).length + 3 < depth + 1) :
    Reads (lexeme :: rest) (entriesIn (depth + 1) (lexeme :: rest))
      (readEntries (lexeme :: rest)) := by
  have hstep : entriesIn (depth + 1) (lexeme :: rest) =
      if next rest = .colon then
        thenIn (expressionIn depth rest.tail) fun value after =>
          mapIn ((key, value) :: ·) (entriesIn depth after)
      else if next rest = .leftParen then afterMethodIn (entriesIn depth) rest
      else mapIn ((key, .word key) :: ·) (entriesIn depth rest) := by
    rw [entriesIn]
    cases htoken : lexeme.token with
    | word | string | number =>
      rw [htoken] at hkey
      cases hkey
      rfl
    | _ =>
      rw [htoken] at hkey
      cases hkey
  rw [hstep]
  rw [List.length_cons] at hdepth
  cases rest with
  | nil =>
    have hnothing := ih.entries [] (by simp only [List.length_nil] at hdepth ⊢; omega)
    have hread : readEntries [lexeme] = (none, []) := by
      rw [readEntries.eq_def]
      cases htoken : lexeme.token with
      | word | string | number => simp only [htoken]
      | _ =>
        rw [htoken] at hkey
        cases hkey
    rw [show readEntries [] = (none, []) by rw [readEntries.eq_def]] at hnothing
    rw [hread]
    exact (hnothing.map _).behind (List.suffix_refl _)
  | cons sign more =>
    have hnext : next (sign :: more) = sign.token := rfl
    rw [List.length_cons] at hdepth
    rw [readEntries_key hkey, hnext, List.tail_cons]
    by_cases hcolon : sign.token = .colon
    · rw [if_pos hcolon, if_pos hcolon]
      exact (ih.expression more (by omega)).andThen
        ((List.suffix_cons _ _).trans (List.suffix_cons _ _))
        fun value after hafter => ((ih.entries after (by omega)).map _).toGoes
    · rw [if_neg hcolon, if_neg hcolon]
      by_cases hparen : sign.token = .leftParen
      · rw [if_pos hparen, if_pos hparen]
        exact (ih.goes_afterMethod (by omega)).behind (List.suffix_refl _)
      · rw [if_neg hparen, if_neg hparen]
        exact ((ih.entries (sign :: more) (by rw [List.length_cons]; omega)).map _).behind
          (List.suffix_refl _)

/-- With one more level of depth the entries of an object are read as without guards. -/
theorem succ_entries (hdepth : 4 * row.length + 3 < depth + 1) :
    Reads row (entriesIn (depth + 1) row) (readEntries row) := by
  cases row with
  | nil =>
    rw [entriesIn, readEntries.eq_def]
    exact .failed (List.suffix_refl _)
  | cons lexeme rest =>
    have hmore {left : List Lexeme} (hleft : left.length < (lexeme :: rest).length) :=
      ih.entries left (by omega)
    cases htoken : lexeme.token with
    | rightBrace =>
      rw [entriesIn, readEntries.eq_def]
      simp only [htoken]
      exact .found (List.suffix_refl _) _
    | comma =>
      rw [entriesIn, readEntries.eq_def]
      simp only [htoken]
      exact (hmore (Nat.lt_succ_self _)).behind (List.suffix_refl _)
    | spread =>
      rw [readEntries_spread htoken, entriesIn]
      simp only [htoken]
      rw [List.length_cons] at hdepth
      exact (ih.expression rest (by omega)).andThen (List.suffix_cons lexeme rest)
        fun _ after hafter => (ih.entries after (by omega)).toGoes
    | word key | string key | number key =>
      exact ih.succ_keyEntry (show keyOf? lexeme.token = some key by rw [htoken]; rfl) hdepth
    | leftBracket =>
      rw [readEntries_computed htoken, entriesIn]
      simp only [htoken]
      cases hclosing : closing? 1 rest with
      | none => exact .failed (List.suffix_refl _)
      | some found =>
        have hcolon := (suffix_skip .colon found.2).trans (suffix_of_closing? hclosing)
        have hlength := hcolon.length_le
        rw [List.length_cons] at hdepth
        have hshorter : (skip .colon found.2).length < (lexeme :: rest).length :=
          Nat.lt_succ_of_le hlength
        dsimp only
        rw [if_pos hshorter]
        exact (ih.expression _ (by omega)).andThen (hcolon.trans (List.suffix_cons _ _))
          fun _ after hafter => (ih.entries after (by omega)).toGoes
    | _ =>
      rw [entriesIn, readEntries.eq_def]
      simp only [htoken]
      exact .failed (List.suffix_refl _)

end Settled

/-- At every depth all readers agree, by induction on the depth. -/
theorem settled (depth : Nat) : Settled depth := by
  induction depth with
  | zero =>
    exact ⟨fun _ h => absurd h (Nat.not_lt_zero _), fun _ _ h => absurd h (Nat.not_lt_zero _),
      fun _ h => absurd h (Nat.not_lt_zero _), fun _ h => absurd h (Nat.not_lt_zero _),
      fun _ _ h => absurd h (Nat.not_lt_zero _), fun _ h => absurd h (Nat.not_lt_zero _)⟩
  | succ depth ih =>
    exact ⟨fun _ => ih.succ_expression, fun value _ => ih.succ_trailer value,
      fun _ => ih.succ_primary, fun _ => ih.succ_arrow, fun close _ => ih.succ_arguments close,
      fun _ => ih.succ_entries⟩

theorem suffix_readExpression (row : List Lexeme) : (readExpression row).2 <:+ row :=
  ((settled _).expression row (Nat.lt_succ_self _)).suffix

/-! ## Declarations -/

/-- An initializer fails or is read, and in both cases leaves an end of the row. -/
theorem suffix_of_initializer (row : List Lexeme) :
    (∃ after, initializer row = .error after ∧ after <:+ row) ∨
      ∃ value, initializer row = .ok value ∧ value <:+ row := by
  induction row with
  | nil => exact .inl ⟨[], rfl, List.suffix_refl _⟩
  | cons lexeme rest ih =>
    rw [initializer_cons]
    split
    · exact .inr ⟨rest, rfl, List.suffix_cons _ _⟩
    · split
      · exact .inl ⟨_, rfl, List.suffix_refl _⟩
      · rcases ih with ⟨after, hfound, hsuffix⟩ | ⟨value, hfound, hsuffix⟩
        · exact .inl ⟨after, hfound, hsuffix.trans (List.suffix_cons _ _)⟩
        · exact .inr ⟨value, hfound, hsuffix.trans (List.suffix_cons _ _)⟩

theorem suffix_advance (lexeme : Lexeme) (rest : List Lexeme) :
    advance (lexeme :: rest) <:+ rest := by
  rw [advance]
  split
  · exact List.suffix_refl _
  · split
    · rcases suffix_of_initializer rest.tail with ⟨after, hfound, hsuffix⟩ |
        ⟨value, hfound, hsuffix⟩
      · rw [hfound]
        exact hsuffix.trans (List.tail_suffix rest)
      · rw [hfound]
        exact (suffix_readExpression value).trans (hsuffix.trans (List.tail_suffix rest))
    · exact List.suffix_refl _

/-- The steps come to the end of every row. -/
theorem turns_to_end (state : Extract) (row : List Lexeme) :
    ∃ last, Turns sourceStep state row last [] := by
  induction hsize : row.length using Nat.strongRecOn generalizing state row with
  | _ size ih =>
    cases row with
    | nil => exact ⟨state, .none _ _⟩
    | cons lexeme rest =>
      have hshorter := Nat.lt_succ_of_le (suffix_advance lexeme rest).length_le
      obtain ⟨after, hstep⟩ := sourceStep_eq state lexeme rest
      obtain ⟨last, hturns⟩ := ih _ (hsize ▸ hshorter) after (advance (lexeme :: rest)) rfl
      exact ⟨last, .more hstep hshorter hturns⟩

/-! ## Places -/

/-- What is left of a row from a place on has its own place, which is not in front of that one. -/
theorem exists_drop_of_suffix {tokens : List Lexeme} {start : Nat} (hstart : start ≤ tokens.length)
    (hsuffix : left <:+ tokens.drop start) :
    ∃ stop, start ≤ stop ∧ stop ≤ tokens.length ∧ left = tokens.drop stop ∧
      (left.length < (tokens.drop start).length → start < stop) := by
  have hlength := hsuffix.length_le
  have hleft := List.suffix_iff_eq_drop.1 (hsuffix.trans (List.drop_suffix start tokens))
  rw [List.length_drop] at hlength ⊢
  exact ⟨tokens.length - left.length, by omega, by omega, hleft, by omega⟩

/-- Wherever reading starts in a row, an expression is read in finitely many steps, up to a place
that is not in front of the start and, where there is an expression, behind it.  So each step that
reads declarations comes to a later place, and the steps come to the end of the row. -/
theorem readings_advance (tokens : List Lexeme) (start : Nat) (hstart : start ≤ tokens.length) :
    (∃ value stop, start ≤ stop ∧ stop ≤ tokens.length ∧ (value.isSome → start < stop) ∧
        readExpression (tokens.drop start) = (value, tokens.drop stop) ∧
        ∀ depth, 4 * (tokens.length - start) + 2 < depth →
          expressionIn depth (tokens.drop start) = some (value, tokens.drop stop)) ∧
      (start < tokens.length → ∀ state, ∃ next stop, start < stop ∧ stop ≤ tokens.length ∧
        sourceStep state (tokens.drop start) = .ok (.again next, tokens.drop stop)) ∧
      ∀ state, ∃ last, Turns sourceStep state (tokens.drop start) last [] ∧
        repeatedly sourceStep state (tokens.drop start) = .ok (last, []) := by
  refine ⟨?_, fun hbefore state => ?_, fun state => ?_⟩
  · have hread (depth : Nat) (hdepth : 4 * (tokens.length - start) + 2 < depth) :=
      (settled depth).expression (tokens.drop start) (by rwa [List.length_drop])
    obtain ⟨⟨-, hsuffix⟩, hshorter⟩ := hread _ (Nat.lt_succ_self _)
    obtain ⟨stop, hle, hend, hleft, hlater⟩ := exists_drop_of_suffix hstart hsuffix
    have heq : readExpression (tokens.drop start) =
        ((readExpression (tokens.drop start)).1, tokens.drop stop) := Prod.ext rfl hleft
    exact ⟨_, stop, hle, hend, fun hsome => hlater (hshorter hsome), heq,
      fun depth hdepth => (hread depth hdepth).ends.trans (congrArg some heq)⟩
  · rw [List.drop_eq_getElem_cons hbefore]
    obtain ⟨next, hstep⟩ := sourceStep_eq state tokens[start] (tokens.drop (start + 1))
    obtain ⟨stop, hle, hend, hleft, -⟩ :=
      exists_drop_of_suffix hbefore (suffix_advance tokens[start] (tokens.drop (start + 1)))
    exact ⟨next, stop, hle, hend, hleft ▸ hstep⟩
  · obtain ⟨last, hturns⟩ := turns_to_end state (tokens.drop start)
    refine ⟨last, hturns, hturns.repeatedly_eq.trans ?_⟩
    unfold repeatedly
    rfl

/-- A function whose value has a type with a brace among its arguments. -/
def typedBody : List Lexeme :=
  onLine 1 [.word "x", .arrow, .leftBrace, .word "return", .word "a", .word "as", .word "B", .less,
    .word "C", .rightBrace, .greater, .eof]

/-- The value in the body is read up to the end of its type, and the function only up to the brace
before it. -/
theorem readings_advance_typedBody :
    (0 ≤ typedBody.length ∧
        readExpression typedBody = (some (.arrow ["x"] (.word "a")), typedBody.drop 10)) ∧
      4 ≤ typedBody.length ∧
        readExpression (typedBody.drop 4) = (some (.word "a"), typedBody.drop 11) := by
  have hfunction : expressionIn 51 typedBody =
      some (some (.arrow ["x"] (.word "a")), typedBody.drop 10) := by decide +kernel
  have hvalue : expressionIn 51 (typedBody.drop 4) =
      some (some (.word "a"), typedBody.drop 11) := by decide +kernel
  refine ⟨⟨by decide, ?_⟩, by decide, ?_⟩
  · obtain ⟨⟨value, stop, -, -, -, hread, hin⟩, -, -⟩ := readings_advance typedBody 0 (by decide)
    exact hread.trans (Option.some.inj ((hin 51 (by decide)).symm.trans hfunction))
  · obtain ⟨⟨value, stop, -, -, -, hread, hin⟩, -, -⟩ := readings_advance typedBody 4 (by decide)
    exact hread.trans (Option.some.inj ((hin 51 (by decide)).symm.trans hvalue))

end SchemaEvolution.Drizzle
