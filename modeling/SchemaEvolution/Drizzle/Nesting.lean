import SchemaEvolution.Drizzle.Lexeme

/-!
# Brackets and types

What stands between brackets, and the types that are written beside values and do not count.
-/

namespace SchemaEvolution.Drizzle

/-- The lexemes up to the bracket that closes `depth` open ones, and those after it.  Brackets of
all kinds close one another. -/
def closing? (depth : Nat) : List Lexeme → Option (List Lexeme × List Lexeme)
  | [] => none
  | lexeme :: rest =>
    match lexeme.token with
    | .leftParen | .leftBrace | .leftBracket =>
      (closing? (depth + 1) rest).map fun (inside, after) => (lexeme :: inside, after)
    | .rightParen | .rightBrace | .rightBracket =>
      if depth ≤ 1 then some ([], rest)
      else (closing? (depth - 1) rest).map fun (inside, after) => (lexeme :: inside, after)
    | .eof => none
    | _ => (closing? depth rest).map fun (inside, after) => (lexeme :: inside, after)

/-- A group and what stands after it are shorter than the group with its brackets. -/
theorem length_of_closing? {depth : Nat} {lexemes inside after : List Lexeme}
    (h : closing? depth lexemes = some (inside, after)) :
    inside.length + after.length < lexemes.length := by
  induction lexemes generalizing depth inside with
  | nil => exact absurd h (by simp [closing?])
  | cons lexeme rest ih =>
    have step {depth : Nat} (h : (closing? depth rest).map
        (fun pair => (lexeme :: pair.1, pair.2)) = some (inside, after)) :
        inside.length + after.length < (lexeme :: rest).length := by
      obtain ⟨⟨inner, after'⟩, hfound, heq⟩ := Option.map_eq_some_iff.1 h
      obtain ⟨rfl, rfl⟩ := Prod.mk.inj heq
      have := ih hfound
      dsimp only at this ⊢
      simp only [List.length_cons]
      omega
    unfold closing? at h
    split at h
    case h_4 | h_5 | h_6 =>
      split at h
      · obtain ⟨rfl, rfl⟩ := Prod.mk.inj (Option.some.inj h)
        simp
      · exact step h
    case h_7 => exact absurd h (by simp)
    all_goals exact step h

/-- What follows the bracket that closes the one which comes next. -/
def afterGroup? : List Lexeme → Option (List Lexeme)
  | [] => none
  | _ :: rest => (closing? 1 rest).map Prod.snd

theorem length_of_afterGroup? {lexemes after : List Lexeme}
    (h : afterGroup? lexemes = some after) : after.length < lexemes.length := by
  cases lexemes with
  | nil => exact absurd h (by simp [afterGroup?])
  | cons lexeme rest =>
    obtain ⟨⟨inside, after'⟩, hfound, rfl⟩ := Option.map_eq_some_iff.1 h
    have := length_of_closing? hfound
    simp only [List.length_cons]
    omega

/-- Skips type arguments up to the sign that closes `depth` open ones. -/
def skipTypeArguments (depth : Nat) : List Lexeme → List Lexeme
  | [] => []
  | lexeme :: rest =>
    match lexeme.token with
    | .less => skipTypeArguments (depth + 1) rest
    | .greater => if depth ≤ 1 then rest else skipTypeArguments (depth - 1) rest
    | .eof | .semicolon => lexeme :: rest
    | _ => skipTypeArguments depth rest

/-- Type arguments are skipped by going on, never by going back. -/
theorem length_skipTypeArguments_le (depth : Nat) (lexemes : List Lexeme) :
    (skipTypeArguments depth lexemes).length ≤ lexemes.length := by
  induction lexemes generalizing depth with
  | nil => simp [skipTypeArguments]
  | cons lexeme rest ih =>
    have step (depth : Nat) :
        (skipTypeArguments depth rest).length ≤ (lexeme :: rest).length :=
      Nat.le_succ_of_le (ih depth)
    unfold skipTypeArguments
    split
    · exact step _
    · split
      · simp
      · exact step _
    · exact Nat.le_refl _
    · exact Nat.le_refl _
    · exact step _

def skipOptionalTypeArguments : List Lexeme → List Lexeme
  | [] => []
  | lexeme :: rest =>
    if lexeme.token = .less then skipTypeArguments 1 rest else lexeme :: rest

theorem length_skipOptionalTypeArguments_le (lexemes : List Lexeme) :
    (skipOptionalTypeArguments lexemes).length ≤ lexemes.length := by
  cases lexemes with
  | nil => simp [skipOptionalTypeArguments]
  | cons lexeme rest =>
    rw [skipOptionalTypeArguments]
    split
    · exact Nat.le_succ_of_le (length_skipTypeArguments_le 1 rest)
    · exact Nat.le_refl _

def skipType (lexemes : List Lexeme) : List Lexeme :=
  match lexemes with
  | [] => []
  | lexeme :: rest =>
    match lexeme.token with
    | .word _ | .dot => skipType rest
    | .less => skipType (skipTypeArguments 1 rest)
    | .leftBrace | .leftBracket | .leftParen =>
      match _h : closing? 1 rest with
      | some (_, after) => skipType after
      | none => lexeme :: rest
    | .operator spelling =>
      if spelling == "|" || spelling == "&" then skipType rest else lexeme :: rest
    | _ => lexeme :: rest
termination_by lexemes.length
decreasing_by
  all_goals try simp only [List.length_cons]; omega
  · have := length_skipTypeArguments_le 1 rest
    simp only [List.length_cons]
    omega
  all_goals
    have := length_of_closing? _h
    simp only [List.length_cons]
    omega

/-- However deep a type is nested, skipping it leaves no more than was there. -/
theorem length_skipType_le (lexemes : List Lexeme) :
    (skipType lexemes).length ≤ lexemes.length := by
  fun_induction skipType lexemes with
  | case4 lexeme rest _ ih =>
    have := length_skipTypeArguments_le 1 rest
    simp only [List.length_cons]
    omega
  | case5 _ _ _ _ _ hfound ih | case7 _ _ _ _ _ hfound ih | case9 _ _ _ _ _ hfound ih =>
    have := length_of_closing? hfound
    simp only [List.length_cons]
    omega
  | _ => simp_all <;> omega

end SchemaEvolution.Drizzle
