import SchemaEvolution.Proofs.Sql.Row
import SchemaEvolution.Sql.ColumnDefinition

/-!
# Plain types

A plain type consists of words, possibly numbers between parentheses, and pairs of brackets.
Its lexemes are cut off before the attributes of the column, and their text is the type.
-/

namespace SchemaEvolution.Sql

/-- The words of a type, the numbers it is given, and how many dimensions its arrays have. -/
structure TypeShape where
  words : List String
  arguments : Option (List String)
  dimensions : Nat

def TypeShape.text (shape : TypeShape) : String :=
  " ".intercalate shape.words ++
    (match shape.arguments with
      | some numbers => "(" ++ ",".intercalate numbers ++ ")"
      | none => "") ++
    String.join (List.replicate shape.dimensions "[]")

/-- Digits and nothing else. -/
def isDigits (text : String) : Bool := !text.toList.isEmpty && text.toList.all Char.isDigit

/-- Some words that a type can have, and numbers without a sign. -/
structure TypeShape.Plain (shape : TypeShape) : Prop where
  some_word : shape.words ≠ []
  words : ∀ word ∈ shape.words, IsTypeWord word
  numbers : ∀ numbers ∈ shape.arguments, ∀ digits ∈ numbers, isDigits digits = true

instance (shape : TypeShape) : Decidable shape.Plain :=
  decidable_of_iff (shape.words ≠ [] ∧ (∀ word ∈ shape.words, IsTypeWord word) ∧
    ∀ numbers ∈ shape.arguments, ∀ digits ∈ numbers, isDigits digits = true)
    ⟨fun ⟨hsome, hwords, hnumbers⟩ => ⟨hsome, hwords, hnumbers⟩,
      fun hplain => ⟨hplain.some_word, hplain.words, hplain.numbers⟩⟩

/-- A type that is spelled plainly and in the normal way. -/
def IsPlainType (type : String) : Prop :=
  (∃ shape : TypeShape, shape.Plain ∧ shape.text = type) ∧ TypeName.normalize type = type

def argumentsRow : Option (List String) → List Spaced
  | some numbers => groupRow [] [] (numbers.map .number)
  | none => []

def bracketsRow (dimensions : Nat) : List Spaced :=
  (List.replicate dimensions [tight .leftBracket, tight .rightBracket]).flatten

/-- The pieces of a type that stands after a space. -/
def TypeShape.row (shape : TypeShape) : List Spaced :=
  shape.words.map (fun word => after (.word word)) ++
    (argumentsRow shape.arguments ++ bracketsRow shape.dimensions)

/-- Words are separated by single blanks. -/
theorem rowChars_words {words : List String} (hsome : words ≠ []) :
    rowChars (words.map fun word => after (.word word)) =
      ' ' :: (" ".intercalate words).toList := by
  cases words with
  | nil => exact absurd rfl hsome
  | cons first more =>
    clear hsome
    induction more generalizing first with
    | nil => simp [rowChars, Spaced.chars, after, Piece.chars]
    | cons next rest ih =>
      have hrest := ih next
      simp [rowChars, Spaced.chars, after, Piece.chars, List.intercalate] at hrest ⊢
      rw [hrest]

theorem rowChars_bracketsRow (dimensions : Nat) :
    rowChars (bracketsRow dimensions) =
      (String.join (List.replicate dimensions "[]")).toList := by
  induction dimensions with
  | zero => rfl
  | succ dimensions ih =>
    rw [bracketsRow, List.replicate_succ, List.flatten_cons, rowChars_append, ← bracketsRow, ih]
    simp [rowChars, Spaced.chars, tight, Piece.chars, List.replicate_succ]

theorem TypeShape.rowChars_row {shape : TypeShape} (hplain : shape.Plain) :
    rowChars shape.row = ' ' :: shape.text.toList := by
  rw [row, rowChars_append, rowChars_append, rowChars_words hplain.some_word,
    rowChars_bracketsRow, text]
  cases shape.arguments with
  | none => simp [argumentsRow, rowChars]
  | some numbers => simp [argumentsRow, rowChars_groupRow, Piece.chars, Function.comp_def]

theorem isNumberText_of_isDigits {digits : String} (hdigits : isDigits digits = true) :
    isNumberText digits.toList = true := by
  rw [isDigits, Bool.and_eq_true] at hdigits
  unfold isNumberText
  split
  · next heq =>
    rw [heq] at hdigits
    exact absurd (List.all_eq_true.1 hdigits.2 '-' List.mem_cons_self) (by decide)
  · rw [hdigits.1, hdigits.2]
    rfl

theorem sturdy_bracketsRow (dimensions : Nat) : Sturdy (bracketsRow dimensions) := by
  induction dimensions with
  | zero => exact sturdy_nil
  | succ dimensions ih =>
    rw [bracketsRow, List.replicate_succ, List.flatten_cons]
    exact .tight trivial rfl (.tight trivial rfl ih)

theorem TypeShape.sturdy_row {shape : TypeShape} (hplain : shape.Plain) : Sturdy shape.row := by
  have hwords : Sturdy (shape.words.map fun word => Sql.after (.word word)) := by
    rw [List.map_eq_flatMap]
    exact sturdy_flatMap fun word hmem =>
      .after (isWordText_of_isPlainIdent (hplain.words word hmem).plain) sturdy_nil
  have harguments : Sturdy (argumentsRow shape.arguments) := by
    cases hnumbers : shape.arguments with
    | none => exact sturdy_nil
    | some numbers =>
      refine sturdy_groupRow isBlankText_nil rfl isBlankText_nil ?_
      rintro _ hmem
      obtain ⟨digits, hdigits, rfl⟩ := List.mem_map.1 hmem
      exact isNumberText_of_isDigits (hplain.numbers numbers hnumbers digits hdigits)
  exact hwords.append (harguments.append (sturdy_bracketsRow shape.dimensions))

/-- The tokens are not stopped at, and lead from one depth of parentheses to another. -/
def Passes (stop : Nat → Token → Bool) : Nat → List Token → Nat → Prop
  | depth, [], last => depth = last
  | depth, token :: rest, last =>
    stop depth token = false ∧ Passes stop (depthAfter depth token) rest last

theorem Passes.append {stop : Nat → Token → Bool} {first middle last : Nat}
    {left right : List Token} (hleft : Passes stop first left middle)
    (hright : Passes stop middle right last) : Passes stop first (left ++ right) last := by
  induction left generalizing first with
  | nil =>
    cases hleft
    exact hright
  | cons token rest ih => exact ⟨hleft.1, ih hleft.2⟩

theorem Passes.split {stop : Nat → Token → Bool} {first last : Nat} {left right : List Token}
    (hpasses : Passes stop first (left ++ right) last) :
    ∃ middle, Passes stop first left middle ∧ Passes stop middle right last := by
  induction left generalizing first with
  | nil => exact ⟨first, rfl, hpasses⟩
  | cons token more ih =>
    obtain ⟨middle, hmore, hright⟩ := ih hpasses.2
    exact ⟨middle, ⟨hpasses.1, hmore⟩, hright⟩

/-- What is not stopped at is cut off before what is. -/
theorem cut_of_passes {stop : Nat → Token → Bool} {first last : Nat} {taken : List Lexeme}
    (hpasses : Passes stop first (taken.map Lexeme.token) last) {lexeme : Lexeme}
    (hstop : stop last lexeme.token = true) (rest : List Lexeme) :
    cut stop first (taken ++ lexeme :: rest) = (taken, lexeme :: rest) := by
  induction taken generalizing first with
  | nil =>
    cases hpasses
    rw [List.nil_append, cut, if_pos hstop]
  | cons token more ih =>
    rw [List.cons_append, cut, if_neg (by rw [hpasses.1]; decide), ih hpasses.2]

def rowTokens (row : List Spaced) : List Token := row.map fun spaced => spaced.piece.token

theorem Places.tokens_eq {row : List Spaced} {taken : List Lexeme} (hplaces : Places row taken) :
    taken.map Lexeme.token = rowTokens row := by
  induction hplaces with
  | nil => rfl
  | cons hlexeme _ ih => rw [List.map_cons, hlexeme.2.2, ih, rowTokens, rowTokens, List.map_cons]

theorem rowTokens_append (left right : List Spaced) :
    rowTokens (left ++ right) = rowTokens left ++ rowTokens right := List.map_append

theorem passes_words {words : List String} (hwords : ∀ word ∈ words, IsTypeWord word) :
    Passes endsType 0 (rowTokens (words.map fun word => after (.word word))) 0 := by
  induction words with
  | nil => rfl
  | cons word rest ih =>
    have hword := hwords word List.mem_cons_self
    have htoken : Piece.token (.word word) = .word word := hword.token
    have hrest := ih fun other hmem => hwords other (List.mem_cons_of_mem _ hmem)
    simp only [List.map_cons, rowTokens, after, htoken]
    exact ⟨hword.endsExpression, hrest⟩

theorem passes_moreNumbers (numbers : List String) :
    Passes endsType 1 (rowTokens (moreRow [] (numbers.map .number))) 1 := by
  induction numbers with
  | nil => rfl
  | cons digits rest ih => exact ⟨rfl, rfl, ih⟩

/-- The arguments of a type are passed over as one group. -/
theorem passes_arguments (arguments : Option (List String)) :
    Passes endsType 0 (rowTokens (argumentsRow arguments)) 0 := by
  cases arguments with
  | none => rfl
  | some numbers =>
    refine ⟨rfl, ?_⟩
    change Passes endsType 1 (rowTokens (_ ++ _)) 0
    rw [rowTokens_append]
    refine Passes.append ?_ (⟨rfl, rfl⟩ : Passes endsType 1 [.rightParen] 0)
    cases numbers with
    | nil => rfl
    | cons digits rest => exact ⟨rfl, passes_moreNumbers rest⟩

theorem passes_brackets (dimensions : Nat) :
    Passes endsType 0 (rowTokens (bracketsRow dimensions)) 0 := by
  induction dimensions with
  | zero => rfl
  | succ dimensions ih => exact ⟨by decide, by decide, ih⟩

theorem TypeShape.passes_row {shape : TypeShape} (hplain : shape.Plain) :
    Passes endsType 0 (rowTokens shape.row) 0 := by
  rw [row, rowTokens_append, rowTokens_append]
  exact (passes_words hplain.words).append
    ((passes_arguments shape.arguments).append (passes_brackets shape.dimensions))

/-! ## The text of the row -/

/-- Neither the first nor the last character is white space. -/
def IsTrim (cs : List Char) : Prop :=
  (∀ c ∈ cs.head?, Text.isBlank c = false) ∧ ∀ c ∈ cs.getLast?, Text.isBlank c = false

/-- A text without blanks at its ends is left alone by trimming. -/
theorem trim_eq_self {cs : List Char} (htrim : IsTrim cs) : Text.trim cs = cs := by
  have hkeeps : ∀ {text : List Char}, (∀ c ∈ text.head?, Text.isBlank c = false) →
      text.dropWhile Text.isBlank = text := by
    intro text hhead
    cases text with
    | nil => rfl
    | cons c rest => rw [List.dropWhile_cons_of_neg (by rw [hhead c rfl]; decide)]
  have hlast : ∀ c ∈ cs.reverse.head?, Text.isBlank c = false := by
    rw [List.head?_reverse]
    exact htrim.2
  rw [Text.trim, Text.trimStart, hkeeps htrim.1, Text.trimEnd, hkeeps hlast, List.reverse_reverse]

theorem flatMap_of_places {row : List Spaced} {taken : List Lexeme} (hplaces : Places row taken) :
    (taken.flatMap fun lexeme => lexeme.gap ++ lexeme.text) = rowChars row := by
  induction hplaces with
  | nil => rfl
  | cons hlexeme _ ih =>
    rw [List.flatMap_cons, ih, hlexeme.1, hlexeme.2.1, rowChars, rowChars, List.flatMap_cons,
      Spaced.chars]

/-- The text of a row is what it was printed from, without the first gap. -/
theorem textOf_of_places {spaced : Spaced} {row : List Spaced} {taken : List Lexeme}
    (hplaces : Places (spaced :: row) taken) {text : String}
    (htext : rowChars (spaced :: row) = spaced.gap ++ text.toList) (htrim : IsTrim text.toList) :
    textOf taken = text := by
  cases hplaces with
  | cons hlexeme hmore =>
    rw [rowChars, List.flatMap_cons, Spaced.chars, List.append_assoc] at htext
    rw [textOf, flatMap_of_places hmore, hlexeme.2.1, rowChars, List.append_cancel_left htext,
      trim_eq_self htrim, String.ofList_toList]

/-- Whether a piece stands without quotes, so that no white space is in its text. -/
def Piece.isBare : Piece → Bool
  | .name _ | .literal _ => false
  | _ => true

theorem Piece.isBlank_of_mem {piece : Piece} (hbare : piece.isBare = true) (hsound : piece.Sound)
    {c : Char} (hmem : c ∈ piece.chars) : Text.isBlank c = false := by
  have hdigit : ∀ {c : Char}, c.isDigit = true → Text.isBlank c = false := fun hdigit =>
    isBlank_of_isWordLetter (by rw [isWordLetter, Char.isAlphanum, hdigit, Bool.or_true]; rfl)
  cases piece with
  | name label => cases hbare
  | literal value => cases hbare
  | word spelling =>
    rw [Sound] at hsound
    rw [chars] at hmem
    cases hspelling : spelling.toList with
    | nil =>
      rw [hspelling] at hmem
      cases hmem
    | cons first rest =>
      rw [hspelling] at hmem hsound
      rw [isWordText, Bool.and_eq_true] at hsound
      rcases List.mem_cons.1 hmem with rfl | hrest
      · exact isBlank_of_isWordLetter (isWordLetter_of_isCallStart hsound.1)
      · exact isBlank_of_isWordLetter (List.all_eq_true.1 hsound.2 c hrest)
  | number digits =>
    rw [Sound] at hsound
    rw [chars] at hmem
    unfold isNumberText at hsound
    split at hsound
    · next heq =>
      rw [heq] at hmem
      rw [Bool.and_eq_true] at hsound
      rcases List.mem_cons.1 hmem with rfl | hrest
      · decide
      · exact hdigit (List.all_eq_true.1 hsound.2 c hrest)
    · rw [Bool.and_eq_true] at hsound
      exact hdigit (List.all_eq_true.1 hsound.2 c hmem)
  | _ =>
    rw [List.mem_singleton.1 hmem]
    decide

theorem Piece.chars_ne_nil {piece : Piece} (hsound : piece.Sound) : piece.chars ≠ [] := by
  obtain ⟨first, more, hchars, -⟩ :=
    Piece.scan hsound (piece.endsBefore_of_closes closes_nil)
  rw [hchars]
  exact List.cons_ne_nil first more

/-- No row of bare pieces ends with white space. -/
theorem isBlank_last_rowChars {tail : List Char} {row : List Spaced} (hfits : Fits tail row)
    (hbare : ∀ spaced ∈ row, spaced.piece.isBare = true) :
    ∀ c ∈ (rowChars row).getLast?, Text.isBlank c = false := by
  induction row with
  | nil => nofun
  | cons spaced rest ih =>
    obtain ⟨-, hsound, -, hrest⟩ := hfits
    have hlast := ih hrest fun other hmem => hbare other (List.mem_cons_of_mem _ hmem)
    intro c hc
    rw [rowChars, List.flatMap_cons, Spaced.chars, List.append_assoc, List.getLast?_append,
      List.getLast?_append, ← rowChars] at hc
    cases hend : (rowChars rest).getLast? with
    | some d =>
      rw [hend] at hc hlast
      cases hc
      exact hlast c rfl
    | none =>
      rw [hend, Option.none_or] at hc
      cases hpieceEnd : spaced.piece.chars.getLast? with
      | none => exact absurd (List.getLast?_eq_none_iff.1 hpieceEnd) (Piece.chars_ne_nil hsound)
      | some d =>
        rw [hpieceEnd] at hc
        cases hc
        exact Piece.isBlank_of_mem (hbare spaced List.mem_cons_self) hsound
          (List.mem_of_getLast? hpieceEnd)

theorem isBare_moreRow (gap : List Char) (numbers : List String) :
    ∀ spaced ∈ moreRow gap (numbers.map .number), spaced.piece.isBare = true := by
  intro spaced hmem
  rw [moreRow, List.flatMap_map] at hmem
  obtain ⟨digits, -, hpair⟩ := List.mem_flatMap.1 hmem
  simp only [List.mem_cons, List.not_mem_nil, or_false] at hpair
  rcases hpair with rfl | rfl <;> rfl

theorem isBare_argumentsRow (arguments : Option (List String)) :
    ∀ spaced ∈ argumentsRow arguments, spaced.piece.isBare = true := by
  cases arguments with
  | none => nofun
  | some numbers =>
    intro spaced hmem
    rw [argumentsRow, groupRow, List.mem_cons, List.mem_append, List.mem_singleton] at hmem
    rcases hmem with rfl | hinside | rfl
    · rfl
    · cases numbers with
      | nil => cases hinside
      | cons digits rest =>
        rcases List.mem_cons.1 hinside with rfl | hmore
        · rfl
        · exact isBare_moreRow [] rest spaced hmore
    · rfl

theorem isBare_bracketsRow (dimensions : Nat) :
    ∀ spaced ∈ bracketsRow dimensions, spaced.piece.isBare = true := by
  intro spaced hmem
  obtain ⟨pair, hpair, hspaced⟩ := List.mem_flatten.1 hmem
  rw [(List.mem_replicate.1 hpair).2] at hspaced
  simp only [List.mem_cons, List.not_mem_nil, or_false] at hspaced
  rcases hspaced with rfl | rfl <;> rfl

theorem TypeShape.isBare_row (shape : TypeShape) :
    ∀ spaced ∈ shape.row, spaced.piece.isBare = true := by
  intro spaced hmem
  rw [row, List.mem_append, List.mem_append] at hmem
  rcases hmem with hword | harguments | hbrackets
  · obtain ⟨word, -, rfl⟩ := List.mem_map.1 hword
    rfl
  · exact isBare_argumentsRow shape.arguments spaced harguments
  · exact isBare_bracketsRow shape.dimensions spaced hbrackets

/-- The row of a type starts with a word, and so does its text. -/
theorem TypeShape.row_eq_cons {shape : TypeShape} (hplain : shape.Plain) :
    ∃ word rest, (Piece.word word).Sound ∧ shape.row = Sql.after (.word word) :: rest ∧
      shape.text.toList = (Piece.word word).chars ++ rowChars rest := by
  cases hwords : shape.words with
  | nil => exact absurd hwords hplain.some_word
  | cons word more =>
    have hword : IsTypeWord word := hplain.words word (by rw [hwords]; exact List.mem_cons_self)
    have hrow : shape.row = Sql.after (.word word) :: (more.map (fun word => Sql.after (.word word)) ++
        (argumentsRow shape.arguments ++ bracketsRow shape.dimensions)) := by
      rw [row, hwords, List.map_cons, List.cons_append]
    have hchars := rowChars_row hplain
    rw [hrow, rowChars, List.flatMap_cons] at hchars
    exact ⟨word, _, isWordText_of_isPlainIdent hword.plain, hrow, (List.cons.inj hchars).2.symm⟩

theorem TypeShape.isEmpty_text {shape : TypeShape} (hplain : shape.Plain) :
    shape.text.isEmpty = false := by
  obtain ⟨word, rest, hsound, -, htext⟩ := row_eq_cons hplain
  rw [← Bool.not_eq_true, String.isEmpty_iff]
  intro hempty
  rw [hempty] at htext
  exact Piece.chars_ne_nil hsound (List.append_eq_nil_iff.1 htext.symm).1

/-- The text of a plain type has no blanks at its ends. -/
theorem TypeShape.isTrim_text {shape : TypeShape} (hplain : shape.Plain) :
    IsTrim shape.text.toList := by
  constructor
  · obtain ⟨word, rest, hsound, -, htext⟩ := row_eq_cons hplain
    rw [htext]
    intro c hc
    cases hword : (Piece.word word).chars with
    | nil => exact absurd hword (Piece.chars_ne_nil hsound)
    | cons first more =>
      rw [hword] at hc
      cases hc
      exact Piece.isBlank_of_mem rfl hsound (by rw [hword]; exact List.mem_cons_self)
  · have hlast := isBlank_last_rowChars ((sturdy_row hplain).fits [] closes_nil) shape.isBare_row
    intro c hc
    rw [rowChars_row hplain, List.getLast?_cons] at hlast
    exact hlast c (by rw [hc]; rfl)

/-- The text of the lexemes of a type is the type. -/
theorem TypeShape.textOf_row {shape : TypeShape} (hplain : shape.Plain) {taken : List Lexeme}
    (hplaces : Places shape.row taken) : textOf taken = shape.text := by
  have hchars := rowChars_row hplain
  obtain ⟨word, rest, -, hrow, -⟩ := row_eq_cons hplain
  rw [hrow] at hchars hplaces
  exact textOf_of_places hplaces hchars (isTrim_text hplain)

/-- The row is the type after a space, and its lexemes are cut off before what ends a type. -/
structure IsTypeRow (type : String) (row : List Spaced) : Prop where
  chars : rowChars row = ' ' :: type.toList
  sturdy : Sturdy row
  textOf : ∀ {taken : List Lexeme}, Places row taken → textOf taken = type
  cut : ∀ {taken : List Lexeme}, Places row taken → ∀ {lexeme : Lexeme} (rest : List Lexeme),
    endsType 0 lexeme.token = true →
      cut endsType 0 (taken ++ lexeme :: rest) = (taken, lexeme :: rest)

theorem IsPlainType.exists_row {type : String} (hplain : IsPlainType type) :
    ∃ row, IsTypeRow type row := by
  obtain ⟨⟨shape, hshape, rfl⟩, -⟩ := hplain
  refine ⟨shape.row, shape.rowChars_row hshape, shape.sturdy_row hshape, shape.textOf_row hshape,
    fun hplaces lexeme rest hends => cut_of_passes ?_ hends rest⟩
  rw [hplaces.tokens_eq]
  exact shape.passes_row hshape

open Classical in
noncomputable def typeRow (type : String) : List Spaced :=
  if hplain : IsPlainType type then hplain.exists_row.choose else []

theorem IsPlainType.isTypeRow {type : String} (hplain : IsPlainType type) :
    IsTypeRow type (typeRow type) := by
  rw [typeRow, dif_pos hplain]
  exact hplain.exists_row.choose_spec

theorem IsPlainType.isEmpty {type : String} (hplain : IsPlainType type) :
    type.isEmpty = false := by
  obtain ⟨⟨shape, hshape, rfl⟩, -⟩ := hplain
  exact shape.isEmpty_text hshape

end SchemaEvolution.Sql
