import SchemaEvolution.Sql.Clause
import SchemaEvolution.Sql.Lexeme
import SchemaEvolution.Sql.Quote

/-!
# Pieces of printed scripts

A printed script consists of words, names between quotes, literals, numbers and signs.  Each
of these is scanned as the token it stands for, up to a character before which it ends, and
none of them is mistaken for white space or a comment.
-/

namespace SchemaEvolution.Sql

/-- What a printed script consists of. -/
inductive Piece where
  | word (spelling : String)
  | name (label : String)
  | literal (value : String)
  | number (digits : String)
  | leftParen
  | rightParen
  | leftBracket
  | rightBracket
  | comma
  | semicolon
  | dot

namespace Piece

def chars : Piece → List Char
  | .word spelling => spelling.toList
  | .name label => (quoteIdent label).toList
  | .literal value => (quoteLiteral value).toList
  | .number digits => digits.toList
  | .leftParen => ['(']
  | .rightParen => [')']
  | .leftBracket => ['[']
  | .rightBracket => [']']
  | .comma => [',']
  | .semicolon => [';']
  | .dot => ['.']

@[simp] theorem chars_word (spelling : String) : (word spelling).chars = spelling.toList := rfl

@[simp] theorem chars_name (label : String) : (name label).chars = (quoteIdent label).toList := rfl

@[simp] theorem chars_literal (value : String) :
    (literal value).chars = (quoteLiteral value).toList := rfl

@[simp] theorem chars_number (digits : String) : (number digits).chars = digits.toList := rfl

@[simp] theorem chars_leftParen : leftParen.chars = ['('] := rfl

@[simp] theorem chars_rightParen : rightParen.chars = [')'] := rfl

@[simp] theorem chars_leftBracket : leftBracket.chars = ['['] := rfl

@[simp] theorem chars_rightBracket : rightBracket.chars = [']'] := rfl

@[simp] theorem chars_comma : comma.chars = [','] := rfl

@[simp] theorem chars_semicolon : semicolon.chars = [';'] := rfl

@[simp] theorem chars_dot : dot.chars = ['.'] := rfl

def token : Piece → Token
  | .word spelling => .ofWord spelling
  | .name label => .quotedName label
  | .literal value => .string value
  | .number digits => .number digits
  | .leftParen => .leftParen
  | .rightParen => .rightParen
  | .leftBracket => .operator "["
  | .rightBracket => .operator "]"
  | .comma => .comma
  | .semicolon => .semicolon
  | .dot => .dot

end Piece

def isWordLetter (c : Char) : Bool := c.isAlphanum || c == '_'

/-- Letters, digits and underscores, a digit not the first of them. -/
def isWordText : List Char → Bool
  | [] => false
  | c :: rest => isCallStart c && rest.all isWordLetter

/-- Digits, possibly after a minus. -/
def isNumberText : List Char → Bool
  | '-' :: rest => !rest.isEmpty && rest.all Char.isDigit
  | digits => !digits.isEmpty && digits.all Char.isDigit

/-- The text of a piece is that of one token. -/
def Piece.Sound : Piece → Prop
  | .word spelling => isWordText spelling.toList = true
  | .number digits => isNumberText digits.toList = true
  | _ => True

/-- Characters before which words and numbers end. -/
def isBoundary (c : Char) : Bool := [' ', '\n', '(', ')', '[', ']', ',', ';'].contains c

def Piece.EndsBefore (piece : Piece) (tail : List Char) : Prop :=
  match piece with
  | .word _ | .number _ | .literal _ => ∀ c ∈ tail.head?, isBoundary c = true
  | .name _ => ∀ c ∈ tail.head?, isBoundary c = true ∨ c = '.'
  | .dot => ∀ c ∈ tail.head?, c.isDigit = false
  | _ => True

theorem isUpper_iff (c : Char) : c.isUpper = true ↔ 65 ≤ c.toNat ∧ c.toNat ≤ 90 := by
  refine (decide_eq_true_iff : _ ↔ c.val ≥ 'A'.val ∧ c.val ≤ 'Z'.val).trans ?_
  simp only [ge_iff_le, UInt32.le_iff_toNat_le]
  rfl

theorem isLower_iff (c : Char) : c.isLower = true ↔ 97 ≤ c.toNat ∧ c.toNat ≤ 122 := by
  change (decide (c.val ≥ 'a'.val) && decide (c.val ≤ 'z'.val)) = true ↔ _
  simp only [Bool.and_eq_true, decide_eq_true_eq, ge_iff_le, UInt32.le_iff_toNat_le]
  rfl

theorem isDigit_iff (c : Char) : c.isDigit = true ↔ 48 ≤ c.toNat ∧ c.toNat ≤ 57 := by
  change (decide (c.val ≥ '0'.val) && decide (c.val ≤ '9'.val)) = true ↔ _
  simp only [Bool.and_eq_true, decide_eq_true_eq, ge_iff_le, UInt32.le_iff_toNat_le]
  rfl

theorem isAlpha_iff (c : Char) :
    c.isAlpha = true ↔ 65 ≤ c.toNat ∧ c.toNat ≤ 90 ∨ 97 ≤ c.toNat ∧ c.toNat ≤ 122 := by
  change (c.isUpper || c.isLower) = true ↔ _
  rw [Bool.or_eq_true, isUpper_iff, isLower_iff]

theorem isAscii_of_isWordLetter {c : Char} (hletter : isWordLetter c = true) :
    Text.isAscii c = true := by
  simp only [isWordLetter, Char.isAlphanum, Bool.or_eq_true, isAlpha_iff, isDigit_iff,
    beq_iff_eq] at hletter
  rw [Text.isAscii, decide_eq_true_eq]
  rcases hletter with hletter | rfl
  · omega
  · decide

theorem isWordChar_of_isWordLetter {c : Char} (hletter : isWordLetter c = true) :
    Lexeme.isWordChar c = true := by
  have hascii := isAscii_of_isWordLetter hletter
  simp only [Lexeme.isWordChar, Text.isAlphanumeric, Text.isAlphabetic, Text.isNumeric, hascii,
    if_true]
  simp only [isWordLetter, Char.isAlphanum] at hletter
  rw [hletter, Bool.true_or]

theorem isWordChar_eq_false {c : Char} (hboundary : isBoundary c = true) :
    Lexeme.isWordChar c = false := by
  simp only [isBoundary, List.contains_iff_mem, List.mem_cons, List.not_mem_nil, or_false] at hboundary
  rcases hboundary with rfl | rfl | rfl | rfl | rfl | rfl | rfl | rfl <;> decide

theorem isDigit_of_isBoundary {c : Char} (hboundary : isBoundary c = true) :
    c.isDigit = false ∧ c ≠ '.' := by
  simp only [isBoundary, List.contains_iff_mem, List.mem_cons, List.not_mem_nil, or_false]
    at hboundary
  rcases hboundary with rfl | rfl | rfl | rfl | rfl | rfl | rfl | rfl <;> decide

/-- The run of characters with a property is the piece, where what follows has it not. -/
theorem takeWhile_append_of_boundary {holds : Char → Bool} {text tail : List Char}
    (htext : ∀ c ∈ text, holds c = true) (htail : ∀ c ∈ tail.head?, holds c = false) :
    (text ++ tail).takeWhile holds = text := by
  rw [List.takeWhile_append_of_pos htext]
  cases tail with
  | nil => rw [List.takeWhile_nil, List.append_nil]
  | cons c rest =>
    have hstop := htail c rfl
    rw [List.takeWhile_cons_of_neg (by rw [hstop]; decide), List.append_nil]

/-- A quote that is written twice is read as one. -/
theorem untilQuote_doubled (quote : Char) (value tail : List Char)
    (htail : ∀ c ∈ tail.head?, c ≠ quote) :
    Lexeme.untilQuote quote (doubled quote value ++ quote :: tail) =
      (value, (doubled quote value).length + 1) := by
  induction value with
  | nil =>
    cases tail with
    | nil => simp [doubled, Lexeme.untilQuote]
    | cons c rest =>
      have hc := htail c rfl
      simp [doubled, Lexeme.untilQuote, hc]
  | cons c rest ih =>
    by_cases hquote : c = quote
    · subst hquote
      simp [doubled, Lexeme.untilQuote, ih]
    · obtain ⟨next, more, hmore⟩ :
          ∃ next more, doubled quote rest ++ quote :: tail = next :: more := by
        cases doubled quote rest with
        | nil => exact ⟨quote, tail, rfl⟩
        | cons next more => exact ⟨next, more ++ quote :: tail, rfl⟩
      rw [hmore] at ih
      rw [doubled, if_neg hquote, List.cons_append, hmore, Lexeme.untilQuote, if_neg hquote, ih]
      rfl

theorem toList_between (quote : Char) (value : String) :
    (between quote value).toList = quote :: (doubled quote value.toList ++ [quote]) := by
  rw [between, String.toList_ofList, List.cons_append]

/-- A run of digits is a number as far as it goes, whatever ends it. -/
theorem numberLength_digits (hasPoint : Bool) {digits tail : List Char}
    (hdigits : ∀ c ∈ digits, c.isDigit = true)
    (htail : ∀ c ∈ tail.head?, c.isDigit = false ∧ c ≠ '.') :
    Lexeme.numberLength hasPoint (digits ++ tail) = digits.length := by
  induction digits with
  | nil =>
    cases tail with
    | nil => rfl
    | cons c rest =>
      obtain ⟨hdigit, hpoint⟩ := htail c rfl
      simp [Lexeme.numberLength, hdigit, hpoint]
  | cons digit rest ih =>
    have hdigit := hdigits digit List.mem_cons_self
    have hrest := ih fun c hmem => hdigits c (List.mem_cons_of_mem _ hmem)
    simp [Lexeme.numberLength, hdigit, hrest]

theorem ne_of_isCallStart {c other : Char} (hstart : isCallStart c = true)
    (hother : isCallStart other = false) : c ≠ other := by
  rintro rfl
  rw [hstart] at hother
  cases hother

theorem isDigit_eq_false_of_isCallStart {c : Char} (hstart : isCallStart c = true) :
    c.isDigit = false := by
  cases hdigit : c.isDigit with
  | false => rfl
  | true =>
    simp only [isCallStart, Bool.or_eq_true, isAlpha_iff, beq_iff_eq] at hstart
    rw [isDigit_iff] at hdigit
    rcases hstart with hstart | rfl
    · omega
    · exact absurd hdigit (by decide)

theorem isWordLetter_of_isCallStart {c : Char} (hstart : isCallStart c = true) :
    isWordLetter c = true := by
  simp only [isCallStart, Bool.or_eq_true] at hstart
  simp only [isWordLetter, Char.isAlphanum, Bool.or_eq_true]
  exact hstart.imp_left .inl

/-- A word is scanned up to a boundary. -/
theorem scan_word {spelling : String} (hsound : isWordText spelling.toList = true)
    {tail : List Char} (hends : ∀ c ∈ tail.head?, isBoundary c = true) :
    ∃ first rest, spelling.toList = first :: rest ∧
      Lexeme.scan first (rest ++ tail) = (.ofWord spelling, rest.length) := by
  cases hspelling : spelling.toList with
  | nil =>
    rw [hspelling] at hsound
    cases hsound
  | cons first rest =>
    rw [hspelling, isWordText, Bool.and_eq_true] at hsound
    obtain ⟨hstart, hrest⟩ := hsound
    have hne : ∀ other : Char, isCallStart other = false → first ≠ other :=
      fun other => ne_of_isCallStart hstart
    have hdigit := isDigit_eq_false_of_isCallStart hstart
    have hascii := isAscii_of_isWordLetter (isWordLetter_of_isCallStart hstart)
    have halpha : (Text.isAlphabetic first || first == '_') = true := by
      rw [Text.isAlphabetic, if_pos hascii]
      exact hstart
    have hrun : (rest ++ tail).takeWhile Lexeme.isWordChar = rest :=
      takeWhile_append_of_boundary
        (fun c hmem => isWordChar_of_isWordLetter (List.all_eq_true.1 hrest c hmem))
        fun c hmem => isWordChar_eq_false (hends c hmem)
    have hquote : ((rest ++ tail).head? == some '\'') = false := by
      rw [beq_eq_false_iff_ne]
      intro hhead
      cases rest with
      | nil => exact absurd (hends _ hhead) (by decide)
      | cons c more =>
        cases hhead
        exact absurd (List.all_eq_true.1 hrest _ List.mem_cons_self) (by decide)
    refine ⟨first, rest, rfl, ?_⟩
    have hword : String.ofList (first :: rest) = spelling := by
      rw [← hspelling, String.ofList_toList]
    simp only [Lexeme.scan, hne '-' rfl, hne '(' rfl, hne ')' rfl, hne ',' rfl, hne ';' rfl,
      hne '.' rfl, hne '"' rfl, hne '\'' rfl, hne '$' rfl, hdigit, hquote, halpha, hrun, hword,
      if_false, if_true, Bool.and_false, Bool.false_eq_true]

/-- A digit starts a number. -/
theorem scan_digit {c : Char} (hdigit : c.isDigit = true) (rest : List Char) :
    Lexeme.scan c rest = Lexeme.scanNumber [c] false rest := by
  have hne : ∀ other : Char, other.isDigit = false → c ≠ other := by
    rintro other hother rfl
    rw [hdigit] at hother
    cases hother
  simp only [Lexeme.scan, hne '-' rfl, hne '(' rfl, hne ')' rfl, hne ',' rfl, hne ';' rfl,
    hne '.' rfl, hne '"' rfl, hne '\'' rfl, hne '$' rfl, hdigit, if_false, if_true]

/-- A number is scanned up to a boundary. -/
theorem scan_number {digits : String} (hsound : isNumberText digits.toList = true)
    {tail : List Char} (hends : ∀ c ∈ tail.head?, isBoundary c = true) :
    ∃ first rest, digits.toList = first :: rest ∧
      Lexeme.scan first (rest ++ tail) = (.number digits, rest.length) := by
  have htail : ∀ c ∈ tail.head?, c.isDigit = false ∧ c ≠ '.' :=
    fun c hmem => isDigit_of_isBoundary (hends c hmem)
  have hscanned : ∀ (lead : List Char) {rest : List Char}, digits.toList = lead ++ rest →
      rest.all Char.isDigit = true →
      Lexeme.scanNumber lead false (rest ++ tail) = (.number digits, rest.length) := by
    intro lead rest htext hdigits
    rw [Lexeme.scanNumber, numberLength_digits false (List.all_eq_true.1 hdigits) htail,
      List.take_left, ← htext, String.ofList_toList]
  cases htext : digits.toList with
  | nil =>
    rw [htext] at hsound
    cases hsound
  | cons first rest =>
    rw [htext] at hsound
    refine ⟨first, rest, rfl, ?_⟩
    by_cases hminus : first = '-'
    · subst hminus
      simp only [isNumberText, Bool.and_eq_true, Bool.not_eq_true'] at hsound
      obtain ⟨hsome, hdigits⟩ := hsound
      have hstarts : Lexeme.startsWithDigit (rest ++ tail) = true := by
        cases rest with
        | nil => cases hsome
        | cons c more => exact List.all_eq_true.1 hdigits _ List.mem_cons_self
      rw [Lexeme.scan, if_pos rfl, if_pos hstarts]
      exact hscanned ['-'] htext hdigits
    · have hdigits : (first :: rest).all Char.isDigit = true := by
        unfold isNumberText at hsound
        split at hsound
        · next heq => exact absurd (List.cons.inj heq).1 hminus
        · rw [Bool.and_eq_true] at hsound
          exact hsound.2
      rw [List.all_cons, Bool.and_eq_true] at hdigits
      rw [scan_digit hdigits.1]
      exact hscanned [first] htext hdigits.2

/-- A piece is scanned as its token, up to where it ends. -/
theorem Piece.scan {piece : Piece} (hsound : piece.Sound) {tail : List Char}
    (hends : piece.EndsBefore tail) :
    ∃ first rest, piece.chars = first :: rest ∧
      Lexeme.scan first (rest ++ tail) = (piece.token, rest.length) := by
  cases piece with
  | word spelling => exact scan_word hsound hends
  | name label =>
    refine ⟨'"', doubled '"' label.toList ++ ['"'], toList_between '"' label, ?_⟩
    have htail : ∀ c ∈ tail.head?, c ≠ '"' := by
      rintro c hmem rfl
      exact absurd (hends _ hmem) (by decide)
    have huntil := untilQuote_doubled '"' label.toList tail htail
    rw [List.append_assoc, List.singleton_append]
    simp [Lexeme.scan, huntil, token]
  | literal value =>
    refine ⟨'\'', doubled '\'' value.toList ++ ['\''], toList_between '\'' value, ?_⟩
    have htail : ∀ c ∈ tail.head?, c ≠ '\'' := by
      rintro c hmem rfl
      exact absurd (hends _ hmem) (by decide)
    have huntil := untilQuote_doubled '\'' value.toList tail htail
    rw [List.append_assoc, List.singleton_append]
    simp [Lexeme.scan, huntil, token]
  | number digits => exact scan_number hsound hends
  | dot =>
    have hdigit : Lexeme.startsWithDigit tail = false := by
      cases tail with
      | nil => rfl
      | cons c rest => exact hends c rfl
    refine ⟨'.', [], rfl, ?_⟩
    simp [Lexeme.scan, hdigit, token]
  | leftParen => exact ⟨'(', [], rfl, rfl⟩
  | rightParen => exact ⟨')', [], rfl, rfl⟩
  | leftBracket => exact ⟨'[', [], rfl, rfl⟩
  | rightBracket => exact ⟨']', [], rfl, rfl⟩
  | comma => exact ⟨',', [], rfl, rfl⟩
  | semicolon => exact ⟨';', [], rfl, rfl⟩

def isBlankText (gap : List Char) : Prop := ∀ c ∈ gap, Text.isBlank c = true

theorem isBlank_eq_false {c : Char} (hleast : 33 ≤ c.toNat) (hgreatest : c.toNat < 133) :
    Text.isBlank c = false := by
  simp only [Text.isBlank, Text.blankSet, Text.CharSet.contains, Text.CharSet.containsFrom]
  rw [if_neg (by omega), if_neg (by omega), if_neg (by omega), if_neg (by omega),
    if_pos hgreatest]
  rfl

theorem isBlank_of_isWordLetter {c : Char} (hletter : isWordLetter c = true) :
    Text.isBlank c = false := by
  have hascii := isAscii_of_isWordLetter hletter
  rw [Text.isAscii, decide_eq_true_eq] at hascii
  refine isBlank_eq_false ?_ (by omega)
  simp only [isWordLetter, Char.isAlphanum, Bool.or_eq_true, isAlpha_iff, isDigit_iff,
    beq_iff_eq] at hletter
  rcases hletter with hletter | rfl
  · omega
  · decide

/-- White space is a gap up to the first character that belongs to a token. -/
theorem gapOf_append {gap text : List Char} (hgap : isBlankText gap)
    (htext : Lexeme.gapOf .between text = []) : Lexeme.gapOf .between (gap ++ text) = gap := by
  induction gap with
  | nil => exact htext
  | cons c rest ih =>
    have hblank := hgap c List.mem_cons_self
    have hrest := ih fun c hmem => hgap c (List.mem_cons_of_mem _ hmem)
    have hminus : c ≠ '-' := by
      rintro rfl
      exact absurd hblank (by decide)
    have hslash : c ≠ '/' := by
      rintro rfl
      exact absurd hblank (by decide)
    rw [List.cons_append, Lexeme.gapOf, if_pos hblank, hrest]
    · exact fun _ heq => absurd heq hminus
    · exact fun _ heq => absurd heq hslash

theorem gapOf_eq_nil {c : Char} {rest : List Char} (hblank : Text.isBlank c = false)
    (hslash : c ≠ '/') (hminus : c = '-' → ∀ d ∈ rest.head?, d ≠ '-') :
    Lexeme.gapOf .between (c :: rest) = [] := by
  rw [Lexeme.gapOf, if_neg (by rw [hblank]; decide)]
  · rintro more rfl rfl
    exact hminus rfl '-' rfl rfl
  · exact fun _ heq => absurd heq hslash

/-- Nothing is passed over in front of a number. -/
theorem gapOf_number {first : Char} {rest : List Char}
    (hsound : isNumberText (first :: rest) = true) (tail : List Char) :
    Lexeme.gapOf .between (first :: rest ++ tail) = [] := by
  by_cases hminus : first = '-'
  · subst hminus
    simp only [isNumberText, Bool.and_eq_true, Bool.not_eq_true'] at hsound
    refine gapOf_eq_nil (by decide) (by decide) ?_
    rintro - d hd rfl
    cases rest with
    | nil => cases hsound.1
    | cons c more =>
      cases hd
      exact absurd (List.all_eq_true.1 hsound.2 _ List.mem_cons_self) (by decide)
  · have hdigit : first.isDigit = true := by
      unfold isNumberText at hsound
      split at hsound
      · next heq => exact absurd (List.cons.inj heq).1 hminus
      · rw [Bool.and_eq_true, List.all_cons, Bool.and_eq_true] at hsound
        exact hsound.2.1
    refine gapOf_eq_nil (isBlank_of_isWordLetter ?_) ?_ (fun heq => absurd heq hminus)
    · simp [isWordLetter, Char.isAlphanum, hdigit]
    · rintro rfl
      exact absurd hdigit (by decide)

/-- The text of a piece starts no gap. -/
theorem Piece.gapOf {piece : Piece} (hsound : piece.Sound) (tail : List Char) :
    Lexeme.gapOf .between (piece.chars ++ tail) = [] := by
  cases piece with
  | word spelling =>
    rw [chars]
    cases hspelling : spelling.toList with
    | nil =>
      rw [Sound, hspelling] at hsound
      cases hsound
    | cons first rest =>
      rw [Sound, hspelling, isWordText, Bool.and_eq_true] at hsound
      refine gapOf_eq_nil (isBlank_of_isWordLetter (isWordLetter_of_isCallStart hsound.1))
        (ne_of_isCallStart hsound.1 rfl) ?_
      rintro rfl
      exact absurd hsound.1 (by decide)
  | number digits =>
    rw [chars]
    cases htext : digits.toList with
    | nil =>
      rw [Sound, htext] at hsound
      cases hsound
    | cons first rest =>
      rw [Sound, htext] at hsound
      exact gapOf_number hsound tail
  | name label =>
    rw [chars, quoteIdent, toList_between]
    exact gapOf_eq_nil (by decide) (by decide) (fun heq => absurd heq (by decide))
  | literal value =>
    rw [chars, quoteLiteral, toList_between]
    exact gapOf_eq_nil (by decide) (by decide) (fun heq => absurd heq (by decide))
  | leftParen => rfl
  | rightParen => rfl
  | leftBracket => rfl
  | rightBracket => rfl
  | comma => rfl
  | semicolon => rfl
  | dot => rfl

/-! ## Plain words

A word of small letters, digits and underscores is its own lower-case form.  Where it is a
key word it is a name of the same spelling, or one of a few that are reserved. -/

section Word

def reserved : List String :=
  ["create", "table", "only", "primary", "foreign", "references", "not", "null", "unique",
    "default", "on", "constraint", "check", "as", "using"]

variable {word : String}

theorem isAlpha_of_isLower {c : Char} (hlower : c.isLower = true) : c.isAlpha = true := by
  change (c.isUpper || c.isLower) = true
  rw [hlower, Bool.or_true]

theorem isWordLetter_of_isPlainChar {c : Char} (hplain : isPlainChar c = true) :
    isWordLetter c = true := by
  simp only [isPlainChar, Bool.or_eq_true] at hplain
  simp only [isWordLetter, Char.isAlphanum, Bool.or_eq_true]
  rcases hplain with (hlower | hdigit) | hunderscore
  · exact .inl (.inl (isAlpha_of_isLower hlower))
  · exact .inl (.inr hdigit)
  · exact .inr hunderscore

theorem isPlainChar_of_isPlainStart {c : Char} (hplain : isPlainStart c = true) :
    isPlainChar c = true := by
  simp only [isPlainStart, Bool.or_eq_true] at hplain
  simp only [isPlainChar, Bool.or_eq_true]
  exact hplain.imp_left .inl

/-- Every character of a plain identifier is a plain one. -/
theorem isPlainChar_of_mem (hplain : isPlainIdent word = true) {c : Char}
    (hmem : c ∈ word.toList) : isPlainChar c = true := by
  rw [isPlainIdent] at hplain
  cases hword : word.toList with
  | nil =>
    rw [hword] at hmem
    cases hmem
  | cons first rest =>
    rw [hword] at hplain hmem
    rw [Bool.and_eq_true] at hplain
    rcases List.mem_cons.1 hmem with rfl | hrest
    · exact isPlainChar_of_isPlainStart hplain.1
    · exact List.all_eq_true.1 hplain.2 c hrest

/-- A plain identifier is a word. -/
theorem isWordText_of_isPlainIdent (hplain : isPlainIdent word = true) :
    isWordText word.toList = true := by
  have hletters : ∀ c ∈ word.toList, isWordLetter c = true :=
    fun c hmem => isWordLetter_of_isPlainChar (isPlainChar_of_mem hplain hmem)
  rw [isPlainIdent] at hplain
  cases hword : word.toList with
  | nil =>
    rw [hword] at hplain
    cases hplain
  | cons first rest =>
    rw [hword] at hplain hletters
    rw [Bool.and_eq_true] at hplain
    rw [isWordText, Bool.and_eq_true]
    refine ⟨?_, List.all_eq_true.2 fun c hmem => hletters c (List.mem_cons_of_mem _ hmem)⟩
    have hstart := hplain.1
    simp only [isPlainStart, Bool.or_eq_true] at hstart
    simp only [isCallStart, Bool.or_eq_true]
    exact hstart.imp_left isAlpha_of_isLower

theorem case_ofNat : ∀ code < 128, isPlainChar (Char.ofNat code) = true →
    (Char.ofNat code).toLower = Char.ofNat code ∧
      (Char.ofNat code).toUpper.toLower = Char.ofNat code := by
  decide

theorem toLower_of_isPlainChar {c : Char} (hplain : isPlainChar c = true) :
    c.toLower = c ∧ c.toUpper.toLower = c := by
  have hascii := isAscii_of_isWordLetter (isWordLetter_of_isPlainChar hplain)
  rw [Text.isAscii, decide_eq_true_eq] at hascii
  have hcase := case_ofNat c.toNat hascii
  rw [Char.ofNat_toNat] at hcase
  exact hcase hplain

theorem toLower_eq_self (hplain : isPlainIdent word = true) : word.toLower = word := by
  rw [← String.toList_inj]
  change (word.map Char.toLower).toList = word.toList
  rw [String.toList_map]
  have hself : ∀ c ∈ word.toList, c.toLower = c :=
    fun c hmem => (toLower_of_isPlainChar (isPlainChar_of_mem hplain hmem)).1
  rw [List.map_congr_left hself, List.map_id']

theorem toLower_ofList {chars lower : List Char} (hlower : chars.map Char.toLower = lower) :
    (String.ofList chars).toLower = String.ofList lower := by
  rw [← String.toList_inj]
  change ((String.ofList chars).map Char.toLower).toList = _
  rw [String.toList_map, String.toList_ofList, hlower, String.toList_ofList]

/-- What is in lower case stays as it is. -/
theorem lowerAfter_eq_self {chars : List Char} (hplain : ∀ c ∈ chars, isPlainChar c = true)
    (before : List Char) : Text.lowerAfter before chars = chars := by
  induction chars generalizing before with
  | nil => rfl
  | cons c rest ih =>
    have hc := hplain c List.mem_cons_self
    have hascii := isAscii_of_isWordLetter (isWordLetter_of_isPlainChar hc)
    have hsigma : (c == 'Σ') = false := by
      rw [beq_eq_false_iff_ne]
      rintro rfl
      exact absurd hascii (by decide)
    simp only [Text.lowerAfter, hsigma, Bool.false_eq_true, if_false, Text.lowerChar, hascii,
      if_true, (toLower_of_isPlainChar hc).1, List.singleton_append]
    rw [ih fun other hmem => hplain other (List.mem_cons_of_mem _ hmem)]

theorem lower_eq_self (hplain : isPlainIdent word = true) : Text.lower word = word := by
  have hself := lowerAfter_eq_self (fun c hmem => isPlainChar_of_mem hplain hmem) []
  rw [Text.lower, hself, String.ofList_toList]

/-- A plain word is the lower-case form of its upper-case form. -/
theorem map_toLower_upper (hplain : isPlainIdent word = true) :
    (Text.upper word).toList.map Char.toLower = word.toList := by
  have hchars : ∀ c ∈ word.toList, (Text.upperChar c).map Char.toLower = [c] := by
    intro c hmem
    have hc := isPlainChar_of_mem hplain hmem
    rw [Text.upperChar, if_pos (isAscii_of_isWordLetter (isWordLetter_of_isPlainChar hc)),
      List.map_singleton, (toLower_of_isPlainChar hc).2]
  rw [Text.upper, String.toList_ofList, List.map_flatMap]
  generalize word.toList = chars at hchars
  induction chars with
  | nil => rfl
  | cons c rest ih =>
    rw [List.flatMap_cons, hchars c List.mem_cons_self,
      ih fun other hmem => hchars other (List.mem_cons_of_mem _ hmem)]
    rfl

/-- A plain key word is a name of its own spelling, unless it is reserved. -/
theorem Keyword.name?_of_ofWord? (hplain : isPlainIdent word = true) {known : Keyword}
    (hknown : Keyword.ofWord? word = some known) (hfree : word ∉ reserved) :
    known.name? = some word := by
  have hfound : Keyword.all.find? (fun keyword => keyword.spelling == Text.upper word) =
      some known := hknown
  have hspelling := List.find?_some hfound
  rw [beq_iff_eq] at hspelling
  have hword : String.ofList (known.spelling.toList.map Char.toLower) = word := by
    rw [hspelling, map_toLower_upper hplain, String.ofList_toList]
  subst hword
  clear hknown hspelling hplain
  revert hfree
  cases known <;> decide

/-- A plain word is the name that it spells, unless it is reserved. -/
theorem name?_ofWord (hplain : isPlainIdent word = true) (hfree : word ∉ reserved) :
    (Token.ofWord word).name? = some word := by
  rw [Token.ofWord]
  cases hknown : Keyword.ofWord? word with
  | none => exact congrArg some (lower_eq_self hplain)
  | some known => exact Keyword.name?_of_ofWord? hplain hknown hfree

def Piece.ident (name : String) : Piece :=
  if isPlainIdent name then .word name else .name name

theorem Piece.chars_ident (name : String) :
    (Piece.ident name).chars = (quoteIdentIfNeeded name).toList := by
  rw [Piece.ident, quoteIdentIfNeeded]
  split <;> rfl

theorem Piece.sound_ident (name : String) : (Piece.ident name).Sound := by
  rw [Piece.ident]
  split
  · next hplain => exact isWordText_of_isPlainIdent hplain
  · trivial

theorem Piece.name?_ident {name : String} (hfree : name ∉ reserved) :
    (Piece.ident name).token.name? = some name := by
  rw [Piece.ident]
  split
  · next hplain => exact name?_ofWord hplain hfree
  · rfl

/-! ## Words of types -/

/-- A word that can stand in the name of a type. -/
structure IsTypeWord (word : String) : Prop where
  plain : isPlainIdent word = true
  noKeyword : Keyword.ofWord? word = none
  ne_collate : word ≠ "collate"
  ne_generated : word ≠ "generated"

instance (word : String) : Decidable (IsTypeWord word) :=
  decidable_of_iff (isPlainIdent word = true ∧ Keyword.ofWord? word = none ∧
    word ≠ "collate" ∧ word ≠ "generated")
    ⟨fun ⟨hplain, hnone, hcollate, hgenerated⟩ => ⟨hplain, hnone, hcollate, hgenerated⟩,
      fun htype => ⟨htype.plain, htype.noKeyword, htype.ne_collate, htype.ne_generated⟩⟩

theorem IsTypeWord.token (htype : IsTypeWord word) : Token.ofWord word = .word word := by
  rw [Token.ofWord, htype.noKeyword]

theorem IsTypeWord.endsExpression (htype : IsTypeWord word) :
    endsExpression (.word word) = false := by
  simp [Sql.endsExpression, Token.isOneOf, Token.isWord, toLower_eq_self htype.plain,
    htype.ne_collate, htype.ne_generated]

end Word

end SchemaEvolution.Sql
