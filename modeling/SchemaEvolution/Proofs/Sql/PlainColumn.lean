import SchemaEvolution.Proofs.Numeral.Whole
import SchemaEvolution.Proofs.Sql.PlainType
import SchemaEvolution.Sql.Statement

/-!
# Plain columns

A column is printed as its name, its type, its keys, whether it may be null, and its default.
Each of these is read as one attribute, so the definition read is the one printed.
-/

namespace SchemaEvolution.Sql

/-- A default that is a literal: no double, and no text that would be an expression. -/
def IsPlainDefault : DefaultValue → Prop
  | .boolean _ => True
  | .number (.integer value) => Numeral.leastInt64 ≤ value ∧ value ≤ Numeral.greatestInt64
  | .number (.double _) => False
  | .text value => isRawExpression value = false

instance : (default : DefaultValue) → Decidable (IsPlainDefault default)
  | .boolean _ => inferInstanceAs (Decidable True)
  | .number (.integer _) => inferInstanceAs (Decidable (_ ∧ _))
  | .number (.double _) => inferInstanceAs (Decidable False)
  | .text _ => inferInstanceAs (Decidable (_ = _))

def defaultPiece : DefaultValue → Piece
  | .boolean true => .word "TRUE"
  | .boolean false => .word "FALSE"
  | .number value => .number value.text
  | .text value => .literal value

theorem chars_defaultPiece {default : DefaultValue} (hplain : IsPlainDefault default) :
    (defaultPiece default).chars = (renderDefault default).toList := by
  match default, hplain with
  | .boolean true, _ => rfl
  | .boolean false, _ => rfl
  | .number value, _ => rfl
  | .text value, hplain =>
    have hraw : isRawExpression value = false := hplain
    rw [defaultPiece, renderDefault, hraw]
    rfl

/-- The text of an integer is a number. -/
theorem isNumberText_toString (value : Int) : isNumberText (toString value).toList = true := by
  cases value with
  | ofNat n =>
    obtain ⟨first, rest, hdigits, hfirst⟩ := Numeral.toDigits_eq_cons n
    have htext : (toString (Int.ofNat n)).toList = Nat.toDigits 10 n := Nat.toList_repr
    have hall := Numeral.all_isDigit_toDigits n
    refine isNumberText_of_isDigits ?_
    rw [isDigits, htext, hall, hdigits]
    rfl
  | negSucc n =>
    have htext : (toString (Int.negSucc n)).toList = '-' :: Nat.toDigits 10 (n + 1) := by
      rw [← Nat.toList_repr, Int.toString_eq_repr, Int.repr]
      simp
    rw [htext, isNumberText, Numeral.all_isDigit_toDigits]
    simp [Nat.toDigits_ne_nil]

theorem sound_defaultPiece {default : DefaultValue} (hplain : IsPlainDefault default) :
    (defaultPiece default).Sound := by
  match default, hplain with
  | .boolean true, _ => rfl
  | .boolean false, _ => rfl
  | .number (.integer value), _ => exact isNumberText_toString value
  | .text value, _ => trivial

/-- The lexeme of a literal is the literal. -/
theorem defaultOf_defaultPiece {default : DefaultValue} (hplain : IsPlainDefault default)
    {lexeme : Lexeme} (hlexeme : lexeme.token = (defaultPiece default).token) :
    defaultOf [lexeme] = some default := by
  match default, hplain with
  | .boolean true, _ =>
    have htoken : lexeme.token = .word "TRUE" := hlexeme
    have hword : "TRUE".toLower = "true" := toLower_ofList (by decide)
    simp only [defaultOf, htoken, List.isEmpty_nil, hword]
    rfl
  | .boolean false, _ =>
    have htoken : lexeme.token = .word "FALSE" := hlexeme
    have hword : "FALSE".toLower = "false" := toLower_ofList (by decide)
    simp only [defaultOf, htoken, List.isEmpty_nil, hword]
    rfl
  | .number (.integer value), hplain =>
    have htoken : lexeme.token = .number (toString value) := hlexeme
    simp only [defaultOf, htoken, DefaultValue.ofNumeral?,
      Numeral.readInt64?_toString hplain.1 hplain.2]
    rfl
  | .text value, _ =>
    have htoken : lexeme.token = .string value := hlexeme
    simp only [defaultOf, htoken]
    rfl

theorem endsDefault_defaultPiece {default : DefaultValue} (hplain : IsPlainDefault default) :
    endsDefault 0 (defaultPiece default).token = false := by
  match default, hplain with
  | .boolean true, _ => decide +kernel
  | .boolean false, _ => decide +kernel
  | .number (.integer value), _ => rfl
  | .text value, _ => rfl

theorem depthAfter_defaultPiece (default : DefaultValue) :
    depthAfter 0 (defaultPiece default).token = 0 := by
  match default with
  | .boolean true => rfl
  | .boolean false => rfl
  | .number _ => rfl
  | .text _ => rfl

/-- What a printed column demands besides its name and its type. -/
structure Attributes where
  primary : Bool
  unique : Bool
  notNull : Bool
  default : Option DefaultValue

def flagRow (flag : Bool) (words : List Keyword) : List Spaced :=
  if flag then words.map keyword else []

def defaultRow : Option DefaultValue → List Spaced
  | some default => [keyword .default, after (defaultPiece default)]
  | none => []

def Attributes.row (attributes : Attributes) : List Spaced :=
  flagRow attributes.primary [.primary, .key] ++ (flagRow attributes.unique [.unique] ++
    (flagRow attributes.notNull [.not, .null] ++ defaultRow attributes.default))

theorem sturdy_keywords (words : List Keyword) : Sturdy (words.map keyword) := by
  rw [List.map_eq_flatMap]
  exact sturdy_flatMap fun known _ => .after (sound_keyword known) sturdy_nil

theorem sturdy_flagRow (flag : Bool) (words : List Keyword) : Sturdy (flagRow flag words) := by
  cases flag with
  | true => exact sturdy_keywords words
  | false => exact sturdy_nil

theorem sturdy_defaultRow {default : Option DefaultValue}
    (hplain : ∀ value ∈ default, IsPlainDefault value) : Sturdy (defaultRow default) := by
  cases default with
  | none => exact sturdy_nil
  | some value =>
    exact .after (sound_keyword .default) (.after (sound_defaultPiece (hplain value rfl)) sturdy_nil)

theorem Attributes.sturdy_row {attributes : Attributes}
    (hplain : ∀ value ∈ attributes.default, IsPlainDefault value) : Sturdy attributes.row :=
  (sturdy_flagRow _ _).append ((sturdy_flagRow _ _).append
    ((sturdy_flagRow _ _).append (sturdy_defaultRow hplain)))

def Attributes.text (attributes : Attributes) : String :=
  (if attributes.primary then " PRIMARY KEY" else "") ++
    (if attributes.unique then " UNIQUE" else "") ++
    notNullClause attributes.notNull ++ defaultClause attributes.default

theorem rowChars_defaultRow {default : Option DefaultValue}
    (hplain : ∀ value ∈ default, IsPlainDefault value) :
    rowChars (defaultRow default) = (defaultClause default).toList := by
  cases default with
  | none => rfl
  | some value =>
    rw [defaultRow, keyword, rowChars_after, rowChars_after, defaultClause, String.toList_append,
      chars_defaultPiece (hplain value rfl)]
    simp [rowChars, Piece.chars, Keyword.spelling]

/-- The row of a column's attributes is printed as their text. -/
theorem Attributes.rowChars_row {attributes : Attributes}
    (hplain : ∀ value ∈ attributes.default, IsPlainDefault value) :
    rowChars attributes.row = attributes.text.toList := by
  obtain ⟨primary, unique, notNull, default⟩ := attributes
  have hprimary : rowChars (flagRow primary [.primary, .key]) =
      (if primary then " PRIMARY KEY" else "").toList := by cases primary <;> rfl
  have hunique : rowChars (flagRow unique [.unique]) =
      (if unique then " UNIQUE" else "").toList := by cases unique <;> rfl
  have hnotNull : rowChars (flagRow notNull [.not, .null]) = (notNullClause notNull).toList := by
    cases notNull <;> rfl
  simp only [row, text, rowChars_append, hprimary, hunique, hnotNull, rowChars_defaultRow hplain,
    String.toList_append, List.append_assoc]

/-- The definition that a column with these attributes is read as. -/
def Attributes.definition (attributes : Attributes) (name type : String) : ColumnDefinition where
  column := ⟨name, type, attributes.default, none,
    attributes.primary || attributes.notNull || TypeName.isSerial type, none⟩
  primaryKey := if attributes.primary then some none else none
  unique := if attributes.unique then some none else none
  references := []
  check := none

namespace ColumnDefinition

variable {row : List Spaced} {rest lexemes : List Lexeme} (d : ColumnDefinition)

def asPrimary : ColumnDefinition := { d.requireValue with primaryKey := some none }

def asUnique : ColumnDefinition := { d with unique := some none }

theorem attributeStep_primary
    (hopens : Opens (keyword .primary :: keyword .key :: row) rest lexemes) :
    attributeStep (d, none) lexemes = .ok (.again (d.asPrimary, none), lexemes.tail.tail) := by
  simp only [attributeStep, hopens.next_keyword, hopens.tail.skip (token_keyword .key), asPrimary]

theorem attributeStep_unique (hopens : Opens (keyword .unique :: row) rest lexemes) :
    attributeStep (d, none) lexemes = .ok (.again (d.asUnique, none), lexemes.tail) := by
  simp only [attributeStep, hopens.next_keyword, asUnique]

theorem attributeStep_notNull
    (hopens : Opens (keyword .not :: keyword .null :: row) rest lexemes) :
    attributeStep (d, none) lexemes = .ok (.again (d.requireValue, none), lexemes.tail.tail) := by
  simp only [attributeStep, hopens.next_keyword, hopens.tail.eat?_keyword]

/-- Signs after which the definition of a column is over. -/
def IsClosing (spaced : Spaced) : Prop :=
  spaced.piece = .comma ∨ spaced.piece = .rightParen ∨ spaced.piece = .semicolon

/-- A default that is plain is read back as the one of the column. -/
theorem attributeStep_default {default : DefaultValue} (hplain : IsPlainDefault default)
    {closing : Spaced} (hclosing : IsClosing closing)
    (hopens : Opens (keyword .default :: after (defaultPiece default) :: closing :: row)
      rest lexemes) :
    attributeStep (d, none) lexemes =
      .ok (.again ({ d with column := { d.column with default := some default } }, none),
        lexemes.tail.tail) := by
  obtain ⟨lexeme, others, hlexeme, hothers, htail⟩ := hopens.tail.cons
  have htoken : lexeme.token = (defaultPiece default).token := hlexeme.2.2
  obtain ⟨stop, more, hstop, -, rfl⟩ := hothers.cons
  have hends : (endsDefault 0 stop.token || (0 == 0 && startsClause stop.token)) = true := by
    rw [hstop.2.2]
    rcases hclosing with hpiece | hpiece | hpiece <;> rw [hpiece] <;> rfl
  have hcut : cutDefault (lexeme :: stop :: more) = ([lexeme], stop :: more) := by
    rw [cutDefault, htoken, endsDefault_defaultPiece hplain, depthAfter_defaultPiece, cut,
      if_pos hends]
    rfl
  simp only [attributeStep, hopens.next_keyword, readDefault, htail, hcut,
    defaultOf_defaultPiece hplain htoken, List.tail_cons]

/-- What closes an element ends the attributes. -/
theorem attributeStep_closing {closing : Spaced} (hclosing : IsClosing closing)
    (hopens : Opens (closing :: row) rest lexemes) :
    attributeStep (d, none) lexemes = .ok (.done (d, none), lexemes) := by
  have hnext := hopens.next
  rcases hclosing with hpiece | hpiece | hpiece
  · rw [hpiece] at hnext
    simp only [attributeStep, hnext]
    rfl
  · rw [hpiece] at hnext
    simp only [attributeStep, hnext]
    rfl
  · rw [hpiece] at hnext
    simp only [attributeStep, hnext]
    rfl

/-! ## Reading a definition -/

variable {closing : Spaced}

/-- What an attribute that is there or not makes of a definition. -/
def changeIf (flag : Bool) (change : ColumnDefinition → ColumnDefinition) : ColumnDefinition :=
  if flag then change d else d

/-- Key words that are there add what their attribute means. -/
theorem repeatedly_flag {flag : Bool} (words : List Keyword)
    {change : ColumnDefinition → ColumnDefinition}
    (hstep : ∀ {lexemes : List Lexeme}, Opens (words.map keyword ++ row) rest lexemes →
      ∃ after, Opens row rest after ∧ attributeStep (d, none) lexemes =
        .ok (.again (change d, none), after))
    (hwords : words ≠ []) (hopens : Opens (flagRow flag words ++ row) rest lexemes) :
    ∃ after, Opens row rest after ∧ repeatedly attributeStep (d, none) lexemes =
      repeatedly attributeStep (d.changeIf flag change, none) after := by
  cases flag with
  | false => exact ⟨lexemes, hopens, rfl⟩
  | true =>
    obtain ⟨after, hafter, hturn⟩ := hstep hopens
    have hlength : row.length < (flagRow true words ++ row).length := by
      have hpositive := List.length_pos_iff.2 hwords
      simp [flagRow, hpositive]
    exact ⟨after, hafter, hopens.repeatedly_again hafter hlength hturn⟩

/-- A default in front of what closes the column is read into the column. -/
theorem repeatedly_default {default : Option DefaultValue}
    (hplain : ∀ value ∈ default, IsPlainDefault value) (hclosing : IsClosing closing)
    (hopens : Opens (defaultRow default ++ closing :: row) rest lexemes)
    (hnone : d.column.default = none) :
    ∃ after, Opens (closing :: row) rest after ∧ repeatedly attributeStep (d, none) lexemes =
      repeatedly attributeStep ({ d with column := { d.column with default := default } }, none)
        after := by
  cases default with
  | none =>
    rw [← hnone]
    exact ⟨lexemes, hopens, rfl⟩
  | some value =>
    refine ⟨lexemes.tail.tail, hopens.tail.tail, ?_⟩
    exact hopens.repeatedly_again hopens.tail.tail (by simp [defaultRow])
      (attributeStep_default d (hplain value rfl) hclosing hopens)

def required (attributes : Attributes) (name type : String) : ColumnDefinition :=
  (((plain name type).changeIf attributes.primary asPrimary).changeIf attributes.unique
    asUnique).changeIf attributes.notNull requireValue

theorem default_required (attributes : Attributes) (name type : String) :
    (required attributes name type).column.default = none := by
  obtain ⟨primary, unique, notNull, default⟩ := attributes
  cases primary <;> cases unique <;> cases notNull <;> rfl

theorem definition_eq_required (attributes : Attributes) (name type : String) :
    attributes.definition name type =
      { required attributes name type with
        column := { (required attributes name type).column with
          default := attributes.default } } := by
  obtain ⟨primary, unique, notNull, default⟩ := attributes
  cases primary <;> cases unique <;> cases notNull <;> rfl

/-- All attributes of a column are read, up to the sign after them. -/
theorem repeatedly_attributes {attributes : Attributes}
    (hplain : ∀ value ∈ attributes.default, IsPlainDefault value) (hclosing : IsClosing closing)
    (name type : String)
    (hopens : Opens (attributes.row ++ closing :: row) rest lexemes) :
    ∃ after, Opens (closing :: row) rest after ∧
      repeatedly attributeStep (plain name type, none) lexemes =
        .ok ((attributes.definition name type, none), after) := by
  rw [Attributes.row, List.append_assoc, List.append_assoc, List.append_assoc] at hopens
  let first := plain name type
  let keyed := first.changeIf attributes.primary asPrimary
  let alone := keyed.changeIf attributes.unique asUnique
  obtain ⟨second, hsecond, hprimary⟩ := first.repeatedly_flag [.primary, .key]
    (fun hprimary => ⟨_, hprimary.tail.tail, attributeStep_primary _ hprimary⟩) nofun hopens
  obtain ⟨third, hthird, hunique⟩ := keyed.repeatedly_flag [.unique]
    (fun hunique => ⟨_, hunique.tail, attributeStep_unique _ hunique⟩) nofun hsecond
  obtain ⟨fourth, hfourth, hnotNull⟩ := alone.repeatedly_flag [.not, .null]
    (fun hnotNull => ⟨_, hnotNull.tail.tail, attributeStep_notNull _ hnotNull⟩) nofun hthird
  obtain ⟨last, hlast, hdefault⟩ := repeatedly_default (required attributes name type) hplain
    hclosing hfourth (default_required attributes name type)
  refine ⟨last, hlast, ?_⟩
  calc repeatedly attributeStep (first, none) lexemes
    _ = repeatedly attributeStep (keyed, none) second := hprimary
    _ = repeatedly attributeStep (alone, none) third := hunique
    _ = repeatedly attributeStep (required attributes name type, none) fourth := hnotNull
    _ = repeatedly attributeStep (attributes.definition name type, none) last := by
      rw [hdefault, definition_eq_required]
    _ = .ok ((attributes.definition name type, none), last) :=
      repeatedly_done (attributeStep_closing _ hclosing hlast)

/-- Whatever follows a type ends it. -/
theorem endsType_of_opens {attributes : Attributes} (hclosing : IsClosing closing)
    (hopens : Opens (attributes.row ++ closing :: row) rest lexemes) :
    ∃ lexeme more, lexemes = lexeme :: more ∧ endsType 0 lexeme.token = true := by
  have hfirst : ∃ spaced others, attributes.row ++ closing :: row = spaced :: others ∧
      endsType 0 spaced.piece.token = true := by
    obtain ⟨primary, unique, notNull, default⟩ := attributes
    have hword : ∀ known : Keyword, endsType 0 (keyword known).piece.token = true := by
      intro known
      rw [keyword, after, token_keyword]
      rfl
    cases primary with
    | true => exact ⟨_, _, rfl, hword .primary⟩
    | false =>
      cases unique with
      | true => exact ⟨_, _, rfl, hword .unique⟩
      | false =>
        cases notNull with
        | true => exact ⟨_, _, rfl, hword .not⟩
        | false =>
          cases default with
          | some value => exact ⟨_, _, rfl, hword .default⟩
          | none =>
            refine ⟨_, _, rfl, ?_⟩
            rcases hclosing with hpiece | hpiece | hpiece <;> rw [hpiece] <;> rfl
  obtain ⟨spaced, others, hrow, hends⟩ := hfirst
  rw [hrow] at hopens
  obtain ⟨lexeme, more, hlexeme, -, rfl⟩ := hopens.cons
  exact ⟨lexeme, more, rfl, by rw [hlexeme.2.2]; exact hends⟩

/-- A printed column is read as the definition it was printed from. -/
theorem read_of_opens {spaced : Spaced} {name type : String}
    {attributes : Attributes} (hname : spaced.piece.token.name? = some name)
    (htype : IsPlainType type)
    (hplain : ∀ value ∈ attributes.default, IsPlainDefault value) (hclosing : IsClosing closing)
    (hopens : Opens (spaced :: (typeRow type ++ (attributes.row ++ closing :: row))) rest lexemes) :
    ∃ after, Opens (closing :: row) rest after ∧
      ColumnDefinition.read lexemes = .ok (attributes.definition name type, after) := by
  obtain ⟨taken, others, htaken, hothers, htail⟩ := hopens.tail.append
  obtain ⟨lexeme, more, hcons, hends⟩ := endsType_of_opens hclosing hothers
  obtain ⟨after, hafter, hread⟩ := repeatedly_attributes hplain hclosing name type hothers
  refine ⟨after, hafter, ?_⟩
  have hcut : cut endsType 0 lexemes.tail = (taken, others) := by
    rw [htail, hcons]
    exact htype.isTypeRow.cut htaken more hends
  simp only [ColumnDefinition.read, hcut, htype.isTypeRow.textOf htaken, htype.isEmpty, htype.2, hopens.next,
    hname, Option.getD_some, Bool.false_eq_true, if_false, hread]
  rfl

end ColumnDefinition

end SchemaEvolution.Sql
