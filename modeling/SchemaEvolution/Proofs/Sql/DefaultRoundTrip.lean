import SchemaEvolution.Proofs.Numeral.Positional
import SchemaEvolution.Proofs.Sql.DefaultReading

/-!
# Defaults read back

Booleans, integers, numbers that are printed without an exponent and texts between quotes are read
back as they were.  A text that is written as an expression is read back where it stands for
itself: it is cut from what surrounds it and is no literal.
-/

namespace SchemaEvolution.Sql

variable {body : List Lexeme} {text : String}

/-- Lexemes that are a literal, alone or before a cast. -/
def isTyped : List Lexeme → Bool
  | [] => false
  | first :: rest =>
    match first.token with
    | .keyword .null | .string _ | .number _ => isCast rest
    | .word word => rest.isEmpty && (word.toLower == "true" || word.toLower == "false")
    | _ => false

/-- The text stands for itself as a default: nothing in it is taken for something else, and nothing
is left of it or added to it. -/
def IsExpression (text : String) : Prop :=
  ∃ body, StandsAlone text body ∧ textOf body = text ∧ isTyped body = false

theorem StandsAlone.ne_nil (hstands : StandsAlone text body) : body ≠ [] := by
  rintro rfl
  exact hstands.unbroken

/-- What is no literal is a default by its text. -/
theorem defaultOf_of_untyped (hsome : body ≠ []) (htyped : isTyped body = false) :
    defaultOf body = some (.text (textOf body)) := by
  cases body with
  | nil => exact absurd rfl hsome
  | cons first rest =>
    cases htoken : first.token with
    | keyword word =>
      cases word with
      | null =>
        have hcast : isCast rest = false := by rwa [isTyped, htoken] at htyped
        simp only [defaultOf, htoken, hcast, Bool.false_eq_true, if_false]
      | _ => simp only [defaultOf, htoken]
    | string _ | number _ =>
      have hcast : isCast rest = false := by rwa [isTyped, htoken] at htyped
      simp only [defaultOf, htoken, hcast, Bool.false_eq_true, if_false]
    | word word =>
      rw [isTyped, htoken] at htyped
      simp only [defaultOf, htoken]
      split_ifs with hmore htrue hfalse
      · rfl
      · simp_all
      · simp_all
      · rfl
    | _ => simp only [defaultOf, htoken]

/-- A default of one lexeme stands alone, unless that lexeme ends it. -/
theorem standsAlone_singleton {text : String} {lexeme : Lexeme} {final : Nat}
    (hlexemes : lineOf text = [lexeme, ⟨['\n'], [], .eof, final⟩])
    (hends : endsDefault 0 lexeme.token = false) (hdepth : depthAfter 0 lexeme.token = 0) :
    StandsAlone text [lexeme] :=
  ⟨⟨final, hlexemes⟩, hends, hdepth⟩

/-- A literal default stands alone, and is what its lexeme is. -/
theorem exists_standsAlone_of_plain {default : DefaultValue} (hplain : IsPlainDefault default) :
    ∃ body, StandsAlone (renderDefault default) body ∧ defaultOf body = some default := by
  have hrow : Fits ['\n'] [after (defaultPiece default)] :=
    (Sturdy.after (sound_defaultPiece hplain) sturdy_nil).fits _ (closes_cons rfl [])
  obtain ⟨taken, final, hplaces, hlexemes⟩ := lexemes_of_fits isBlankText_newline hrow 1
  cases hplaces with
  | cons hlexeme hrest =>
    cases hrest
    have htoken : _ = (defaultPiece default).token := hlexeme.2.2
    rw [rowChars_after, rowChars_nil, List.append_nil, chars_defaultPiece hplain] at hlexemes
    refine ⟨_, standsAlone_singleton hlexemes ?_ ?_, defaultOf_defaultPiece hplain htoken⟩
    · rw [htoken, endsDefault_defaultPiece hplain]
    · rw [htoken, depthAfter_defaultPiece]

open Numeral (Positional signOf)

theorem numberLength_append {hasPoint : Bool} {digits : List Char}
    (hdigits : ∀ c ∈ digits, c.isDigit = true) (tail : List Char) :
    Lexeme.numberLength hasPoint (digits ++ tail) =
      digits.length + Lexeme.numberLength hasPoint tail := by
  induction digits with
  | nil => rw [List.nil_append, List.length_nil, Nat.zero_add]
  | cons digit rest ih =>
    rw [List.cons_append, Lexeme.numberLength, if_pos (hdigits digit List.mem_cons_self),
      ih fun c hmem => hdigits c (List.mem_cons_of_mem _ hmem), List.length_cons]
    omega

theorem numberLength_point {whole fraction : List Char} (hwhole : ∀ c ∈ whole, c.isDigit = true)
    (hfraction : ∀ c ∈ fraction, c.isDigit = true) {tail : List Char} (hcloses : Closes tail) :
    Lexeme.numberLength false (whole ++ '.' :: fraction ++ tail) =
      (whole ++ '.' :: fraction).length := by
  have htail : Lexeme.numberLength true (fraction ++ tail) = fraction.length :=
    numberLength_digits true hfraction fun c hmem => isDigit_of_isBoundary (hcloses c hmem)
  have hpoint : Lexeme.numberLength false ('.' :: (fraction ++ tail)) = fraction.length + 1 := by
    rw [← htail]
    rfl
  rw [List.append_assoc, List.cons_append, numberLength_append hwhole, hpoint, List.length_append,
    List.length_cons]

/-- A number with a point is one token, up to a boundary. -/
theorem scan_positional {text whole fraction : List Char} {value : ℚ}
    (hpositional : Positional text whole fraction value) (negative : Bool) {tail : List Char}
    (hcloses : Closes tail) :
    ∃ first rest, signOf negative ++ text = first :: rest ∧
      Lexeme.scan first (rest ++ tail) = (.number (String.ofList (first :: rest)), rest.length) ∧
      Lexeme.gapOf .between (first :: rest ++ tail) = [] := by
  obtain ⟨digit, more, rfl, hdigit⟩ := hpositional.exists_first
  have hlead : ∀ (lead : List Char) {rest : List Char}, (∀ c ∈ rest, c.isDigit = true) →
      Lexeme.scanNumber lead false (rest ++ '.' :: fraction ++ tail) =
        (.number (String.ofList (lead ++ (rest ++ '.' :: fraction))),
          (rest ++ '.' :: fraction).length) := by
    intro lead rest hrest
    rw [Lexeme.scanNumber, numberLength_point hrest hpositional.fraction_digits hcloses,
      List.take_left]
  rw [hpositional.text_eq]
  cases negative with
  | true =>
    refine ⟨'-', digit :: more ++ '.' :: fraction, rfl, ?_, ?_⟩
    · have hstarts : Lexeme.startsWithDigit (digit :: more ++ '.' :: fraction ++ tail) = true :=
        hdigit
      rw [Lexeme.scan, if_pos rfl, if_pos hstarts, hlead ['-'] hpositional.whole_digits]
      rfl
    · refine gapOf_eq_nil (by decide) (by decide) ?_
      rintro - d hd rfl
      cases hd
      exact absurd hdigit (by decide)
  | false =>
    have hmore : ∀ c ∈ more, c.isDigit = true :=
      fun c hmem => hpositional.whole_digits c (List.mem_cons_of_mem _ hmem)
    refine ⟨digit, more ++ '.' :: fraction, rfl, ?_, ?_⟩
    · rw [scan_digit hdigit, hlead [digit] hmore]
      rfl
    · refine gapOf_eq_nil (isBlank_of_isWordLetter ?_) ?_ ?_
      · simp [isWordLetter, Char.isAlphanum, hdigit]
      · rintro rfl
        exact absurd hdigit (by decide)
      · rintro rfl
        exact absurd hdigit (by decide)

/-- A number that is printed without an exponent stands alone, and is what its lexeme is. -/
theorem exists_standsAlone_of_positional {x : Binary64} (hx : Numeral.IsPositional x) :
    ∃ body, StandsAlone (Numeral.text x) body ∧ defaultOf body = some (.number (.double x)) := by
  obtain ⟨whole, fraction, hpositional⟩ := hx.exists_digits
  obtain ⟨first, rest, htext, hscan, hgap⟩ :=
    scan_positional hpositional x.negative (closes_cons (rfl : isBoundary '\n' = true) [])
  have hnumeral : String.ofList (first :: rest) = Numeral.text x := by
    rw [← htext, ← Numeral.text_eq_signOf]
  have hspace : Lexeme.gapOf .between (' ' :: (first :: rest ++ ['\n'])) = [' '] :=
    gapOf_append isBlankText_space hgap
  have hdrop : (' ' :: (first :: rest ++ ['\n'])).drop
      (Lexeme.gapOf .between (' ' :: (first :: rest ++ ['\n']))).length =
        first :: (rest ++ ['\n']) := by
    rw [hspace]
    rfl
  have hlexemes := lexemes_of_scan 1 hdrop
  have hchars : first :: rest = (Numeral.text x).toList := by
    rw [← hnumeral, String.toList_ofList]
  rw [hscan, List.drop_left, lexemes_blank isBlankText_newline, hnumeral, hchars] at hlexemes
  refine ⟨_, standsAlone_singleton hlexemes rfl rfl, ?_⟩
  simp only [defaultOf, DefaultValue.ofNumeral?, hx.readInt64?_text,
    hx.readBinary64?_text]
  rfl

/-! ## Restorable defaults -/

/-- The defaults that are read back: numbers are integers of 64 bits or printed without an exponent,
and texts that are written as they are stand for themselves. -/
def IsRestorable : DefaultValue → Prop
  | .boolean _ => True
  | .number (.integer value) => Numeral.leastInt64 ≤ value ∧ value ≤ Numeral.greatestInt64
  | .number (.double value) => Numeral.IsPositional value
  | .text value => isRawExpression value = true → IsExpression value

/-- A restorable default is printed as a text that stands alone and is read back as that default. -/
theorem exists_standsAlone {value : DefaultValue} (hrestorable : IsRestorable value) :
    ∃ body, StandsAlone (renderDefault value) body ∧ defaultOf body = some value := by
  match value, hrestorable with
  | .boolean _, _ => exact exists_standsAlone_of_plain trivial
  | .number (.integer _), hbounds => exact exists_standsAlone_of_plain hbounds
  | .number (.double _), hpositional => exact exists_standsAlone_of_positional hpositional
  | .text text, hexpression =>
    by_cases hraw : isRawExpression text = true
    · obtain ⟨body, hstands, htext, htyped⟩ := hexpression hraw
      refine ⟨body, ?_, ?_⟩
      · rwa [renderDefault, if_pos hraw]
      · rw [defaultOf_of_untyped hstands.ne_nil htyped, htext]
    · exact exists_standsAlone_of_plain (Bool.eq_false_iff.2 hraw)

/-- The statement of a table with one text column and a restorable default is read as that table,
with that default and without a diagnostic. -/
theorem ofSql_textTable_restorable {value : DefaultValue} (hrestorable : IsRestorable value)
    (name column : String) (notNull : Bool) :
    Schema.ofSql (createTableText (textTable name column notNull (some value))) =
      ⟨Schema.empty.addTable (textTable name column notNull (some value)), []⟩ := by
  obtain ⟨body, hstands, hdefault⟩ := exists_standsAlone hrestorable
  rw [ofSql_textTable name column notNull hstands, hdefault]

/-- A call with a quoted argument and a cast is written as it is and read back. -/
theorem ofSql_textTable_nextval :
    isRawExpression "nextval('seq'::regclass)" = true ∧
      Schema.ofSql (createTableText
          (textTable "t" "id" true (some (.text "nextval('seq'::regclass)")))) =
        ⟨Schema.empty.addTable
          (textTable "t" "id" true (some (.text "nextval('seq'::regclass)"))), []⟩ := by
  have hwhole : lineOf "nextval('seq'::regclass)" =
      (lineOf "nextval('seq'::regclass)").dropLast ++ [⟨['\n'], [], .eof, 2⟩] := by
    decide +kernel
  have hrestorable : IsRestorable (.text "nextval('seq'::regclass)") := fun _ =>
    ⟨_, ⟨⟨2, hwhole⟩, by decide +kernel⟩, by decide +kernel, by decide +kernel⟩
  exact ⟨by decide +kernel, ofSql_textTable_restorable hrestorable "t" "id" true⟩

/-- The text `NULL` is written as it is, and read as no default. -/
theorem ofSql_textTable_null :
    Schema.ofSql (createTableText (textTable "t" "c" false (some (.text "NULL")))) ≠
      ⟨Schema.empty.addTable (textTable "t" "c" false (some (.text "NULL"))), []⟩ := by
  have hlexemes : lineOf (renderDefault (.text "NULL")) =
      [⟨[' '], "NULL".toList, .keyword .null, 1⟩, ⟨['\n'], [], .eof, 2⟩] := by decide +kernel
  rw [ofSql_textTable "t" "c" false (standsAlone_singleton hlexemes rfl rfl)]
  intro heq
  have hdefault := congrArg (fun result : Import => result.schema.tables.values.map fun table =>
    table.columns.values.map Column.default) heq
  exact absurd hdefault (by decide +kernel)

end SchemaEvolution.Sql
