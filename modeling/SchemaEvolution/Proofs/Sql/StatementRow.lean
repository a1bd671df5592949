import SchemaEvolution.Proofs.Sql.PlainTable

/-!
# Rows of statements

The statements of an exported script as rows of pieces: the text of the row is that of the
statement, and the row can stand before any other one.
-/

namespace SchemaEvolution.Sql

def placeRow : Option String → List Spaced
  | some schema => [after (.word "WITH"), after (.word "SCHEMA"), after (.ident schema)]
  | none => []

def versionRow : Option String → List Spaced
  | some version => [after (.word "VERSION"), after (.literal version)]
  | none => []

def extensionRow (extension : Extension) : List Spaced :=
  keyword .extension :: keyword .if :: keyword .not :: keyword .exists ::
    after (.ident extension.name) ::
      (placeRow extension.schema ++ (versionRow extension.version ++ [tight .semicolon]))

theorem text_extensionRow (extension : Extension) :
    "CREATE".toList ++ rowChars (extensionRow extension) =
      (createExtensionText extension).toList := by
  obtain ⟨name, schema, version, comment⟩ := extension
  unfold createExtensionText
  cases schema <;> cases version <;>
    simp [extensionRow, placeRow, versionRow, Keyword.spelling, Piece.chars_ident]

theorem sturdy_semicolon : Sturdy [tight .semicolon] := .tight trivial rfl sturdy_nil

theorem Sturdy.keyword {rest : List Spaced} (known : Keyword) (hrest : Sturdy rest) :
    Sturdy (Sql.keyword known :: rest) := .after (sound_keyword known) hrest

theorem sturdy_extensionRow (extension : Extension) : Sturdy (extensionRow extension) := by
  obtain ⟨name, schema, version, comment⟩ := extension
  refine .keyword _ (.keyword _ (.keyword _ (.keyword _ (.after (Piece.sound_ident _)
    (.append ?_ (.append ?_ sturdy_semicolon))))))
  · cases schema with
    | none => exact sturdy_nil
    | some schema => exact .after rfl (.after rfl (.after (Piece.sound_ident _) sturdy_nil))
  · cases version with
    | none => exact sturdy_nil
    | some version => exact .after rfl (.after trivial sturdy_nil)

/-- What follows `CREATE` for an enumerated type. -/
def enumRow (type : EnumType) : List Spaced :=
  keyword .type :: after (.ident type.name) :: keyword .as :: after (.word "ENUM") ::
    (groupRow [' '] [' '] (type.values.map .literal) ++ [tight .semicolon])

theorem text_enumRow (type : EnumType) :
    "CREATE".toList ++ rowChars (enumRow type) = (createEnumText type).toList := by
  unfold createEnumText
  simp [enumRow, Keyword.spelling, Piece.chars_ident, Function.comp_def]

/-- Pieces between parentheses after a space. -/
theorem sturdy_spacedGroup {items : List Piece} (hitems : ∀ item ∈ items, item.Sound) :
    Sturdy (groupRow [' '] [' '] items) :=
  sturdy_groupRow isBlankText_space rfl isBlankText_space hitems

theorem sturdy_enumRow (type : EnumType) : Sturdy (enumRow type) := by
  have hvalues : ∀ item ∈ type.values.map Piece.literal, item.Sound := by
    intro item hmem
    obtain ⟨value, -, rfl⟩ := List.mem_map.1 hmem
    trivial
  exact .keyword _ (.after (Piece.sound_ident _) (.keyword _ (.after rfl
    ((sturdy_spacedGroup hvalues).append sturdy_semicolon))))

theorem text_tableRow {table : Table} (hsome : table.columns.values ≠ [])
    (hplain : table.columns.All IsPlainColumn) :
    "CREATE".toList ++ rowChars (tableRow table) =
      ("CREATE TABLE " ++ quoteIdent table.name ++ " (\n" ++ ",\n".intercalate
        (table.columns.values.map fun column => "  " ++ columnDefinitionIn table column) ++
        "\n);").toList := by
  rw [tableRow, rowChars_keyword, rowChars_after, rowChars_after, rowChars_append,
    rowChars_columnsRow table hsome hplain]
  simp [rowChars, Spaced.chars, tight, Keyword.spelling]

theorem sturdy_tableRow {table : Table} (hplain : table.columns.All IsPlainColumn) :
    Sturdy (tableRow table) :=
  .keyword _ (.after trivial (.after trivial ((sturdy_columnsRow table hplain).append
    (.cons isBlankText_newline trivial rfl sturdy_semicolon))))

def namesRow (names : List String) : List Spaced := groupRow [' '] [' '] (names.map .name)

theorem rowChars_namesRow (names : List String) :
    rowChars (namesRow names) = (" (" ++ columnList names ++ ")").toList := by
  simp [namesRow, columnList, Function.comp_def]

theorem sturdy_namesRow (names : List String) : Sturdy (namesRow names) := by
  refine sturdy_spacedGroup ?_
  intro item hmem
  obtain ⟨name, -, rfl⟩ := List.mem_map.1 hmem
  trivial

def indexRow (owner : String) (index : Index) : List Spaced :=
  flagRow index.unique [.unique] ++ keyword .index :: after (.name index.name) :: keyword .on ::
    after (.name owner) :: keyword .using :: after (.word index.type) ::
    (namesRow index.columns ++ [tight .semicolon])

theorem text_indexRow (owner : String) {index : Index} (hplain : isPlainIdent index.type = true) :
    "CREATE".toList ++ rowChars (indexRow owner index) =
      (createIndexText owner index).toList := by
  have hmethod : index.type.isEmpty = false := by
    rw [← Bool.not_eq_true, String.isEmpty_iff]
    intro hempty
    rw [hempty] at hplain
    cases hplain
  obtain ⟨name, unique, columns, type⟩ := index
  unfold createIndexText
  cases unique <;> simp [indexRow, flagRow, rowChars_namesRow, Keyword.spelling, hmethod]

theorem sturdy_indexRow (owner : String) {index : Index}
    (hplain : isPlainIdent index.type = true) : Sturdy (indexRow owner index) :=
  (sturdy_flagRow _ _).append (.keyword _ (.after trivial (.keyword _ (.after trivial (.keyword _
    (.after (isWordText_of_isPlainIdent hplain)
      ((sturdy_namesRow index.columns).append sturdy_semicolon)))))))

/-- What stands for an action after its event. -/
def actionWords : ForeignKeyAction → List Spaced
  | .cascade => [keyword .cascade]
  | .restrict => [keyword .restrict]
  | .setNull => [after (.word "SET"), keyword .null]
  | .setDefault => [after (.word "SET"), keyword .default]
  | .noAction => []

def actionRow (event : Keyword) (action : ForeignKeyAction) : List Spaced :=
  if action = .noAction then [] else keyword .on :: keyword event :: actionWords action

def ruleRow : Rule → List Spaced
  | .primaryKey columns => keyword .primary :: keyword .key :: namesRow columns
  | .unique columns => keyword .unique :: namesRow columns
  | .foreignKey key =>
    keyword .foreign :: keyword .key :: (namesRow key.columns ++ keyword .references ::
      after (.name key.targetTable) :: (namesRow key.targetColumns ++
        (actionRow .update key.onUpdate ++ actionRow .delete key.onDelete)))
  | .check _ => []

/-- What follows `ALTER` where a constraint is added. -/
def constraintRow (owner : String) (constraint : Constraint) : List Spaced :=
  keyword .table :: after (.name owner) :: keyword .add :: keyword .constraint ::
    after (.name constraint.name) :: (ruleRow constraint.rule ++ [tight .semicolon])

theorem rowChars_actionRow (action : ForeignKeyAction) :
    rowChars (actionRow .update action) = (actionClause "UPDATE" action).toList ∧
      rowChars (actionRow .delete action) = (actionClause "DELETE" action).toList := by
  cases action <;> exact ⟨rfl, rfl⟩

theorem sturdy_actionRow (event : Keyword) (action : ForeignKeyAction) :
    Sturdy (actionRow event action) := by
  cases action with
  | noAction => exact sturdy_nil
  | cascade => exact .keyword _ (.keyword _ (.keyword _ sturdy_nil))
  | restrict => exact .keyword _ (.keyword _ (.keyword _ sturdy_nil))
  | setNull => exact .keyword _ (.keyword _ (.after rfl (.keyword _ sturdy_nil)))
  | setDefault => exact .keyword _ (.keyword _ (.after rfl (.keyword _ sturdy_nil)))

theorem rowChars_ruleRow {rule : Rule} (hplain : rule.kind ≠ "CHECK") :
    rowChars (ruleRow rule) = ' ' :: (ruleText rule).toList := by
  unfold ruleText
  cases rule with
  | check condition => exact absurd rfl hplain
  | primaryKey columns => simp [ruleRow, rowChars_namesRow, Keyword.spelling]
  | unique columns => simp [ruleRow, rowChars_namesRow, Keyword.spelling]
  | foreignKey key => simp [ruleRow, rowChars_namesRow, rowChars_actionRow, Keyword.spelling]

theorem sturdy_ruleRow (rule : Rule) : Sturdy (ruleRow rule) := by
  cases rule with
  | check condition => exact sturdy_nil
  | primaryKey columns => exact .keyword _ (.keyword _ (sturdy_namesRow columns))
  | unique columns => exact .keyword _ (sturdy_namesRow columns)
  | foreignKey key =>
    exact .keyword _ (.keyword _ ((sturdy_namesRow key.columns).append (.keyword _ (.after trivial
      ((sturdy_namesRow key.targetColumns).append
        ((sturdy_actionRow _ _).append (sturdy_actionRow _ _)))))))

theorem text_constraintRow (owner : String) {constraint : Constraint}
    (hplain : constraint.rule.kind ≠ "CHECK") :
    "ALTER".toList ++ rowChars (constraintRow owner constraint) =
      (addConstraint owner constraint).sql.toList := by
  unfold addConstraint Statement.sql
  dsimp only
  unfold Alteration.sql
  simp [constraintRow, rowChars_ruleRow hplain, Keyword.spelling]

theorem sturdy_constraintRow (owner : String) (constraint : Constraint) :
    Sturdy (constraintRow owner constraint) :=
  .keyword _ (.after trivial (.keyword _ (.keyword _ (.after trivial
    ((sturdy_ruleRow constraint.rule).append sturdy_semicolon)))))

/-- What a column demands where it is added to a table: its keys have statements of their own. -/
def addedAttributes (column : Column) : Attributes :=
  ⟨false, false, column.notNull, column.default⟩

noncomputable def addedColumnRow (owner : String) (column : Column) : List Spaced :=
  keyword .table :: after (.name owner) :: keyword .add :: keyword .column ::
    after (.name column.name) ::
      (typeRow column.type ++ ((addedAttributes column).row ++ [tight .semicolon]))

/-- The statement that adds a column is printed as its row. -/
theorem text_addedColumnRow (owner : String) {column : Column} (hplain : IsPlainColumn column) :
    "ALTER".toList ++ rowChars (addedColumnRow owner column) =
      (Statement.alterTable owner (.addColumn column)).sql.toList := by
  have hattributes : rowChars (addedAttributes column).row =
      (notNullClause column.notNull ++ defaultClause column.default).toList := by
    rw [Attributes.rowChars_row hplain.default]
    simp [Attributes.text, addedAttributes]
  unfold Statement.sql
  dsimp only
  unfold Alteration.sql
  simp [addedColumnRow, hplain.type.isTypeRow.chars, hattributes, columnDefinition, columnHead,
    Keyword.spelling]

theorem sturdy_addedColumnRow (owner : String) {column : Column} (hplain : IsPlainColumn column) :
    Sturdy (addedColumnRow owner column) := by
  have hattributes : Sturdy (addedAttributes column).row := Attributes.sturdy_row hplain.default
  exact .keyword _ (.after trivial (.keyword _ (.keyword _ (.after trivial
    (hplain.type.isTypeRow.sturdy.append (hattributes.append sturdy_semicolon))))))

/-! ## Comments -/

def commentEnd (text : String) : List Spaced :=
  [keyword .is, after (.literal text), tight .semicolon]

def tableCommentRow (name text : String) : List Spaced :=
  keyword .on :: keyword .table :: after (.name name) :: commentEnd text

def columnCommentRow (owner name text : String) : List Spaced :=
  keyword .on :: keyword .column :: after (.name owner) :: tight .dot :: tight (.name name) ::
    commentEnd text

theorem text_tableCommentRow (name text : String) :
    "COMMENT".toList ++ rowChars (tableCommentRow name text) =
      (commentText (.table name) (some text)).toList := by
  unfold commentText Subject.sql
  simp [tableCommentRow, commentEnd, Keyword.spelling]

theorem text_columnCommentRow (owner name text : String) :
    "COMMENT".toList ++ rowChars (columnCommentRow owner name text) =
      (commentText (.column owner name) (some text)).toList := by
  unfold commentText Subject.sql
  simp [columnCommentRow, commentEnd, Keyword.spelling]

theorem sturdy_commentEnd (text : String) : Sturdy (commentEnd text) :=
  .keyword _ (.after trivial sturdy_semicolon)

theorem sturdy_tableCommentRow (name text : String) : Sturdy (tableCommentRow name text) :=
  .keyword _ (.keyword _ (.after trivial (sturdy_commentEnd text)))

/-- The names of a table and of a column have nothing but a dot between them. -/
theorem sturdy_dotted (owner name : String) {rest : List Spaced} (hrest : Sturdy rest) :
    Sturdy (after (.name owner) :: tight .dot :: tight (.name name) :: rest) := by
  refine ⟨fun tail hcloses => ?_, fun tail _ => closes_cons rfl _⟩
  have hlast : Fits tail (tight (.name name) :: rest) :=
    fits_cons isBlankText_nil (by trivial) hrest hcloses
  refine ⟨isBlankText_space, trivial, ?_, isBlankText_nil, trivial, ?_, hlast⟩
  · intro c hc
    cases hc
    exact .inr rfl
  · intro c hc
    rw [rowChars_tight, Piece.chars_name, quoteIdent, toList_between] at hc
    cases hc
    rfl

theorem sturdy_columnCommentRow (owner name text : String) :
    Sturdy (columnCommentRow owner name text) :=
  .keyword _ (.keyword _ (sturdy_dotted owner name (sturdy_commentEnd text)))

end SchemaEvolution.Sql
