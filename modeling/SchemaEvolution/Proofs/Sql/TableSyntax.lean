import SchemaEvolution.Proofs.Sql.DefaultReading

/-!
# How the statement of a table is written

The tokens of a statement that defines a table, part by part: its columns with their types and
attributes, its constraints, and elements that define neither.  Every part says what may follow
it, so that no part goes on with the tokens of the next one.

With each token stands whether the start of another definition right after it would be seen by
the reader that is at work there, if the statement were broken off.
-/

namespace SchemaEvolution.Sql.Syntax

/-- Tokens, and whether the start of a definition right after each of them is seen. -/
abbrev Marked := List (Token × Bool)

def seen (tokens : List Token) : Marked := tokens.map fun token => (token, true)

def unseen (tokens : List Token) : Marked := tokens.map fun token => (token, false)

def Marked.tokens (marked : Marked) : List Token := marked.map Prod.fst

@[simp]
theorem tokens_nil : Marked.tokens [] = [] := rfl

@[simp]
theorem tokens_seen (tokens : List Token) : (seen tokens).tokens = tokens := by
  simp [Marked.tokens, seen, Function.comp_def]

@[simp]
theorem tokens_unseen (tokens : List Token) : (unseen tokens).tokens = tokens := by
  simp [Marked.tokens, unseen, Function.comp_def]

@[simp]
theorem tokens_append (left right : Marked) :
    Marked.tokens (left ++ right) = left.tokens ++ right.tokens := List.map_append

def group (inside : List Token) : Marked :=
  unseen (.leftParen :: inside) ++ seen [.rightParen]

@[simp]
theorem tokens_group (inside : List Token) :
    (group inside).tokens = .leftParen :: (inside ++ [.rightParen]) := by
  simp [group]

/-- Tokens that are looked at outside of their parentheses only. -/
def outside : Nat → List Token → Marked
  | _, [] => []
  | depth, token :: rest =>
    (token, depthAfter depth token == 0) :: outside (depthAfter depth token) rest

@[simp]
theorem tokens_outside (depth : Nat) (tokens : List Token) :
    (outside depth tokens).tokens = tokens := by
  induction tokens generalizing depth with
  | nil => rfl
  | cons token rest ih => exact congrArg (token :: ·) (ih _)

def stopsCondition (depth : Nat) (token : Token) : Bool :=
  token = .eof || token = .semicolon || (depth == 0 && token = .rightParen)

def stopsGroup (depth : Nat) (token : Token) : Bool := depth == 0 || token = .eof

/-- Where the rest of a definition that is skipped ends. -/
def stopsDefinition (depth : Nat) (token : Token) : Bool :=
  token = .eof || (depth == 0 && endsDefinition token)

def stopsElement (depth : Nat) (token : Token) : Bool :=
  token = .eof || (depth == 0 && (token = .comma || token = .rightParen))

/-- A name after the names of what it lies in. -/
structure Dotted where
  first : Token
  more : List Token

namespace Dotted

def tokens (dotted : Dotted) : List Token :=
  dotted.first :: dotted.more.flatMap fun part => [.dot, part]

def name (dotted : Dotted) : String :=
  ((dotted.more.getLast?.getD dotted.first).name?).getD ""

def Sound (dotted : Dotted) : Prop :=
  dotted.first.name?.isSome = true ∧ ∀ part ∈ dotted.more, part.name?.isSome = true

end Dotted

/-- What a column list holds: names and commas. -/
def IsNameList (inside : List Token) : Prop :=
  ∀ token ∈ inside, token ≠ .rightParen ∧ token ≠ .eof ∧ token ≠ .semicolon

/-- The action of a foreign key; of `SET NULL` and `SET DEFAULT` possibly for some columns. -/
inductive Action where
  | cascade
  | restrict
  | set (word : Token) (value : Keyword) (columns : Option (List Token))
  | none (no action : Token)

namespace Action

def marked : Action → Marked
  | cascade => seen [.keyword .cascade]
  | restrict => seen [.keyword .restrict]
  | set word value columns => seen [word, .keyword value] ++ columns.elim [] group
  | none no action => seen [no, action]

def Fits : Action → List Token → Prop
  | cascade, _ | restrict, _ => True
  | set word value columns, next =>
    word.isWord "set" = true ∧ (value = .null ∨ value = .default) ∧
      (∀ inside ∈ columns, Passes stopsGroup 1 (inside ++ [.rightParen]) 0) ∧
      (columns = .none → next.head? ≠ some .leftParen)
  | none no action, _ => no.isWord "no" = true ∧ action.isWord "action" = true

end Action

section Row

variable {α : Type} (marked : α → Marked) (fits : α → List Token → Prop)

def row (parts : List α) : Marked := parts.flatMap marked

/-- Every part of a row fits before the parts after it, and the last one before `next`. -/
def RowFits : List α → List Token → Prop
  | [], _ => True
  | part :: more, next => fits part ((row marked more).tokens ++ next) ∧ RowFits more next

@[simp]
theorem row_nil : row marked [] = [] := rfl

@[simp]
theorem row_cons (part : α) (more : List α) :
    row marked (part :: more) = marked part ++ row marked more := rfl

end Row

/-- What may stand behind the columns of a reference. -/
inductive ReferenceOption where
  | on (event : Keyword) (action : Action)
  | matching (word kind : Token)
  | timing (word : Token)
  | notDeferrable (word : Token)

/-- Words about when a constraint is checked. -/
def isTiming (token : Token) : Bool :=
  token.isOneOf ["deferrable", "initially", "deferred", "immediate"]

namespace ReferenceOption

/-- The reader passes over the token after `MATCH`, whatever it is. -/
def marked : ReferenceOption → Marked
  | on event action => seen [.keyword .on, .keyword event] ++ action.marked
  | matching word kind => unseen [word] ++ seen [kind]
  | timing word => seen [word]
  | notDeferrable word => seen [.keyword .not, word]

def Fits : ReferenceOption → List Token → Prop
  | on event action, next => (event = .delete ∨ event = .update) ∧ action.Fits next
  | matching word kind, _ =>
    word.isWord "match" = true ∧ kind.isOneOf ["full", "partial", "simple"] = true
  | timing word, _ => isTiming word = true
  | notDeferrable word, _ => word.isWord "deferrable" = true

def starts : List Token → Bool
  | [] => false
  | token :: rest =>
    token = .keyword .on || token.isWord "match" || isTiming token ||
      (token = .keyword .not && (rest.head?.getD .eof).isWord "deferrable")

end ReferenceOption

/-- What stands behind `REFERENCES`. -/
structure Target where
  table : Dotted
  columns : Option (List Token)
  options : List ReferenceOption

namespace Target

def marked (target : Target) : Marked :=
  seen target.table.tokens ++
    (target.columns.elim [] group ++ row ReferenceOption.marked target.options)

structure Fits (target : Target) (next : List Token) : Prop where
  table : target.table.Sound
  columns : ∀ inside ∈ target.columns, IsNameList inside
  behindTable : target.columns = none →
    ((row ReferenceOption.marked target.options).tokens ++ next).head? ≠ some .dot ∧
      ((row ReferenceOption.marked target.options).tokens ++ next).head? ≠ some .leftParen
  options : RowFits ReferenceOption.marked ReferenceOption.Fits target.options next
  behind : ReferenceOption.starts next = false

end Target

/-- The kinds of constraints. -/
inductive Kind where
  | primaryKey
  | unique
  | reference
  | check
  deriving DecidableEq

/-- An attribute of a column: one that declares a constraint, a name for the next constraint, or
one that declares none. -/
inductive Attribute where
  | label (name : Token)
  | primaryKey
  | unique
  | check (condition : List Token)
  | references (target : Target)
  | notNull
  | null
  | not
  | default (value : List Token)
  | collate (word : Token) (name : Dotted)
  | group (inside : List Token)
  | other (token : Token)

/-- Nothing in the tokens ends a default, and their parentheses are closed. -/
def IsValue : List Token → Prop
  | [] => False
  | first :: more =>
    endsDefault 0 first = false ∧ Passes stopsDefault (depthAfter 0 first) more 0

/-- Tokens that open no attribute of a kind of its own and end no definition. -/
def isOther (token : Token) : Bool :=
  match token with
  | .keyword .constraint | .keyword .primary | .keyword .not | .keyword .null | .keyword .unique
  | .keyword .default | .keyword .references | .keyword .check | .leftParen => false
  | token => !(token.isWord "collate" || token.isWord "generated" || endsDefinition token)

namespace Attribute

def kind? : Attribute → Option Kind
  | primaryKey => some .primaryKey
  | unique => some .unique
  | check _ => some .check
  | references _ => some .reference
  | _ => none

def marked : Attribute → Marked
  | label name => seen [.keyword .constraint, name]
  | primaryKey => seen [.keyword .primary, .keyword .key]
  | unique => seen [.keyword .unique]
  | check condition => seen [.keyword .check] ++ Syntax.group condition
  | references target => seen [.keyword .references] ++ target.marked
  | notNull => seen [.keyword .not, .keyword .null]
  | null => seen [.keyword .null]
  | not => seen [.keyword .not]
  | default value => seen (.keyword .default :: value)
  | collate word name => seen (word :: name.tokens)
  | group inside => Syntax.group inside
  | other token => seen [token]

def Fits : Attribute → List Token → Prop
  | label name, _ => name.name?.isSome = true
  | check condition, _ => Passes stopsCondition 0 condition 0
  | references target, next => target.Fits next
  | not, next => next.head? ≠ some (.keyword .null)
  | default value, next => IsValue value ∧ stopsDefault 0 (next.head?.getD .eof) = true
  | collate word name, next =>
    word.isWord "collate" = true ∧ name.Sound ∧ next.head? ≠ some .dot
  | group inside, _ => Passes stopsGroup 1 (inside ++ [.rightParen]) 0
  | other token, _ => isOther token = true
  | primaryKey, _ | unique, _ | notNull, _ | null, _ => True

/-- The constraints that attributes declare, each with the name that stands before it. -/
def declared (label : Option String) : List Attribute → List (Kind × Option String)
  | [] => []
  | .label name :: more => declared name.name? more
  | part :: more =>
    match part.kind? with
    | some kind => (kind, label) :: declared none more
    | none => declared label more

end Attribute

/-- `GENERATED` with its terms, and the attributes behind it. -/
structure Generated where
  word : Token
  terms : List Token
  attributes : List Attribute

namespace Generated

def tokens (generated : Generated) : List Token :=
  generated.word :: (generated.terms ++ (row Attribute.marked generated.attributes).tokens)

structure Fits (generated : Generated) (next : List Token) : Prop where
  word : generated.word.isWord "generated" = true
  passes : Passes stopsElement 0 generated.tokens 0
  attributes : RowFits Attribute.marked Attribute.Fits generated.attributes next

end Generated

structure ColumnSyntax where
  name : Token
  type : List Token
  attributes : List Attribute
  generated : Option Generated

namespace ColumnSyntax

/-- What stands behind the attributes that are read. -/
def hidden (column : ColumnSyntax) : List Token := column.generated.elim [] Generated.tokens

def marked (column : ColumnSyntax) : Marked :=
  seen (column.name :: column.type) ++
    (row Attribute.marked column.attributes ++ unseen column.hidden)

/-- Before a comma or the end of the table, the definition is over. -/
structure Fits (column : ColumnSyntax) (next : List Token) : Prop where
  name : column.name.name?.isSome = true
  isNot : column.name.isOneOf ["like", "exclude"] = false
  typed : column.type ≠ []
  type : Passes endsType 0 column.type 0
  behindType : endsType 0 (((row Attribute.marked column.attributes).tokens ++
    (column.hidden ++ next)).head?.getD .eof) = true
  attributes : RowFits Attribute.marked Attribute.Fits column.attributes (column.hidden ++ next)
  generated : ∀ generated ∈ column.generated, generated.Fits next
  behind : next.head? = some .comma ∨ next.head? = some .rightParen

def label (column : ColumnSyntax) : String := column.name.name?.getD ""

/-- The constraints that are read from the definition. -/
def clauses (column : ColumnSyntax) : List (Kind × Option String) :=
  Attribute.declared none column.attributes

def hiddenClauses (column : ColumnSyntax) : List (Kind × Option String) :=
  column.generated.elim [] fun generated => Attribute.declared none generated.attributes

end ColumnSyntax

inductive ClauseSyntax where
  | primaryKey (columns : List Token)
  | unique (columns : Option (List Token))
  | foreignKey (columns : List Token) (target : Target)
  | check (condition : List Token)

namespace ClauseSyntax

def marked : ClauseSyntax → Marked
  | primaryKey columns => seen [.keyword .primary, .keyword .key] ++ group columns
  | unique columns => seen [.keyword .unique] ++ columns.elim [] group
  | foreignKey columns target =>
    seen [.keyword .foreign, .keyword .key] ++
      (group columns ++ (seen [.keyword .references] ++ target.marked))
  | check condition => seen [.keyword .check] ++ group condition

def Fits : ClauseSyntax → List Token → Prop
  | primaryKey columns, _ => IsNameList columns
  | unique columns, next =>
    (∀ inside ∈ columns, IsNameList inside) ∧
      (columns = none → next.head? ≠ some .leftParen ∧ next.head? ≠ some (.keyword .key))
  | foreignKey columns target, next => IsNameList columns ∧ target.Fits next
  | check condition, _ => Passes stopsCondition 0 condition 0

end ClauseSyntax

/-! ## Elements and statements -/

/-- An element of a table: a column, a constraint with the rest of its definition, or an element
that declares neither, such as `LIKE` and `EXCLUDE`. -/
inductive ElementSyntax where
  | column (definition : ColumnSyntax)
  | clause (label : Option Token) (definition : ClauseSyntax) (rest : List Token)
  | other (label : Option Token) (tokens : List Token)

def labelTokens (label : Option Token) : List Token :=
  label.elim [] fun name => [.keyword .constraint, name]

def opensClause : Token → Bool
  | .keyword .primary | .keyword .unique | .keyword .foreign | .keyword .check => true
  | _ => false

namespace ElementSyntax

def marked : ElementSyntax → Marked
  | column definition => definition.marked
  | clause label definition rest =>
    unseen (labelTokens label) ++ (definition.marked ++ outside 0 rest)
  | other label tokens => unseen (labelTokens label ++ tokens)

def Fits : ElementSyntax → List Token → Prop
  | column definition, next => definition.Fits next
  | clause label definition rest, next =>
    (∀ name ∈ label, name.name?.isSome = true) ∧ definition.Fits (rest ++ next) ∧
      Passes stopsDefinition 0 rest 0 ∧
      (next.head? = some .comma ∨ next.head? = some .rightParen)
  | other label tokens, next =>
    (∀ name ∈ label, name.name?.isSome = true) ∧ Passes stopsElement 0 tokens 0 ∧
      (∀ token ∈ tokens, token ≠ .semicolon) ∧
      (match label with
        | some _ => opensClause (tokens.head?.getD .eof) = false ∧ tokens ≠ []
        | none => (tokens.head?.getD .eof).isOneOf ["like", "exclude"] = true) ∧
      (next.head? = some .comma ∨ next.head? = some .rightParen)

end ElementSyntax

/-- A statement that defines a table. -/
structure TableSyntax where
  words : List Token
  ifNotExists : Bool
  name : Dotted
  first : ElementSyntax
  more : List ElementSyntax
  rest : List Token

namespace TableSyntax

/-- The tokens up to and with the parenthesis that opens the table. -/
def head (table : TableSyntax) : List Token :=
  .keyword .create :: (table.words ++ .keyword .table ::
    ((if table.ifNotExists then [.keyword .if, .keyword .not, .keyword .exists] else []) ++
      (table.name.tokens ++ [.leftParen])))

def markedMore (element : ElementSyntax) : Marked := seen [.comma] ++ element.marked

def body (table : TableSyntax) : Marked :=
  table.first.marked ++ row markedMore table.more

def tokens (table : TableSyntax) : List Token :=
  table.head ++ (table.body.tokens ++ .rightParen :: (table.rest ++ [.semicolon]))

def elements (table : TableSyntax) : List ElementSyntax := table.first :: table.more

/-- The statement is put together as it has to be, whatever stands behind the parenthesis that
closes the table. -/
structure Sound (table : TableSyntax) : Prop where
  words : ∀ word ∈ table.words,
    word.isOneOf ["temp", "temporary", "unlogged", "global", "local"] = true
  name : table.name.Sound
  isNotIf : table.ifNotExists = false → table.name.first ≠ .keyword .if
  first : ∀ behind, table.first.Fits ((row markedMore table.more).tokens ++ .rightParen :: behind)
  more : ∀ behind, RowFits markedMore ElementSyntax.Fits table.more (.rightParen :: behind)
  rest : ∀ token ∈ table.rest, token ≠ .semicolon ∧ token ≠ .eof

end TableSyntax

end SchemaEvolution.Sql.Syntax
