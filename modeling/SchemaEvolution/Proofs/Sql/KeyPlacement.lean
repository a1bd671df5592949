import SchemaEvolution.Proofs.Sql.KeyEdits

/-!
# Keys at columns and keys of tables

A key of one column may be written among the attributes of the column or as a constraint of the
table.  An attribute does to a column with the key what it does to the column without it, as long
as it is no such key itself, so both statements define the same table.
-/

namespace SchemaEvolution.Sql

open Syntax

variable {taken taken' : List Lexeme}

theorem Spells.length_eq {tokens : List Token} (hspells : Spells tokens taken) :
    taken.length = tokens.length := by
  rw [← hspells.1, List.length_map]

theorem Spells.split {left right : List Token} (hspells : Spells (left ++ right) taken) :
    ∃ front back, taken = front ++ back ∧ Spells left front ∧ Spells right back :=
  ⟨_, _, (List.take_append_drop _ _).symm, hspells.take, hspells.drop⟩

theorem tail_of_alike (halike : List.Forall₂ Lexeme.Alike taken taken') :
    List.Forall₂ Lexeme.Alike taken.tail taken'.tail := by
  rw [← List.drop_one, ← List.drop_one]
  exact List.forall₂_drop _ halike

theorem insideOf_of_alike (halike : List.Forall₂ Lexeme.Alike taken taken') :
    List.Forall₂ Lexeme.Alike (insideOf taken) (insideOf taken') := by
  rw [insideOf, insideOf, List.dropLast_eq_take, List.dropLast_eq_take, List.length_tail,
    List.length_tail, halike.length_eq]
  exact List.forall₂_take _ (tail_of_alike halike)

namespace ColumnDefinition

theorem applyAttribute_of_alike (part : Attribute) (state : ColumnDefinition × Option String)
    (halike : List.Forall₂ Lexeme.Alike taken taken') :
    applyAttribute part taken state = applyAttribute part taken' state := by
  cases part with
  | check condition =>
    rw [applyAttribute, applyAttribute,
      textOf_of_alike (insideOf_of_alike (tail_of_alike halike))]
  | default value =>
    rw [applyAttribute, applyAttribute, defaultOf_of_alike (tail_of_alike halike)]
  | _ => rfl

theorem applyGenerated_of_alike (d : ColumnDefinition)
    (halike : List.Forall₂ Lexeme.Alike taken taken') :
    applyGenerated taken d = applyGenerated taken' d := by
  rw [applyGenerated, applyGenerated, textOf_of_alike halike]

/-- A column is the same one on whatever lines it is written. -/
theorem ofSyntax_of_alike (column : ColumnSyntax)
    (halike : List.Forall₂ Lexeme.Alike taken.tail taken'.tail) :
    ofSyntax column taken = ofSyntax column taken' := by
  have hbehind := List.forall₂_drop column.type.length halike
  have htype : textOf (column.typePart taken) = textOf (column.typePart taken') :=
    textOf_of_alike (List.forall₂_take _ halike)
  have hattributes : withAttributes column taken = withAttributes column taken' := by
    rw [withAttributes, withAttributes, htype]
    exact applyRow_of_alike (fun part _ _ state halike => applyAttribute_of_alike part state halike)
      (List.forall₂_take _ hbehind)
  have hgenerated : applyGenerated (column.hiddenPart taken) (withAttributes column taken').1 =
      applyGenerated (column.hiddenPart taken') (withAttributes column taken').1 :=
    applyGenerated_of_alike _ (List.forall₂_drop _ hbehind)
  rw [ofSyntax, ofSyntax, hattributes, hgenerated]

end ColumnDefinition

theorem TableClause.ofSyntax_of_alike (definition : ClauseSyntax)
    (halike : List.Forall₂ Lexeme.Alike taken.tail taken'.tail) :
    ofSyntax definition taken = ofSyntax definition taken' := by
  cases definition with
  | check condition => rw [ofSyntax, ofSyntax, textOf_of_alike (insideOf_of_alike halike)]
  | _ => rfl

abbrev Written := ElementSyntax × List Lexeme

namespace Written

def column? : Written → Option ColumnDefinition
  | (.column column, taken) => some (.ofSyntax column taken)
  | _ => none

/-- The constraint of the table that an element is, with its name. -/
def clause? : Written → Option (Option String × TableClause)
  | (.clause label definition _, taken) => some (label.bind Token.name?, .ofSyntax definition
      ((taken.drop (labelTokens label).length).take definition.marked.tokens.length))
  | _ => none

/-- The elements are the same ones, with the same texts behind what stands before each. -/
def Alike (written other : Written) : Prop :=
  written.1 = other.1 ∧ List.Forall₂ Lexeme.Alike written.2.tail other.2.tail

variable {written other : Written}

theorem column?_of_alike (halike : written.Alike other) : written.column? = other.column? := by
  obtain ⟨part, taken⟩ := written
  obtain ⟨part', taken'⟩ := other
  obtain ⟨rfl, hlexemes⟩ : part = part' ∧ List.Forall₂ Lexeme.Alike taken.tail taken'.tail := halike
  cases part with
  | column column => exact congrArg some (ColumnDefinition.ofSyntax_of_alike column hlexemes)
  | _ => rfl

/-- Alike elements are the same clause, or none of them is one. -/
theorem clause?_of_alike (halike : written.Alike other) : written.clause? = other.clause? := by
  obtain ⟨part, taken⟩ := written
  obtain ⟨part', taken'⟩ := other
  obtain ⟨rfl, hlexemes⟩ : part = part' ∧ List.Forall₂ Lexeme.Alike taken.tail taken'.tail := halike
  cases part with
  | clause label definition behind =>
    have hinside (lexemes : List Lexeme) (start size : Nat) :
        ((lexemes.drop start).take size).tail = (lexemes.tail.drop start).take (size - 1) := by
      rw [← List.drop_one, ← List.drop_one, List.drop_take, List.drop_drop, List.drop_drop,
        Nat.add_comm]
    refine congrArg (fun clause => some (label.bind Token.name?, clause))
      (TableClause.ofSyntax_of_alike definition ?_)
    rw [hinside, hinside]
    exact List.forall₂_take _ (List.forall₂_drop _ hlexemes)
  | _ => rfl

end Written

/-- Elements define columns, and they add constraints of the table. -/
theorem TableDefinition.addElements_eq (d : TableDefinition) (elements : List Written) :
    d.addElements elements =
      ⟨(elements.filterMap Written.column?).foldl (fun table d => d.addTo table) d.table,
        d.clauses ++ elements.filterMap Written.clause?⟩ := by
  induction elements generalizing d with
  | nil => simp [addElements]
  | cons element more ih =>
    have hmore : d.addElements (element :: more) =
        (d.addElement element.1 element.2).addElements more := rfl
    rw [hmore, ih]
    obtain ⟨part, taken⟩ := element
    cases part with
    | column column => rfl
    | clause label definition behind =>
      simp [addElement, addClause, List.filterMap_cons, Written.column?, Written.clause?]
    | other label tokens => rfl

/-! ## A key among the attributes of its column -/

namespace Syntax

/-- A key of one column that is given no name. -/
inductive SingleKey where
  | primaryKey
  | unique
  | references (target : Target)

namespace SingleKey

def kind : SingleKey → Kind
  | primaryKey => .primaryKey
  | unique => .unique
  | references _ => .reference

def atColumn : SingleKey → Attribute
  | primaryKey => .primaryKey
  | unique => .unique
  | references target => .references target

def atTable (column : Token) : SingleKey → ClauseSyntax
  | primaryKey => .primaryKey [column]
  | unique => .unique (some [column])
  | references target => .foreignKey [column] target

def value : SingleKey → ColumnKey
  | primaryKey => .primaryKey
  | unique => .unique
  | references target => .references target.reference

/-- Among the attributes is none for which the key would be taken. -/
def Alone (key : SingleKey) (attributes : List Attribute) : Prop :=
  key.kind ≠ .reference → ∀ part ∈ attributes, part.kind? ≠ some key.kind

end SingleKey

/-- The name that some attributes leave for the next constraint. -/
def Attribute.pending (label : Option String) : List Attribute → Option String
  | [] => label
  | .label name :: more => pending name.name? more
  | part :: more => pending (if part.kind?.isSome then none else label) more

namespace ColumnSyntax

def withKey (column : ColumnSyntax) (key : SingleKey) (position : Nat) : ColumnSyntax :=
  { column with attributes :=
      column.attributes.take position ++ key.atColumn :: column.attributes.drop position }

/-- The lexemes of a column with a key but those of the key. -/
def cutKey (column : ColumnSyntax) (key : SingleKey) (position : Nat) (taken : List Lexeme) :
    List Lexeme :=
  let start := column.type.length + 1 +
    (row Attribute.marked (column.attributes.take position)).tokens.length
  taken.take start ++ taken.drop (start + key.atColumn.marked.tokens.length)

end ColumnSyntax

end Syntax

namespace ColumnDefinition

variable {key : SingleKey} {d : ColumnDefinition} {part : Attribute} {attributes : List Attribute}
  {position : Nat} {label : Option String}

theorem alone_cons (halone : key.Alone (part :: attributes)) :
    (key.kind ≠ .reference → part.kind? ≠ some key.kind) ∧ key.Alone attributes :=
  ⟨fun hkind => halone hkind part List.mem_cons_self,
    fun hkind other hmem => halone hkind other (List.mem_cons_of_mem _ hmem)⟩

theorem length_references_le (part : Attribute) (taken : List Lexeme)
    (state : ColumnDefinition × Option String) :
    state.1.references.length ≤ (applyAttribute part taken state).1.references.length := by
  cases part with
  | references target =>
    rw [applyAttribute, List.length_append]
    exact Nat.le_add_right _ _
  | _ => exact Nat.le_refl _

/-- An attribute of another kind does to a column with the key what it does to one without it. -/
theorem applyAttribute_insert (halone : key.kind ≠ .reference → part.kind? ≠ some key.kind)
    (hposition : position ≤ d.references.length) :
    applyAttribute part taken (key.value.insert position d, label) =
      (key.value.insert position (applyAttribute part taken (d, label)).1,
        (applyAttribute part taken (d, label)).2) := by
  cases key with
  | primaryKey =>
    cases part with
    | primaryKey => exact absurd rfl (halone (by decide))
    | _ => rfl
  | unique =>
    cases part with
    | unique => exact absurd rfl (halone (by decide))
    | _ => rfl
  | references target =>
    cases part with
    | references other =>
      simp only [applyAttribute, SingleKey.value, ColumnKey.insert,
        List.take_append_of_le_length hposition, List.drop_append_of_le_length hposition,
        List.append_assoc, List.cons_append]
    | _ => rfl

theorem applyRow_insert (halone : key.Alone attributes)
    (hposition : position ≤ d.references.length) :
    applyRow Attribute.marked applyAttribute attributes taken
        (key.value.insert position d, label) =
      (key.value.insert position
          (applyRow Attribute.marked applyAttribute attributes taken (d, label)).1,
        (applyRow Attribute.marked applyAttribute attributes taken (d, label)).2) := by
  induction attributes generalizing taken d label with
  | nil => rfl
  | cons part more ih =>
    obtain ⟨hpart, hmore⟩ := alone_cons halone
    rw [applyRow, applyRow, applyAttribute_insert hpart hposition]
    exact ih hmore (hposition.trans (length_references_le part _ (d, label)))

theorem applyGenerated_insert (key : ColumnKey) (position : Nat) (taken : List Lexeme)
    (d : ColumnDefinition) :
    applyGenerated taken (key.insert position d) = key.insert position (applyGenerated taken d) := by
  rw [applyGenerated, applyGenerated]
  split
  · cases key <;> rfl
  · rfl

/-- The key is added behind the attributes before it. -/
theorem applyAttribute_key (key : SingleKey) (taken : List Lexeme) (d : ColumnDefinition) :
    applyAttribute key.atColumn taken (d, none) =
      (key.value.insert d.references.length d, none) := by
  cases key with
  | primaryKey | unique => rfl
  | references target =>
    simp only [SingleKey.atColumn, SingleKey.value, applyAttribute, ColumnKey.insert,
      List.take_length, List.drop_length]

theorem snd_applyRow (attributes : List Attribute) (taken : List Lexeme)
    (state : ColumnDefinition × Option String) :
    (applyRow Attribute.marked applyAttribute attributes taken state).2 =
      Attribute.pending state.2 attributes := by
  induction attributes generalizing taken state with
  | nil => rfl
  | cons part more ih =>
    rw [applyRow, ih]
    cases part <;> rfl

/-- Attributes of other kinds add no such key. -/
theorem alone_applyRow (halone : key.Alone attributes) (hd : key.value.Alone d) :
    key.value.Alone (applyRow Attribute.marked applyAttribute attributes taken (d, label)).1 := by
  induction attributes generalizing taken d label with
  | nil => exact hd
  | cons part more ih =>
    obtain ⟨hpart, hmore⟩ := alone_cons halone
    have hnext : key.value.Alone (applyAttribute part
        (taken.take part.marked.tokens.length) (d, label)).1 := by
      cases key with
      | primaryKey =>
        cases part with
        | primaryKey => exact absurd rfl (hpart (by decide))
        | _ => exact hd
      | unique =>
        cases part with
        | unique => exact absurd rfl (hpart (by decide))
        | _ => exact hd
      | references target => exact trivial
    rw [applyRow]
    exact ih hmore hnext

theorem alone_applyGenerated (key : ColumnKey) (taken : List Lexeme) (hd : key.Alone d) :
    key.Alone (applyGenerated taken d) := by
  rw [applyGenerated]
  split
  · cases key <;> exact hd
  · exact hd

/-- A column is its attributes that are read, and what stands behind them. -/
theorem ofSyntax_eq (column : ColumnSyntax) (first : Lexeme) {type attributes : List Lexeme}
    (hidden : List Lexeme) (htype : type.length = column.type.length)
    (hattributes : attributes.length = (row Attribute.marked column.attributes).tokens.length) :
    ofSyntax column (first :: (type ++ (attributes ++ hidden))) =
      column.generated.elim
        (applyRow Attribute.marked applyAttribute column.attributes attributes
          (plain column.label (TypeName.normalize (textOf type)), none)).1
        fun _ => applyGenerated hidden
          (applyRow Attribute.marked applyAttribute column.attributes attributes
            (plain column.label (TypeName.normalize (textOf type)), none)).1 := by
  have htypePart : column.typePart (first :: (type ++ (attributes ++ hidden))) = type :=
    List.take_left' htype
  have hattributePart :
      column.attributePart (first :: (type ++ (attributes ++ hidden))) = attributes := by
    rw [ColumnSyntax.attributePart, List.tail_cons, List.drop_left' htype,
      List.take_left' hattributes]
  have hhiddenPart : column.hiddenPart (first :: (type ++ (attributes ++ hidden))) = hidden := by
    rw [ColumnSyntax.hiddenPart, List.tail_cons, List.drop_left' htype,
      List.drop_left' hattributes]
  rw [ofSyntax, withAttributes, htypePart, hattributePart, hhiddenPart]

theorem tokens_row_append {α : Type} {marked : α → Marked} {left right : List α} :
    (row marked (left ++ right)).tokens = (row marked left).tokens ++ (row marked right).tokens := by
  rw [row, List.flatMap_append, tokens_append]
  rfl

/-- The lexemes of a column with a key, part by part. -/
theorem exists_parts_withKey {column : ColumnSyntax}
    (hspells : Spells (column.withKey key position).marked.tokens taken) :
    ∃ first type before written after hidden,
      taken = first :: (type ++ ((before ++ (written ++ after)) ++ hidden)) ∧
      column.cutKey key position taken = first :: (type ++ ((before ++ after) ++ hidden)) ∧
      type.length = column.type.length ∧
      before.length = (row Attribute.marked (column.attributes.take position)).tokens.length ∧
      written.length = key.atColumn.marked.tokens.length ∧
      after.length = (row Attribute.marked (column.attributes.drop position)).tokens.length := by
  have htokens : (column.withKey key position).marked.tokens =
      column.name :: (column.type ++
        ((row Attribute.marked (column.attributes.take position)).tokens ++
          (key.atColumn.marked.tokens ++
            ((row Attribute.marked (column.attributes.drop position)).tokens ++
              column.hidden)))) := by
    simp [ColumnSyntax.marked, ColumnSyntax.withKey, row, ColumnSyntax.hidden]
  rw [htokens] at hspells
  obtain ⟨first, others, rfl, -, hothers⟩ := hspells.exists_cons
  obtain ⟨type, others, rfl, htype, hothers⟩ := hothers.split
  obtain ⟨before, others, rfl, hbefore, hothers⟩ := hothers.split
  obtain ⟨written, others, rfl, hwritten, hothers⟩ := hothers.split
  obtain ⟨after, hidden, rfl, hafter, -⟩ := hothers.split
  refine ⟨first, type, before, written, after, hidden, by simp only [List.append_assoc], ?_,
    htype.length_eq, hbefore.length_eq, hwritten.length_eq, hafter.length_eq⟩
  have hstart : (first :: (type ++ before)).length = column.type.length + 1 +
      (row Attribute.marked (column.attributes.take position)).tokens.length := by
    rw [List.length_cons, List.length_append, htype.length_eq, hbefore.length_eq]
    omega
  have hsplit : first :: (type ++ (before ++ (written ++ (after ++ hidden)))) =
      (first :: (type ++ before)) ++ (written ++ (after ++ hidden)) := by
    simp only [List.cons_append, List.append_assoc]
  rw [ColumnSyntax.cutKey, ← hstart, ← hwritten.length_eq, hsplit, List.take_left,
    ← List.drop_drop, List.drop_left, List.drop_left]
  simp only [List.cons_append, List.append_assoc]

/-- The column that is written with a key is the one written without it, with the key. -/
theorem ofSyntax_withKey {column : ColumnSyntax}
    (hspells : Spells (column.withKey key position).marked.tokens taken)
    (hunnamed : Attribute.pending none (column.attributes.take position) = none)
    (halone : key.Alone column.attributes) :
    ∃ place, ofSyntax (column.withKey key position) taken =
        key.value.insert place (ofSyntax column (column.cutKey key position taken)) ∧
      key.value.Alone (ofSyntax column (column.cutKey key position taken)) := by
  obtain ⟨first, type, before, written, after, hidden, rfl, hcut, htype, hbefore, hwritten,
    hafter⟩ := exists_parts_withKey hspells
  have hfront : key.Alone (column.attributes.take position) :=
    fun hkind part hmem => halone hkind part (List.mem_of_mem_take hmem)
  have hback : key.Alone (column.attributes.drop position) :=
    fun hkind part hmem => halone hkind part (List.mem_of_mem_drop hmem)
  set start := plain column.label (TypeName.normalize (textOf type)) with hplain
  -- What the attributes before the key leave, with no name for the key.
  obtain ⟨d, hd⟩ : ∃ d, applyRow Attribute.marked applyAttribute (column.attributes.take position)
      before (start, none) = (d, none) := ⟨_, Prod.ext rfl ((snd_applyRow _ _ _).trans hunnamed)⟩
  have hstart : key.value.Alone start := by cases key <;> trivial
  have hmiddle : key.value.Alone d := by
    have hrow : key.value.Alone (applyRow Attribute.marked applyAttribute _ before
      (start, none)).1 := alone_applyRow hfront hstart
    rwa [hd] at hrow
  have hlast : key.value.Alone (applyRow Attribute.marked applyAttribute
    (column.attributes.drop position) after (d, none)).1 := alone_applyRow hback hmiddle
  have hwithout : applyRow Attribute.marked applyAttribute column.attributes (before ++ after)
      (start, none) =
        applyRow Attribute.marked applyAttribute (column.attributes.drop position) after
          (d, none) := by
    rw [← List.take_append_drop position column.attributes, applyRow_append,
      List.take_left' hbefore, List.drop_left' hbefore, List.take_append_drop, hd]
  have hwith : applyRow Attribute.marked applyAttribute (column.withKey key position).attributes
      (before ++ (written ++ after)) (start, none) =
        applyRow Attribute.marked applyAttribute (column.attributes.drop position) after
          (key.value.insert d.references.length d, none) := by
    rw [ColumnSyntax.withKey]
    dsimp only
    rw [applyRow_append, List.take_left' hbefore, List.drop_left' hbefore, hd, applyRow,
      List.take_left' hwritten, List.drop_left' hwritten, applyAttribute_key]
  rw [applyRow_insert hback (Nat.le_refl _)] at hwith
  have hlength : (before ++ after).length =
      (row Attribute.marked column.attributes).tokens.length := by
    rw [← List.take_append_drop position column.attributes, tokens_row_append,
      List.length_append, List.length_append, hbefore, hafter]
  have hkeyedLength : (before ++ (written ++ after)).length =
      (row Attribute.marked (column.withKey key position).attributes).tokens.length := by
    rw [ColumnSyntax.withKey, tokens_row_append, row_cons, tokens_append, List.length_append,
      List.length_append, List.length_append, List.length_append, hbefore, hwritten, hafter]
  have hkeyedColumn := ofSyntax_eq (column.withKey key position) first hidden htype hkeyedLength
  have hlabel : (column.withKey key position).label = column.label := rfl
  have hgenerated : (column.withKey key position).generated = column.generated := rfl
  rw [hlabel, hgenerated, ← hplain, hwith] at hkeyedColumn
  rw [hcut, hkeyedColumn, ofSyntax_eq column first hidden htype hlength, ← hplain, hwithout]
  generalize (applyRow Attribute.marked applyAttribute (column.attributes.drop position) after
    (d, none)).1 = last at hlast
  refine ⟨d.references.length, ?_⟩
  cases column.generated with
  | none => exact ⟨rfl, hlast⟩
  | some generated =>
    rw [Option.elim_some, Option.elim_some]
    exact ⟨applyGenerated_insert key.value _ hidden last, alone_applyGenerated _ hidden hlast⟩

end ColumnDefinition

/-! ## Two spellings of a key -/

namespace Syntax

def ElementSyntax.names (table : String) : ElementSyntax → List String
  | column definition => definition.keptNames table
  | clause label definition _ =>
    ((label.bind Token.name?).or (definition.usualName? table)).toList
  | other _ _ => []

/-- A key of one column, in the elements of two statements: among the attributes of its column,
which stands between `front` and `back`, and as a constraint between `left` and `right`. -/
structure KeyMove where
  key : SingleKey
  column : ColumnSyntax
  position : Nat
  written : List Lexeme
  front : List Written
  back : List Written
  name : Token
  behind : List Token
  clause : List Lexeme
  left : List Written
  right : List Written

namespace KeyMove

def atColumn (move : KeyMove) : List Written :=
  move.front ++ (.column (move.column.withKey move.key move.position), move.written) :: move.back

def atTable (move : KeyMove) : List Written :=
  move.left ++ (.clause none (move.key.atTable move.name) move.behind, move.clause) :: move.right

def others (move : KeyMove) : List Written :=
  move.front ++
    (.column move.column, move.column.cutKey move.key move.position move.written) :: move.back

/-- Both spellings have the same other elements, whose constraints are named differently, and the
key is given no name and is the only one of its kind at its column. -/
structure Sound (move : KeyMove) (table : String) : Prop where
  alike : List.Forall₂ Written.Alike move.others (move.left ++ move.right)
  named : move.name.name? = move.column.name.name?
  isName : move.column.name.name?.isSome = true
  unnamed : Attribute.pending none (move.column.attributes.take move.position) = none
  alone : move.key.Alone move.column.attributes
  distinct : (move.others.filterMap fun written =>
    written.1.column?.map ColumnSyntax.label).Nodup
  free : ∀ written ∈ move.others,
    move.key.kind.usualName table move.column.label ∉ written.1.names table

end KeyMove

end Syntax

namespace TableDefinition

/-- Every element is spelled by its lexemes. -/
theorem spells_writtenElements {first : ElementSyntax} {more : List ElementSyntax}
    (hspells : Spells (first.marked ++ row TableSyntax.markedMore more).tokens taken) :
    ∀ written ∈ writtenElements (first :: more) taken,
      Spells written.1.marked.tokens written.2 := by
  induction more generalizing first taken with
  | nil =>
    rw [row_nil, List.append_nil] at hspells
    intro written hmem
    rw [List.mem_singleton.1 hmem]
    have hwhole := hspells.length_eq
    rwa [← hwhole, List.take_length]
  | cons part more ih =>
    rw [tokens_append] at hspells
    intro written hmem
    rcases List.mem_cons.1 hmem with rfl | hmem
    · exact hspells.take
    · have hbehind : Spells (.comma :: (part.marked ++ row TableSyntax.markedMore more).tokens)
        (taken.drop first.marked.tokens.length) := hspells.drop
      obtain ⟨comma, others, hothers, -, hmore⟩ := hbehind.exists_cons
      refine ih hmore written ?_
      rwa [← List.drop_drop, hothers] at hmem

end TableDefinition

namespace Written

variable {written : Written} {table : String}

theorem names_of_column? {d : ColumnDefinition} (hcolumn : written.column? = some d) :
    (d.constraints table).map Constraint.name = written.1.names table := by
  obtain ⟨part, taken⟩ := written
  cases part with
  | column column =>
    obtain rfl := Option.some.inj hcolumn
    exact names_of_declares (ColumnDefinition.labels_ofSyntax column taken) table
  | clause _ _ _ | other _ _ => cases hcolumn

theorem names_of_clause? {clause : Option String × TableClause}
    (hclause : written.clause? = some clause) :
    (clause.1.or (clause.2.usualName? table)).toList = written.1.names table := by
  obtain ⟨part, taken⟩ := written
  cases part with
  | clause label definition behind =>
    obtain rfl := Option.some.inj hclause
    rw [ElementSyntax.names, TableClause.usualName?_ofSyntax]
  | column _ | other _ _ => cases hclause

end Written

/-- Elements that are alike give the same. -/
theorem filterMap_of_alike {α : Type} {read : Written → Option α} {elements others : List Written}
    (hread : ∀ {written other : Written}, written.Alike other → read written = read other)
    (halike : List.Forall₂ Written.Alike elements others) :
    elements.filterMap read = others.filterMap read := by
  induction halike with
  | nil => rfl
  | cons hfirst _ ih => rw [List.filterMap_cons, List.filterMap_cons, hread hfirst, ih]

namespace Syntax.KeyMove

def definition (move : KeyMove) : ColumnDefinition :=
  .ofSyntax move.column (move.column.cutKey move.key move.position move.written)

variable {move : KeyMove} {table : String}

theorem name_definition (move : KeyMove) : move.definition.column.name = move.column.label :=
  (ColumnDefinition.labels_ofSyntax _ _).1

theorem name_entry (move : KeyMove) (table : String) :
    (move.key.value.entry table move.definition.column.name).name =
      move.key.kind.usualName table move.column.label := by
  rw [name_definition]
  cases move.key <;> rfl

/-- The constraint of the table is the key. -/
theorem value_clause (hsound : move.Sound table) (taken : List Lexeme) :
    TableClause.ofSyntax (move.key.atTable move.name) taken =
      move.key.value.clause move.definition.column.name := by
  have hnames : namesOf [move.name] = [move.definition.column.name] := by
    obtain ⟨name, hname⟩ := Option.isSome_iff_exists.1 hsound.isName
    rw [name_definition, namesOf, ColumnSyntax.label, hname, List.filterMap_cons, hsound.named,
      hname]
    rfl
  cases move.key with
  | primaryKey | unique | references _ =>
    simp only [SingleKey.atTable, TableClause.ofSyntax, Option.getD_some, hnames]
    rfl

/-- The columns behind the one with the key have other names. -/
theorem column_ne (hsound : move.Sound table) :
    ∀ other ∈ move.back.filterMap Written.column?,
      move.definition.column.name ≠ other.column.name := by
  intro other hmem hsame
  obtain ⟨⟨part, taken⟩, hwritten, hread⟩ := List.mem_filterMap.1 hmem
  cases part with
  | column column =>
    obtain rfl := Option.some.inj hread
    have hdistinct := hsound.distinct
    rw [others, List.filterMap_append, List.filterMap_cons] at hdistinct
    refine (List.nodup_cons.1 (List.nodup_append.1 hdistinct).2.1).1
      (List.mem_filterMap.2 ⟨_, hwritten, congrArg some ?_⟩)
    rw [← name_definition, hsame]
    exact (ColumnDefinition.labels_ofSyntax column taken).1.symm
  | clause _ _ _ | other _ _ => cases hread

/-- No constraint of another column takes the name of the key. -/
theorem constraint_ne (hsound : move.Sound table) :
    ∀ other ∈ move.definition :: move.back.filterMap Written.column?,
      ∀ constraint ∈ other.constraints table,
        (move.key.value.entry table move.definition.column.name).name ≠ constraint.name := by
  intro other hmem constraint hconstraint hsame
  have hwritten : ∃ written ∈ move.others, Written.column? written = some other := by
    rcases List.mem_cons.1 hmem with rfl | hmem
    · exact ⟨_, List.mem_append_right _ List.mem_cons_self, rfl⟩
    · obtain ⟨written, hwritten, hread⟩ := List.mem_filterMap.1 hmem
      exact ⟨written, List.mem_append_right _ (List.mem_cons_of_mem _ hwritten), hread⟩
  obtain ⟨written, hwritten, hread⟩ := hwritten
  refine hsound.free written hwritten ?_
  rw [← Written.names_of_column? hread, ← name_entry, hsame]
  exact List.mem_map_of_mem hconstraint

/-- The other elements are the same ones in both spellings. -/
theorem map_fst_others (hsound : move.Sound table) :
    move.others.map Prod.fst = (move.left ++ move.right).map Prod.fst :=
  map_eq_map_of_forall₂ hsound.alike fun _ _ halike => halike.1

theorem clause_ne (hsound : move.Sound table) :
    ∀ clause ∈ move.left.filterMap Written.clause?,
      clause.1.or (clause.2.usualName? table) ≠
        some (move.key.value.entry table move.definition.column.name).name := by
  intro clause hmem hsame
  obtain ⟨written, hwritten, hread⟩ := List.mem_filterMap.1 hmem
  have hother : written.1 ∈ move.others.map Prod.fst :=
    map_fst_others hsound ▸ List.mem_map_of_mem (List.mem_append_left _ hwritten)
  obtain ⟨other, hother, heq⟩ := List.mem_map.1 hother
  refine hsound.free other hother ?_
  rw [heq, ← Written.names_of_clause? hread, hsame, name_entry]
  exact List.mem_singleton_self _

/-- Both spellings define tables with the same entries. -/
theorem sameEntries (hsound : move.Sound table)
    (hspells : Spells (move.column.withKey move.key move.position).marked.tokens move.written) :
    (TableDefinition.finish (TableDefinition.addElements ⟨Table.empty table, []⟩
        move.atColumn)).SameEntries
      (TableDefinition.finish (TableDefinition.addElements ⟨Table.empty table, []⟩
        move.atTable)) := by
  obtain ⟨place, hkeyed, halone⟩ :=
    ColumnDefinition.ofSyntax_withKey hspells hsound.unnamed hsound.alone
  have hcolumns := filterMap_of_alike Written.column?_of_alike hsound.alike
  have hclauses := filterMap_of_alike Written.clause?_of_alike hsound.alike
  have hmoved := TableDefinition.finish_moved table place (move.front.filterMap Written.column?)
    (move.right.filterMap Written.clause?) halone (column_ne hsound) (constraint_ne hsound)
    (clause_ne hsound)
  rw [others, List.filterMap_append, List.filterMap_cons, List.filterMap_append] at hcolumns
  rw [others, List.filterMap_append, List.filterMap_cons, List.filterMap_append] at hclauses
  have hdefinition : Written.column? (.column move.column,
    move.column.cutKey move.key move.position move.written) = some move.definition := rfl
  have hwritten : Written.column? (.column (move.column.withKey move.key move.position),
    move.written) = some (move.key.value.insert place move.definition) := congrArg some hkeyed
  have hclause : Written.clause? (.clause none (move.key.atTable move.name) move.behind,
      move.clause) = some (none, move.key.value.clause move.definition.column.name) :=
    congrArg (fun clause => some (none, clause)) (value_clause hsound _)
  have hnone (column : ColumnSyntax) (taken : List Lexeme) :
      Written.clause? (.column column, taken) = none := rfl
  have hnone' (label : Option Token) (clause : ClauseSyntax) (behind : List Token)
      (taken : List Lexeme) : Written.column? (.clause label clause behind, taken) = none := rfl
  rw [hdefinition] at hcolumns
  rw [hnone] at hclauses
  rw [TableDefinition.addElements_eq, TableDefinition.addElements_eq, atColumn, atTable]
  simp only [List.filterMap_append, List.filterMap_cons, hwritten, hclause, hnone, hnone',
    List.nil_append, ← hcolumns]
  rw [hclauses]
  exact hmoved

end Syntax.KeyMove

end SchemaEvolution.Sql
