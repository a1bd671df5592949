import Mathlib.Data.List.Basic
import SchemaEvolution.Proofs.Schema.TableEdits
import SchemaEvolution.Drizzle.Import

/-!
# Keys of columns and keys among the options

A key of one column is a call on the column or an option of its table.  Columns and options edit
the table one after the other, and what the others do is independent of the key, so both ways to
declare it give the same schema.  The warnings about what does not resolve are others.
-/

namespace SchemaEvolution.Drizzle

open Table (Edit)

variable {d d' : Declarations} {declaration other : TableDeclaration} {column : ColumnDeclaration}
  {table : Table} {dialect : Dialect}

def uniqueEdits (table : String) (column : ColumnDeclaration) : List Edit :=
  ((column.builder.link? "unique").map fun arguments => Edit.constraint
    (.unique ((firstString? arguments).getD (table ++ "_" ++ column.name ++ "_unique"))
      [column.name])).toList

def referenceEdits (d : Declarations) (declaration : TableDeclaration)
    (column : ColumnDeclaration) : List Edit :=
  (((column.builder.link? "references").bind fun arguments =>
    (referenceOf d declaration column.name arguments).toOption).map .constraint).toList

def columnEdits (dialect : Dialect) (d : Declarations) (declaration : TableDeclaration)
    (column : ColumnDeclaration) : List Edit :=
  .column (columnOf dialect d column) ::
    (uniqueEdits declaration.name column ++ referenceEdits d declaration column)

theorem name_applyLink (column : Column) (link : Link) :
    (applyLink column link).name = column.name := by
  rw [applyLink]
  split <;> rfl

theorem name_columnOf (dialect : Dialect) (d : Declarations) (column : ColumnDeclaration) :
    (columnOf dialect d column).name = column.name := by
  have hlinks (links : List Link) (start : Column) :
      (links.foldl applyLink start).name = start.name := by
    induction links generalizing start with
    | nil => rfl
    | cons link more ih => rw [List.foldl_cons, ih, name_applyLink]
  rw [columnOf, hlinks]
  split <;> rfl

theorem fst_orWarn (state : Table × List Diagnostic) (change : Table → Except Diagnostic Table) :
    (orWarn state change).1 = (change state.1).toOption.getD state.1 := by
  rw [orWarn]
  cases change state.1 <;> rfl

/-- A column is added with what its builder declares, edit by edit. -/
theorem fst_addColumn (dialect : Dialect) (d : Declarations) (declaration : TableDeclaration)
    (state : Table × List Diagnostic) (column : ColumnDeclaration) :
    (addColumn dialect d declaration state column).1 =
      state.1.edited (columnEdits dialect d declaration column) := by
  rw [addColumn, columnEdits, uniqueEdits, referenceEdits, name_columnOf]
  cases column.builder.link? "unique" with
  | none | some _ =>
    cases column.builder.link? "references" with
    | none => rfl
    | some arguments =>
      dsimp only
      rw [fst_orWarn, Option.bind_some]
      cases referenceOf d declaration column.name arguments <;> rfl

/-- The primary key over the columns that are marked as parts of it. -/
def keyEdits (declaration : TableDeclaration) : List Edit :=
  let keys := (declaration.columns.filter fun column => column.builder.has "primaryKey").map
    ColumnDeclaration.name
  if keys.isEmpty then [] else [.constraint (.primaryKey (Naming.primaryKey declaration.name) keys)]

def optionEdits (d : Declarations) (declaration : TableDeclaration) (name : String)
    (option : Expression) : List Edit :=
  match option.chain? with
  | none => []
  | some chain =>
    let label := firstString? chain.arguments
    match chain.base with
    | "index" | "uniqueIndex" =>
      let (columns, method) := indexParts declaration chain
      if columns.isEmpty then []
      else [.index ⟨label.getD (Naming.index name columns), chain.base == "uniqueIndex", columns,
        method⟩]
    | "primaryKey" =>
      let (label, columns) := keyParts declaration chain.arguments
      [.require columns, .constraint (.primaryKey (label.getD (Naming.primaryKey name)) columns)]
    | "unique" =>
      let columns := ((chain.link? "on").map (ownColumns declaration)).getD []
      let usual := name ++ "_" ++ Naming.joined columns ++ "_unique"
      [.constraint (.unique (label.getD usual) columns)]
    | "check" =>
      [.constraint
        (.check (label.getD (name ++ "_check")) (conditionOf chain.arguments[1]?))]
    | "foreignKey" => ((foreignKeyOf d declaration chain).toOption.map .constraint).toList
    | _ => []

theorem addOption_eq_edited (d : Declarations) (declaration : TableDeclaration) (table : Table)
    (option : Expression) :
    (addOption d declaration table option).toOption.getD table =
      table.edited (optionEdits d declaration table.name option) := by
  fun_cases addOption d declaration table option
  case case9 chain hchain hbase =>
    simp only [optionEdits, hchain, hbase]
    cases foreignKeyOf d declaration chain <;> rfl
  all_goals
    simp only [optionEdits, *]
    rfl

def tableEdits (dialect : Dialect) (d : Declarations) (declaration : TableDeclaration) :
    List Edit :=
  declaration.columns.flatMap (columnEdits dialect d declaration) ++ (keyEdits declaration ++
    declaration.options.flatMap (optionEdits d declaration declaration.name))

theorem foldl_eq_edited {α : Type}
    {add : Table × List Diagnostic → α → Table × List Diagnostic} (edits : String → α → List Edit)
    (hadd : ∀ state part, (add state part).1 = state.1.edited (edits state.1.name part))
    (parts : List α) (state : Table × List Diagnostic) :
    (parts.foldl add state).1 = state.1.edited (parts.flatMap (edits state.1.name)) := by
  induction parts generalizing state with
  | nil => rfl
  | cons part more ih =>
    rw [List.foldl_cons, ih, List.flatMap_cons, Table.edited_append, hadd, Table.name_edited]

/-- The table of a declaration is made from nothing by the edits of its columns and options. -/
theorem fst_tableOf (dialect : Dialect) (d : Declarations) (declaration : TableDeclaration) :
    (tableOf dialect d declaration).1 =
      (Table.empty declaration.name).edited (tableEdits dialect d declaration) := by
  have hcolumns := foldl_eq_edited (fun _ => columnEdits dialect d declaration)
    (fst_addColumn dialect d declaration) declaration.columns (Table.empty declaration.name, [])
  rw [tableOf, tableEdits]
  generalize declaration.columns.foldl (addColumn dialect d declaration) _ = state at hcolumns ⊢
  obtain ⟨table, warnings⟩ := state
  have hname : table.name = declaration.name :=
    (congrArg Table.name hcolumns).trans Table.name_edited
  have hoptions (start : Table) (hstart : start.name = declaration.name) :
      (declaration.options.foldl (fun state option =>
        orWarn state fun table => addOption d declaration table option) (start, warnings)).1 =
          start.edited
            (declaration.options.flatMap (optionEdits d declaration declaration.name)) := by
    rw [foldl_eq_edited (optionEdits d declaration) fun state option =>
      (fst_orWarn _ _).trans (addOption_eq_edited d declaration state.1 option), hstart]
  dsimp only at hcolumns ⊢
  rw [hoptions _ (by split <;> exact hname), Table.edited_append, Table.edited_append, ← hcolumns,
    keyEdits]
  split <;> rfl

def ColumnDeclaration.face (column : ColumnDeclaration) : String × String :=
  (column.key, column.name)

/-- The tables have the same names, and so have their columns. -/
structure TableDeclaration.Alike (declaration other : TableDeclaration) : Prop where
  variableName : declaration.variableName = other.variableName
  name : declaration.name = other.name
  columns : declaration.columns.map ColumnDeclaration.face =
    other.columns.map ColumnDeclaration.face

/-- The declarations have the same names for everything. -/
structure Declarations.Alike (d d' : Declarations) : Prop where
  tables : List.Forall₂ TableDeclaration.Alike d.tables d'.tables
  enums : d.enums = d'.enums

theorem TableDeclaration.Alike.refl (declaration : TableDeclaration) :
    declaration.Alike declaration := ⟨rfl, rfl, rfl⟩

theorem TableDeclaration.Alike.columnName (halike : declaration.Alike other) (key : String) :
    declaration.columnName key = other.columnName key := by
  have hfaces (columns : List ColumnDeclaration) :
      (columns.find? fun column => column.key == key).map ColumnDeclaration.name =
        ((columns.map ColumnDeclaration.face).find? fun face => face.1 == key).map Prod.snd := by
    rw [List.find?_map, Option.map_map]
    rfl
  rw [TableDeclaration.columnName, TableDeclaration.columnName, TableDeclaration.column?,
    TableDeclaration.column?, hfaces, hfaces, halike.columns]

theorem ownColumn?_of_alike (halike : declaration.Alike other)
    (hparameter : declaration.parameter = other.parameter) (expression : Expression) :
    ownColumn? declaration expression = ownColumn? other expression := by
  simp only [ownColumn?, halike.variableName, halike.columnName, hparameter]

theorem ownColumns_of_alike (halike : declaration.Alike other)
    (hparameter : declaration.parameter = other.parameter) (expressions : List Expression) :
    ownColumns declaration expressions = ownColumns other expressions := by
  rw [ownColumns, ownColumns, funext (ownColumn?_of_alike halike hparameter)]

namespace Declarations.Alike

theorem foreignColumn? (halike : d.Alike d') (variableName key : String) :
    foreignColumn? d variableName key = foreignColumn? d' variableName key := by
  rw [Drizzle.foreignColumn?, Drizzle.foreignColumn?, Declarations.table?, Declarations.table?]
  have hreverse := List.rel_reverse halike.tables
  generalize d.tables.reverse = tables at hreverse
  generalize d'.tables.reverse = tables' at hreverse
  induction hreverse with
  | nil => rfl
  | @cons declaration other _ _ hfirst _ ih =>
    rw [List.find?_cons, List.find?_cons, hfirst.variableName]
    cases other.variableName == variableName with
    | true => simp only [Option.map_some, hfirst.name, hfirst.columnName]
    | false => exact ih

theorem columnOf (halike : d.Alike d') (column : ColumnDeclaration) :
    columnOf dialect d column = columnOf dialect d' column := by
  have henum (name : String) : d.enum? name = d'.enum? name := by
    rw [Declarations.enum?, Declarations.enum?, halike.enums]
  simp only [Drizzle.columnOf, baseType, postgresType, henum]

/-- The references are the same ones, if not the warnings. -/
theorem referenceOf (halike : d.Alike d') (hdeclaration : declaration.Alike other)
    (column : String) (arguments : List Expression) :
    (referenceOf d declaration column arguments).toOption =
      (referenceOf d' other column arguments).toOption := by
  rw [Drizzle.referenceOf, Drizzle.referenceOf]
  dsimp only
  split
  · rfl
  · rw [halike.foreignColumn?, hdeclaration.name]
    split <;> rfl

theorem columnEdits (halike : d.Alike d') (hdeclaration : declaration.Alike other)
    (column : ColumnDeclaration) :
    columnEdits dialect d declaration column = columnEdits dialect d' other column := by
  simp only [Drizzle.columnEdits, referenceEdits, halike.columnOf, halike.referenceOf hdeclaration,
    hdeclaration.name]

/-- A foreign key of the options depends on other declarations only by the names of what it leads
to. -/
theorem foreignKeyOf (halike : d.Alike d') (hdeclaration : declaration.Alike other)
    (hparameter : declaration.parameter = other.parameter) (chain : Chain) :
    (foreignKeyOf d declaration chain).toOption = (foreignKeyOf d' other chain).toOption := by
  have htargets (expressions : List Expression) :
      foreignColumns d declaration expressions = foreignColumns d' other expressions := by
    simp only [foreignColumns, hparameter, hdeclaration.name, hdeclaration.columnName,
      halike.foreignColumn?]
  rw [Drizzle.foreignKeyOf, Drizzle.foreignKeyOf]
  split
  · rfl
  · simp only [htargets, ownColumns_of_alike hdeclaration hparameter, hdeclaration.name]
    split
    · rfl
    · split <;> rfl

/-- Every option depends on other declarations only by the names of what it leads to. -/
theorem optionEdits (halike : d.Alike d') (hdeclaration : declaration.Alike other)
    (hparameter : declaration.parameter = other.parameter) (name : String) (option : Expression) :
    optionEdits d declaration name option = optionEdits d' other name option := by
  have hown : ownColumns declaration = ownColumns other :=
    funext (ownColumns_of_alike hdeclaration hparameter)
  have hindex : indexParts declaration = indexParts other := by
    funext chain
    rw [indexParts, indexParts, hown]
  have hkey : keyParts declaration = keyParts other := by
    funext arguments
    rw [keyParts, keyParts, hown]
  simp only [Drizzle.optionEdits, hindex, hkey, hown, halike.foreignKeyOf hdeclaration hparameter]

/-- A table is the same one among both declarations. -/
theorem fst_tableOf (halike : d.Alike d') (declaration : TableDeclaration) :
    (tableOf dialect d declaration).1 = (tableOf dialect d' declaration).1 := by
  rw [Drizzle.fst_tableOf, Drizzle.fst_tableOf, tableEdits, tableEdits,
    funext (halike.columnEdits (.refl declaration)),
    funext (halike.optionEdits (.refl declaration) rfl _)]

end Declarations.Alike

/-! ## Lines -/

def TableDeclaration.unlined (declaration : TableDeclaration) : TableDeclaration :=
  { declaration with line := 0 }

def Declarations.unlined (d : Declarations) : Declarations :=
  { d with tables := d.tables.map TableDeclaration.unlined }

theorem alike_unlined (declaration : TableDeclaration) : declaration.unlined.Alike declaration :=
  ⟨rfl, rfl, rfl⟩

/-- On which lines tables are declared is of no account but for warnings. -/
theorem fst_schemaOf_unlined (dialect : Dialect) (d : Declarations) :
    (schemaOf dialect d.unlined).1 = (schemaOf dialect d).1 := by
  have halike : d.unlined.Alike d :=
    ⟨List.forall₂_map_left_iff.2 (List.forall₂_same.2 fun table _ => alike_unlined table), rfl⟩
  have htable (declaration : TableDeclaration) :
      (tableOf dialect d.unlined declaration.unlined).1 = (tableOf dialect d declaration).1 := by
    have hunlined := alike_unlined declaration
    rw [fst_tableOf, fst_tableOf, tableEdits, tableEdits, funext (halike.columnEdits hunlined),
      funext (halike.optionEdits hunlined rfl _)]
    rfl
  have htables : d.unlined.tables.map (Prod.fst ∘ tableOf dialect d.unlined) =
      d.tables.map (Prod.fst ∘ tableOf dialect d) := by
    rw [Declarations.unlined, List.map_map]
    exact List.map_congr_left fun declaration _ => htable declaration
  have henums : d.unlined.enums = d.enums := rfl
  simp only [schemaOf, List.map_map, htables, henums]

/-! ## Keys -/

/-- A call and the calls of methods on its result as an expression. -/
def Chain.expression (chain : Chain) : Expression :=
  chain.links.foldl (fun inner link => .call (.member inner link.method) link.arguments)
    (.call (.word chain.base) chain.arguments)

/-- Taking apart the expression that is made from a chain gives the chain back. -/
theorem chain?_expression (chain : Chain) : chain.expression.chain? = some chain := by
  have hlinks (links done : List Link) (inner : Expression)
      (hinner : inner.chain? = some ⟨chain.base, chain.arguments, done⟩) :
      (links.foldl (fun inner link => Expression.call (.member inner link.method) link.arguments)
        inner).chain? = some ⟨chain.base, chain.arguments, done ++ links⟩ := by
    induction links generalizing done inner with
    | nil => rw [List.foldl_nil, List.append_nil, hinner]
    | cons link more ih =>
      rw [List.foldl_cons, ih (done ++ [link]), List.append_assoc]
      · rfl
      · rw [Expression.chain?, hinner]
        rfl
  exact hlinks chain.links [] _ rfl

inductive ColumnKey where
  | primaryKey
  | unique (arguments : List Expression)
  | references (variableName property : String) (settings : List Expression) (links : List Link)

namespace ColumnKey

def method : ColumnKey → String
  | primaryKey => "primaryKey"
  | unique _ => "unique"
  | references _ _ _ _ => "references"

def atColumn (key : ColumnKey) : Link where
  method := key.method
  arguments :=
    match key with
    | primaryKey => []
    | unique arguments => arguments
    | references variableName property settings _ =>
      .arrow [] (.member (.word variableName) property) :: settings

def chain (own : Expression) : ColumnKey → Chain
  | primaryKey => ⟨"primaryKey", [.object [("columns", .list [own])]], []⟩
  | unique arguments => ⟨"unique", arguments, [⟨"on", [own]⟩]⟩
  | references variableName property _ links =>
    ⟨"foreignKey", [.object [("columns", .list [own]),
      ("foreignColumns", .list [.member (.word variableName) property])]], links⟩

def atTable (parameter key : String) (kind : ColumnKey) : Expression :=
  (kind.chain (.member (.word parameter) key)).expression

/-- What the key stores for a column of a table of the given name, if it leads to a table. -/
def stored? (d : Declarations) (table column : String) : ColumnKey → Option Constraint
  | primaryKey => some (.primaryKey (Naming.primaryKey table) [column])
  | unique arguments => some (.unique
      ((firstString? arguments).getD (table ++ "_" ++ column ++ "_unique")) [column])
  | references variableName property settings _ =>
    (foreignColumn? d variableName property).map fun (target, targetColumn) =>
      let action (key : String) : ForeignKeyAction :=
        actionOf (settings.head?.bind (Expression.property? key))
      .foreignKey (table ++ "_" ++ column ++ "_" ++ target ++ "_" ++ targetColumn ++ "_fk")
        ⟨[column], target, [targetColumn], action "onUpdate", action "onDelete"⟩

def entries (d : Declarations) (table column : String) (key : ColumnKey) : List Edit :=
  ((key.stored? d table column).map .constraint).toList

def required (column : String) : ColumnKey → List Edit
  | primaryKey => [.require [column]]
  | unique _ | references _ _ _ _ => []

def edits (d : Declarations) (table column : String) (key : ColumnKey) : List Edit :=
  key.required column ++ key.entries d table column

/-- The settings of a reference name the actions that the calls on its option name, and the
variable is not the parameter of the options. -/
def Agrees (parameter : String) : ColumnKey → Prop
  | references variableName _ settings links =>
    variableName ≠ parameter ∧ ∀ event ∈ ["onUpdate", "onDelete"],
      settings.head?.bind (Expression.property? event) =
        (Chain.link? ⟨"foreignKey", [], links⟩ event).bind List.head?
  | primaryKey | unique _ => True

end ColumnKey

theorem ownColumns_parameter {parameter : String}
    (hparameter : declaration.parameter = some parameter) (key : String) :
    ownColumns declaration [.member (.word parameter) key] = [declaration.columnName key] := by
  simp [ownColumns, ownColumn?, Expression.string?, Expression.member?, hparameter]

/-- The option of a reference leads where the reference does. -/
theorem foreignKeyOf_chain {parameter variableName property : String} {settings : List Expression}
    {links : List Link} (hparameter : declaration.parameter = some parameter)
    (hagrees : (ColumnKey.references variableName property settings links).Agrees parameter)
    (key : String) :
    (foreignKeyOf d declaration ((ColumnKey.references variableName property settings links).chain
        (.member (.word parameter) key))).toOption =
      (ColumnKey.references variableName property settings links).stored? d declaration.name
        (declaration.columnName key) := by
  obtain ⟨hvariable, hactions⟩ := hagrees
  have hupdate := hactions "onUpdate" List.mem_cons_self
  have hdelete := hactions "onDelete" (List.mem_cons_of_mem _ List.mem_cons_self)
  have htargets : foreignColumns d declaration [.member (.word variableName) property] =
      (foreignColumn? d variableName property).toList := by
    have hne : (declaration.parameter == some variableName) = false := by
      rw [hparameter]
      exact beq_eq_false_iff_ne.2 fun heq => hvariable (Option.some.inj heq).symm
    rw [foreignColumns, List.filterMap_cons, Expression.member?, Option.bind_some]
    simp only [hne, Bool.false_eq_true, if_false, List.filterMap_nil]
    cases foreignColumn? d variableName property <;> rfl
  have hcolumns (own foreign : Expression) : (Expression.object [("columns", .list [own]),
      ("foreignColumns", .list [foreign])]).property? "columns" = some (.list [own]) := rfl
  have hforeign (own foreign : Expression) : (Expression.object [("columns", .list [own]),
      ("foreignColumns", .list [foreign])]).property? "foreignColumns" =
        some (.list [foreign]) := rfl
  have hname (own foreign : Expression) : (Expression.object [("columns", .list [own]),
      ("foreignColumns", .list [foreign])]).property? "name" = none := rfl
  simp only [ColumnKey.chain, foreignKeyOf, List.head?_cons, hcolumns, hforeign, hname,
    Option.map_some, Option.getD_some, Expression.items, ownColumns_parameter hparameter, htargets,
    ColumnKey.stored?, hupdate, hdelete]
  cases foreignColumn? d variableName property <;> rfl

/-- The option does what the key does. -/
theorem optionEdits_atTable {key : ColumnKey} {parameter : String}
    (hparameter : declaration.parameter = some parameter) (hagrees : key.Agrees parameter)
    (property : String) :
    optionEdits d declaration declaration.name (key.atTable parameter property) =
      key.edits d declaration.name (declaration.columnName property) := by
  have hown := ownColumns_parameter hparameter property
  rw [optionEdits, ColumnKey.atTable, chain?_expression]
  cases key with
  | primaryKey =>
    have hparts : keyParts declaration
        [.object [("columns", .list [.member (.word parameter) property])]] =
          (none, [declaration.columnName property]) := by
      rw [← hown]
      rfl
    simp only [ColumnKey.chain, hparts]
    rfl
  | unique arguments =>
    have hlink : Chain.link? ⟨"unique", arguments, [⟨"on", [.member (.word parameter) property]⟩]⟩
        "on" = some [.member (.word parameter) property] := rfl
    simp only [ColumnKey.chain, hlink, Option.map_some, hown]
    rfl
  | references variableName key settings links =>
    have hkey := foreignKeyOf_chain (d := d) hparameter hagrees property
    rw [ColumnKey.edits, ColumnKey.entries, ← hkey]
    rfl

/-- The chain with one more call, behind some of its calls. -/
def Chain.insert (chain : Chain) (position : Nat) (link : Link) : Chain :=
  { chain with links := chain.links.take position ++ link :: chain.links.drop position }

def ColumnDeclaration.withKey (column : ColumnDeclaration) (key : ColumnKey) (position : Nat) :
    ColumnDeclaration :=
  { column with builder := column.builder.insert position key.atColumn }

section WithKey

variable {chain : Chain} {link : Link} {key : ColumnKey} {position : Nat} {method : String}

theorem link?_insert_of_ne (hmethod : link.method ≠ method) :
    (chain.insert position link).link? method = chain.link? method := by
  have hlink : (link.method == method) = false := beq_eq_false_iff_ne.2 hmethod
  rw [Chain.link?, Chain.link?, Chain.insert]
  dsimp only
  rw [List.reverse_append, List.reverse_cons, List.append_assoc, List.find?_append,
    List.singleton_append, List.find?_cons, hlink, ← List.find?_append, ← List.reverse_append,
    List.take_append_drop]

/-- A call that is inserted is found by its method, if there has been no other one. -/
theorem link?_insert (halone : chain.link? link.method = none) :
    (chain.insert position link).link? link.method = some link.arguments := by
  have hnone := Option.map_eq_none_iff.1 halone
  have hback : (chain.links.drop position).reverse.find?
      (fun other => other.method == link.method) = none :=
    List.find?_eq_none.2 fun other hmem => List.find?_eq_none.1 hnone other
      (List.mem_reverse.2 (List.mem_of_mem_drop (List.mem_reverse.1 hmem)))
  rw [Chain.link?, Chain.insert]
  dsimp only
  rw [List.reverse_append, List.reverse_cons, List.append_assoc, List.find?_append, hback,
    List.singleton_append, List.find?_cons, beq_self_eq_true]
  rfl

theorem has_insert :
    (chain.insert position link).has method = (chain.has method || link.method == method) := by
  rw [Chain.has, Chain.has, Chain.insert]
  dsimp only
  rw [List.any_append, List.any_cons, Bool.or_left_comm, ← List.any_append, List.take_append_drop,
    Bool.or_comm]

/-- Every call keeps a column required. -/
theorem applyLink_required (column : Column) (link : Link) :
    applyLink column.required link = (applyLink column link).required := by
  rw [applyLink, applyLink]
  split <;> rfl

theorem foldl_applyLink_required (links : List Link) (column : Column) :
    links.foldl applyLink column.required = (links.foldl applyLink column).required := by
  induction links generalizing column with
  | nil => rfl
  | cons link more ih => rw [List.foldl_cons, applyLink_required, ih, List.foldl_cons]

theorem columnOf_insert (start : Column) {change : Column → Column}
    (hlink : ∀ column, applyLink column link = change column)
    (hmore : ∀ (links : List Link) (column : Column),
      links.foldl applyLink (change column) = change (links.foldl applyLink column)) :
    (chain.insert position link).links.foldl applyLink start =
      change (chain.links.foldl applyLink start) := by
  rw [Chain.insert]
  dsimp only
  rw [List.foldl_append, List.foldl_cons, hlink, hmore, ← List.foldl_append, List.take_append_drop]

theorem link?_eq_none_of_has (hnone : chain.has method = false) : chain.link? method = none := by
  rw [Chain.link?, Option.map_eq_none_iff, List.find?_eq_none]
  intro link hmem hmethod
  exact Bool.eq_false_iff.1 hnone (List.any_eq_true.2 ⟨link, List.mem_reverse.1 hmem, hmethod⟩)

theorem columnOf_withPrimaryKey (dialect : Dialect) (d : Declarations) (position : Nat) :
    columnOf dialect d (column.withKey .primaryKey position) =
      (columnOf dialect d column).required :=
  columnOf_insert _ (fun _ => rfl) foldl_applyLink_required

theorem columnOf_withKey (dialect : Dialect) (d : Declarations) (position : Nat)
    (hkey : key ≠ .primaryKey) :
    columnOf dialect d (column.withKey key position) = columnOf dialect d column := by
  cases key with
  | primaryKey => exact absurd rfl hkey
  | unique _ | references _ _ _ _ => exact columnOf_insert _ (fun _ => rfl) fun _ _ => rfl

theorem uniqueEdits_withKey (key : ColumnKey) (name : String) (hkey : key.method ≠ "unique") :
    uniqueEdits name (column.withKey key position) = uniqueEdits name column := by
  rw [uniqueEdits, ColumnDeclaration.withKey, link?_insert_of_ne hkey]
  rfl

theorem referenceEdits_withKey (key : ColumnKey) (hkey : key.method ≠ "references") :
    referenceEdits d declaration (column.withKey key position) =
      referenceEdits d declaration column := by
  rw [referenceEdits, ColumnDeclaration.withKey, link?_insert_of_ne hkey]
  rfl

theorem uniqueEdits_withUnique (d : Declarations) (name : String) {arguments : List Expression}
    (halone : column.builder.has "unique" = false) :
    uniqueEdits name (column.withKey (.unique arguments) position) =
      (ColumnKey.unique arguments).entries d name column.name := by
  have hlink : (column.withKey (.unique arguments) position).builder.link? "unique" =
      some arguments := link?_insert (link?_eq_none_of_has halone)
  rw [uniqueEdits, hlink]
  rfl

/-- The reference of a column is the edit of its key, if the column has no other. -/
theorem referenceEdits_withReference {variableName property : String}
    {settings : List Expression} {links : List Link}
    (halone : column.builder.has "references" = false) :
    referenceEdits d declaration
        (column.withKey (.references variableName property settings links) position) =
      (ColumnKey.references variableName property settings links).entries d declaration.name
        column.name := by
  have hlink : (column.withKey (.references variableName property settings links)
      position).builder.link? "references" =
        some (.arrow [] (.member (.word variableName) property) :: settings) :=
    link?_insert (link?_eq_none_of_has halone)
  rw [referenceEdits, hlink, Option.bind_some, referenceOf, ColumnKey.entries, ColumnKey.stored?]
  simp only [List.head?_cons, Expression.member?, List.getElem?_cons_succ,
    ← List.head?_eq_getElem?]
  cases foreignColumn? d variableName property <;> rfl

/-- What a key does that its column does at once: all but the primary key of the table. -/
def ColumnKey.early (d : Declarations) (table column : String) (key : ColumnKey) : List Edit :=
  match key with
  | primaryKey => key.required column
  | unique _ | references _ _ _ _ => key.entries d table column

theorem ColumnKey.early_subset (d : Declarations) (table column : String) (key : ColumnKey) :
    key.early d table column ⊆ key.edits d table column := by
  cases key with
  | primaryKey => exact List.subset_append_left _ _
  | unique _ | references _ _ _ _ => exact List.subset_append_right _ _

/-- A key at a column does what it does right after the column. -/
theorem sameEntries_columnEdits
    (halone : key ≠ .primaryKey → column.builder.has key.method = false)
    (hfree : ∀ entry ∈ key.entries d declaration.name column.name,
      ∀ edit ∈ columnEdits dialect d declaration column, entry.Independent edit) :
    (table.edited (columnEdits dialect d declaration (column.withKey key position))).SameEntries
      ((table.edited (columnEdits dialect d declaration column)).edited
        (key.early d declaration.name column.name)) := by
  cases key with
  | primaryKey =>
    have hconstraints : ∀ edit ∈ uniqueEdits declaration.name column ++
        referenceEdits d declaration column,
        (Edit.require [column.name]).Independent edit := by
      intro edit hmem
      rcases List.mem_append.1 hmem with hmem | hmem
      · obtain ⟨_, -, rfl⟩ := Option.map_eq_some_iff.1 (Option.mem_toList.1 hmem)
        exact trivial
      · obtain ⟨_, -, rfl⟩ := Option.map_eq_some_iff.1 (Option.mem_toList.1 hmem)
        exact trivial
    have hcolumn : (table.addColumn (columnOf dialect d column).required).SameEntries
        ((table.addColumn (columnOf dialect d column)).edited [.require [column.name]]) := by
      have hrequired : ((table.addColumn (columnOf dialect d column)).require
          [(columnOf dialect d column).name]).SameEntries _ := Table.addColumn_require _
      rw [name_columnOf] at hrequired
      exact hrequired.symm
    rw [columnEdits, columnEdits, columnOf_withPrimaryKey,
      uniqueEdits_withKey .primaryKey _ (show "primaryKey" ≠ "unique" by decide),
      referenceEdits_withKey .primaryKey (show "primaryKey" ≠ "references" by decide)]
    exact hcolumn.edited.trans
      (Table.edited_comm (List.forall_mem_singleton.2 hconstraints))
  | unique arguments =>
    have hnone : column.builder.has "unique" = false := halone (by rintro ⟨⟩)
    have hunique : uniqueEdits declaration.name column = [] := by
      rw [uniqueEdits, link?_eq_none_of_has hnone]
      rfl
    have hreference : ∀ entry ∈ (ColumnKey.unique arguments).entries d declaration.name column.name,
        ∀ edit ∈ referenceEdits d declaration column, entry.Independent edit :=
      fun entry hentry edit hmem => hfree entry hentry edit
        (List.mem_cons_of_mem _ (List.mem_append_right _ hmem))
    rw [columnEdits, columnEdits, columnOf_withKey dialect d _ (by rintro ⟨⟩),
      uniqueEdits_withUnique d _ hnone, hunique,
      referenceEdits_withKey (.unique arguments) (show "unique" ≠ "references" by decide)]
    have hswap : (((table.addColumn (columnOf dialect d column)).edited _).edited _).SameEntries
      (((table.addColumn (columnOf dialect d column)).edited _).edited _) :=
        Table.edited_comm hreference
    rw [← Table.edited_append] at hswap
    exact hswap
  | references variableName property settings links =>
    have hnone : column.builder.has "references" = false := halone (by rintro ⟨⟩)
    have hreference : referenceEdits d declaration column = [] := by
      rw [referenceEdits, link?_eq_none_of_has hnone]
      rfl
    rw [columnEdits, columnEdits, columnOf_withKey dialect d _ (by rintro ⟨⟩),
      uniqueEdits_withKey (.references variableName property settings links) _
        (show "references" ≠ "unique" by decide),
      referenceEdits_withReference hnone, hreference, List.append_nil,
      ← List.cons_append, Table.edited_append]
    exact .refl _

end WithKey

/-! ## Two places of a key -/

/-- A key of one column, in two schemas: as a call on the column, which stands between `front` and
`back`, and as an option of the table, between `left` and `right`.  Without other options, the
table with the key at its column need not name a parameter for them. -/
structure KeyMove where
  key : ColumnKey
  column : ColumnDeclaration
  position : Nat
  front : List ColumnDeclaration
  back : List ColumnDeclaration
  left : List Expression
  right : List Expression
  parameter : String
  columnParameter : Option String
  variableName : String
  name : String
  line : Nat
  before : List TableDeclaration
  after : List TableDeclaration
  enums : List EnumDeclaration

namespace KeyMove

def plain (move : KeyMove) : TableDeclaration where
  variableName := move.variableName
  name := move.name
  columns := move.front ++ move.column :: move.back
  parameter := some move.parameter
  options := move.left ++ move.right
  line := move.line

def atColumn (move : KeyMove) : TableDeclaration where
  variableName := move.variableName
  name := move.name
  columns := move.front ++ move.column.withKey move.key move.position :: move.back
  parameter := move.columnParameter
  options := move.left ++ move.right
  line := move.line

def atTable (move : KeyMove) : TableDeclaration where
  variableName := move.variableName
  name := move.name
  columns := move.front ++ move.column :: move.back
  parameter := some move.parameter
  options := move.left ++ move.key.atTable move.parameter move.column.key :: move.right
  line := move.line

def declarations (move : KeyMove) (declaration : TableDeclaration) : Declarations :=
  ⟨move.before ++ declaration :: move.after, move.enums⟩

/-- The column has no other such key, and next to a primary key no column is marked as part of one.
Columns and keys are named differently, and so are the parameter and the variable that a reference
names. -/
structure Sound (move : KeyMove) (dialect : Dialect) : Prop where
  agrees : move.key.Agrees move.parameter
  parameter : move.columnParameter = some move.parameter ∨ move.left ++ move.right = []
  alone : move.column.builder.has move.key.method = false
  only : move.key = .primaryKey →
    ∀ other ∈ move.plain.columns, other.builder.has "primaryKey" = false
  keys : (move.plain.columns.map ColumnDeclaration.key).Nodup
  columns : ∀ other ∈ move.back, other.name ≠ move.column.name
  free : ∀ entry ∈ move.key.entries (move.declarations move.plain) move.name move.column.name,
    entry.Fresh (tableOf dialect (move.declarations move.plain) move.plain).1

variable {move : KeyMove}

theorem face_withKey {key : ColumnKey} {position : Nat} :
    (column.withKey key position).face = column.face := rfl

theorem alike_atColumn (move : KeyMove) : move.atColumn.Alike move.plain where
  variableName := rfl
  name := rfl
  columns := by
    rw [atColumn, plain, List.map_append, List.map_append, List.map_cons, List.map_cons,
      face_withKey]

theorem alike_atTable (move : KeyMove) : move.atTable.Alike move.plain := ⟨rfl, rfl, rfl⟩

theorem alike_declarations (move : KeyMove) {declaration other : TableDeclaration}
    (halike : declaration.Alike other) :
    (move.declarations declaration).Alike (move.declarations other) := by
  have hrefl (tables : List TableDeclaration) :
      List.Forall₂ TableDeclaration.Alike tables tables :=
    List.forall₂_same.2 fun table _ => .refl table
  exact ⟨List.rel_append (hrefl _) (.cons halike (hrefl _)), rfl⟩

theorem columnName_column (hsound : move.Sound dialect) :
    move.plain.columnName move.column.key = move.column.name := by
  have hmem : move.column ∈ move.plain.columns := List.mem_append_right _ List.mem_cons_self
  rw [TableDeclaration.columnName, TableDeclaration.column?, Keyed.find?_named hsound.keys hmem]
  rfl

theorem has_withKey (key : ColumnKey) (position : Nat) (method : String) :
    (column.withKey key position).builder.has method =
      (column.builder.has method || key.method == method) := has_insert

/-- The primary key over marked columns is the key itself, or it is the same one without the key. -/
theorem early_append_keyEdits (hsound : move.Sound dialect) (d : Declarations) :
    move.key.early d move.name move.column.name ++ keyEdits move.atColumn =
      move.key.edits d move.name move.column.name ++ keyEdits move.plain := by
  have hhas : (move.column.withKey move.key move.position).builder.has "primaryKey" =
      (move.column.builder.has "primaryKey" || move.key.method == "primaryKey") :=
    has_withKey move.key move.position "primaryKey"
  by_cases hkey : move.key = .primaryKey
  · have hnone (columns : List ColumnDeclaration) (hsubset : columns ⊆ move.plain.columns) :
        columns.filter (fun column => column.builder.has "primaryKey") = [] :=
      List.filter_eq_nil_iff.2 fun other hmem =>
        Bool.eq_false_iff.1 (hsound.only hkey other (hsubset hmem))
    have hfront := hnone move.front (List.subset_append_left _ _)
    have hback := hnone move.back fun other hmem =>
      List.mem_append_right _ (List.mem_cons_of_mem _ hmem)
    have hplain := hnone move.plain.columns (List.Subset.refl _)
    have htrue : (move.column.withKey move.key move.position).builder.has "primaryKey" = true := by
      rw [hhas, hkey]
      exact Bool.or_true _
    rw [keyEdits, keyEdits, hplain, atColumn]
    dsimp only
    rw [List.filter_append, List.filter_cons, hfront, hback, htrue, hkey]
    rfl
  · have hmethod : (move.key.method == "primaryKey") = false := by
      cases hcase : move.key with
      | primaryKey => exact absurd hcase hkey
      | unique _ | references _ _ _ _ => rfl
    rw [hmethod, Bool.or_false] at hhas
    have hkeys : keyEdits move.atColumn = keyEdits move.plain := by
      have hmarked : (move.atColumn.columns.filter fun column =>
          column.builder.has "primaryKey").map ColumnDeclaration.name =
            (move.plain.columns.filter fun column =>
              column.builder.has "primaryKey").map ColumnDeclaration.name := by
        rw [atColumn, plain]
        dsimp only
        rw [List.filter_append, List.filter_append, List.filter_cons, List.filter_cons, hhas]
        split
        · simp only [List.map_append, List.map_cons]
          rfl
        · simp only [List.map_append]
      rw [keyEdits, keyEdits, hmarked]
      rfl
    rw [hkeys]
    cases hcase : move.key with
    | primaryKey => exact absurd hcase hkey
    | unique _ | references _ _ _ _ => rfl

/-- What the table without the key does, part by part. -/
theorem tableEdits_plain (move : KeyMove) (dialect : Dialect) (d : Declarations) :
    tableEdits dialect d move.plain =
      move.front.flatMap (columnEdits dialect d move.plain) ++
        (columnEdits dialect d move.plain move.column ++
          (move.back.flatMap (columnEdits dialect d move.plain) ++ (keyEdits move.plain ++
            (move.left.flatMap (optionEdits d move.plain move.name) ++
              move.right.flatMap (optionEdits d move.plain move.name))))) := by
  simp only [tableEdits, plain, List.flatMap_append, List.flatMap_cons, List.append_assoc]

/-- With the key at its column the edits are those without it, but for the ones of that column. -/
theorem tableEdits_atColumn (hsound : move.Sound dialect) :
    tableEdits dialect (move.declarations move.atColumn) move.atColumn =
      move.front.flatMap (columnEdits dialect (move.declarations move.plain) move.plain) ++
        (columnEdits dialect (move.declarations move.plain) move.plain
            (move.column.withKey move.key move.position) ++
          (move.back.flatMap (columnEdits dialect (move.declarations move.plain) move.plain) ++
            (keyEdits move.atColumn ++
              (move.left.flatMap
                  (optionEdits (move.declarations move.plain) move.plain move.name) ++
                move.right.flatMap
                  (optionEdits (move.declarations move.plain) move.plain move.name))))) := by
  have halike := move.alike_declarations move.alike_atColumn
  have hoptions : move.atColumn.options.flatMap
      (optionEdits (move.declarations move.atColumn) move.atColumn move.name) =
        (move.left ++ move.right).flatMap
          (optionEdits (move.declarations move.plain) move.plain move.name) := by
    rcases hsound.parameter with hparameter | hnone
    · exact List.flatMap_congr fun option _ =>
        halike.optionEdits move.alike_atColumn hparameter move.name option
    · have hnil : move.atColumn.options = [] := hnone
      rw [hnil, hnone, List.flatMap_nil, List.flatMap_nil]
  have hname : move.atColumn.name = move.name := rfl
  rw [tableEdits, hname, hoptions, funext (halike.columnEdits move.alike_atColumn), atColumn]
  simp only [List.flatMap_append, List.flatMap_cons, List.append_assoc]

/-- With the key among the options its edits come behind those of all columns. -/
theorem tableEdits_atTable (hsound : move.Sound dialect) :
    tableEdits dialect (move.declarations move.atTable) move.atTable =
      move.front.flatMap (columnEdits dialect (move.declarations move.plain) move.plain) ++
        (columnEdits dialect (move.declarations move.plain) move.plain move.column ++
          (move.back.flatMap (columnEdits dialect (move.declarations move.plain) move.plain) ++
            (keyEdits move.plain ++
              (move.left.flatMap
                  (optionEdits (move.declarations move.plain) move.plain move.name) ++
                (move.key.edits (move.declarations move.plain) move.name move.column.name ++
                  move.right.flatMap
                    (optionEdits (move.declarations move.plain) move.plain move.name)))))) := by
  have halike := move.alike_declarations move.alike_atTable
  have hoption : optionEdits (move.declarations move.plain) move.plain move.name
      (move.key.atTable move.parameter move.column.key) =
        move.key.edits (move.declarations move.plain) move.name move.column.name := by
    rw [← columnName_column hsound]
    exact optionEdits_atTable rfl hsound.agrees move.column.key
  have hkeys : keyEdits move.atTable = keyEdits move.plain := rfl
  have hname : move.atTable.name = move.name := rfl
  rw [tableEdits, hname, hkeys, funext (halike.columnEdits move.alike_atTable),
    funext (halike.optionEdits move.alike_atTable rfl move.name), atTable]
  simp only [List.flatMap_append, List.flatMap_cons, List.append_assoc, hoption]

theorem name_of_column {stored : Column}
    (hmem : Edit.column stored ∈ columnEdits dialect d declaration column) :
    stored.name = column.name := by
  rcases List.mem_cons.1 hmem with heq | hmem
  · cases heq
    exact name_columnOf dialect d column
  · rcases List.mem_append.1 hmem with hmem | hmem
    · obtain ⟨_, -, heq⟩ := Option.map_eq_some_iff.1 (Option.mem_toList.1 hmem)
      cases heq
    · obtain ⟨_, -, heq⟩ := Option.map_eq_some_iff.1 (Option.mem_toList.1 hmem)
      cases heq

theorem column_not_mem_keyEdits {stored : Column} : Edit.column stored ∉ keyEdits declaration := by
  rw [keyEdits]
  split <;> simp

theorem column_not_mem_optionEdits {stored : Column} {name : String} {option : Expression} :
    Edit.column stored ∉ optionEdits d declaration name option := by
  rw [optionEdits]
  split
  · simp
  · dsimp only
    split
    case h_1 | h_2 => split <;> simp
    all_goals simp

/-- What the key does is independent of the columns behind its own, of the primary key over marked
columns and of other options. -/
theorem independent (hsound : move.Sound dialect) {key edit : Edit}
    (hkey : key ∈ move.key.edits (move.declarations move.plain) move.name move.column.name)
    (hedit : edit ∈ move.back.flatMap
        (columnEdits dialect (move.declarations move.plain) move.plain) ++ (keyEdits move.plain ++
      move.left.flatMap (optionEdits (move.declarations move.plain) move.plain move.name))) :
    key.Independent edit := by
  rcases List.mem_append.1 hkey with hrequired | hentry
  · have hkey : key = .require [move.column.name] := by
      cases hcase : move.key with
      | primaryKey =>
        rw [hcase] at hrequired
        exact List.mem_singleton.1 hrequired
      | unique _ | references _ _ _ _ =>
        rw [hcase] at hrequired
        cases hrequired
    rw [hkey]
    cases edit with
    | column stored =>
      rcases List.mem_append.1 hedit with hback | hedit
      · obtain ⟨other, hother, hstored⟩ := List.mem_flatMap.1 hback
        intro hmem
        exact hsound.columns other hother
          ((name_of_column hstored).symm.trans (List.mem_singleton.1 hmem))
      · rcases List.mem_append.1 hedit with hkeys | hleft
        · exact absurd hkeys column_not_mem_keyEdits
        · obtain ⟨option, -, hstored⟩ := List.mem_flatMap.1 hleft
          exact absurd hstored column_not_mem_optionEdits
    | require _ | index _ | constraint _ => exact trivial
  · have hfresh := hsound.free key hentry
    rw [fst_tableOf] at hfresh
    refine (Table.independent_of_fresh hfresh).2 edit ?_
    rw [tableEdits_plain]
    simp only [List.mem_append] at hedit ⊢
    tauto

/-- The table has the same entries with the key at either place. -/
theorem sameEntries (hsound : move.Sound dialect) :
    (tableOf dialect (move.declarations move.atColumn) move.atColumn).1.SameEntries
      (tableOf dialect (move.declarations move.atTable) move.atTable).1 := by
  have hname : move.atTable.name = move.atColumn.name := rfl
  rw [fst_tableOf, fst_tableOf, tableEdits_atColumn hsound, tableEdits_atTable hsound, hname]
  set d := move.declarations move.plain
  set start := (Table.empty move.atColumn.name).edited
    (move.front.flatMap (columnEdits dialect d move.plain))
  have hkeyed : (start.edited (columnEdits dialect d move.plain
      (move.column.withKey move.key move.position))).SameEntries
        ((start.edited (columnEdits dialect d move.plain move.column)).edited
          (move.key.early d move.name move.column.name)) := by
    refine sameEntries_columnEdits (fun _ => hsound.alone) fun entry hentry edit hmem => ?_
    have hfresh := hsound.free entry hentry
    rw [fst_tableOf] at hfresh
    refine (Table.independent_of_fresh hfresh).2 edit ?_
    rw [tableEdits_plain]
    exact List.mem_append_right _ (List.mem_append_left _ hmem)
  set back := move.back.flatMap (columnEdits dialect d move.plain)
  set left := move.left.flatMap (optionEdits d move.plain move.name)
  set right := move.right.flatMap (optionEdits d move.plain move.name)
  have hearly : ∀ key ∈ move.key.early d move.name move.column.name, ∀ edit ∈ back,
      key.Independent edit := fun key hkey edit hedit =>
    independent hsound (ColumnKey.early_subset _ _ _ _ hkey) (List.mem_append_left _ hedit)
  -- the key follows its column, then the columns behind it, and last the options before its own
  have hcolumns := @Table.SameEntries.edited_between _ _ (keyEdits move.atColumn ++ (left ++ right))
    _ _ _ _ hkeyed hearly
  rw [← List.append_assoc (move.key.early _ _ _), early_append_keyEdits hsound,
    List.append_assoc] at hcolumns
  set base := (start.edited (columnEdits dialect d move.plain move.column)).edited back
  have hoptions : (base.edited (move.key.edits d move.name move.column.name ++
      ((keyEdits move.plain ++ left) ++ right))).SameEntries
        (base.edited ((keyEdits move.plain ++ left) ++
          (move.key.edits d move.name move.column.name ++ right))) := by
    rw [Table.edited_append]
    exact (Table.SameEntries.refl _).edited_later fun key hkey edit hedit =>
      independent hsound hkey (List.mem_append_right _ hedit)
  have hbase (edits : List Edit) : (Table.empty move.atColumn.name).edited
      (move.front.flatMap (columnEdits dialect d move.plain) ++
        (columnEdits dialect d move.plain move.column ++ (back ++ edits))) = base.edited edits := by
    rw [Table.edited_append, Table.edited_append, Table.edited_append]
  rw [hbase] at hcolumns ⊢
  simp only [List.append_assoc] at hoptions
  exact hcolumns.trans hoptions

/-- The schemas are equal, whichever of the places the key has. -/
theorem schemaOf_beq (hsound : move.Sound dialect) :
    ((schemaOf dialect (move.declarations move.atColumn)).1 ==
      (schemaOf dialect (move.declarations move.atTable)).1) = true := by
  have hcolumn := move.alike_declarations move.alike_atColumn
  have htable := move.alike_declarations move.alike_atTable
  have hothers (tables : List TableDeclaration) : List.Forall₂ Table.SameEntries
      (tables.map fun table => (tableOf dialect (move.declarations move.atColumn) table).1)
      (tables.map fun table => (tableOf dialect (move.declarations move.atTable) table).1) := by
    rw [funext hcolumn.fst_tableOf, funext htable.fst_tableOf]
    exact List.forall₂_same.2 fun table _ => .refl table
  have htables : List.Forall₂ Table.SameEntries
      ((move.declarations move.atColumn).tables.map fun table =>
        (tableOf dialect (move.declarations move.atColumn) table).1)
      ((move.declarations move.atTable).tables.map fun table =>
        (tableOf dialect (move.declarations move.atTable) table).1) := by
    rw [declarations, declarations, List.map_append, List.map_append]
    exact List.rel_append (hothers _) (.cons (sameEntries hsound) (hothers _))
  simp only [schemaOf, List.map_map]
  exact Schema.beq_foldl_addTable htables (beq_self_eq_true _)

end KeyMove

end SchemaEvolution.Drizzle
