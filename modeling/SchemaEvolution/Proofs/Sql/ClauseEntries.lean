import Mathlib.Algebra.Order.BigOperators.Group.List
import Mathlib.Algebra.Order.Group.Nat
import Mathlib.Algebra.Ring.Nat
import SchemaEvolution.Proofs.Sql.Refusal
import SchemaEvolution.Proofs.Sql.TableStatement

/-!
# Entries for the constraints of a table

Constraints are stored by their names, so one that comes under a name in use takes the place of
the one before it.  A table has an entry for each constraint that its statement contains exactly
if none of them is passed over, none is replaced by a later one of its column, and no two have
the same name, be it one that is given or one that is made for them.
-/

namespace SchemaEvolution.Sql

open Syntax

/-- The first of the names `base`, `base1`, `base2`, … that is not taken. -/
def freeName (base : String) (taken : List String) : String :=
  (((List.range (taken.length + 1)).map (Naming.numbered base)).find? fun name =>
    !decide (name ∈ taken)).getD base

/-- The name of an entry: its own or, where it has none, a free one. -/
def entryName (base : String) (taken : List String) (own : Option String) : String :=
  own.getD (freeName base taken)

/-- Names that are taken, and then those of entries that come one after the other. -/
def entryNames (base : String) : List String → List (Option String) → List String
  | taken, [] => taken
  | taken, own :: more => entryNames base (taken ++ [entryName base taken own]) more

/-- The names under which something is stored when entries are stored one after the other. -/
def storedNames (base : String) : List String → List (Option String) → List String
  | taken, [] => taken
  | taken, own :: more =>
    let name := entryName base taken own
    storedNames base (if name ∈ taken then taken else taken ++ [name]) more

section Names

variable {base : String} {taken : List String} {owns left right : List (Option String)}

theorem storedNames_append :
    storedNames base taken (left ++ right) =
      storedNames base (storedNames base taken left) right := by
  induction left generalizing taken with
  | nil => rfl
  | cons own more ih => exact ih

/-- There are no more stored names than names given and taken. -/
theorem length_storedNames_le (base : String) (taken : List String)
    (owns : List (Option String)) :
    (storedNames base taken owns).length ≤ taken.length + owns.length := by
  induction owns generalizing taken with
  | nil => exact Nat.le_refl _
  | cons own more ih =>
    refine Nat.le_trans (ih _) ?_
    rw [List.length_cons]
    split
    · omega
    · rw [List.length_append, List.length_singleton]
      omega

theorem taken_prefix_entryNames : taken <+: entryNames base taken owns := by
  induction owns generalizing taken with
  | nil => exact List.prefix_rfl
  | cons own more ih => exact (List.prefix_append taken _).trans ih

/-- Every entry is there exactly if all names are distinct. -/
theorem length_storedNames_eq_iff (base : String) (owns : List (Option String))
    (hdistinct : taken.Nodup) :
    (storedNames base taken owns).length = taken.length + owns.length ↔
      (entryNames base taken owns).Nodup := by
  induction owns generalizing taken with
  | nil => exact iff_of_true rfl hdistinct
  | cons own more ih =>
    rw [storedNames, entryNames]
    by_cases hmem : entryName base taken own ∈ taken
    · have hless := length_storedNames_le base taken more
      simp only [if_pos hmem, List.length_cons]
      refine iff_of_false (by omega) fun hnodup => ?_
      have hprefix := taken_prefix_entryNames.sublist.nodup hnodup
      exact (List.nodup_append.1 hprefix).2.2 _ hmem _ List.mem_cons_self rfl
    · have happend : (taken ++ [entryName base taken own]).Nodup :=
        List.nodup_append.2 ⟨hdistinct, List.pairwise_singleton _ _, by
          rintro name hname other hother rfl
          exact hmem (List.mem_singleton.1 hother ▸ hname)⟩
      simp only [if_neg hmem]
      rw [← ih happend, List.length_append, List.length_singleton, List.length_cons]
      omega

end Names

theorem firstFree_eq {α : Type} (entries : Keyed α) (base : String) :
    Naming.firstFree entries base = freeName base entries.keys := by
  have hcontains : ∀ name, (!entries.contains name) = !decide (name ∈ entries.keys) := fun name =>
    congrArg _ (Bool.eq_iff_iff.2 (Keyed.contains_eq_true_iff.trans decide_eq_true_iff.symm))
  rw [Naming.firstFree, freeName]
  simp only [hcontains, Keyed.keys, List.length_map, Keyed.size]

def checkBase (table : String) : String := table ++ "_check"

theorem keys_insertConstraints (constraints : List Constraint) (done : Keyed Constraint)
    (base : String) :
    (insertConstraints constraints done).keys =
      storedNames base done.keys (constraints.map fun constraint => some constraint.name) := by
  induction constraints generalizing done with
  | nil => rfl
  | cons constraint more ih =>
    refine (ih (done.insert constraint.name constraint)).trans ?_
    rw [Keyed.keys_insert]
    rfl

/-- A clause adds one constraint, under its label or its usual name, or under a free one. -/
theorem TableClause.keys_addTo (clause : TableClause) (label : Option String) (table : Table) :
    (clause.addTo label table).name = table.name ∧
      (clause.addTo label table).constraints.keys = storedNames (checkBase table.name)
        table.constraints.keys [label.or (clause.usualName? table.name)] := by
  cases clause with
  | check condition =>
    refine ⟨rfl, (Keyed.keys_insert _ _ _).trans ?_⟩
    cases label with
    | none => simp only [Constraint.check, Option.getD_none, Naming.tableCheck, firstFree_eq]; rfl
    | some name => rfl
  | primaryKey columns | unique columns | foreignKey columns reference =>
    refine ⟨rfl, (Keyed.keys_insert _ _ _).trans ?_⟩
    cases label <;> rfl

namespace TableDefinition

theorem keys_foldl_addTo (definitions : List ColumnDefinition) (table : Table) :
    (definitions.foldl (fun table d => d.addTo table) table).name = table.name ∧
      (definitions.foldl (fun table d => d.addTo table) table).constraints.keys =
        storedNames (checkBase table.name) table.constraints.keys (definitions.flatMap fun d =>
          (d.constraints table.name).map fun constraint => some constraint.name) := by
  induction definitions generalizing table with
  | nil => exact ⟨rfl, rfl⟩
  | cons d more ih =>
    rw [List.foldl_cons, List.flatMap_cons, storedNames_append]
    have hnext := ih (d.addTo table)
    rw [d.addTo_eq] at hnext ⊢
    rw [← keys_insertConstraints]
    exact hnext

/-- The table has its name, and its constraints are stored under the names of its clauses. -/
theorem keys_finish (d : TableDefinition) :
    d.finish.name = d.table.name ∧
      d.finish.constraints.keys = storedNames (checkBase d.table.name) d.table.constraints.keys
        (d.clauses.map fun clause => clause.1.or (clause.2.usualName? d.table.name)) := by
  obtain ⟨table, clauses⟩ := d
  induction clauses generalizing table with
  | nil => exact ⟨rfl, rfl⟩
  | cons clause more ih =>
    obtain ⟨hname, hkeys⟩ := clause.2.keys_addTo clause.1 table
    obtain ⟨hlast, hstored⟩ := ih (clause.2.addTo clause.1 table)
    dsimp only at hlast hstored ⊢
    rw [hname] at hlast hstored
    refine ⟨hlast, hstored.trans ?_⟩
    rw [hkeys, ← storedNames_append]
    rfl

end TableDefinition

namespace Syntax

/-- The name that a constraint of a column has where it is given none. -/
def Kind.usualName (table column : String) : Kind → String
  | primaryKey => Naming.primaryKey table
  | unique => Naming.unique table [column]
  | reference => Naming.foreignKey table [column]
  | check => Naming.check table column

/-- The kinds of constraints in the order in which those of a column are added. -/
def kinds : List Kind := [.primaryKey, .unique, .reference, .check]

def ofKind (kind : Kind) (clauses : List (Kind × Option String)) : List (Option String) :=
  (clauses.filter fun clause => clause.1 = kind).map Prod.snd

theorem ofKind_cons (kind : Kind) (clause : Kind × Option String)
    (more : List (Kind × Option String)) :
    ofKind kind (clause :: more) =
      if clause.1 = kind then clause.2 :: ofKind kind more else ofKind kind more := by
  rw [ofKind, ofKind, List.filter_cons]
  simp only [decide_eq_true_eq]
  split <;> rfl

/-- The constraints of one kind that a column keeps: all references, but only the last key, the
last uniqueness and the last check. -/
def kept (kind : Kind) (clauses : List (Kind × Option String)) : List (Option String) :=
  if kind = .reference then ofKind kind clauses else (ofKind kind clauses).getLast?.toList

namespace ColumnSyntax

def names (table : String) (column : ColumnSyntax) : List String :=
  kinds.flatMap fun kind =>
    (ofKind kind column.clauses).map fun label => label.getD (kind.usualName table column.label)

def keptNames (table : String) (column : ColumnSyntax) : List String :=
  kinds.flatMap fun kind =>
    (kept kind column.clauses).map fun label => label.getD (kind.usualName table column.label)

/-- No constraint of the column is passed over or replaced by another one of its kind. -/
def KeepsAll (column : ColumnSyntax) : Prop :=
  column.hiddenClauses = [] ∧
    ∀ kind, kind ≠ .reference → (ofKind kind column.clauses).length ≤ 1

end ColumnSyntax

theorem length_kept_le (kind : Kind) (clauses : List (Kind × Option String)) :
    (kept kind clauses).length ≤ (ofKind kind clauses).length := by
  rw [kept]
  split
  · exact Nat.le_refl _
  · cases ofKind kind clauses with
    | nil => exact Nat.le_refl _
    | cons label more =>
      rw [List.getLast?_cons, Option.toList_some, List.length_singleton, List.length_cons]
      omega

/-- No clause of a kind is lost exactly if the kind keeps all of them, or there is one at most. -/
theorem length_kept_eq_iff (kind : Kind) (clauses : List (Kind × Option String)) :
    (kept kind clauses).length = (ofKind kind clauses).length ↔
      (kind ≠ .reference → (ofKind kind clauses).length ≤ 1) := by
  rw [kept]
  split
  · next heq => exact iff_of_true rfl fun hne => absurd heq hne
  · next hne =>
    cases ofKind kind clauses with
    | nil => exact iff_of_true rfl fun _ => Nat.zero_le 1
    | cons label more =>
      rw [List.getLast?_cons, Option.toList_some, List.length_singleton, List.length_cons]
      constructor
      · exact fun heq _ => heq.ge
      · exact fun hle => by have hle := hle hne; omega

/-- With one clause of a kind at most, the clauses kept are the clauses written. -/
theorem kept_eq_ofKind {kind : Kind} {clauses : List (Kind × Option String)}
    (hsingle : kind ≠ .reference → (ofKind kind clauses).length ≤ 1) :
    kept kind clauses = ofKind kind clauses := by
  rw [kept]
  split
  · rfl
  · next hne =>
    have hlength := hsingle hne
    match hcase : ofKind kind clauses with
    | [] => rfl
    | [label] => rfl
    | _ :: _ :: _ =>
      rw [hcase] at hlength
      simp at hlength

/-- Sums of smaller terms are equal exactly if all terms are. -/
theorem sum_map_eq_iff {α : Type} {less more : α → Nat} {items : List α}
    (hle : ∀ item ∈ items, less item ≤ more item) :
    (items.map less).sum = (items.map more).sum ↔ ∀ item ∈ items, less item = more item := by
  induction items with
  | nil => simp
  | cons item others ih =>
    have hothers := ih fun other hmem => hle other (List.mem_cons_of_mem _ hmem)
    have hsum := List.sum_le_sum fun other hmem => hle other (List.mem_cons_of_mem item hmem)
    have hitem := hle item List.mem_cons_self
    rw [List.forall_mem_cons, ← hothers, List.map_cons, List.map_cons, List.sum_cons,
      List.sum_cons]
    omega

theorem mem_kinds (kind : Kind) : kind ∈ kinds := by
  cases kind <;> decide

/-- Every constraint is of one kind. -/
theorem sum_length_ofKind (clauses : List (Kind × Option String)) :
    (kinds.map fun kind => (ofKind kind clauses).length).sum = clauses.length := by
  induction clauses with
  | nil => rfl
  | cons clause more ih =>
    obtain ⟨kind, label⟩ := clause
    have hmore : (ofKind .primaryKey more).length + ((ofKind .unique more).length +
        ((ofKind .reference more).length + ((ofKind .check more).length + 0))) = more.length := ih
    rw [List.length_cons, ← hmore]
    cases kind <;> simp [kinds, ofKind_cons] <;> omega

namespace ColumnSyntax

theorem length_keptNames (table : String) (column : ColumnSyntax) :
    (column.keptNames table).length =
      (kinds.map fun kind => (kept kind column.clauses).length).sum := by
  simp only [keptNames, List.length_flatMap, List.length_map]

theorem length_keptNames_le (table : String) (column : ColumnSyntax) :
    (column.keptNames table).length ≤ column.clauses.length + column.hiddenClauses.length := by
  have hle := List.sum_le_sum fun kind (_ : kind ∈ kinds) => length_kept_le kind column.clauses
  rw [sum_length_ofKind] at hle
  rw [column.length_keptNames]
  omega

/-- A column has a name for each of its constraints exactly if it keeps all of them. -/
theorem length_keptNames_eq_iff (table : String) (column : ColumnSyntax) :
    (column.keptNames table).length = column.clauses.length + column.hiddenClauses.length ↔
      column.KeepsAll := by
  have hle := fun kind (_ : kind ∈ kinds) => length_kept_le kind column.clauses
  have hsum := List.sum_le_sum hle
  have hiff := sum_map_eq_iff hle
  simp only [sum_length_ofKind, length_kept_eq_iff, mem_kinds, true_implies] at hsum hiff
  rw [KeepsAll, ← hiff, column.length_keptNames, ← List.length_eq_zero_iff]
  omega

theorem keptNames_eq_names (table : String) {column : ColumnSyntax} (hkeeps : column.KeepsAll) :
    column.keptNames table = column.names table := by
  rw [keptNames, names]
  exact List.flatMap_congr fun kind _ => by rw [kept_eq_ofKind (hkeeps.2 kind)]

end ColumnSyntax

namespace TableSyntax

/-- How many constraints the statement contains, at its columns and for the table. -/
def clauseCount (table : TableSyntax) : Nat :=
  (table.columns.map fun column =>
    column.clauses.length + column.hiddenClauses.length).sum + table.clauses.length

/-- The names of the constraints for the table; a check that is given none takes a free one. -/
def tableNames (table : TableSyntax) : List (Option String) :=
  table.clauses.map fun clause => clause.1.or (clause.2.usualName? table.name.name)

/-- The names of all constraints, those of the columns first. -/
def names (table : TableSyntax) : List String :=
  entryNames (checkBase table.name.name) []
    (((table.columns.flatMap (ColumnSyntax.names table.name.name)).map some) ++ table.tableNames)

def keys (table : TableSyntax) : List String :=
  storedNames (checkBase table.name.name) []
    (((table.columns.flatMap (ColumnSyntax.keptNames table.name.name)).map some) ++
      table.tableNames)

/-- There is an entry for each constraint exactly if no column loses one and no two have the
same name. -/
theorem length_keys_eq_iff (table : TableSyntax) :
    table.keys.length = table.clauseCount ↔
      (∀ column ∈ table.columns, column.KeepsAll) ∧ table.names.Nodup := by
  have hle := fun column (_ : column ∈ table.columns) =>
    column.length_keptNames_le table.name.name
  have hsum := List.sum_le_sum hle
  have hiff := sum_map_eq_iff hle
  simp only [ColumnSyntax.length_keptNames_eq_iff] at hiff
  let owns := (table.columns.flatMap (ColumnSyntax.keptNames table.name.name)).map some ++
    table.tableNames
  have howns : owns.length = (table.columns.map fun column =>
      (column.keptNames table.name.name).length).sum + table.clauses.length := by
    simp only [owns, tableNames, List.length_append, List.length_map, List.length_flatMap]
  have hstored := length_storedNames_le (checkBase table.name.name) [] owns
  have hdistinct := length_storedNames_eq_iff (checkBase table.name.name) owns List.nodup_nil
  have hcount : table.keys.length = table.clauseCount ↔
      (∀ column ∈ table.columns, column.KeepsAll) ∧
        (entryNames (checkBase table.name.name) [] owns).Nodup := by
    have hkeys : table.keys = storedNames (checkBase table.name.name) [] owns := rfl
    rw [← hiff, ← hdistinct, clauseCount, hkeys]
    rw [List.length_nil] at hstored ⊢
    omega
  rw [hcount]
  refine and_congr_right fun hkeeps => ?_
  rw [names, List.flatMap_congr fun column hmem =>
    (ColumnSyntax.keptNames_eq_names table.name.name (hkeeps column hmem)).symm]

end TableSyntax

end Syntax

/-! ## Reading the constraints -/

namespace Labels

def ofKind (labels : Labels) : Kind → List (Option String)
  | .primaryKey => labels.primaryKey.toList
  | .unique => labels.unique.toList
  | .reference => labels.references
  | .check => labels.check.toList

theorem ofKind_declare (labels : Labels) (clause : Kind × Option String) (kind : Kind) :
    (labels.declare clause).ofKind kind =
      if clause.1 = kind then
        if kind = .reference then labels.ofKind kind ++ [clause.2] else [clause.2]
      else labels.ofKind kind := by
  obtain ⟨declared, label⟩ := clause
  cases declared <;> cases kind <;> rfl

theorem ofKind_reference (clauses : List (Kind × Option String)) (labels : Labels) :
    (clauses.foldl declare labels).ofKind .reference =
      labels.ofKind .reference ++ Syntax.ofKind .reference clauses := by
  induction clauses generalizing labels with
  | nil => exact (List.append_nil _).symm
  | cons clause more ih =>
    rw [List.foldl_cons, ih, ofKind_declare]
    by_cases hkind : clause.1 = .reference
    · rw [if_pos hkind, if_pos rfl, ofKind_cons, if_pos hkind, List.append_assoc]
      rfl
    · rw [if_neg hkind, ofKind_cons, if_neg hkind]

/-- Of the kinds that keep one clause, the last one is what counts. -/
theorem ofKind_single {kind : Kind} (hkind : kind ≠ .reference)
    (clauses : List (Kind × Option String)) (labels : Labels) :
    (clauses.foldl declare labels).ofKind kind =
      (labels.ofKind kind ++ Syntax.ofKind kind clauses).getLast?.toList := by
  induction clauses generalizing labels with
  | nil =>
    rw [Syntax.ofKind, List.filter_nil, List.map_nil, List.append_nil, List.foldl_nil]
    cases kind with
    | reference => exact absurd rfl hkind
    | primaryKey => cases h : labels.primaryKey <;> simp [ofKind, h]
    | unique => cases h : labels.unique <;> simp [ofKind, h]
    | check => cases h : labels.check <;> simp [ofKind, h]
  | cons clause more ih =>
    rw [List.foldl_cons, ih, ofKind_declare]
    by_cases hdeclared : clause.1 = kind
    · rw [if_pos hdeclared, if_neg hkind, ofKind_cons, if_pos hdeclared, List.getLast?_append,
        List.getLast?_append, List.getLast?_cons, List.getLast?_cons]
      cases (Syntax.ofKind kind more).getLast? <;> rfl
    · rw [if_neg hdeclared, ofKind_cons, if_neg hdeclared]

/-- Of the constraints that are declared those are kept that a column keeps. -/
theorem ofKind_foldl_declare (kind : Kind) (clauses : List (Kind × Option String)) :
    (clauses.foldl declare .none).ofKind kind = kept kind clauses := by
  rw [kept]
  split
  · next heq =>
    subst heq
    exact ofKind_reference clauses .none
  · next hne =>
    have hnone : Labels.none.ofKind kind = [] := by cases kind <;> rfl
    rw [ofKind_single hne, hnone, List.nil_append]

end Labels

/-- The constraints of a column are named by its labels, kind after kind. -/
theorem ColumnDefinition.names_constraints (d : ColumnDefinition) (table : String) :
    (d.constraints table).map Constraint.name = kinds.flatMap fun kind =>
      (d.labels.ofKind kind).map fun label => label.getD (kind.usualName table d.column.name) := by
  obtain ⟨column, primaryKey, unique, references, check⟩ := d
  have hreferences : ∀ make : Option String × Reference → Constraint,
      (∀ entry, (make entry).name = entry.1.getD (Naming.foreignKey table [column.name])) →
        (references.map make).map Constraint.name = (references.map Prod.fst).map fun label =>
          label.getD (Naming.foreignKey table [column.name]) := by
    intro make hmake
    rw [List.map_map, List.map_map]
    exact List.map_congr_left fun entry _ => hmake entry
  rw [constraints, List.map_append, List.map_append, List.map_append,
    hreferences _ fun _ => rfl]
  cases primaryKey <;> cases unique <;> cases check <;>
    simp [kinds, Labels.ofKind, labels, Kind.usualName, Constraint.primaryKey, Constraint.unique,
      Constraint.check]

theorem names_of_declares {column : ColumnSyntax} {d : ColumnDefinition}
    (hdeclares : TableDefinition.Declares column d) (table : String) :
    (d.constraints table).map Constraint.name = column.keptNames table := by
  rw [d.names_constraints, hdeclares.1, hdeclares.2, ColumnSyntax.keptNames]
  exact List.flatMap_congr fun kind _ => by rw [Labels.ofKind_foldl_declare]

theorem map_eq_map_of_forall₂ {α β γ : Type} {relates : α → β → Prop} {f : α → γ} {g : β → γ}
    {left : List α} {right : List β} (hrelates : List.Forall₂ relates left right)
    (hequal : ∀ a b, relates a b → f a = g b) : left.map f = right.map g := by
  rw [← List.forall₂_eq_eq_eq, List.forall₂_map_left_iff, List.forall₂_map_right_iff]
  exact hrelates.imp hequal

/-- The table has its entries under the names that the constraints of the statement keep. -/
theorem TableDefinition.Gains.keys_finish {table : TableSyntax} {d : TableDefinition}
    (hgains : Gains ⟨Table.empty table.name.name, []⟩ d table.elements) :
    d.finish.name = table.name.name ∧ d.finish.constraints.keys = table.keys := by
  obtain ⟨definitions, clauses, hcolumns, hnames, htable, hclauses⟩ := hgains
  obtain ⟨hfinish, hkeys⟩ := d.keys_finish
  obtain ⟨hname, hstored⟩ := keys_foldl_addTo definitions (Table.empty table.name.name)
  have hempty : (Table.empty table.name.name).name = table.name.name := rfl
  rw [← htable, hempty] at hname
  rw [← htable, hempty] at hstored
  have hcolumnNames : (definitions.flatMap fun definition =>
      (definition.constraints table.name.name).map fun constraint => some constraint.name) =
      (table.columns.flatMap (ColumnSyntax.keptNames table.name.name)).map some := by
    rw [List.map_flatMap, List.flatMap_def, List.flatMap_def]
    refine congrArg List.flatten (map_eq_map_of_forall₂ hcolumns fun column d hdeclares => ?_).symm
    rw [← names_of_declares hdeclares, List.map_map]
    rfl
  have htableNames : (clauses.map fun clause => clause.1.or
      (clause.2.usualName? table.name.name)) = table.tableNames :=
    (map_eq_map_of_forall₂ hnames fun written read hread => by rw [hread.1, hread.2]).symm
  refine ⟨hfinish.trans hname, ?_⟩
  rw [hkeys, hname, hclauses, List.nil_append, hstored, ← storedNames_append, hcolumnNames,
    htableNames]
  rfl

/-! ## Scripts -/

theorem Syntax.TableSyntax.getLast?_tokens (table : TableSyntax) :
    table.tokens.getLast? = some .semicolon := by
  rw [tokens, List.append_cons, ← List.append_assoc, ← List.append_assoc, List.getLast?_concat]

theorem Syntax.TableSyntax.next_ne_eof {table : TableSyntax} {rest lexemes : List Lexeme}
    (hbegins : Begins table.tokens rest lexemes) : next lexemes ≠ .eof := by
  rw [hbegins.next]
  rintro ⟨⟩

/-- Wherever in a script a table with columns is defined, the table is read, and it has an entry
for each constraint of its statement exactly if every column keeps all of its own and no two of
them have the same name. -/
theorem size_constraints_eq_iff (text : String) {state : Import} {lexemes : List Lexeme}
    {table : TableSyntax} {following : List Token} (hsound : table.Sound)
    (hcolumns : table.columns ≠ [])
    (hreached : Turns scriptStep ⟨.empty, []⟩ (Lexeme.ofText text) state lexemes)
    (htokens : lexemes.map Lexeme.token = table.tokens ++ following) :
    ∃ read rest, rest.map Lexeme.token = following ∧
      Turns scriptStep ⟨.empty, []⟩ (Lexeme.ofText text)
        { state with schema := state.schema.addTable read } rest ∧
      read.name = table.name.name ∧ read.constraints.keys = table.keys ∧
      (read.constraints.size = table.clauseCount ↔
        (∀ column ∈ table.columns, column.KeepsAll) ∧ table.names.Nodup) := by
  obtain ⟨rest, hrest, hbegins⟩ := begins_of_tokens (turns_scriptStep_suffix hreached) htokens
    (fun _ => by rw [table.getLast?_tokens]; rintro ⟨⟩)
  obtain ⟨d, hstatement, hgains⟩ := hbegins.statement hsound hcolumns
  obtain ⟨hname, hkeys⟩ := hgains.keys_finish
  refine ⟨d.finish, rest, hrest, hreached.trans (turns_accepted (TableSyntax.next_ne_eof hbegins)
    (hstatement state.schema)), hname, hkeys, ?_⟩
  have hsize : d.finish.constraints.size = table.keys.length := by
    rw [← hkeys, Keyed.keys, List.length_map, Keyed.size]
  rw [hsize, table.length_keys_eq_iff]

/-- A column with two references that are given no name. -/
def twoReferences : TableSyntax where
  words := []
  ifNotExists := false
  name := ⟨.word "t", []⟩
  first := .column {
    name := .word "a"
    type := [.word "int"]
    attributes :=
      [.references ⟨⟨.word "u", []⟩, none, []⟩, .references ⟨⟨.word "v", []⟩, none, []⟩]
    generated := none }
  more := []
  rest := []

theorem sound_twoReferences : twoReferences.Sound where
  words := nofun
  name := ⟨rfl, nofun⟩
  isNotIf := fun _ => by decide
  first := fun behind => {
    name := rfl
    isNot := by decide +kernel
    typed := by decide
    type := by decide +kernel
    behindType := rfl
    attributes :=
      ⟨⟨⟨rfl, nofun⟩, nofun, fun _ => ⟨nofun, nofun⟩, trivial, rfl⟩,
        ⟨⟨rfl, nofun⟩, nofun, fun _ => ⟨nofun, nofun⟩, trivial, rfl⟩, trivial⟩
    generated := nofun
    behind := .inr rfl }
  more := fun _ => trivial
  rest := nofun

/-- The second reference takes the place of the first one. -/
theorem size_constraints_eq_iff_twoReferences :
    ∃ read rest, Turns scriptStep ⟨.empty, []⟩
      (Lexeme.ofText "CREATE TABLE t (a int REFERENCES u REFERENCES v);")
        ⟨Schema.empty.addTable read, []⟩ rest ∧
      twoReferences.clauseCount = 2 ∧ read.constraints.keys = ["t_a_fkey"] := by
  have hkeys : twoReferences.keys = ["t_a_fkey"] := by decide +kernel
  have htokens : (Lexeme.ofText "CREATE TABLE t (a int REFERENCES u REFERENCES v);").map
      Lexeme.token = twoReferences.tokens ++ [.eof] := by decide +kernel
  obtain ⟨read, rest, -, hturns, -, hread, -⟩ :=
    size_constraints_eq_iff _ sound_twoReferences (by decide +kernel) (.none _ _) htokens
  exact ⟨read, rest, hturns, by decide +kernel, hread.trans hkeys⟩

end SchemaEvolution.Sql
