import SchemaEvolution.Proofs.Drizzle.KeyPlacement
import SchemaEvolution.Repeated

/-!
# References between tables

Tables and enumerated types are recorded in the order of the source, and a map gives the place of
the last one that each variable holds.  References are resolved by these maps when all of the
source has been read.  So every foreign key leads to a table of the schema; a reference of a column
that leads nowhere is reported, while a foreign key among the options leaves out the columns that
lead nowhere as long as another one leads somewhere.
-/

namespace SchemaEvolution.Drizzle

open Table (Edit)

/-- What has been recorded of a source: the definitions in order, and the place of the one that
each variable holds. -/
structure Extraction where
  tables : List TableDeclaration
  tablePlaces : Keyed Nat
  enums : List EnumDeclaration
  enumPlaces : Keyed Nat

namespace Extraction

def empty : Extraction := ⟨[], ∅, [], ∅⟩

def declarations (e : Extraction) : Declarations := ⟨e.tables, e.enums⟩

def pushTable (e : Extraction) (table : TableDeclaration) : Extraction :=
  { e with
    tables := e.tables ++ [table]
    tablePlaces := e.tablePlaces.insert table.variableName e.tables.length }

def pushEnum (e : Extraction) (type : EnumDeclaration) : Extraction :=
  { e with
    enums := e.enums ++ [type]
    enumPlaces := e.enumPlaces.insert type.variableName e.enums.length }

/-- Records the definitions that the value of a variable declares. -/
def record (e : Extraction) (variableName : String) (line : Nat) (value : Expression) :
    Except Diagnostic Extraction :=
  (addValue .empty variableName line value).map fun d =>
    d.enums.foldl pushEnum (d.tables.foldl pushTable e)

end Extraction

section Places

variable {α : Type} {variableName : α → String} {items : List α} {places : Keyed Nat}

/-- Each variable that has a definition has a place, which is that of its last definition. -/
def PointsToLast (variableName : α → String) (items : List α) (places : Keyed Nat) : Prop :=
  ∀ name place, places.get? name = some place ↔
    ∃ item, items[place]? = some item ∧ variableName item = name ∧
      ∀ later other, place < later → items[later]? = some other → variableName other ≠ name

theorem PointsToLast.empty : PointsToLast variableName [] ∅ := by
  intro name place
  rw [Keyed.get?_empty]
  exact iff_of_false nofun fun ⟨item, hitem, _⟩ => nomatch hitem

/-- A definition that is recorded behind the others is the last one of its variable. -/
theorem PointsToLast.push (hlast : PointsToLast variableName items places) (item : α) :
    PointsToLast variableName (items ++ [item])
      (places.insert (variableName item) items.length) := by
  intro name place
  have hback : (items ++ [item])[items.length]? = some item := List.getElem?_concat_length
  rw [Keyed.get?_insert]
  split
  case isTrue hname =>
    subst hname
    constructor
    · rintro ⟨rfl⟩
      refine ⟨item, hback, rfl, fun later other hlater hother => ?_⟩
      have hbound := (List.getElem?_eq_some_iff.1 hother).1
      rw [List.length_append, List.length_singleton] at hbound
      omega
    · rintro ⟨found, hfound, -, hno⟩
      have hbound := (List.getElem?_eq_some_iff.1 hfound).1
      rw [List.length_append, List.length_singleton] at hbound
      by_contra hne
      exact hno items.length item (by grind) hback rfl
  case isFalse hname =>
    rw [hlast]
    refine exists_congr fun found => ?_
    constructor
    · rintro ⟨hfound, hvariable, hno⟩
      have hbound := (List.getElem?_eq_some_iff.1 hfound).1
      refine ⟨by rw [List.getElem?_append_left hbound, hfound], hvariable,
        fun later other hlater hother => ?_⟩
      rw [List.getElem?_append] at hother
      split at hother
      · exact hno later other hlater hother
      · obtain rfl := List.mem_singleton.1 (List.mem_of_getElem? hother)
        exact hname
    · rintro ⟨hfound, hvariable, hno⟩
      rw [List.getElem?_append] at hfound
      split at hfound
      case isTrue hbound =>
        refine ⟨hfound, hvariable, fun later other hlater hother => ?_⟩
        have hlength := (List.getElem?_eq_some_iff.1 hother).1
        exact hno later other hlater (by rw [List.getElem?_append_left hlength, hother])
      case isFalse hbound =>
        obtain rfl := List.mem_singleton.1 (List.mem_of_getElem? hfound)
        exact absurd hvariable hname

/-- To look up a variable among the definitions from the back is to go to its place. -/
theorem PointsToLast.find?_reverse (hlast : PointsToLast variableName items places)
    (name : String) :
    (items.reverse.find? fun item => variableName item == name) =
      (places.get? name).bind fun place => items[place]? := by
  cases hfind : items.reverse.find? fun item => variableName item == name with
  | some item =>
    obtain ⟨hitem, later, earlier, hitems, hlater⟩ := List.find?_eq_some_iff_append.1 hfind
    have hsplit : items = earlier.reverse ++ item :: later.reverse := by
      rw [← List.reverse_reverse items, hitems, List.reverse_append, List.reverse_cons,
        List.append_assoc, List.singleton_append]
    have hplace : items[earlier.length]? = some item := by
      rw [hsplit, List.getElem?_append_right (by simp), List.length_reverse, Nat.sub_self]
      rfl
    have hno (place : Nat) (other : α) (hlt : earlier.length < place)
        (hother : items[place]? = some other) : variableName other ≠ name := by
      rw [hsplit, List.getElem?_append_right (by rw [List.length_reverse]; omega),
        List.length_reverse, List.getElem?_cons, if_neg (by omega)] at hother
      have hmem := List.mem_reverse.1 (List.mem_of_getElem? hother)
      have hdiffers := hlater other hmem
      exact fun heq => by simp [heq] at hdiffers
    rw [(hlast name earlier.length).2 ⟨item, hplace, eq_of_beq hitem, hno⟩, Option.bind_some,
      hplace]
  | none =>
    cases hget : places.get? name with
    | none => rfl
    | some place =>
      obtain ⟨item, hitem, hname, -⟩ := (hlast name place).1 hget
      have hdiffers := List.find?_eq_none.1 hfind item
        (List.mem_reverse.2 (List.mem_of_getElem? hitem))
      exact absurd (beq_iff_eq.2 hname) hdiffers

end Places

namespace Extraction

/-- The places are those of the last definitions. -/
structure Indexed (e : Extraction) : Prop where
  tables : PointsToLast TableDeclaration.variableName e.tables e.tablePlaces
  enums : PointsToLast EnumDeclaration.variableName e.enums e.enumPlaces

theorem Indexed.empty : Indexed .empty := ⟨.empty, .empty⟩

theorem Indexed.pushTable {e : Extraction} (hindexed : e.Indexed) (table : TableDeclaration) :
    (e.pushTable table).Indexed := ⟨hindexed.tables.push table, hindexed.enums⟩

theorem Indexed.pushEnum {e : Extraction} (hindexed : e.Indexed) (type : EnumDeclaration) :
    (e.pushEnum type).Indexed := ⟨hindexed.tables, hindexed.enums.push type⟩

theorem declarations_foldl_pushTable (e : Extraction) (tables : List TableDeclaration) :
    (tables.foldl pushTable e).declarations = ⟨e.tables ++ tables, e.enums⟩ := by
  induction tables generalizing e with
  | nil => rw [List.append_nil]; rfl
  | cons table more ih => rw [List.foldl_cons, ih, pushTable, List.append_assoc]; rfl

theorem declarations_foldl_pushEnum (e : Extraction) (enums : List EnumDeclaration) :
    (enums.foldl pushEnum e).declarations = ⟨e.tables, e.enums ++ enums⟩ := by
  induction enums generalizing e with
  | nil => rw [List.append_nil]; rfl
  | cons type more ih => rw [List.foldl_cons, ih, pushEnum, List.append_assoc]; rfl

theorem Indexed.record {e recorded : Extraction} {variableName : String} {line : Nat}
    {value : Expression} (hindexed : e.Indexed)
    (hrecord : e.record variableName line value = .ok recorded) : recorded.Indexed := by
  obtain ⟨d, -, rfl⟩ := exists_of_map_eq_ok hrecord
  have htables : (d.tables.foldl Extraction.pushTable e).Indexed :=
    List.foldlRecOn d.tables _ hindexed fun _ hkept table _ => hkept.pushTable table
  exact List.foldlRecOn d.enums _ htables fun _ hkept type _ => hkept.pushEnum type

end Extraction

/-- A value declares the same after any declarations. -/
theorem addValue_eq (d : Declarations) (variableName : String) (line : Nat) (value : Expression) :
    addValue d variableName line value = (addValue .empty variableName line value).map fun new =>
      ⟨d.tables ++ new.tables, d.enums ++ new.enums⟩ := by
  have hsame : d = ⟨d.tables ++ [], d.enums ++ []⟩ := by rw [List.append_nil, List.append_nil]
  rw [addValue.eq_def, addValue.eq_def]
  split
  · split
    · exact congrArg Except.ok hsame
    · split
      · rw [addEnum, addEnum]
        split
        · exact congrArg Except.ok hsame
        · simp only [Except.map, Declarations.empty, List.append_nil, List.nil_append]
      · split
        · rw [addTable, addTable]
          split
          · rfl
          · split
            · rfl
            · simp only [Except.map, Declarations.empty, List.append_nil, List.nil_append]
        · exact congrArg Except.ok hsame
  · exact congrArg Except.ok hsame

/-- Recording a declaration with its place records the declaration. -/
theorem Extraction.declarations_record (e : Extraction) (variableName : String) (line : Nat)
    (value : Expression) :
    addValue e.declarations variableName line value =
      (e.record variableName line value).map Extraction.declarations := by
  rw [addValue_eq, record]
  cases addValue .empty variableName line value with
  | error warning => rfl
  | ok d =>
    have htables := declarations_foldl_pushTable e d.tables
    have henums := declarations_foldl_pushEnum (d.tables.foldl pushTable e) d.enums
    simp only [Except.map, henums]
    injection htables with htables henums
    rw [htables, henums]
    rfl

/-- Reads a declaration of a variable and records its value, or skips a token that starts none. -/
def walkStep {σ : Type} (record : σ → String → Nat → Expression → Except Diagnostic σ)
    (state : σ × List Diagnostic) (lexemes : List Lexeme) :
    Except Empty (Turn (σ × List Diagnostic) × List Lexeme) :=
  let (known, diagnostics) := state
  match lexemes with
  | [] => .ok (.done state, [])
  | lexeme :: rest =>
    if !declares lexeme then .ok (.again state, rest)
    else
      match next rest with
      | .word variableName =>
        match initializer rest.tail with
        | .error after => .ok (.again state, after)
        | .ok value =>
          match readExpression value with
          | (some expression, after) =>
            match record known variableName lexeme.line expression with
            | .ok known => .ok (.again (known, diagnostics), after)
            | .error warning => .ok (.again (known, diagnostics ++ [warning]), after)
          | (none, after) =>
            let warning := Diagnostic.warning
              ("could not interpret table definition \x60" ++ variableName ++ "\x60")
              (some lexeme.line)
            .ok (.again (known, if namesTable value then diagnostics ++ [warning] else diagnostics),
              after)
      | _ => .ok (.again state, rest)

/-- The step of the walk is the general one that adds what it finds. -/
theorem sourceStep_eq_walkStep : sourceStep = walkStep addValue := by
  funext ⟨d, diagnostics⟩ lexemes
  rw [sourceStep.eq_def, walkStep.eq_def]
  cases lexemes with
  | nil => rfl
  | cons lexeme rest =>
    dsimp only
    cases declares lexeme with
    | false => rfl
    | true =>
      cases next rest with
      | word variableName =>
        cases initializer rest.tail with
        | error after => rfl
        | ok value =>
          dsimp only
          obtain ⟨_ | expression, after⟩ := readExpression value
          · rfl
          · dsimp only
            cases addValue d variableName lexeme.line expression <;> rfl
      | _ => rfl

/-- Recording that agrees in a view of what is known does so at every token. -/
theorem walkStep_map {σ τ : Type} (view : σ → τ)
    {record : σ → String → Nat → Expression → Except Diagnostic σ}
    {viewed : τ → String → Nat → Expression → Except Diagnostic τ}
    (hrecord : ∀ known variableName line value,
      viewed (view known) variableName line value =
        (record known variableName line value).map view)
    (state : σ × List Diagnostic) (lexemes : List Lexeme) :
    walkStep viewed (Prod.map view id state) lexemes =
      (walkStep record state lexemes).map (Prod.map (Turn.map (Prod.map view id)) id) := by
  obtain ⟨known, diagnostics⟩ := state
  rw [walkStep.eq_def, walkStep.eq_def]
  simp only [Prod.map]
  split
  · rfl
  · split
    · rfl
    · split
      · split
        · rfl
        · split
          · rw [hrecord]
            cases record known _ _ _ <;> rfl
          · rfl
      · rfl

/-- What holds before a declaration is recorded and afterwards, holds at every token. -/
theorem walkStep_keeps {σ : Type} {keeps : σ → Prop}
    {record : σ → String → Nat → Expression → Except Diagnostic σ}
    (hrecord : ∀ known variableName line value recorded, keeps known →
      record known variableName line value = .ok recorded → keeps recorded)
    (state : σ × List Diagnostic) (lexemes : List Lexeme) (turn : Turn (σ × List Diagnostic))
    (after : List Lexeme) (hkept : keeps state.1)
    (hstep : walkStep record state lexemes = .ok (turn, after)) : keeps turn.state.1 := by
  obtain ⟨known, diagnostics⟩ := state
  rw [walkStep.eq_def] at hstep
  dsimp only at hstep hkept
  split at hstep
  · cases hstep
    exact hkept
  · split at hstep
    · cases hstep
      exact hkept
    · split at hstep
      · split at hstep
        · cases hstep
          exact hkept
        · split at hstep
          · split at hstep
            case h_1 hrecorded =>
              cases hstep
              exact hrecord _ _ _ _ _ hkept hrecorded
            · cases hstep
              exact hkept
          · cases hstep
            exact hkept
      · cases hstep
        exact hkept

/-- Reads a source and keeps the places of its variables. -/
def extract (lexemes : List Lexeme) : Extraction × List Diagnostic :=
  match repeatedly (walkStep Extraction.record) (.empty, []) lexemes with
  | .ok (state, _) => state

/-- But for the places, what is recorded are the declarations. -/
theorem repeatedly_sourceStep (lexemes : List Lexeme) :
    ∃ after, repeatedly sourceStep (.empty, []) lexemes =
      .ok (((extract lexemes).1.declarations, (extract lexemes).2), after) := by
  have hrun := repeatedly_map (Prod.map Extraction.declarations id)
    (walkStep_map Extraction.declarations Extraction.declarations_record) (.empty, []) lexemes
  rw [extract]
  cases hextract : repeatedly (walkStep Extraction.record) (.empty, []) lexemes with
  | error fault => exact fault.elim
  | ok outcome =>
    rw [hextract, ← sourceStep_eq_walkStep] at hrun
    exact ⟨outcome.2, hrun⟩

theorem indexed_extract (lexemes : List Lexeme) : (extract lexemes).1.Indexed := by
  rw [extract]
  cases hextract : repeatedly (walkStep Extraction.record) (.empty, []) lexemes with
  | error fault => exact fault.elim
  | ok outcome =>
    refine repeatedly_keeps (fun state => Extraction.Indexed state.1) ?_ .empty hextract
    exact walkStep_keeps fun _ _ _ _ _ hindexed hrecord => hindexed.record hrecord

variable {d : Declarations} {declaration : TableDeclaration} {dialect : Dialect}

/-- What is reported of a change that may be refused. -/
def faultOf {α : Type} : Except Diagnostic α → List Diagnostic
  | .ok _ => []
  | .error warning => [warning]

theorem snd_orWarn (state : Table × List Diagnostic) (change : Table → Except Diagnostic Table) :
    (orWarn state change).2 = state.2 ++ faultOf (change state.1) := by
  rw [orWarn]
  cases change state.1 with
  | ok table => exact (List.append_nil _).symm
  | error warning => rfl

def referenceFaults (d : Declarations) (declaration : TableDeclaration)
    (column : ColumnDeclaration) : List Diagnostic :=
  ((column.builder.link? "references").map fun arguments =>
    faultOf (referenceOf d declaration column.name arguments)).getD []

/-- What is reported of an option of a table of the given name. -/
def optionFaults (d : Declarations) (declaration : TableDeclaration) (name : String)
    (option : Expression) : List Diagnostic :=
  faultOf (addOption d declaration (Table.empty name) option)

theorem snd_addColumn (dialect : Dialect) (d : Declarations) (declaration : TableDeclaration)
    (state : Table × List Diagnostic) (column : ColumnDeclaration) :
    (addColumn dialect d declaration state column).2 =
      state.2 ++ referenceFaults d declaration column := by
  rw [addColumn, referenceFaults, name_columnOf]
  cases column.builder.link? "references" with
  | none => exact (List.append_nil _).symm
  | some arguments =>
    rw [snd_orWarn, Option.map_some, Option.getD_some]
    cases referenceOf d declaration column.name arguments <;> rfl

/-- What is reported of an option depends on the table by its name only. -/
theorem faultOf_addOption (d : Declarations) (declaration : TableDeclaration) (table : Table)
    (option : Expression) :
    faultOf (addOption d declaration table option) =
      optionFaults d declaration table.name option := by
  rw [optionFaults, addOption, addOption]
  cases option.chain? with
  | none => rfl
  | some chain =>
    dsimp only
    generalize chain.base = base
    split
    · split <;> rfl
    · split <;> rfl
    · rfl
    · rfl
    · rfl
    · cases foreignKeyOf d declaration chain <;> rfl
    · rfl

theorem foldl_faults {α : Type} {add : Table × List Diagnostic → α → Table × List Diagnostic}
    (faults : String → α → List Diagnostic)
    (hname : ∀ state part, (add state part).1.name = state.1.name)
    (hadd : ∀ state part, (add state part).2 = state.2 ++ faults state.1.name part)
    (parts : List α) (state : Table × List Diagnostic) :
    (parts.foldl add state).2 = state.2 ++ parts.flatMap (faults state.1.name) := by
  induction parts generalizing state with
  | nil => exact (List.append_nil _).symm
  | cons part more ih =>
    rw [List.foldl_cons, ih, List.flatMap_cons, hadd, hname, List.append_assoc]

/-- What is reported of a declaration: what does not resolve, column by column and then option by
option. -/
def tableFaults (d : Declarations) (declaration : TableDeclaration) : List Diagnostic :=
  declaration.columns.flatMap (referenceFaults d declaration) ++
    declaration.options.flatMap (optionFaults d declaration declaration.name)

/-- What is reported of a table comes from its columns and options, part by part. -/
theorem snd_tableOf (dialect : Dialect) (d : Declarations) (declaration : TableDeclaration) :
    (tableOf dialect d declaration).2 = tableFaults d declaration := by
  have hcolumnName (state : Table × List Diagnostic) (column : ColumnDeclaration) :
      (addColumn dialect d declaration state column).1.name = state.1.name := by
    rw [fst_addColumn, Table.name_edited]
  have hcolumns := foldl_faults (fun _ => referenceFaults d declaration) hcolumnName
    (snd_addColumn dialect d declaration) declaration.columns (Table.empty declaration.name, [])
  have hstart := foldl_eq_edited (fun _ => columnEdits dialect d declaration)
    (fst_addColumn dialect d declaration) declaration.columns (Table.empty declaration.name, [])
  rw [tableOf, tableFaults]
  generalize declaration.columns.foldl (addColumn dialect d declaration) _ = state
    at hcolumns hstart ⊢
  obtain ⟨table, warnings⟩ := state
  have hname : table.name = declaration.name :=
    (congrArg Table.name hstart).trans Table.name_edited
  have hoptionName (state : Table × List Diagnostic) (option : Expression) :
      (orWarn state fun table => addOption d declaration table option).1.name = state.1.name := by
    rw [fst_orWarn, addOption_eq_edited, Table.name_edited]
  have hoptions (start : Table) (hstart : start.name = declaration.name) :
      (declaration.options.foldl (fun state option =>
        orWarn state fun table => addOption d declaration table option) (start, warnings)).2 =
          warnings ++ declaration.options.flatMap (optionFaults d declaration declaration.name) := by
    rw [foldl_faults (optionFaults d declaration) hoptionName fun state option =>
      (snd_orWarn _ _).trans (congrArg _ (faultOf_addOption d declaration state.1 option)), hstart]
  dsimp only at hcolumns ⊢
  rw [hoptions _ (by split <;> exact hname), hcolumns, List.nil_append]

theorem snd_schemaOf (dialect : Dialect) (d : Declarations) :
    (schemaOf dialect d).2 = d.tables.flatMap (tableFaults d) := by
  have hwarnings : (schemaOf dialect d).2 = (d.tables.map (tableOf dialect d)).flatMap Prod.snd := rfl
  rw [hwarnings, List.flatMap_map]
  exact List.flatMap_congr fun declaration _ => snd_tableOf dialect d declaration

/-! ## Tables of the schema -/

/-- A table of the schema is the last one of its name. -/
theorem tables_schemaOf (dialect : Dialect) (d : Declarations) :
    (schemaOf dialect d).1.tables = d.tables.foldl (fun found declaration =>
      found.insert declaration.name (tableOf dialect d declaration).1) ∅ := by
  have hname (declaration : TableDeclaration) :
      (tableOf dialect d declaration).1.name = declaration.name := by
    rw [fst_tableOf, Table.name_edited]
    rfl
  rw [schemaOf.eq_def]
  dsimp only
  rw [Schema.foldl_addTable, Schema.foldl_addEnum]
  dsimp only
  rw [List.foldl_map, List.foldl_map]
  simp only [hname]
  rfl

theorem mem_tables_schemaOf {table : Table} (hmem : table ∈ (schemaOf dialect d).1.tables.values) :
    ∃ declaration ∈ d.tables, (tableOf dialect d declaration).1 = table := by
  rw [tables_schemaOf] at hmem
  exact (Keyed.mem_values_foldl_insert hmem).resolve_left nofun

/-- Every declaration has a table under its name. -/
theorem name_mem_schemaOf (hmem : declaration ∈ d.tables) :
    declaration.name ∈ (schemaOf dialect d).1.tables.keys := by
  have hfold (declarations : List TableDeclaration) (done : Keyed Table)
      (hname : declaration.name ∈ done.keys ∨ declaration ∈ declarations) :
      declaration.name ∈ (declarations.foldl (fun found declaration =>
        found.insert declaration.name (tableOf dialect d declaration).1) done).keys := by
    induction declarations generalizing done with
    | nil => exact hname.resolve_right List.not_mem_nil
    | cons first more ih =>
      refine ih _ ?_
      rw [Keyed.mem_keys_insert]
      rcases hname with hdone | hmem
      · exact .inl (.inl hdone)
      · rcases List.mem_cons.1 hmem with rfl | hmore
        · exact .inl (.inr rfl)
        · exact .inr hmore
  rw [tables_schemaOf]
  exact hfold d.tables ∅ (.inr hmem)

/-! ## Foreign keys -/

/-- The constraint comes from a reference of a column or from an option that is a foreign key. -/
def DeclaresKey (d : Declarations) (declaration : TableDeclaration) (constraint : Constraint) :
    Prop :=
  (∃ column ∈ declaration.columns, ∃ arguments,
    column.builder.link? "references" = some arguments ∧
      referenceOf d declaration column.name arguments = .ok constraint) ∨
  ∃ option ∈ declaration.options, ∃ chain, option.chain? = some chain ∧
    chain.base = "foreignKey" ∧ foreignKeyOf d declaration chain = .ok constraint

/-- A constraint of an edited table was there before or comes from one of the edits. -/
theorem mem_constraints_edited {table : Table} {edits : List Edit} {constraint : Constraint}
    (hmem : constraint ∈ (table.edited edits).constraints.values) :
    constraint ∈ table.constraints.values ∨ Edit.constraint constraint ∈ edits := by
  induction edits generalizing table with
  | nil => exact .inl hmem
  | cons edit more ih =>
    rcases ih hmem with hedit | hmore
    · cases edit with
      | constraint added =>
        obtain ⟨key, hkey⟩ := Keyed.mem_values_iff.1 hedit
        rw [Table.edit, Table.addConstraint, Keyed.get?_insert] at hkey
        split at hkey
        · obtain rfl := Option.some.inj hkey
          exact .inr List.mem_cons_self
        · exact .inl (Keyed.mem_values_iff.2 ⟨key, hkey⟩)
      | column | require | index => exact .inl hedit
    · exact .inr (List.mem_cons_of_mem _ hmore)

theorem optionEdits_foreignKey {option : Expression} {chain : Chain}
    (hchain : option.chain? = some chain) (hbase : chain.base = "foreignKey") (name : String) :
    optionEdits d declaration name option =
      ((foreignKeyOf d declaration chain).toOption.map .constraint).toList := by
  rw [optionEdits, hchain]
  dsimp only
  rw [hbase]
  rfl

theorem optionFaults_foreignKey {option : Expression} {chain : Chain}
    (hchain : option.chain? = some chain) (hbase : chain.base = "foreignKey") (name : String) :
    optionFaults d declaration name option = faultOf (foreignKeyOf d declaration chain) := by
  rw [optionFaults, addOption, hchain]
  dsimp only
  rw [hbase]
  cases foreignKeyOf d declaration chain <;> rfl

/-- A foreign key among the edits of an option is that of an option that is one. -/
theorem exists_of_mem_optionEdits {option : Expression} {name label : String} {key : ForeignKey}
    (hmem : Edit.constraint (.foreignKey label key) ∈ optionEdits d declaration name option) :
    ∃ chain, option.chain? = some chain ∧ chain.base = "foreignKey" ∧
      foreignKeyOf d declaration chain = .ok (.foreignKey label key) := by
  cases hchain : option.chain? with
  | none =>
    rw [optionEdits, hchain] at hmem
    cases hmem
  | some chain =>
    by_cases hbase : chain.base = "foreignKey"
    · rw [optionEdits_foreignKey hchain hbase] at hmem
      refine ⟨chain, rfl, hbase, ?_⟩
      cases hkey : foreignKeyOf d declaration chain with
      | error warning =>
        rw [hkey] at hmem
        cases hmem
      | ok constraint =>
        rw [hkey] at hmem
        cases List.mem_singleton.1 hmem
        rfl
    · rw [optionEdits, hchain] at hmem
      dsimp only at hmem
      split at hmem <;> grind [Constraint.primaryKey, Constraint.unique, Constraint.check,
        Constraint.foreignKey]

/-- Every foreign key of a table is one that a column or an option declares. -/
theorem declaresKey_of_mem {label : String} {key : ForeignKey}
    (hmem : Constraint.foreignKey label key ∈
      (tableOf dialect d declaration).1.constraints.values) :
    DeclaresKey d declaration (.foreignKey label key) := by
  rw [fst_tableOf] at hmem
  have hedit := (mem_constraints_edited hmem).resolve_left nofun
  rw [tableEdits, List.mem_append, List.mem_append, List.mem_flatMap, List.mem_flatMap] at hedit
  rcases hedit with ⟨column, hcolumn, hcolumnEdit⟩ | hkeys | ⟨option, hoption, hoptionEdit⟩
  · rw [columnEdits, List.mem_cons, List.mem_append] at hcolumnEdit
    rcases hcolumnEdit with hedit | hunique | hreference
    · cases hedit
    · rw [uniqueEdits, Option.mem_toList, Option.map_eq_some_iff] at hunique
      obtain ⟨arguments, -, hconstraint⟩ := hunique
      cases hconstraint
    · rw [referenceEdits, Option.mem_toList, Option.map_eq_some_iff] at hreference
      obtain ⟨constraint, hbind, hconstraint⟩ := hreference
      cases hconstraint
      obtain ⟨arguments, harguments, hok⟩ := Option.bind_eq_some_iff.1 hbind
      refine .inl ⟨column, hcolumn, arguments, harguments, ?_⟩
      cases hkey : referenceOf d declaration column.name arguments with
      | error warning =>
        rw [hkey] at hok
        cases hok
      | ok constraint =>
        rw [hkey] at hok
        cases hok
        rfl
  · rw [keyEdits] at hkeys
    split at hkeys
    · cases hkeys
    · cases List.mem_singleton.1 hkeys
  · obtain ⟨chain, hchain, hbase, hkey⟩ := exists_of_mem_optionEdits hoptionEdit
    exact .inr ⟨option, hoption, chain, hchain, hbase, hkey⟩

theorem mem_of_table? {variableName : String} {table : TableDeclaration}
    (htable : d.table? variableName = some table) : table ∈ d.tables :=
  List.mem_reverse.1 (List.mem_of_find?_eq_some htable)

theorem exists_of_foreignColumn? {variableName key target column : String}
    (hcolumn : foreignColumn? d variableName key = some (target, column)) :
    ∃ table ∈ d.tables, table.name = target := by
  obtain ⟨table, htable, hnames⟩ := Option.map_eq_some_iff.1 hcolumn
  exact ⟨table, mem_of_table? htable, congrArg Prod.fst hnames⟩

/-- What an expression among the foreign columns of an option leads to. -/
def foreignColumnOf? (d : Declarations) (declaration : TableDeclaration)
    (expression : Expression) : Option (String × String) :=
  expression.member?.bind fun (owner, key) =>
    if declaration.parameter == some owner then
      some (declaration.name, declaration.columnName key)
    else foreignColumn? d owner key

theorem foreignColumns_eq_filterMap (expressions : List Expression) :
    foreignColumns d declaration expressions =
      expressions.filterMap (foreignColumnOf? d declaration) := rfl

def listed (options : Expression) (key : String) : List Expression :=
  ((options.property? key).map Expression.items).getD []

/-- What is reported of a foreign key that leads nowhere. -/
def unresolvedKey (declaration : TableDeclaration) : Diagnostic :=
  .warning ("unresolved foreign key on " ++ marked declaration.name) (some declaration.line)

/-- A foreign key with options is refused if it has no column of its own or none of its foreign
columns leads anywhere. -/
theorem foreignKeyOf_refused {chain : Chain} {options : Expression}
    (hoptions : chain.arguments.head? = some options)
    (hnowhere : ownColumns declaration (listed options "columns") = [] ∨
      foreignColumns d declaration (listed options "foreignColumns") = []) :
    foreignKeyOf d declaration chain = .error (unresolvedKey declaration) := by
  rw [foreignKeyOf, hoptions]
  dsimp only
  split
  · rfl
  · next target _ hlast =>
    rw [if_pos]
    · rfl
    · rcases hnowhere with hcolumns | htargets
      · exact List.isEmpty_iff.2 hcolumns
      · rw [← listed, htargets] at hlast
        cases hlast

/-- Any other one refers to what its last resolved column leads to, by the columns that lead
somewhere. -/
theorem foreignKeyOf_resolved {chain : Chain} {options : Expression}
    (hoptions : chain.arguments.head? = some options)
    (hcolumns : ownColumns declaration (listed options "columns") ≠ [])
    (htargets : foreignColumns d declaration (listed options "foreignColumns") ≠ []) :
    ∃ label key, foreignKeyOf d declaration chain = .ok (.foreignKey label key) ∧
      key.columns = ownColumns declaration (listed options "columns") ∧
      key.targetColumns =
        (foreignColumns d declaration (listed options "foreignColumns")).map Prod.snd ∧
      some key.targetTable =
        (foreignColumns d declaration (listed options "foreignColumns")).getLast?.map Prod.fst := by
  rw [foreignKeyOf, hoptions]
  dsimp only
  rw [← listed, ← listed]
  obtain ⟨last, hlast⟩ := Option.ne_none_iff_exists'.1 (List.getLast?_eq_none_iff.not.2 htargets)
  rw [hlast]
  dsimp only
  rw [if_neg (List.isEmpty_iff.not.2 hcolumns)]
  exact ⟨_, _, rfl, rfl, rfl, rfl⟩

/-- A foreign key that is declared refers to a table. -/
theorem exists_target_of_declaresKey (hmem : declaration ∈ d.tables) {label : String}
    {key : ForeignKey} (hdeclares : DeclaresKey d declaration (.foreignKey label key)) :
    ∃ table ∈ d.tables, table.name = key.targetTable := by
  rcases hdeclares with ⟨column, -, arguments, -, hreference⟩ | ⟨option, -, chain, -, -, hkey⟩
  · rw [referenceOf] at hreference
    dsimp only at hreference
    split at hreference
    · cases hreference
    · split at hreference
      · cases hreference
      · next hcolumn =>
        cases hreference
        exact exists_of_foreignColumn? hcolumn
  · cases hoptions : chain.arguments.head? with
    | none =>
      rw [foreignKeyOf, hoptions] at hkey
      cases hkey
    | some options =>
      by_cases hnowhere : ownColumns declaration (listed options "columns") = [] ∨
          foreignColumns d declaration (listed options "foreignColumns") = []
      · rw [foreignKeyOf_refused hoptions hnowhere] at hkey
        cases hkey
      · obtain ⟨hcolumns, htargets⟩ := not_or.1 hnowhere
        obtain ⟨label, found, hfound, -, -, htarget⟩ :=
          foreignKeyOf_resolved hoptions hcolumns htargets
        rw [hkey] at hfound
        cases hfound
        obtain ⟨last, hlast, hname⟩ := Option.map_eq_some_iff.1 htarget.symm
        rw [foreignColumns_eq_filterMap] at hlast
        obtain ⟨expression, -, hlead⟩ := List.mem_filterMap.1 (List.mem_of_getLast? hlast)
        obtain ⟨⟨owner, property⟩, -, hlead⟩ := Option.bind_eq_some_iff.1 hlead
        dsimp only at hlead
        split at hlead
        · exact ⟨declaration, hmem, by rw [← hname, ← Option.some.inj hlead]⟩
        · rw [← hname]
          exact exists_of_foreignColumn? hlead

/-- The expression is a member of a variable that holds no table and is not the parameter of the
options. -/
def IsUnknown (d : Declarations) (declaration : TableDeclaration) (expression : Expression) :
    Prop :=
  ∃ owner key, expression.member? = some (owner, key) ∧ declaration.parameter ≠ some owner ∧
    d.table? owner = none

/-- A member of an unknown variable is passed over wherever columns are listed. -/
theorem IsUnknown.passed {expression : Expression} (hmem : declaration ∈ d.tables)
    (hunknown : IsUnknown d declaration expression) :
    ownColumn? declaration expression = none ∧
      foreignColumnOf? d declaration expression = none := by
  obtain ⟨owner, key, hmember, hparameter, htable⟩ := hunknown
  have hother : owner ≠ declaration.variableName := fun heq =>
    List.find?_eq_none.1 htable declaration (List.mem_reverse.2 hmem) (beq_iff_eq.2 heq.symm)
  have hstring : expression.string? = none := by
    cases expression with
    | string value => cases hmember
    | _ => rfl
  have hparameter' : (declaration.parameter == some owner) = false :=
    beq_eq_false_iff_ne.2 hparameter
  constructor
  · rw [ownColumn?, hstring, hmember, Option.none_or, Option.bind_some]
    dsimp only
    rw [hparameter', beq_eq_false_iff_ne.2 hother]
    rfl
  · rw [foreignColumnOf?, hmember, Option.bind_some]
    dsimp only
    rw [hparameter', if_neg Bool.false_ne_true, foreignColumn?, htable]
    rfl

/-- What is reported of a reference of a column that leads nowhere. -/
def unresolvedReference (declaration : TableDeclaration) (column variableName key : String) :
    Diagnostic :=
  .warning ("unresolved reference " ++ marked (variableName ++ "." ++ key) ++ " on " ++
    marked (declaration.name ++ "." ++ column)) (some declaration.line)

def RefersTo (column : ColumnDeclaration) (variableName key : String) : Prop :=
  ∃ arguments parameters body, column.builder.link? "references" = some arguments ∧
    arguments.head? = some (.arrow parameters body) ∧ body.member? = some (variableName, key)

/-- A column that refers to an unknown variable is reported and gives no edit. -/
theorem unresolved_of_refersTo {column : ColumnDeclaration} {variableName key : String}
    (hrefers : RefersTo column variableName key) (htable : d.table? variableName = none) :
    referenceEdits d declaration column = [] ∧
      referenceFaults d declaration column =
        [unresolvedReference declaration column.name variableName key] := by
  obtain ⟨arguments, parameters, body, hlink, hhead, hmember⟩ := hrefers
  have hcolumn : foreignColumn? d variableName key = none := by
    rw [foreignColumn?, htable]
    rfl
  have hreference : referenceOf d declaration column.name arguments =
      .error (unresolvedReference declaration column.name variableName key) := by
    rw [referenceOf, hhead]
    dsimp only
    rw [hmember]
    dsimp only
    rw [hcolumn]
    rfl
  rw [referenceEdits, referenceFaults, hlink, Option.bind_some, Option.map_some, hreference]
  exact ⟨rfl, rfl⟩

/-- Whatever the tokens of a source are, each variable has the place of its last definition, and
every foreign key refers to a table of the schema.  Tables and warnings are made part by part: a
column that refers to an unknown variable adds a warning and no constraint, and so does a foreign
key among the options exactly if it has no column of its own or none of its foreign columns leads
anywhere.  Any other one is declared, without its columns of unknown variables and with no
warning. -/
theorem references_resolve (dialect : Dialect) (lexemes : List Lexeme) :
    let e := (extract lexemes).1
    let d := e.declarations
    let schema := (schemaOf dialect d).1
    let warnings := (schemaOf dialect d).2
    (∃ after, repeatedly sourceStep (.empty, []) lexemes =
      .ok ((d, (extract lexemes).2), after)) ∧
    e.Indexed ∧
    (∀ name, d.table? name = (e.tablePlaces.get? name).bind (e.tables[·]?)) ∧
    (∀ name, d.enum? name = (e.enumPlaces.get? name).bind (e.enums[·]?)) ∧
    (∀ table ∈ schema.tables.values, ∀ label key,
      Constraint.foreignKey label key ∈ table.constraints.values →
        key.targetTable ∈ schema.tables.keys) ∧
    (∀ table ∈ schema.tables.values, ∃ declaration ∈ d.tables,
      table = (Table.empty declaration.name).edited (tableEdits dialect d declaration)) ∧
    warnings = d.tables.flatMap (tableFaults d) ∧
    ∀ declaration ∈ d.tables,
      (∀ column ∈ declaration.columns, ∀ variableName key, RefersTo column variableName key →
        d.table? variableName = none →
        referenceEdits d declaration column = [] ∧
          referenceFaults d declaration column =
            [unresolvedReference declaration column.name variableName key]) ∧
      (∀ expression, IsUnknown d declaration expression →
        ownColumn? declaration expression = none ∧
          foreignColumnOf? d declaration expression = none) ∧
      ∀ option ∈ declaration.options, ∀ chain options, option.chain? = some chain →
        chain.base = "foreignKey" → chain.arguments.head? = some options →
        let edits := optionEdits d declaration declaration.name option
        let faults := optionFaults d declaration declaration.name option
        let columns := (listed options "columns").filterMap (ownColumn? declaration)
        let targets := (listed options "foreignColumns").filterMap (foreignColumnOf? d declaration)
        (edits = [] ∧ faults = [unresolvedKey declaration] ↔ columns = [] ∨ targets = []) ∧
        (columns ≠ [] → targets ≠ [] → ∃ label key,
          edits = [.constraint (.foreignKey label key)] ∧ faults = [] ∧ key.columns = columns ∧
            key.targetColumns = targets.map Prod.snd ∧
            some key.targetTable = targets.getLast?.map Prod.fst) := by
  intro e d schema warnings
  have hindexed := indexed_extract lexemes
  refine ⟨repeatedly_sourceStep lexemes, hindexed, fun name => hindexed.tables.find?_reverse name,
    fun name => hindexed.enums.find?_reverse name, fun table htable label key hkey => ?_,
    fun table htable => ?_, snd_schemaOf dialect d, fun declaration hdeclaration =>
      ⟨fun column _ variableName key hrefers hnone => unresolved_of_refersTo hrefers hnone,
        fun expression hunknown => hunknown.passed hdeclaration, ?_⟩⟩
  · obtain ⟨declaration, hdeclaration, rfl⟩ := mem_tables_schemaOf htable
    obtain ⟨target, htarget, hname⟩ :=
      exists_target_of_declaresKey hdeclaration (declaresKey_of_mem hkey)
    rw [← hname]
    exact name_mem_schemaOf htarget
  · obtain ⟨declaration, hdeclaration, rfl⟩ := mem_tables_schemaOf htable
    exact ⟨declaration, hdeclaration, fst_tableOf dialect d declaration⟩
  · intro option _ chain options hchain hbase hoptions edits faults columns targets
    have hedits : edits = ((foreignKeyOf d declaration chain).toOption.map .constraint).toList :=
      optionEdits_foreignKey hchain hbase declaration.name
    have hfaults : faults = faultOf (foreignKeyOf d declaration chain) :=
      optionFaults_foreignKey hchain hbase declaration.name
    rw [hedits, hfaults]
    have hresolved (hcolumns : columns ≠ []) (htargets : targets ≠ []) :=
      foreignKeyOf_resolved (d := d) hoptions hcolumns htargets
    refine ⟨⟨fun hrefused => ?_, fun hnowhere => ?_⟩, fun hcolumns htargets => ?_⟩
    · by_contra hsomewhere
      obtain ⟨hcolumns, htargets⟩ := not_or.1 hsomewhere
      obtain ⟨label, key, hkey, -⟩ := hresolved hcolumns htargets
      rw [hkey] at hrefused
      cases hrefused.1
    · rw [foreignKeyOf_refused hoptions hnowhere]
      exact ⟨rfl, rfl⟩
    · obtain ⟨label, key, hkey, hparts⟩ := hresolved hcolumns htargets
      rw [hkey]
      exact ⟨label, key, rfl, rfl, hparts⟩

/-- A foreign key refers to a column of an unknown variable and to one of a table. -/
def partlyUnknown : List Lexeme :=
  Lexeme.ofText ("const u = pgTable('u', \x7b\x7d);" ++
    "const t = pgTable('t', \x7b\x7d, () => [" ++
      "foreignKey(\x7bcolumns: ['a'], foreignColumns: [w.x, u.y]\x7d)])")

def partlyUnknownOptions : Expression :=
  .object [("columns", .list [.string "a"]),
    ("foreignColumns", .list [.member (.word "w") "x", .member (.word "u") "y"])]

def partlyUnknownTable : TableDeclaration :=
  ⟨"t", "t", [], none, [.call (.word "foreignKey") [partlyUnknownOptions]], 1⟩

/-- The lexemes of a line; no declaration starts right after a dot. -/
def lineOf (line : Nat) (tokens : List Token) : List Lexeme :=
  tokens.zipWith (fun token before => ⟨token, line, Lexeme.allowsDeclaration before⟩)
    (.semicolon :: tokens)

theorem partlyUnknown_eq : partlyUnknown =
    lineOf 1 [.word "const", .word "u", .equals, .word "pgTable", .leftParen, .string "u", .comma,
      .leftBrace, .rightBrace, .rightParen, .semicolon] ++
    lineOf 1 [.word "const", .word "t", .equals, .word "pgTable", .leftParen, .string "t", .comma,
      .leftBrace, .rightBrace, .comma, .leftParen, .rightParen, .arrow, .leftBracket,
      .word "foreignKey", .leftParen, .leftBrace, .word "columns", .colon, .leftBracket,
      .string "a", .rightBracket, .comma, .word "foreignColumns", .colon, .leftBracket, .word "w",
      .dot, .word "x", .comma, .word "u", .dot, .word "y", .rightBracket, .rightBrace, .rightParen,
      .rightBracket, .rightParen, .eof] := by
  rw [partlyUnknown, Lexeme.ofText, String.toList_append, String.toList_append,
    String.toList_ofList, String.toList_ofList, String.toList_ofList]
  decide +kernel

theorem declarations_partlyUnknown : (extract partlyUnknown).1.declarations =
    ⟨[⟨"u", "u", [], none, [], 1⟩, partlyUnknownTable], []⟩ := by
  rw [partlyUnknown_eq]
  decide +kernel

/-- The part of the key that leads nowhere is left out, and nothing is reported. -/
theorem references_resolve_partlyUnknown :
    let d := (extract partlyUnknown).1.declarations
    partlyUnknownTable ∈ d.tables ∧ (schemaOf .postgres d).2 = [] ∧
      ∃ option ∈ partlyUnknownTable.options,
        ∃ missing ∈ listed partlyUnknownOptions "foreignColumns",
          IsUnknown d partlyUnknownTable missing ∧
            ∃ label key, optionEdits d partlyUnknownTable "t" option =
              [.constraint (.foreignKey label key)] ∧
                key.targetTable = "u" ∧ key.targetColumns = ["y"] := by
  obtain ⟨-, -, -, -, -, -, hwarnings, hparts⟩ := references_resolve .postgres partlyUnknown
  rw [declarations_partlyUnknown] at hparts hwarnings ⊢
  have hmem : partlyUnknownTable ∈ [⟨"u", "u", [], none, [], 1⟩, partlyUnknownTable] :=
    List.mem_of_getElem? (i := 1) rfl
  obtain ⟨-, -, hoptions⟩ := hparts partlyUnknownTable hmem
  obtain ⟨-, hresolved⟩ := hoptions _ List.mem_cons_self _ _ rfl rfl rfl
  obtain ⟨label, key, hedits, hfaults, -, hcolumns, htable⟩ := hresolved nofun nofun
  have hsilent := (List.flatMap_singleton _ _).trans hfaults
  refine ⟨hmem, ?_, _, List.mem_cons_self, .member (.word "w") "x", List.mem_cons_self,
    ⟨"w", "x", rfl, nofun, rfl⟩, label, key, hedits, Option.some.inj htable, hcolumns⟩
  rw [hwarnings, List.flatMap_cons, List.flatMap_singleton]
  exact hsilent

end SchemaEvolution.Drizzle
