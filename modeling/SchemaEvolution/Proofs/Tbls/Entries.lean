import SchemaEvolution.Proofs.Json.Printed
import SchemaEvolution.Proofs.Source.WellKeyed

/-!
# Entries of exports

An entry of an export has its own share in the result: what it defines, the error about the entry
itself, or the warnings about its constraints.  The result puts the shares of all entries together.
So an entry that is replaced by another one changes its own share, and nothing else.
-/

namespace SchemaEvolution.Tbls

/-- What one entry of an export gives. -/
structure Share where
  table? : Option Table
  enum? : Option EnumType
  faults : List Diagnostic
  warnings : List Diagnostic
  deriving DecidableEq

namespace Share

def nothing : Share := ⟨none, none, [], []⟩

def failure (message : String) : Share := ⟨none, none, [.error message none], []⟩

def table (read : Table × List Diagnostic) : Share := ⟨some read.1, none, [], read.2⟩

def enum (type : EnumType) : Share := ⟨none, some type, [], []⟩

end Share

/-- The result defines what the shares define, in their order, and reports what they report: first
the entries that can not be decoded. -/
structure Gathers (shares : List Share) (result : Import) : Prop where
  tables : result.schema.tables.toList =
    (shares.filterMap Share.table?).map fun table => (table.name, table)
  enums : result.schema.enums.toList =
    (shares.filterMap Share.enum?).map fun type => (type.name, type)
  extensions : result.schema.extensions = ∅
  diagnostics : result.diagnostics = shares.flatMap Share.faults ++ shares.flatMap Share.warnings

/-- The two lists of an export. -/
inductive Section where
  | enums
  | tables

def EnumEntry.enum (entry : EnumEntry) : EnumType := ⟨localName entry.name, entry.values, none⟩

def TableEntry.share (entry : TableEntry) : Share :=
  if entry.isView then .nothing else .table entry.table

/-- What is read from an entry: its value, or the message about it. -/
def reading {α : Type} (shape : Json.Shape α) (name : String) (position : Nat) (entry : Json) :
    Except String α :=
  (shape.decode .document entry).mapError fun fault =>
    entryLabel name position entry ++ ": " ++ fault.message

/-- What is read from the entries of a list.  A list that is none gives the message about that. -/
def readings {α : Type} (shape : Json.Shape α) (name : String) (document : Json) :
    List (Except String α) :=
  match document.member? name with
  | none | some .null => []
  | some (.array entries) =>
    entries.zipIdx.map fun (entry, position) => reading shape name position entry
  | some _ => [.error ("\x60" ++ name ++ "\x60 must be an array")]

def Share.of {α : Type} (share : α → Share) : Except String α → Share
  | .ok value => share value
  | .error message => .failure message

namespace Section

def key : Section → String
  | .enums => "enums"
  | .tables => "tables"

def share : Section → Nat → Json → Share
  | .enums, position, entry =>
    .of (fun entry => .enum entry.enum) (reading EnumEntry.shape "enums" position entry)
  | .tables, position, entry =>
    .of TableEntry.share (reading TableEntry.shape "tables" position entry)

def shares : Section → Json → List Share
  | .enums, document =>
    (readings EnumEntry.shape "enums" document).map (.of fun entry => .enum entry.enum)
  | .tables, document => (readings TableEntry.shape "tables" document).map (.of TableEntry.share)

/-- The name of an entry without the usual schema, if the entry can be decoded. -/
def name? : Section → Json → Option String
  | .enums, entry =>
    (EnumEntry.shape.decode .document entry).toOption.map fun entry => localName entry.name
  | .tables, entry =>
    (TableEntry.shape.decode .document entry).toOption.map fun entry => localName entry.name

def isView : Section → Json → Bool
  | .enums, _ => false
  | .tables, entry =>
    ((TableEntry.shape.decode .document entry).toOption.map TableEntry.isView).getD false

end Section

def entries (name : String) (document : Json) : List Json :=
  match document.member? name with
  | some (.array entries) => entries
  | _ => []

def shares (document : Json) : List Share :=
  Section.enums.shares document ++ Section.tables.shares document

/-- The entries that can be decoded have distinct names within each list. -/
def DistinctNames (document : Json) : Prop :=
  ∀ list : Section, ((entries list.key document).filterMap list.name?).Nodup

theorem TableEntry.table_name (entry : TableEntry) : entry.table.1.name = localName entry.name :=
  entry.staysKeyed_table.name

/-- An entry that can not be decoded gives one error and a view gives nothing.  Every other entry
defines one table or one type, under its own name, and gives warnings at most. -/
structure Section.Outcome (list : Section) (position : Nat) (entry : Json) : Prop where
  undecoded : list.name? entry = none → ∃ message, list.share position entry = .failure message
  view : list.isView entry = true → list.share position entry = .nothing
  table : ∀ name, list = .tables → list.name? entry = some name → list.isView entry = false →
    ∃ read : Table × List Diagnostic, list.share position entry = .table read ∧
      read.1.name = name ∧ ∀ warning ∈ read.2, warning.severity = .warning
  enum : ∀ name, list = .enums → list.name? entry = some name →
    ∃ type : EnumType, list.share position entry = .enum type ∧ type.name = name

theorem ConstraintEntry.severity_of_constraint? {table : String} {entry : ConstraintEntry}
    {warning : Diagnostic} (hrefused : entry.constraint? table = .error warning) :
    warning.severity = .warning := by
  rw [constraint?] at hrefused
  split at hrefused <;> try cases hrefused
  all_goals
    split at hrefused
    · cases hrefused
    · cases hrefused
      rfl

/-- Nothing but warnings is reported about the constraints of a table. -/
theorem TableEntry.severity_of_table {entry : TableEntry} :
    ∀ warning ∈ entry.table.2, warning.severity = .warning := by
  rw [TableEntry.table]
  extract_lets
  refine List.foldlRecOn entry.constraints _ (motive := fun state : Table × List Diagnostic =>
    ∀ warning ∈ state.2, warning.severity = .warning) (List.forall_mem_nil _) ?_
  rintro ⟨table, warnings⟩ hwarnings constraint -
  dsimp only
  split
  · exact hwarnings
  · exact hwarnings
  · next warning hrefused =>
    exact List.forall_mem_append.2 ⟨hwarnings,
      List.forall_mem_singleton.2 (ConstraintEntry.severity_of_constraint? hrefused)⟩

/-- Each entry gives an entity, an error or nothing. -/
theorem Section.outcome (list : Section) (position : Nat) (entry : Json) :
    list.Outcome position entry := by
  cases list with
  | enums =>
    cases hdecode : EnumEntry.shape.decode .document entry with
    | error fault =>
      exact {
        undecoded := fun _ => ⟨_, by rw [share, reading, hdecode]; rfl⟩
        view := by rintro ⟨⟩
        table := by rintro _ ⟨⟩
        enum := by
          intro name _ hname
          rw [name?, hdecode] at hname
          cases hname }
    | ok value =>
      exact {
        undecoded := by
          intro hname
          rw [name?, hdecode] at hname
          cases hname
        view := by rintro ⟨⟩
        table := by rintro _ ⟨⟩
        enum := by
          intro name _ hname
          rw [name?, hdecode] at hname
          exact ⟨value.enum, by rw [share, reading, hdecode]; rfl, Option.some.inj hname⟩ }
  | tables =>
    cases hdecode : TableEntry.shape.decode .document entry with
    | error fault =>
      exact {
        undecoded := fun _ => ⟨_, by rw [share, reading, hdecode]; rfl⟩
        view := by
          intro hview
          rw [isView, hdecode] at hview
          cases hview
        table := by
          intro name _ hname
          rw [name?, hdecode] at hname
          cases hname
        enum := by rintro _ ⟨⟩ }
    | ok value =>
      exact {
        undecoded := by
          intro hname
          rw [name?, hdecode] at hname
          cases hname
        view := by
          intro hview
          rw [isView, hdecode, Except.toOption, Option.map_some, Option.getD_some] at hview
          rw [share, reading, hdecode]
          change value.share = .nothing
          rw [TableEntry.share, if_pos hview]
        table := by
          intro name _ hname hview
          rw [name?, hdecode] at hname
          rw [isView, hdecode, Except.toOption, Option.map_some, Option.getD_some] at hview
          refine ⟨value.table, ?_, value.table_name.trans (Option.some.inj hname),
            TableEntry.severity_of_table⟩
          rw [share, reading, hdecode]
          change value.share = .table value.table
          rw [TableEntry.share, if_neg (Bool.eq_false_iff.1 hview)]
        enum := by rintro _ ⟨⟩ }

section Lists

variable {α β : Type} {shape : Json.Shape α} {name : String} {document : Json}

theorem toOption_reading (position : Nat) (entry : Json) :
    (reading shape name position entry).toOption = (shape.decode .document entry).toOption := by
  rw [reading]
  cases shape.decode .document entry <;> rfl

/-- The message that is read instead of a value. -/
def faultOf? : Except String α → Option Diagnostic
  | .ok _ => none
  | .error message => some (.error message none)

/-- Entities and errors are gathered from the same readings. -/
theorem entriesOf_eq (shape : Json.Shape α) (name : String) (document : Json) :
    entriesOf shape name document =
      ((readings shape name document).filterMap Except.toOption,
        (readings shape name document).filterMap faultOf?) := by
  rw [entriesOf, readings]
  cases document.member? name with
  | none => rfl
  | some value =>
    cases value with
    | array entries =>
      dsimp only
      rw [List.filterMap_map, List.filterMap_map, List.filterMap_map, List.filterMap_map]
      refine Prod.ext (List.filterMap_congr ?_) (List.filterMap_congr ?_)
      all_goals
        rintro ⟨entry, position⟩ -
        dsimp only [Function.comp, reading]
        cases shape.decode .document entry <;> rfl
    | null => rfl
    | bool value => rfl
    | number value => rfl
    | string value => rfl
    | object members => rfl

/-- The entities are those of the entries that can be decoded. -/
theorem toOption_readings : (readings shape name document).filterMap Except.toOption =
    (entries name document).filterMap fun entry => (shape.decode .document entry).toOption := by
  rw [readings, entries]
  cases document.member? name with
  | none => rfl
  | some value =>
    cases value with
    | array entries =>
      rw [List.filterMap_map]
      conv_rhs => rw [← List.zipIdx_map_fst 0 entries, List.filterMap_map]
      exact List.filterMap_congr fun placed _ => toOption_reading _ _
    | null => rfl
    | bool value => rfl
    | number value => rfl
    | string value => rfl
    | object members => rfl

section Shares

variable (share : α → Share) (read : List (Except String α))

/-- What is defined comes from the entries that can be decoded. -/
theorem filterMap_shares (part : Share → Option β)
    (hfailure : ∀ message, part (.failure message) = none) :
    (read.map (Share.of share)).filterMap part =
      (read.filterMap Except.toOption).filterMap fun value => part (share value) := by
  rw [List.filterMap_map, List.filterMap_filterMap]
  refine List.filterMap_congr fun outcome _ => ?_
  cases outcome with
  | ok value => rfl
  | error message => exact hfailure message

theorem warnings_shares : (read.map (Share.of share)).flatMap Share.warnings =
    (read.filterMap Except.toOption).flatMap fun value => (share value).warnings := by
  induction read with
  | nil => rfl
  | cons first more ih =>
    rw [List.map_cons, List.flatMap_cons, ih]
    cases first <;> rfl

/-- The failures are those of the entries that can not be decoded. -/
theorem faults_shares (hshare : ∀ value, (share value).faults = []) :
    (read.map (Share.of share)).flatMap Share.faults = read.filterMap faultOf? := by
  induction read with
  | nil => rfl
  | cons first more ih =>
    rw [List.map_cons, List.flatMap_cons, ih]
    cases first with
    | ok value => exact congrArg (· ++ _) (hshare value)
    | error message => rfl

end Shares

end Lists

/-! ## The result -/

/-- The tables that entries define, with the warnings about them. -/
def definedTables (entries : List TableEntry) : List (Table × List Diagnostic) :=
  (entries.filter fun entry => !entry.isView).map TableEntry.table

theorem definedTables_cons (entry : TableEntry) (more : List TableEntry) :
    definedTables (entry :: more) =
      if entry.isView then definedTables more else entry.table :: definedTables more := by
  rw [definedTables, List.filter_cons]
  cases entry.isView <;> rfl

theorem table?_share (entries : List TableEntry) :
    (entries.filterMap fun entry => entry.share.table?) =
      (definedTables entries).map Prod.fst := by
  induction entries with
  | nil => rfl
  | cons entry more ih =>
    rw [List.filterMap_cons, definedTables_cons, ih, TableEntry.share]
    cases entry.isView <;> rfl

theorem warnings_share (entries : List TableEntry) :
    (entries.flatMap fun entry => entry.share.warnings) =
      (definedTables entries).flatMap Prod.snd := by
  induction entries with
  | nil => rfl
  | cons entry more ih =>
    rw [List.flatMap_cons, definedTables_cons, ih, TableEntry.share]
    cases entry.isView <;> rfl

theorem faults_share (entry : TableEntry) : entry.share.faults = [] := by
  rw [TableEntry.share]
  cases entry.isView <;> rfl

theorem enum?_share (entry : TableEntry) : entry.share.enum? = none := by
  rw [TableEntry.share]
  cases entry.isView <;> rfl

theorem importDocument_eq (document : Json) : importDocument document =
    ⟨((definedTables (entriesOf TableEntry.shape "tables" document).1).map Prod.fst).foldl
        Schema.addTable
        (((entriesOf EnumEntry.shape "enums" document).1.map EnumEntry.enum).foldl
          Schema.addEnum .empty),
      (entriesOf EnumEntry.shape "enums" document).2 ++
        (entriesOf TableEntry.shape "tables" document).2 ++
        (definedTables (entriesOf TableEntry.shape "tables" document).1).flatMap Prod.snd⟩ := by
  rw [List.foldl_map (f := EnumEntry.enum)]
  rfl

theorem names_entriesOf (document : Json) :
    (entries "enums" document).filterMap Section.enums.name? =
        (entriesOf EnumEntry.shape "enums" document).1.map (fun entry => localName entry.name) ∧
      (entries "tables" document).filterMap Section.tables.name? =
        (entriesOf TableEntry.shape "tables" document).1.map
          fun entry => localName entry.name := by
  rw [entriesOf_eq, entriesOf_eq, toOption_readings, toOption_readings, List.map_filterMap,
    List.map_filterMap]
  exact ⟨rfl, rfl⟩

/-- A result is what the shares of its entries make up. -/
theorem gathers_importDocument {document : Json} (hdistinct : DistinctNames document) :
    Gathers (shares document) (importDocument document) := by
  obtain ⟨henumNames, htableNames⟩ := names_entriesOf document
  have henums : (((entriesOf EnumEntry.shape "enums" document).1.map EnumEntry.enum).map
      EnumType.name).Nodup := by
    rw [List.map_map]
    exact henumNames ▸ hdistinct .enums
  have htables : (((definedTables (entriesOf TableEntry.shape "tables" document).1).map
      Prod.fst).map Table.name).Nodup := by
    have hnames := htableNames ▸ hdistinct .tables
    rw [definedTables, List.map_map, List.map_map]
    have hname : (Table.name ∘ Prod.fst) ∘ TableEntry.table =
        fun entry => localName entry.name := funext TableEntry.table_name
    rw [hname]
    exact hnames.sublist ((List.filter_sublist).map _)
  have hparts {β : Type} (part : Share → Option β)
      (hfailure : ∀ message, part (.failure message) = none) :
      (shares document).filterMap part =
        (entriesOf EnumEntry.shape "enums" document).1.filterMap
            (fun entry => part (.enum entry.enum)) ++
          (entriesOf TableEntry.shape "tables" document).1.filterMap
            fun entry => part entry.share := by
    rw [shares, List.filterMap_append, entriesOf_eq, entriesOf_eq]
    exact congrArg₂ _ (filterMap_shares _ _ part hfailure) (filterMap_shares _ _ part hfailure)
  rw [importDocument_eq, Schema.foldl_addTable, Schema.foldl_addEnum]
  exact {
    tables := by
      refine (Keyed.toList_foldl_insert htables).trans (congrArg _ ?_)
      rw [hparts Share.table? fun _ => rfl, table?_share]
      exact congrArg (· ++ _) (List.filterMap_none _).symm
    enums := by
      refine (Keyed.toList_foldl_insert henums).trans (congrArg _ ?_)
      rw [hparts Share.enum? fun _ => rfl]
      simp only [enum?_share, List.filterMap_none, List.append_nil]
      exact (congrFun List.filterMap_eq_map _).symm
    extensions := rfl
    diagnostics := by
      have hquiet (entries : List EnumEntry) :
          (entries.flatMap fun entry => (Share.enum entry.enum).warnings) = [] :=
        List.flatMap_eq_nil_iff.2 fun _ _ => rfl
      rw [shares, List.flatMap_append, List.flatMap_append]
      simp only [Section.shares]
      rw [faults_shares _ _ fun _ => rfl, faults_shares _ _ faults_share, warnings_shares,
        warnings_shares, hquiet, List.nil_append, ← warnings_share, entriesOf_eq, entriesOf_eq] }

/-! ## One entry in place of another -/

def Section.sharesFrom (list : Section) (start : Nat) (found : List Json) : List Share :=
  (found.zipIdx start).map fun (entry, position) => list.share position entry

/-- The share of an entry stands between those of the others. -/
theorem Section.shares_around {list : Section} {document : Json} {before after : List Json}
    {entry : Json}
    (hfound : document.member? list.key = some (.array (before ++ entry :: after))) :
    list.shares document =
      list.sharesFrom 0 before ++ list.share before.length entry ::
        list.sharesFrom (before.length + 1) after := by
  have hall : list.shares document = list.sharesFrom 0 (before ++ entry :: after) := by
    cases list
    all_goals
      rw [key] at hfound
      rw [shares, readings, hfound, List.map_map]
      rfl
  rw [hall, sharesFrom, List.zipIdx_append, List.map_append, List.zipIdx_cons, List.map_cons,
    Nat.zero_add]
  rfl

/-- The documents differ in one entry of a list at most, whose new name is not that of another
entry. -/
structure Replaces (list : Section) (before after : List Json) (old new : Json)
    (document document' : Json) : Prop where
  found : document.member? list.key = some (.array (before ++ old :: after))
  replaced : document'.member? list.key = some (.array (before ++ new :: after))
  rest : ∀ other : Section, other ≠ list → document'.member? other.key = document.member? other.key
  fresh : ∀ name, list.name? new = some name →
    ∀ entry ∈ before ++ after, list.name? entry ≠ some name

namespace Replaces

variable {list : Section} {before after : List Json} {old new document document' : Json}
  (hreplaces : Replaces list before after old new document document')

include hreplaces

theorem shares_eq (other : Section) (hother : other ≠ list) :
    other.shares document' = other.shares document := by
  have hsame := hreplaces.rest other hother
  cases other
  all_goals
    rw [Section.key] at hsame
    rw [Section.shares, Section.shares, readings, readings, hsame]

/-- Replacing an entry replaces its share only. -/
theorem exists_shares : ∃ left right,
    shares document = left ++ list.share before.length old :: right ∧
      shares document' = left ++ list.share before.length new :: right := by
  have hold := Section.shares_around hreplaces.found
  have hnew := Section.shares_around hreplaces.replaced
  cases list with
  | enums =>
    have hsame := hreplaces.shares_eq .tables (by rintro ⟨⟩)
    rw [shares, shares, hold, hnew, hsame, List.append_assoc, List.append_assoc]
    exact ⟨_, _, rfl, rfl⟩
  | tables =>
    have hsame := hreplaces.shares_eq .enums (by rintro ⟨⟩)
    rw [shares, shares, hold, hnew, hsame, ← List.append_assoc, ← List.append_assoc]
    exact ⟨_, _, rfl, rfl⟩

/-- The names stay distinct if a field that is no name is replaced. -/
theorem distinctNames (hdistinct : DistinctNames document) : DistinctNames document' := by
  intro other
  rcases eq_or_ne other list with rfl | hother
  · have hnames := hdistinct other
    rw [entries, hreplaces.found] at hnames
    rw [entries, hreplaces.replaced]
    have hothers : ((before ++ after).filterMap other.name?).Nodup :=
      hnames.sublist (((List.sublist_cons_self old after).append_left before).filterMap _)
    cases hname : other.name? new with
    | none =>
      rw [List.filterMap_append, List.filterMap_cons_none hname, ← List.filterMap_append]
      exact hothers
    | some name =>
      rw [List.filterMap_append, List.filterMap_cons_some hname, List.nodup_middle,
        List.nodup_cons, ← List.filterMap_append]
      refine ⟨fun hmem => ?_, hothers⟩
      obtain ⟨entry, hentry, heq⟩ := List.mem_filterMap.1 hmem
      exact hreplaces.fresh name hname entry hentry heq
  · rw [entries, hreplaces.rest other hother]
    exact hdistinct other

end Replaces

/-- Whatever stands in the place of an entry, the result gathers the same shares in the same order,
but for the share of that entry. -/
theorem gathers_replaced {members members' : List (String × Json)} {list : Section}
    {before after : List Json} {old new : Json} {text text' : String}
    (hreplaces : Replaces list before after old new (.object members) (.object members'))
    (hparse : Json.parse text = .ok (.object members))
    (hparse' : Json.parse text' = .ok (.object members'))
    (hdistinct : DistinctNames (.object members)) :
    (∃ left right : List Share,
      shares (.object members) = left ++ list.share before.length old :: right ∧
        shares (.object members') = left ++ list.share before.length new :: right) ∧
    Gathers (shares (.object members)) (Schema.ofTbls text) ∧
    Gathers (shares (.object members')) (Schema.ofTbls text') ∧
    list.Outcome before.length old ∧ list.Outcome before.length new := by
  refine ⟨hreplaces.exists_shares, ?_, ?_, list.outcome _ _, list.outcome _ _⟩
  · rw [Schema.ofTbls, hparse]
    exact gathers_importDocument hdistinct
  · rw [Schema.ofTbls, hparse']
    exact gathers_importDocument (hreplaces.distinctNames hdistinct)

/-- Nothing in place of the second of two tables. -/
theorem gathers_replaced_null :
    let first : Json := .object [("name", .string "public.a")]
    let second : Json := .object [("name", .string "b"), ("type", .string "BASE TABLE")]
    let members : List (String × Json) := [("tables", .array [first, second])]
    let members' : List (String × Json) := [("tables", .array [first, .null])]
    (shares (.object members) = [.table (Table.empty "a", []), .table (Table.empty "b", [])] ∧
        Gathers (shares (.object members)) (Schema.ofTbls (Json.object members).compact)) ∧
      shares (.object members') = [.table (Table.empty "a", []),
          .failure "tables[1]: invalid type: null, expected struct TblsTable"] ∧
        Gathers (shares (.object members')) (Schema.ofTbls (Json.object members').compact) := by
  intro first second members members'
  have hfirst : Json.Legible 125 first := .object (List.forall_mem_singleton.2 (.string _))
  have hsecond : Json.Legible 125 second :=
    .object (List.forall_mem_cons.2 ⟨.string _, List.forall_mem_singleton.2 (.string _)⟩)
  have hparse {items : List Json} (hitems : ∀ item ∈ items, Json.Legible 125 item) :
      Json.parse (Json.object [("tables", .array items)]).compact =
        .ok (Json.distinct (.object [("tables", .array items)])) := by
    have hlegible : Json.Legible 127 (.object [("tables", .array items)]) :=
      .object (List.forall_mem_singleton.2 (.array hitems))
    have hread : Json.readText (Json.readAny Json.depthLimit)
        (Json.object [("tables", .array items)]).compact = .ok (.object [("tables", .array items)]) :=
      (Json.prints_compact _).readText hlegible fun _ hwritten => hwritten.reads
    rw [Json.parse, hread]
    rfl
  have hreplaces : Replaces .tables [first] [] second .null (.object members)
      (.object members') := {
    found := rfl
    replaced := rfl
    rest := by
      intro other hother
      cases other with
      | enums => rfl
      | tables => exact absurd rfl hother
    fresh := by
      intro name hname
      cases hname }
  have hdistinct : DistinctNames (.object members) := by
    intro list
    cases list <;> decide
  obtain ⟨-, hgathers, hgathers', -⟩ := gathers_replaced hreplaces
    (hparse (List.forall_mem_cons.2 ⟨hfirst, List.forall_mem_singleton.2 hsecond⟩))
    (hparse (List.forall_mem_cons.2 ⟨hfirst, List.forall_mem_singleton.2 .null⟩)) hdistinct
  have hshares : shares (.object members) =
        [.table (Table.empty "a", []), .table (Table.empty "b", [])] ∧
      shares (.object members') = [.table (Table.empty "a", []),
        .failure "tables[1]: invalid type: null, expected struct TblsTable"] := by
    decide +kernel
  exact ⟨⟨hshares.1, hgathers⟩, hshares.2, hgathers'⟩

end SchemaEvolution.Tbls
