import SchemaEvolution.Program.Run
import SchemaEvolution.Proofs.Patch.Difference
import SchemaEvolution.Proofs.Patch.Document
import SchemaEvolution.Proofs.Patch.Growth

/-!
# Patches that are handed on as text

What one run prints, another run reads back: operations and versions come out as they went in,
and a printed difference is applied without a refusal and reaches the schema that it was made
for.  The reader goes no deeper than a fixed number of brackets, so it refuses what was printed
for a value that nests deeper.
-/

namespace SchemaEvolution

open Patch

namespace Patch

variable {depth : Nat}

namespace PortableValues

theorem nil : PortableValues depth [] := by
  intro op hop
  cases hop

theorem append {front back : List Operation} (hfront : PortableValues depth front)
    (hback : PortableValues depth back) : PortableValues depth (front ++ back) :=
  fun op hop => (List.mem_append.1 hop).elim (hfront op) (hback op)

theorem filter {ops : List Operation} (hvalues : PortableValues depth ops)
    (chosen : Operation → Bool) : PortableValues depth (ops.filter chosen) :=
  fun op hop => hvalues op (List.mem_filter.1 hop).1

theorem add (path : Path) {value : Json} (hvalue : value.Portable depth) :
    PortableValues depth [.add path value] := by
  intro op hop other hother
  cases List.mem_singleton.1 hop
  cases hother
  exact hvalue

theorem of_removes {ops : List Operation} (hremoves : AllOf .remove ops) :
    PortableValues depth ops := by
  intro op hop value hvalue
  have hverb := hremoves op hop
  obtain ⟨path, action⟩ := op
  cases action with
  | remove => cases hvalue
  | add | replace => cases hverb

theorem replaceField {α : Type} [BEq α] (path : Path) {view : α → Json} (old : α) {new : α}
    (hview : (view new).Portable depth) :
    PortableValues depth (replaceField path view old new) := by
  rw [Patch.replaceField]
  split
  · exact nil
  · intro op hop value hvalue
    cases List.mem_singleton.1 hop
    cases hvalue
    exact hview

theorem entryChanges {α : Type} {old new : Keyed α} {added : String → α → List Operation}
    {changed : String → α → α → List Operation}
    (hadded : ∀ name value, new.get? name = some value → PortableValues depth (added name value))
    (hchanged : ∀ name previous value, new.get? name = some value →
      PortableValues depth (changed name previous value)) :
    PortableValues depth (entryChanges old new added changed) := by
  intro op hop
  obtain ⟨name, value, hvalue, ⟨-, hmem⟩ | ⟨previous, -, hmem⟩⟩ := mem_entryChanges hop
  · exact hadded name value hvalue op hmem
  · exact hchanged name previous value hvalue op hmem

end PortableValues

theorem portableValues_columnChanges (table name : String) (old : Column) {new : Column}
    (hnumber : ∀ number, new.default = some (.number number) → number.ReadsBack) :
    PortableValues depth (columnChanges table name old new) := by
  refine .append (.append (.append (.append ?type ?default) ?notNull) ?check) ?comment
  case type => exact .replaceField _ _ (portable_string _)
  case default => exact .replaceField _ _ (portable_optionalDefault hnumber)
  case notNull => exact .replaceField _ _ (portable_bool _)
  case check => exact .replaceField _ _ (portable_optionalText _)
  case comment => exact .replaceField _ _ (portable_optionalText _)

theorem portableValues_indexChanges (table name : String) (old new : Index) :
    PortableValues (depth + 1) (indexChanges table name old new) :=
  .append (.append (.replaceField _ _ (portable_bool _)) (.replaceField _ _ (portable_string _)))
    (.replaceField _ _ (portable_texts _))

/-- The documents among the changes of a constraint are lists at most. -/
theorem portableValues_constraintChanges (table name : String) (old new : Constraint) :
    PortableValues (depth + 2) (constraintChanges table name old new) := by
  rw [constraintChanges]
  split
  case h_1 | h_2 => exact .replaceField _ _ (portable_texts _)
  case h_3 => exact .replaceField _ _ (portable_string _)
  case h_4 =>
    refine .append (.append (.append (.append ?columns ?target) ?targets) ?update) ?delete
    case columns | targets => exact .replaceField _ _ (portable_texts _)
    case target | update | delete => exact .replaceField _ _ (portable_string _)
  case h_5 => exact .add _ new.portable_toJson

/-- The documents among the changes of a table are no deeper than columns are, and are read back if
the numbers are. -/
theorem portableValues_tableChanges (name : String) (old : Table) {new : Table}
    (hnumbers : ∀ column ∈ new.columns.toList, ∀ number,
      column.2.default = some (.number number) → number.ReadsBack) :
    PortableValues (depth + 4) (tableChanges name old new) := by
  refine .append (.append (.append ?comment ?columns) ?indexes) ?constraints
  case comment => exact .replaceField _ _ (portable_optionalText _)
  case columns =>
    have hcolumn (key : String) (column : Column) (hvalue : new.columns.get? key = some column)
        (number : Json.Number) (hdefault : column.default = some (.number number)) :
        number.ReadsBack :=
      hnumbers (key, column) (Keyed.get?_eq_some_iff.1 hvalue) number hdefault
    exact .entryChanges
      (fun key column hvalue => .add _ (column.portable_toJson (hcolumn key _ hvalue)))
      fun key _ column hvalue => portableValues_columnChanges _ _ _ (hcolumn key column hvalue)
  case indexes =>
    exact .entryChanges (fun _ value _ => .add _ value.portable_toJson)
      fun _ _ _ _ => portableValues_indexChanges _ _ _ _
  case constraints =>
    exact .entryChanges (fun _ value _ => .add _ value.portable_toJson)
      fun _ _ _ _ => portableValues_constraintChanges _ _ _ _

theorem portableValues_enumChanges (name : String) (old new : EnumType) :
    PortableValues (depth + 1) (enumChanges name old new) :=
  .append (.replaceField _ _ (portable_texts _)) (.replaceField _ _ (portable_optionalText _))

theorem portableValues_extensionChanges (name : String) (old new : Extension) :
    PortableValues depth (extensionChanges name old new) :=
  .append (.append (.replaceField _ _ (portable_optionalText _))
    (.replaceField _ _ (portable_optionalText _))) (.replaceField _ _ (portable_optionalText _))

/-- The values of a difference nest to four levels at most: those of a table with its columns,
indexes and constraints. -/
theorem portableValues_diff (old : Schema) {new : Schema} (hnumbers : new.NumbersReadBack) :
    PortableValues (depth + 4) (diff old new) := by
  have hchanges : PortableValues (depth + 4) (changes old new) := by
    refine .append (.append ?extensions ?enums) ?tables
    case extensions =>
      exact .entryChanges (fun _ value _ => .add _ value.portable_toJson)
        fun _ _ _ _ => portableValues_extensionChanges _ _ _
    case enums =>
      exact .entryChanges (fun _ value _ => .add _ value.portable_toJson)
        fun _ _ _ _ => portableValues_enumChanges _ _ _
    case tables =>
      have htable (name : String) (table : Table) (hvalue : new.tables.get? name = some table) :
          ∀ column ∈ table.columns.toList, ∀ number,
            column.2.default = some (.number number) → number.ReadsBack :=
        hnumbers (name, table) (Keyed.get?_eq_some_iff.1 hvalue)
      exact .entryChanges
        (fun name table hvalue => .add _ (table.portable_toJson (htable name table hvalue)))
        fun name _ table hvalue => portableValues_tableChanges _ _ (htable name table hvalue)
  exact .append (.append (.of_removes (removals_verbs _ _)) (hchanges.filter _)) (hchanges.filter _)

end Patch

namespace Program

theorem prints_jsonText (value : Json) (pretty : Bool) : value.Prints (jsonText value pretty) := by
  cases pretty with
  | false => exact ⟨value.compact, List.mem_cons_self, .inr rfl⟩
  | true => exact ⟨value.indented, List.mem_cons_of_mem _ List.mem_cons_self, .inr rfl⟩

/-- After a report with a result the next one goes on with it. -/
theorem Report.bind_of_ok {α β : Type} {report : Report α} {value : α}
    (hreport : report.result = .ok value) (next : α → Report β) :
    report >>= next = ⟨report.notes ++ (next value).notes, (next value).result⟩ := by
  change Report.bind report next = _
  rw [Report.bind, hreport]

variable {files : Files} {options : Options} {before after : Schema}

theorem Command.content_diff {old new : String}
    (hold : (loadSchema files old options.format).result = .ok before)
    (hnew : (loadSchema files new options.format).result = .ok after) :
    ((Command.diff old new).content files options).result =
      .ok (jsonText (.array ((Patch.diff before after).map Operation.toJson)) options.pretty) := by
  rw [Command.content, Report.bind_of_ok hold, Report.bind_of_ok hnew]
  rfl

/-- Applying a text of operations that are all accepted prints the schema reached. -/
theorem Command.content_apply {schema operations text : String} {ops : List Operation}
    {reached : Schema} (hschema : (loadSchema files schema options.format).result = .ok before)
    (htext : files operations = .ok text) (hops : Operation.parseAll text = .ok ops)
    (happly : applyAll before ops = ⟨reached, []⟩) :
    (Command.apply schema operations).content files options =
      ⟨(loadSchema files schema options.format).notes,
        .ok (jsonText reached.toJson options.pretty)⟩ := by
  have hfile : (fileText files operations).result = .ok text := by
    rw [fileText, htext]
    rfl
  have hnotes : (fileText files operations).notes = [] := by
    rw [fileText, htext]
    rfl
  rw [Command.content, Report.bind_of_ok hschema, Report.bind_of_ok hfile, hnotes, hops]
  simp only [happly]
  rw [Report.bind_of_ok rfl]
  simp only [Report.note, List.map_nil, List.nil_append]
  exact congrArg (Report.mk · _) (List.append_nil _)

/-- A file with the document of a schema is loaded as that schema. -/
theorem loadSchema_toDocument {path : String} {schema : Schema}
    (hnumbers : schema.NumbersReadBack) (hfile : files path = .ok schema.toDocument) :
    loadSchema files path .native = ⟨[], .ok schema⟩ := by
  have htext : fileText files path = ⟨[], .ok schema.toDocument⟩ := by
    rw [fileText, hfile]
    rfl
  have hsource : importSource .native schema.toDocument = ⟨schema, []⟩ := by
    have hresolve : Format.native.resolve schema.toDocument = .native := rfl
    rw [importSource, hresolve]
    exact Schema.ofDocument_toDocument hnumbers
  rw [loadSchema, htext, Report.bind_of_ok rfl]
  simp only [hsource]
  rfl

open History (Version)

/-- Operations and versions over them are read back from any text that is printed for them, as
long as their values leave room for the brackets around them.  What a run prints as the
difference between two schemas is applied by another run to the first one without a refusal,
which then prints the second one. -/
theorem printed_patches_read_back :
    (∀ (ops : List Operation) (text : String), PortableValues 125 ops →
      (Json.array (ops.map Operation.toJson)).Prints text → Operation.parseAll text = .ok ops) ∧
    (∀ (versions : List Version) (text : String),
      (∀ version ∈ versions, PortableValues 123 version.operations) →
      (Json.array (versions.map Version.toJson)).Prints text →
      Version.parseAll text = .ok versions) ∧
    ∀ (files : Files) (options : Options) (old new : String) (before after : Schema),
      (loadSchema files old options.format).result = .ok before →
      (loadSchema files new options.format).result = .ok after →
      before.WellKeyed → after.WellKeyed → before.NoEmptyName → after.NoEmptyName →
      after.NumbersReadBack →
      ∃ text reached, ((Command.diff old new).content files options).result = .ok text ∧
        (reached == after) = true ∧
        ∀ (files' : Files) (options' : Options) (patch : String),
          (loadSchema files' old options'.format).result = .ok before → files' patch = .ok text →
          (Command.apply old patch).content files' options' =
            ⟨(loadSchema files' old options'.format).notes,
              .ok (jsonText reached.toJson options'.pretty)⟩ := by
  refine ⟨fun _ _ => Operation.parseAll_of_prints, fun _ _ => Version.parseAll_of_prints, ?_⟩
  intro files options old new before after hold hnew hbefore hafter hnames hnames' hnumbers
  obtain ⟨reached, hrun, hreached⟩ := diff_reach hnames hnames' hbefore hafter
  refine ⟨_, reached, Command.content_diff hold hnew, hreached, ?_⟩
  intro files' options' patch hold' hpatch
  have hvalues : PortableValues (121 + 4) (diff before after) :=
    portableValues_diff before hnumbers
  have hops := Operation.parseAll_of_prints hvalues (prints_jsonText _ options.pretty)
  exact Command.content_apply hold' hpatch hops (foldl_step_of_foldlM hrun [])

/-- Operations with a null value, without a value, and with names that are not in order. -/
def mixedOperations : List Operation :=
  [⟨"/tables/a~1b", .add .null⟩, ⟨"not a path", .remove⟩,
    ⟨"", .replace (.object [("b", .null), ("a", .array [.string "\n"])])⟩]

theorem portableValues_mixedOperations (depth : Nat) :
    PortableValues (depth + 2) mixedOperations := by
  intro op hop value hvalue
  have hcases : op ∈ [_, _, _] := hop
  simp only [List.mem_cons, List.not_mem_nil, or_false] at hcases
  rcases hcases with rfl | rfl | rfl <;> cases hvalue
  · exact ⟨.null, .null⟩
  · have hlegible : (Json.array [.string "\n"]).Legible (depth + 1) :=
      .array (List.forall_mem_singleton.2 (.string _))
    have honce : (Json.array [.string "\n"]).NamesOnce :=
      .array (List.forall_mem_singleton.2 (.string _))
    refine ⟨.object ?_, .object (by decide) ?_⟩ <;> simp only [List.forall_mem_cons]
    · exact ⟨.null, hlegible, List.forall_mem_nil _⟩
    · exact ⟨.null, honce, List.forall_mem_nil _⟩

theorem numbersReadBack_slashed (rule : Rule) : (slashed rule).NumbersReadBack := by
  intro table htable column hcolumn number hdefault
  have htables : table ∈ [_] := htable
  cases List.mem_singleton.1 htables
  have hcolumns : column ∈ [_] := hcolumn
  cases List.mem_singleton.1 hcolumns
  cases hdefault

def besideDocument (schema : Schema) (text : String) : Files := fun path =>
  if path = "old.json" then .ok schema.toDocument else .ok text

theorem besideDocument_old (schema : Schema) (text : String) :
    besideDocument schema text "old.json" = .ok schema.toDocument :=
  if_pos rfl

theorem besideDocument_of_ne (schema : Schema) (text : String) {path : String}
    (hne : path ≠ "old.json") : besideDocument schema text path = .ok text :=
  if_neg hne

theorem printed_patches_read_back_mixed :
    Operation.parseAll (Json.array (mixedOperations.map Operation.toJson)).indented =
        .ok mixedOperations ∧
      Version.parseAll (Json.array ([⟨7, mixedOperations⟩, ⟨0, []⟩].map Version.toJson)).compact =
        .ok [⟨7, mixedOperations⟩, ⟨0, []⟩] ∧
      ∃ text reached, ((Command.diff "old.json" "new.json").content
          (besideDocument (slashed (.primaryKey ["id"])) (slashed (.unique ["id"])).toDocument)
          ⟨.native, none, false⟩).result = .ok text ∧
        (reached == slashed (.unique ["id"])) = true ∧
        (Command.apply "old.json" "patch.json").content
          (besideDocument (slashed (.primaryKey ["id"])) text) ⟨.native, none, true⟩ =
          ⟨[], .ok (jsonText reached.toJson true)⟩ := by
  refine ⟨printed_patches_read_back.1 _ _ (portableValues_mixedOperations 123)
    (Json.prints_indented _), ?_, ?_⟩
  · refine printed_patches_read_back.2.1 _ _ ?_ (Json.prints_compact _)
    intro version hversion
    rcases List.mem_pair.1 hversion with rfl | rfl
    · exact portableValues_mixedOperations 121
    · exact .nil
  · have hkeyed : (slashed (.primaryKey ["id"])).WellKeyed ∧ (slashed (.unique ["id"])).WellKeyed ∧
        (slashed (.primaryKey ["id"])).NoEmptyName ∧ (slashed (.unique ["id"])).NoEmptyName := by
      decide
    have hold (text : String) :
        loadSchema (besideDocument (slashed (.primaryKey ["id"])) text) "old.json" .native =
          ⟨[], .ok (slashed (.primaryKey ["id"]))⟩ :=
      loadSchema_toDocument (numbersReadBack_slashed _) (besideDocument_old _ text)
    have hnew : loadSchema (besideDocument (slashed (.primaryKey ["id"]))
        (slashed (.unique ["id"])).toDocument) "new.json" .native =
          ⟨[], .ok (slashed (.unique ["id"]))⟩ :=
      loadSchema_toDocument (numbersReadBack_slashed _) (besideDocument_of_ne _ _ (by decide))
    obtain ⟨hbefore, hafter, hnames, hnames'⟩ := hkeyed
    obtain ⟨text, reached, htext, hreached, happly⟩ := printed_patches_read_back.2.2
      (besideDocument (slashed (.primaryKey ["id"])) (slashed (.unique ["id"])).toDocument)
      ⟨.native, none, false⟩ "old.json" "new.json" _ _ (congrArg Report.result (hold _))
      (congrArg Report.result hnew) hbefore hafter hnames hnames' (numbersReadBack_slashed _)
    refine ⟨text, reached, htext, hreached, ?_⟩
    rw [happly _ ⟨.native, none, true⟩ "patch.json" (congrArg Report.result (hold text))
      (besideDocument_of_ne _ text (by decide)), hold]

end Program

/-! ## Deep values -/

/-- An empty value within brackets. -/
def Json.nested : Nat → Json
  | 0 => .null
  | depth + 1 => .array [nested depth]

theorem Json.portable_nested (depth : Nat) : (nested depth).Portable depth := by
  induction depth with
  | zero => exact ⟨.null, .null⟩
  | succ depth ih =>
    exact ⟨.array (List.forall_mem_singleton.2 ih.legible),
      .array (List.forall_mem_singleton.2 ih.once)⟩

def Patch.Operation.addNested (depth : Nat) : Operation := ⟨"/x", .add (Json.nested depth)⟩

/-- What is printed for one level of brackets more than there is room for is not read back, in
a list of operations as in a list of versions. -/
theorem Patch.addNested_not_read_back :
    (PortableValues 126 [Operation.addNested 126] ∧
      Operation.parseAll (Json.array ([Operation.addNested 126].map Operation.toJson)).compact ≠
        .ok [Operation.addNested 126]) ∧
    (PortableValues 124 [Operation.addNested 124] ∧
      History.Version.parseAll
          (Json.array ([⟨1, [Operation.addNested 124]⟩].map History.Version.toJson)).compact ≠
        .ok [⟨1, [Operation.addNested 124]⟩]) := by
  have hvalues (depth : Nat) : PortableValues depth [Operation.addNested depth] := by
    intro op hop value hvalue
    cases List.mem_singleton.1 hop
    cases hvalue
    exact Json.portable_nested depth
  have hoperations : (Operation.parseAll
      (Json.array ([Operation.addNested 126].map Operation.toJson)).compact).isOk = false := by
    rw [Operation.parseAll, Json.Shape.parse, Json.readText, Json.Cursor.start, Json.compact,
      String.toList_ofList]
    decide +kernel
  have hversions : (History.Version.parseAll
      (Json.array ([⟨1, [Operation.addNested 124]⟩].map History.Version.toJson)).compact).isOk =
        false := by
    rw [History.Version.parseAll, Json.Shape.parse, Json.readText, Json.Cursor.start, Json.compact,
      String.toList_ofList]
    decide +kernel
  refine ⟨⟨hvalues 126, fun heq => ?_⟩, hvalues 124, fun heq => ?_⟩
  · rw [heq] at hoperations
    cases hoperations
  · rw [heq] at hversions
    cases hversions

end SchemaEvolution
