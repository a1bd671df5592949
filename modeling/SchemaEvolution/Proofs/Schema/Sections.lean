import SchemaEvolution.Proofs.Json.Printed
import SchemaEvolution.Proofs.Json.Settled
import SchemaEvolution.Schema.Import

/-!
# Documents taken apart

A document that is an object holds in each of its sections the entries that can be decoded on
their own, whether or not it has the shape of a schema as a whole.  A document that has the shape
of a schema is that schema, which is what its sections give too.
-/

namespace SchemaEvolution

open Json (Shape Fields Settles occurrences others fieldStep)

variable {α : Type} {shape : Shape α} {name : String}

/-- A member of a section as an entry, if it can be decoded on its own. -/
def decodedEntry (shape : Shape α) (member : String × Json) : Option (String × α) :=
  match shape.decode .document member.2 with
  | .ok entry => some (member.1, entry)
  | .error _ => none

def entryFault (shape : Shape α) (name : String) (member : String × Json) : Option Diagnostic :=
  match shape.decode .document member.2 with
  | .ok _ => none
  | .error fault => some (.error (name ++ "/" ++ member.1 ++ ": " ++ fault.message) none)

/-- The entries and diagnostics of a section, entry by entry. -/
def Decodes (shape : Shape α) (name : String) (found : Option Json) (entries : Keyed α)
    (diagnostics : List Diagnostic) : Prop :=
  match found with
  | none | some .null => entries = ∅ ∧ diagnostics = []
  | some (.object members) =>
    entries.toList = members.filterMap (decodedEntry shape) ∧
      diagnostics = members.filterMap (entryFault shape name)
  | some _ =>
    entries = ∅ ∧ diagnostics = [.error ("`" ++ name ++ "` must be an object keyed by name") none]

/-- Puts a member of a section among its entries or its diagnostics. -/
def entryStep (shape : Shape α) (name : String) (done : Keyed α × List Diagnostic)
    (member : String × Json) : Keyed α × List Diagnostic :=
  match shape.decode .document member.2 with
  | .ok entry => (done.1.insert member.1 entry, done.2)
  | .error fault =>
    (done.1, done.2 ++ [.error (name ++ "/" ++ member.1 ++ ": " ++ fault.message) none])

theorem importSection_object {document : Json} {members : List (String × Json)}
    (hfound : document.member? name = some (.object members)) :
    Schema.importSection shape name document =
      members.foldl (entryStep shape name) (∅, []) := by
  rw [Schema.importSection, hfound]
  rfl

/-- Members under new names are added at the end. -/
theorem foldl_entryStep {members : List (String × Json)} {done : Keyed α}
    {diagnostics : List Diagnostic} (hnames : (members.map Prod.fst).Nodup)
    (hnew : ∀ member ∈ members, member.1 ∉ done.keys) :
    (members.foldl (entryStep shape name) (done, diagnostics)).1.toList =
        done.toList ++ members.filterMap (decodedEntry shape) ∧
      (members.foldl (entryStep shape name) (done, diagnostics)).2 =
        diagnostics ++ members.filterMap (entryFault shape name) := by
  induction members generalizing done diagnostics with
  | nil => exact ⟨(List.append_nil _).symm, (List.append_nil _).symm⟩
  | cons member rest ih =>
    rw [List.map_cons, List.nodup_cons] at hnames
    rw [List.forall_mem_cons] at hnew
    simp only [List.foldl_cons, List.filterMap_cons, entryStep, decodedEntry, entryFault]
    cases shape.decode .document member.2 with
    | error fault =>
      obtain ⟨hentries, hfaults⟩ := ih hnames.2 hnew.2
      refine ⟨hentries, hfaults.trans ?_⟩
      rw [List.append_assoc]
      rfl
    | ok entry =>
      have hrest : ∀ other ∈ rest, other.1 ∉ (done.insert member.1 entry).keys := by
        intro other hother
        rw [Keyed.keys_insert, if_neg hnew.1, List.mem_append, List.mem_singleton, not_or]
        exact ⟨hnew.2 other hother, fun heq => hnames.1 (heq ▸ List.mem_map_of_mem hother)⟩
      obtain ⟨hentries, hfaults⟩ := ih hnames.2 hrest
      have hinsert : (done.insert member.1 entry).toList =
          done.toList ++ [(member.1, entry)] := Keyed.put_of_not_mem hnew.1
      refine ⟨hentries.trans ?_, hfaults⟩
      rw [hinsert, List.append_assoc]
      rfl

/-- A section decodes its entries in order, each to a value or to one diagnostic. -/
theorem decodes_importSection {document : Json}
    (hnames : ∀ members, document.member? name = some (.object members) →
      (members.map Prod.fst).Nodup) :
    Decodes shape name (document.member? name) (Schema.importSection shape name document).1
      (Schema.importSection shape name document).2 := by
  cases hfound : document.member? name with
  | none =>
    rw [Schema.importSection, hfound]
    exact ⟨rfl, rfl⟩
  | some found =>
    cases found with
    | object members =>
      rw [importSection_object hfound]
      exact foldl_entryStep (hnames members hfound) nofun
    | _ =>
      rw [Schema.importSection, hfound]
      exact ⟨rfl, rfl⟩

theorem DefaultValue.steady_shape : DefaultValue.shape.Steady := by
  intro document value hdecode
  cases document with
  | array items => cases hdecode
  | object members => cases hdecode
  | _ => exact hdecode

theorem Constraint.steady_shape : Constraint.shape.Steady := by
  intro variant hvariant
  simp only [List.mem_cons, List.not_mem_nil, or_false] at hvariant
  rcases hvariant with rfl | rfl | rfl | rfl <;>
    exact Shape.settles_decode _ (by
      simp [namedColumns, ForeignKey.shape, Constraint.checkShape, ForeignKeyAction.shape,
        textField, textsField, Shape.Steady, Fields.Steady])

theorem Table.steady_shape : Table.shape.Steady := by
  simp [Table.shape, Column.shape, Index.shape, textField, textsField, optionalField, Shape.Steady,
    Fields.Steady, DefaultValue.steady_shape, Constraint.steady_shape]

theorem Schema.steady_shape : Schema.shape.Steady := by
  simp [Schema.shape, EnumType.shape, Extension.shape, textField, textsField, optionalField,
    Shape.Steady, Fields.Steady, Table.steady_shape]

/-! ## Documents with the shape of a schema -/

/-- A collection that is decoded as a whole is decoded entry by entry without faults. -/
theorem foldl_entryStep_of_foldlM {members : List (String × Json)} {done entries : Keyed α}
    (hfold : members.foldlM (fun (done : Keyed α) member => do
      return done.insert member.1 (← shape.decode .document member.2)) done = Except.ok entries) :
    members.foldl (entryStep shape name) (done, []) = (entries, []) := by
  induction members generalizing done with
  | nil =>
    cases hfold
    rfl
  | cons member rest ih =>
    rw [List.foldlM_cons] at hfold
    obtain ⟨next, hmember, hfold⟩ := exists_of_bind_eq_ok hfold
    obtain ⟨value, hdecode, hnext⟩ := exists_of_bind_eq_ok hmember
    cases hnext
    rw [List.foldl_cons, entryStep, hdecode]
    exact ih hfold

/-- A section that decodes as a whole does so entry by entry, without a diagnostic. -/
theorem importSection_of_found {members : List (String × Json)} {found : Option (Keyed α)}
    (hfound : (Keyed.find? name members).toList.foldlM
      (fieldStep .document name (.keyed shape)) none = .ok found) :
    Schema.importSection shape name (.object members) = (found.getD ∅, []) := by
  cases hmember : Keyed.find? name members with
  | none =>
    rw [hmember] at hfound
    cases hfound
    rw [Schema.importSection, Json.member?, hmember]
    rfl
  | some document =>
    rw [hmember, Option.toList_some, List.foldlM_cons] at hfound
    obtain ⟨next, hstep, hfound⟩ := exists_of_bind_eq_ok hfound
    obtain ⟨entries, hdecode, rfl⟩ := exists_of_map_eq_ok hstep
    cases hfound
    cases document with
    | object found =>
      have hobject : (Json.object members).member? name = some (.object found) := hmember
      rw [importSection_object hobject]
      exact foldl_entryStep_of_foldlM hdecode
    | _ => cases hdecode

/-- The sections of an object that has the shape of a schema make up that schema. -/
theorem Schema.importSections_of_decode {members : List (String × Json)} {schema : Schema}
    (hnames : (members.map Prod.fst).Nodup)
    (hdecode : Schema.shape.decode .document (.object members) = .ok schema) :
    importSections (.object members) = ⟨schema, []⟩ := by
  obtain ⟨⟨tables, enums, extensions, ⟨⟩⟩, hfold, hschema⟩ := exists_of_bind_eq_ok hdecode
  obtain ⟨htables, hfold⟩ := Json.Fields.foldlM_decodeMember_iff.1 hfold
  obtain ⟨henums, hfold⟩ := Json.Fields.foldlM_decodeMember_iff.1 hfold
  obtain ⟨hextensions, hfold⟩ := Json.Fields.foldlM_decodeMember_iff.1 hfold
  rw [Json.occurrences_others (by decide)] at henums
  rw [Json.occurrences_others (by decide), Json.occurrences_others (by decide)] at hextensions
  rw [Json.occurrences_of_nodup hnames] at htables henums hextensions
  rw [importSections, importSection_of_found htables, importSection_of_found henums,
    importSection_of_found hextensions]
  cases tables <;> cases enums <;> cases extensions <;> cases hschema <;> rfl

/-- A text that can be read as an object gives what the object gives entry by entry: each section
that is an object holds exactly its entries that can be decoded on their own, in order, with one
diagnostic for each of the others; a section that is missing or null is empty, and any other one
gives one diagnostic. -/
theorem Schema.ofDocument_sections {text : String} {members : List (String × Json)}
    (hparse : Json.parse text = .ok (.object members)) :
    ofDocument text = importSections (.object members) ∧
      ∃ tableFaults enumFaults extensionFaults,
        Decodes Table.shape "tables" (Keyed.find? "tables" members)
          (ofDocument text).schema.tables tableFaults ∧
        Decodes EnumType.shape "enums" (Keyed.find? "enums" members)
          (ofDocument text).schema.enums enumFaults ∧
        Decodes Extension.shape "extensions" (Keyed.find? "extensions" members)
          (ofDocument text).schema.extensions extensionFaults ∧
        (ofDocument text).diagnostics = tableFaults ++ enumFaults ++ extensionFaults := by
  have honce : (Json.object members).NamesOnce := by
    obtain ⟨raw, -, hraw⟩ := exists_of_map_eq_ok hparse
    exact hraw ▸ Json.namesOnce_distinct raw
  cases honce with
  | object hnames honce =>
    have hsame : ofDocument text = importSections (.object members) := by
      rw [ofDocument]
      cases hread : Schema.shape.parse text with
      | ok schema =>
        exact (importSections_of_decode hnames
          (Shape.decode_of_parse steady_shape hread hparse)).symm
      | error fault =>
        simp only [hparse]
    have hsection : ∀ name entries, (Json.object members).member? name = some (.object entries) →
        (entries.map Prod.fst).Nodup := by
      intro name entries hfound
      cases honce _ (Keyed.mem_of_find?_eq_some hfound) with
      | object hnames _ => exact hnames
    refine ⟨hsame, (importSection Table.shape "tables" (.object members)).2,
      (importSection EnumType.shape "enums" (.object members)).2,
      (importSection Extension.shape "extensions" (.object members)).2, ?_⟩
    rw [hsame]
    exact ⟨decodes_importSection (hsection _), decodes_importSection (hsection _),
      decodes_importSection (hsection _), rfl⟩

/-- The members of a document with a table that is none. -/
def spottedMembers : List (String × Json) :=
  [("tables", .object [("a", .number (.integer 1)), ("b", .object [("name", .string "c")])]),
    ("enums", .null)]

/-- The document writes a table and a field of a table twice. -/
def spottedDocument : String :=
  "\x7b\"tables\":\x7b\"a\":null,\"b\":\x7b\"name\":\"b\",\"name\":\"c\"\x7d,\"a\":1\x7d,\"enums\":null\x7d"

/-- The members of the document as they are written. -/
def repeatedMembers : List (String × Json) :=
  [("tables", .object [("a", .null), ("b", .object [("name", .string "b"), ("name", .string "c")]),
    ("a", .number (.integer 1))]), ("enums", .null)]

theorem spottedDocument_eq : spottedDocument = (Json.object repeatedMembers).compact := by
  decide +kernel

theorem legible_repeatedMembers {depth : Nat} :
    Json.Legible (depth + 3) (.object repeatedMembers) := by
  have hone : Json.Number.ReadsBack (.integer 1) :=
    Json.Number.readsBack_natCast (n := 1) (by decide)
  refine .object (List.forall_mem_cons.2 ⟨.object ?_, List.forall_mem_singleton.2 .null⟩)
  refine List.forall_mem_cons.2 ⟨.null, List.forall_mem_cons.2 ⟨.object ?_, ?_⟩⟩
  · exact List.forall_mem_cons.2 ⟨.string "b", List.forall_mem_singleton.2 (.string "c")⟩
  · exact List.forall_mem_singleton.2 (.number hone)

theorem parse_spottedDocument : Json.parse spottedDocument = .ok (.object spottedMembers) := by
  have hread : Json.readText (Json.readAny Json.depthLimit) spottedDocument =
      .ok (.object repeatedMembers) := by
    rw [spottedDocument_eq]
    exact (Json.prints_compact _).readText legible_repeatedMembers fun _ hwritten => hwritten.reads
  rw [Json.parse, hread]
  rfl

theorem Schema.ofDocument_sections_spotted :
    Json.parse spottedDocument = .ok (.object spottedMembers) ∧
      (ofDocument spottedDocument).schema.tables.toList = [("b", ⟨"c", none, ∅, ∅, ∅⟩)] ∧
      (ofDocument spottedDocument).diagnostics =
        [.error "tables/a: invalid type: integer `1`, expected struct Table" none] := by
  obtain ⟨hsame, -⟩ := ofDocument_sections parse_spottedDocument
  rw [hsame]
  refine ⟨parse_spottedDocument, ?_, ?_⟩
  · rfl
  · rfl

end SchemaEvolution
