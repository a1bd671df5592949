import Mathlib.Data.Option.Basic
import SchemaEvolution.Proofs.Patch.Status
import SchemaEvolution.Proofs.Sql.Contribution

/-!
# Changes that a migration passes over

Values of an enumerated type are compared as lists where schemas are compared, and as sets where a
migration is written.  So a migration passes over a change of their order, and over nothing else.
-/

namespace SchemaEvolution

/-- The same type, but for the order and repetition of its values. -/
def EnumType.SameMembers (old new : EnumType) : Prop :=
  old.name = new.name ∧ old.comment = new.comment ∧
    ∀ value, value ∈ old.values ↔ value ∈ new.values

theorem EnumType.SameMembers.refl (type : EnumType) : type.SameMembers type :=
  ⟨rfl, rfl, fun _ => Iff.rfl⟩

def Keyed.SameMembers (old new : Keyed EnumType) : Prop :=
  ∀ name, Option.Rel EnumType.SameMembers (old.get? name) (new.get? name)

theorem Keyed.SameMembers.refl (types : Keyed EnumType) : types.SameMembers types := fun name => by
  cases types.get? name with
  | none => exact .none
  | some type => exact .some (.refl type)

theorem Keyed.SameMembers.of_get? {old new : Keyed EnumType} (hsame : old.SameMembers new)
    {name : String} {previous : EnumType} (hprevious : old.get? name = some previous) :
    ∃ value, new.get? name = some value ∧ previous.SameMembers value := by
  have hrel := hsame name
  rw [hprevious] at hrel
  cases hvalue : new.get? name with
  | none => rw [hvalue] at hrel; cases hrel
  | some value =>
    rw [hvalue] at hrel
    cases hrel with
    | some hmembers => exact ⟨value, rfl, hmembers⟩

/-- Equality of schemas but for the order and repetition of the values of enumerated types. -/
def Schema.SameButOrder (old new : Schema) : Prop :=
  (old.tables == new.tables) = true ∧ old.enums.SameMembers new.enums ∧
    (old.extensions == new.extensions) = true

theorem Schema.SameButOrder.of_beq {old new : Schema} (hsame : (old == new) = true) :
    old.SameButOrder new := by
  obtain ⟨htables, henums, hextensions⟩ := (Schema.beq_iff old new).1 hsame
  refine ⟨htables, fun name => ?_, hextensions⟩
  rw [beq_iff_eq.1 ((Keyed.beq_iff_get? _ _).1 henums name)]
  exact Keyed.SameMembers.refl new.enums name

end SchemaEvolution

namespace SchemaEvolution.Patch

theorem Edit.operation_inj {first second : Edit} (hfirst : first.Writable)
    (hsecond : second.Writable) (hsame : first.operation = second.operation) : first = second := by
  have hread := Edit.edit_operation hfirst
  rw [hsame, Edit.edit_operation hsecond] at hread
  exact (Except.ok.inj hread).symm

/-- The operation that gives an enumerated type other values. -/
def enumValues (name : String) (values : List String) : Operation :=
  (Edit.enumType name (.values values)).operation

theorem mem_enumChanges {name : String} {previous value : EnumType} {op : Operation}
    (hop : op ∈ enumChanges name previous value) :
    (op = enumValues name value.values ∧ previous.values ≠ value.values) ∨
      (op = (Edit.enumType name (.comment value.comment)).operation ∧
        previous.comment ≠ value.comment) := by
  rcases List.mem_append.1 hop with hop | hop
  all_goals
    rw [replaceField] at hop
    split at hop
    · cases hop
  · next hvalues => exact .inl ⟨List.mem_singleton.1 hop, by simpa using hvalues⟩
  · next hcomment => exact .inr ⟨List.mem_singleton.1 hop, by simpa using hcomment⟩

theorem mem_arranged {removals changes : List Operation} {op : Operation}
    (hop : op ∈ arranged removals changes) : op ∈ removals ∨ op ∈ changes := by
  rcases List.mem_append.1 hop with hop | hop
  · exact (List.mem_append.1 hop).imp_right fun hmem => (List.mem_filter.1 hmem).1
  · exact .inr (List.mem_filter.1 hop).1

/-- A table that both schemas have alike takes no operation. -/
theorem ownerTable_of_beq {old new : Schema} (hsame : (old.tables == new.tables) = true)
    (name : String) :
    ownerRemovals old new (.table name) = [] ∧ ownerChanges old new (.table name) = [] := by
  rcases Keyed.eq_none_or_of_beq hsame name with
    ⟨hold, hnew⟩ | ⟨previous, value, hold, hnew, hbeq⟩
  · simp only [ownerRemovals, ownerChanges, hold, hnew, changesOf, and_self]
  · simp only [ownerRemovals, ownerChanges, hold, hnew, changesOf, tableRemovals_of_beq name hbeq,
      tableChanges_of_beq name hbeq, and_self]

/-- An extension that both schemas have alike takes no operation. -/
theorem ownerExtension_of_beq {old new : Schema}
    (hsame : (old.extensions == new.extensions) = true) (name : String) :
    ownerRemovals old new (.extension name) = [] ∧ ownerChanges old new (.extension name) = [] := by
  rcases Keyed.eq_none_or_of_beq hsame name with
    ⟨hold, hnew⟩ | ⟨previous, value, hold, hnew, hbeq⟩
  · simp only [ownerRemovals, ownerChanges, hold, hnew, removalOf, changesOf, and_self]
  · simp only [ownerRemovals, ownerChanges, hold, hnew, removalOf, changesOf,
      extensionChanges_of_beq name hbeq, and_self]

section Diff

variable {old new : Schema} (hold : old.NoEmptyName) (hnew : new.NoEmptyName)
  (hkeyed : new.WellKeyed)

include hold hnew hkeyed

/-- An operation of a difference is one for the owner of its path. -/
theorem mem_diff_owner {edit : Edit} (hwritable : edit.Writable)
    (hop : edit.operation ∈ diff old new) :
    edit.operation ∈ ownerRemovals old new edit.path.owner ∨
      edit.operation ∈ ownerChanges old new edit.path.owner := by
  refine mem_arranged ?_
  rw [← selectPaths_diff hold hnew hkeyed edit.path.owner, selectPaths]
  refine List.mem_filter.2 ⟨hop, ?_⟩
  rw [hwritable.path?, Option.any_some, Owner.contains, decide_eq_true rfl]

/-- A difference gives values only to a type of both schemas, and those of the second one. -/
theorem enumValues_mem_diff {name : String} {values : List String}
    (hwritable : (Edit.enumType name (.values values)).Writable)
    (hop : (Edit.enumType name (.values values)).operation ∈ diff old new) :
    ∃ previous value, old.enums.get? name = some previous ∧ new.enums.get? name = some value ∧
      value.values = values ∧ previous.values ≠ values := by
  rcases mem_diff_owner hold hnew hkeyed hwritable hop with hmem | hmem
  · change _ ∈ removalOf (old.enums.get? name) (new.enums.get? name) _ at hmem
    unfold removalOf at hmem
    split at hmem
    · cases congrArg Operation.verb (List.mem_singleton.1 hmem)
    · cases hmem
  · change _ ∈ changesOf (old.enums.get? name) (new.enums.get? name) _ _ at hmem
    unfold changesOf at hmem
    split at hmem
    · cases hmem
    · cases congrArg Operation.verb (List.mem_singleton.1 hmem)
    · next previous value hprevious hvalue =>
      refine ⟨previous, value, hprevious, hvalue, ?_⟩
      rcases mem_enumChanges hmem with ⟨heq, hvalues⟩ | ⟨heq, -⟩
      · have hother : (Edit.enumType name (.values value.values)).Writable :=
          ⟨hwritable.1, trivial⟩
        cases Edit.operation_inj hwritable hother heq
        exact ⟨rfl, hvalues⟩
      · have hother : (Edit.enumType name (.comment value.comment)).Writable :=
          ⟨⟨hwritable.1.1, trivial⟩, trivial⟩
        cases Edit.operation_inj hwritable hother heq

end Diff

end SchemaEvolution.Patch

namespace SchemaEvolution.Sql

open Patch (Edit Operation EditsIn diff)

/-- The operation gives a type that both schemas have the values of the second one, which have the
same members as those of the first one. -/
def Reorders (before after : Schema) (op : Operation) : Prop :=
  ∃ name previous value, before.enums.get? name = some previous ∧
    after.enums.get? name = some value ∧ op = Patch.enumValues name value.values ∧
    ∀ member, member ∈ previous.values ↔ member ∈ value.values

/-- What a run of operations that reorder values can make of a schema. -/
structure Reordered (before current : Schema) : Prop where
  tables : current.tables = before.tables
  enums : before.enums.SameMembers current.enums
  extensions : current.extensions = before.extensions

theorem Reordered.refl (schema : Schema) : Reordered schema schema := ⟨rfl, .refl _, rfl⟩

section Migration

variable {before after : Schema} (hbefore : before.WellKeyed) (hafter : after.WellKeyed)
  (hnames : before.NoEmptyName) (hnames' : after.NoEmptyName)

theorem valuesBefore_of_some (span : Span) {name : String} {type : EnumType}
    (htype : span.before.enums.get? name = some type) : span.valuesBefore name = type.values := by
  rw [Span.valuesBefore, htype]

include hafter hnames hnames'

/-- An operation of a difference has nothing written for it exactly if it reorders values only. -/
theorem operationStatements_diff_nil_iff {op : Operation} (hop : op ∈ diff before after) :
    operationStatements (spanBetween before after) op = .ok [] ↔ Reorders before after op := by
  obtain ⟨edit, rfl, hwritable, -⟩ := Patch.diff_edits hnames hnames' hafter op hop
  rw [operationStatements_nil_iff, Edit.edit_operation hwritable]
  constructor
  · rintro ⟨other, heq, hsilent⟩
    cases heq
    cases edit with
    | enumType name change =>
      cases change with
      | values new =>
        obtain ⟨previous, value, hprevious, hvalue, rfl, -⟩ :=
          Patch.enumValues_mem_diff hnames hnames' hafter hwritable hop
        refine ⟨name, previous, value, hprevious, hvalue, rfl, ?_⟩
        rw [← valuesBefore_of_some (spanBetween before after) hprevious]
        exact hsilent
      | _ => cases hsilent
    | hint => exact absurd rfl hwritable.1
    | _ => cases hsilent
  · rintro ⟨name, previous, value, hprevious, hvalue, heq, hmembers⟩
    have hvalues : (Edit.enumType name (.values value.values)).Writable :=
      ⟨⟨Keyed.ne_empty_of_get? hnames'.2.1 hvalue, trivial⟩, trivial⟩
    cases Edit.operation_inj hwritable hvalues heq
    refine ⟨_, rfl, fun member => ?_⟩
    rw [valuesBefore_of_some (spanBetween before after) hprevious]
    exact hmembers member

/-! ## Runs -/

omit hafter hnames in
/-- Reordering a type of the schema of the start keeps its members. -/
theorem Reordered.step {current next : Schema} (hcurrent : Reordered before current)
    {op : Operation} (hop : Reorders before after op) (hstep : op.outcome? current = some next) :
    Reordered before next := by
  obtain ⟨name, previous, value, hprevious, hvalue, rfl, hmembers⟩ := hop
  have hname := Keyed.ne_empty_of_get? hnames'.2.1 hvalue
  have hwritable : (Edit.enumType name (.values value.values)).Writable :=
    ⟨⟨hname, trivial⟩, trivial⟩
  obtain ⟨now, hnow, hsame⟩ := hcurrent.enums.of_get? hprevious
  have hnext : next = { current with
      enums := current.enums.insert name { now with values := value.values } } := by
    rw [Patch.enumValues, hwritable.outcome?] at hstep
    simp only [Edit.apply, Patch.changeEntry, hnow] at hstep
    exact (Option.some.inj hstep).symm
  rw [hnext]
  refine ⟨hcurrent.tables, fun other => ?_, hcurrent.extensions⟩
  rw [Keyed.get?_insert]
  by_cases hother : name = other
  · subst hother
    rw [if_pos rfl, hprevious]
    exact .some ⟨hsame.1, hsame.2.1, hmembers⟩
  · rw [if_neg hother]
    exact hcurrent.enums other

omit hafter hnames in
theorem Reordered.run {ops : List Operation} (hops : ∀ op ∈ ops, Reorders before after op)
    {current result : Schema} (hcurrent : Reordered before current)
    (hrun : ops.foldlM Operation.outcome? current = some result) : Reordered before result := by
  induction ops generalizing current with
  | nil => cases hrun; exact hcurrent
  | cons op rest ih =>
    rw [List.foldlM_cons] at hrun
    obtain ⟨next, hstep, hrest⟩ := Option.bind_eq_some_iff.1 hrun
    exact ih (fun other hmem => hops other (List.mem_cons_of_mem _ hmem))
      (hcurrent.step hnames' (hops op List.mem_cons_self) hstep) hrest

include hbefore in
/-- Where every operation of the difference reorders values, nothing else differs. -/
theorem sameButOrder_of_reorders (hops : ∀ op ∈ diff before after, Reorders before after op) :
    before.SameButOrder after := by
  obtain ⟨result, hrun, hresult⟩ := Patch.diff_reach hnames hnames' hbefore hafter
  -- the run of the difference reaches the second schema, and has reordered the first one only
  have hreordered := (Reordered.refl before).run hnames' hops hrun
  obtain ⟨htables, henums, hextensions⟩ := Schema.SameButOrder.of_beq hresult
  rw [hreordered.tables] at htables
  rw [hreordered.extensions] at hextensions
  refine ⟨htables, fun name => ?_, hextensions⟩
  have hname := beq_iff_eq.1 ((Keyed.beq_iff_get? _ _).1
    ((Schema.beq_iff result after).1 hresult).2.1 name)
  rw [← hname]
  exact hreordered.enums name

/-- Schemas that differ in the order of values only differ by operations that reorder them. -/
theorem reorders_of_sameButOrder (hsame : before.SameButOrder after) :
    ∀ op ∈ diff before after, Reorders before after op := by
  intro op hop
  obtain ⟨htables, henums, hextensions⟩ := hsame
  obtain ⟨edit, rfl, hwritable, -⟩ := Patch.diff_edits hnames hnames' hafter op hop
  have howner := Patch.mem_diff_owner hnames hnames' hafter hwritable hop
  cases hpath : edit.path.owner with
  | table name =>
    obtain ⟨hremovals, hchanges⟩ := Patch.ownerTable_of_beq htables name
    rw [hpath, hremovals, hchanges] at howner
    rcases howner with hmem | hmem <;> cases hmem
  | extension name =>
    obtain ⟨hremovals, hchanges⟩ := Patch.ownerExtension_of_beq hextensions name
    rw [hpath, hremovals, hchanges] at howner
    rcases howner with hmem | hmem <;> cases hmem
  | enumType name =>
    rw [hpath] at howner
    change _ ∈ Patch.removalOf (before.enums.get? name) (after.enums.get? name) _ ∨
      _ ∈ Patch.changesOf (before.enums.get? name) (after.enums.get? name) _ _ at howner
    have hrel := henums name
    generalize hold : before.enums.get? name = previous?,
      hnew : after.enums.get? name = value? at howner hrel
    cases hrel with
    | none => rcases howner with hmem | hmem <;> cases hmem
    | @some previous value hmembers =>
      rcases howner with hmem | hmem
      · cases hmem
      · -- a comment is not touched, so the operation gives the values
        rcases Patch.mem_enumChanges hmem with ⟨heq, -⟩ | ⟨-, hcomment⟩
        · exact ⟨name, previous, value, hold, hnew, heq, hmembers.2.2⟩
        · exact absurd hmembers.2.1 hcomment

include hbefore in
/-- An operation of a difference contributes nothing to the migration when it reorders the values
of an enumerated type, and only then.  So the migration is empty and without errors exactly when
the two schemas differ in nothing but the order and repetition of such values. -/
theorem silent_migrationBetween_iff :
    (∀ op ∈ diff before after, operationStatements (spanBetween before after) op = .ok [] ↔
      Reorders before after op) ∧
    ((migrationBetween before after).script = "" ∧ (migrationBetween before after).messages = [] ↔
      before.SameButOrder after) := by
  have hcontributes := fun op (hop : op ∈ diff before after) =>
    operationStatements_diff_nil_iff hafter hnames hnames' hop
  refine ⟨hcontributes, migration_silent_iff.trans ⟨fun hsilent => ?_, fun hsame op hop => ?_⟩⟩
  · exact sameButOrder_of_reorders hbefore hafter hnames hnames' fun op hop =>
      (hcontributes op hop).1 (hsilent op hop)
  · exact (hcontributes op hop).2 (reorders_of_sameButOrder hafter hnames hnames' hsame op hop)

end Migration

def moods (values : List String) : Schema := Schema.empty.addEnum ⟨"mood", values, none⟩

/-- Two orders of the same values: a change without a trace. -/
theorem silent_migrationBetween_moods :
    ((moods ["sad", "ok"]).WellKeyed ∧ (moods ["ok", "sad"]).WellKeyed ∧
      (moods ["sad", "ok"]).NoEmptyName ∧ (moods ["ok", "sad"]).NoEmptyName) ∧
    (moods ["sad", "ok"] == moods ["ok", "sad"]) = false ∧
    (migrationBetween (moods ["sad", "ok"]) (moods ["ok", "sad"])).script = "" ∧
    (migrationBetween (moods ["sad", "ok"]) (moods ["ok", "sad"])).messages = [] := by
  have hhyps : (moods ["sad", "ok"]).WellKeyed ∧ (moods ["ok", "sad"]).WellKeyed ∧
      (moods ["sad", "ok"]).NoEmptyName ∧ (moods ["ok", "sad"]).NoEmptyName := by
    decide
  obtain ⟨hbefore, hafter, hnames, hnames'⟩ := hhyps
  refine ⟨⟨hbefore, hafter, hnames, hnames'⟩, by decide, ?_⟩
  refine (silent_migrationBetween_iff hbefore hafter hnames hnames').2.2 ⟨rfl, fun name => ?_, rfl⟩
  by_cases hname : "mood" = name
  · subst hname
    exact .some ⟨rfl, rfl, by simp [or_comm]⟩
  · have hnone : ∀ values, (moods values).enums.get? name = none := fun values => by
      simp [moods, Schema.addEnum, Schema.empty, hname]
    rw [hnone, hnone]
    exact .none

end SchemaEvolution.Sql
