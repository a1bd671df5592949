import SchemaEvolution.Proofs.Sql.CutTable
import SchemaEvolution.Proofs.Sql.Refusal
import SchemaEvolution.Proofs.Sql.StatementScript

/-!
# Definitions in any order

A script is put together of statements that define tables, types and extensions, each of which
ends with its only semicolon.  Each statement defines in the script what it defines alone, in
whatever order they stand, but for the one that follows an extension with a lacking version: that
one is skipped.  So the order has no say in what the script defines, nor in the columns that a
reference without columns stands for, exactly if such an extension has nothing to skip.
-/

namespace SchemaEvolution.Sql

/-- No words stand between `CREATE` and a key word for what is created. -/
theorem create_definition {lexemes : List Lexeme} (schema : Schema)
    (hkind : ∃ kind, next lexemes = .keyword kind) :
    create schema lexemes = match next lexemes with
      | .keyword .table => createTable (line? lexemes) schema lexemes.tail
      | .keyword .unique | .keyword .index => createIndex (line? lexemes) schema lexemes
      | .keyword .type => createType (line? lexemes) schema lexemes.tail
      | .keyword .extension => createExtension (line? lexemes) schema lexemes.tail
      | _ => .ok (schema, skipStatement lexemes) := by
  obtain ⟨kind, hkind⟩ := hkind
  have hword : Token.isWord "or" (.keyword kind) = false := rfl
  have hdrop : (lexemes.dropWhile fun lexeme => lexeme.token.isOneOf
      ["temp", "temporary", "unlogged", "global", "local"]) = lexemes := by
    cases lexemes with
    | nil => rfl
    | cons first more =>
      have hfirst : first.token = .keyword kind := hkind
      exact List.dropWhile_cons_of_neg (by rw [hfirst]; exact Bool.false_ne_true)
  cases kind <;> simp only [create, hword, Bool.false_eq_true, if_false, hdrop, hkind]

/-- A definition that can not be read leaves an error. -/
theorem leavesError_statement {lexemes : List Lexeme} (hopens : next lexemes = .keyword .create)
    (hdefines : next lexemes.tail ∈ [Token.keyword .table, .keyword .type, .keyword .extension])
    (schema : Schema) : LeavesError (statement schema lexemes) := by
  rw [statement, hopens]
  dsimp only
  simp only [List.mem_cons, List.not_mem_nil, or_false] at hdefines
  rcases hdefines with hkind | hkind | hkind
  all_goals rw [create_definition schema ⟨_, hkind⟩, hkind]
  · exact leavesError_createTable _ _ _
  · exact leavesError_createType _ _ _
  · exact leavesError_createExtension _ _ _

/-- The statement is about an extension, and its last option asks for a version that is lacking. -/
def Lacking (lexemes : List Lexeme) : Prop :=
  next lexemes.tail = .keyword .extension ∧ LacksVersion lexemes.tail.tail

section Statement

variable {rest other lexemes others left : List Lexeme} {addition : Schema}
  (hparallel : Parallel rest other lexemes.tail others.tail)
  (hopens : next lexemes = .keyword .create)
  (hopens' : next others = .keyword .create)
  (hread : Sql.statement .empty lexemes = .ok (addition, left))

include hparallel hopens hopens' hread

/-- What a statement defines alone, it adds to every schema. -/
theorem Parallel.statement (hend : IsEnd rest)
    (hdefines : next lexemes.tail ∈ [Token.keyword .table, .keyword .type, .keyword .extension])
    (hwhole : ¬ Lacking lexemes) (schema : Schema) :
    Sql.statement schema others = .ok (schema.extend addition, other.tail) := by
  have hbehind {kind : Keyword} (hkind : next lexemes.tail = .keyword kind) :
      next others.tail = .keyword kind ∧ Parallel rest other lexemes.tail.tail others.tail.tail :=
    ⟨(hparallel.mirrors.next_iff (Token.noConfusion : Token.keyword kind ≠ .comma) nofun).2 hkind,
      hparallel.tail (by rw [hkind]; exact nofun)⟩
  simp only [List.mem_cons, List.not_mem_nil, or_false] at hdefines
  rcases hdefines with hkind | hkind | hkind
  all_goals
    obtain ⟨hkind', hinside⟩ := hbehind hkind
    rw [Sql.statement, hopens] at hread
    rw [Sql.statement, hopens']
    dsimp only at hread ⊢
    rw [create_definition _ ⟨_, hkind⟩, hkind] at hread
    rw [create_definition _ ⟨_, hkind'⟩, hkind']
  · exact hinside.createTable hend hread _ schema
  · exact hinside.createType hread _ schema
  · exact hinside.createExtension hread (fun hlacks => hwhole ⟨hkind, hlacks⟩) _ schema

/-- An extension that lacks its version is read, and the statement behind it is skipped. -/
theorem Parallel.statement_lacking (hend : IsEnd rest) (hlacks : Lacking lexemes)
    (hother : next other.tail = .keyword .create ∨ next other.tail = .eof) (schema : Schema) :
    Sql.statement schema others = .ok (schema.extend addition, Sql.skipStatement other.tail) := by
  obtain ⟨hkind, hlacks⟩ := hlacks
  have hkind' : next others.tail = .keyword .extension :=
    (hparallel.mirrors.next_iff (by decide) (by decide)).2 hkind
  have hinside := hparallel.tail (by rw [hkind]; exact nofun)
  rw [Sql.statement, hopens] at hread
  rw [Sql.statement, hopens']
  dsimp only at hread ⊢
  rw [create_definition _ ⟨_, hkind⟩, hkind] at hread
  rw [create_definition _ ⟨_, hkind'⟩, hkind']
  exact hinside.createExtension_lacking hread hend hlacks hother _ schema

end Statement

/-- What a script defines before its references are resolved: a reference without a list of columns
has no columns yet. -/
def asWritten (text : String) : Schema := (readOn ⟨.empty, []⟩ (Lexeme.ofText text)).schema

theorem schema_ofSql (text : String) :
    (Schema.ofSql text).schema = resolveReferences (asWritten text) := by
  rw [ofSql_eq_readOn, asWritten]

theorem skipStatement_of_eof {lexemes : List Lexeme} (hlast : next lexemes = .eof) :
    skipStatement lexemes = lexemes := by
  cases lexemes with
  | nil => rfl
  | cons first more =>
    have hfirst : first.token = .eof := hlast
    rw [skipStatement, List.dropWhile_cons_of_neg (by simp [hfirst]), skip_of_next_ne]
    rw [hlast]
    decide

theorem skipStatement_of_create {lexemes : List Lexeme} (hopens : next lexemes = .keyword .create) :
    skipStatement lexemes = skipStatement lexemes.tail := by
  cases lexemes with
  | nil => rfl
  | cons first more =>
    have hfirst : first.token = .keyword .create := hopens
    rw [skipStatement, List.dropWhile_cons_of_pos (by simp [hfirst])]
    rfl

/-- Alone, the statement is read as what the text defines. -/
theorem IsDefinition.exists_statement {text : String} (hdefinition : IsDefinition text) :
    ∃ left, statement .empty (Lexeme.ofText text) = .ok (asWritten text, left) := by
  have hstart : next (Lexeme.ofText text) ≠ .eof := by
    rw [hdefinition.opens]
    exact nofun
  have hscript : Script [text] (Lexeme.lexemes 1 (text.toList ++ [])) :=
    hdefinition.script (fun line => .none (by
      rw [lexemes_blank isBlankText_nil]
      rfl)) 1
  rw [List.append_nil] at hscript
  change Script [text] (Lexeme.ofText text) at hscript
  cases hread : statement .empty (Lexeme.ofText text) with
  | error stop =>
    have hturns : Turns scriptStep ⟨.empty, []⟩ (Lexeme.ofText text) _ _ :=
      turns_refused hstart hread
    have hfault : stop.diagnostic ∈ (Schema.ofSql text).diagnostics := by
      rw [ofSql_eq_readOn, readOn_of_turns hturns, readOn_eq]
      exact List.mem_cons_self
    exact absurd (leavesError_statement hdefinition.opens hdefinition.defines _ _ hread)
      (hdefinition.accepted _ hfault)
  | ok found =>
    obtain ⟨addition, left⟩ := found
    obtain - | ⟨-, hend, hparallel, hmore⟩ := hscript
    obtain hlast | - := hmore
    have hopens := hdefinition.opens
    have hleft : next left = .eof := by
      by_cases hlacks : Lacking (Lexeme.ofText text)
      · have hagain :=
          hparallel.statement_lacking hopens hopens hread hend hlacks (.inr hlast) .empty
        rw [hread, skipStatement_of_eof hlast] at hagain
        rw [(Prod.mk.inj (Except.ok.inj hagain)).2]
        exact hlast
      · have hagain :=
          hparallel.statement hopens hopens hread hend hdefinition.defines hlacks .empty
        rw [hread] at hagain
        rw [(Prod.mk.inj (Except.ok.inj hagain)).2]
        exact hlast
    have hturns : Turns scriptStep ⟨.empty, []⟩ (Lexeme.ofText text) ⟨addition, []⟩ left :=
      turns_accepted hstart hread
    rw [asWritten, readOn_of_turns hturns, readOn_eof hleft]
    exact ⟨left, rfl⟩

/-- Of some statements, these are read: one that lacks a version takes the next one with it. -/
inductive Kept : List String → List String → Prop
  | none : Kept [] []
  | whole {text : String} {texts kept : List String} (hwhole : ¬ Lacking (Lexeme.ofText text))
      (hmore : Kept texts kept) : Kept (text :: texts) (text :: kept)
  | last {text : String} (hlacks : Lacking (Lexeme.ofText text)) : Kept [text] [text]
  | gap {text skipped : String} {texts kept : List String} (hlacks : Lacking (Lexeme.ofText text))
      (hmore : Kept texts kept) : Kept (text :: skipped :: texts) (text :: kept)

theorem exists_kept : ∀ texts : List String, ∃ kept, Kept texts kept
  | [] => ⟨[], .none⟩
  | text :: texts => by
    by_cases hlacks : Lacking (Lexeme.ofText text)
    · cases texts with
      | nil => exact ⟨[text], .last hlacks⟩
      | cons skipped texts =>
        obtain ⟨kept, hkept⟩ := exists_kept texts
        exact ⟨text :: kept, .gap hlacks hkept⟩
    · obtain ⟨kept, hkept⟩ := exists_kept texts
      exact ⟨text :: kept, .whole hlacks hkept⟩

theorem Kept.sublist {texts kept : List String} (hkept : Kept texts kept) : kept.Sublist texts := by
  induction hkept with
  | none => exact .slnil
  | whole _ _ ih => exact ih.cons_cons _
  | last => exact .refl _
  | gap _ _ ih => exact (ih.cons _).cons_cons _

/-- The first statement is read. -/
theorem Kept.mem {text : String} {texts kept : List String} (hkept : Kept (text :: texts) kept) :
    text ∈ kept := by
  cases hkept with
  | whole | last | gap => exact List.mem_cons_self

/-- The second statement is not read when the first one lacks a version. -/
theorem Kept.exists_of_lacking {text skipped : String} {texts kept : List String}
    (hkept : Kept (text :: skipped :: texts) kept) (hlacks : Lacking (Lexeme.ofText text)) :
    ∃ more, kept = text :: more ∧ more.Sublist texts := by
  cases hkept with
  | whole hwhole => exact absurd hlacks hwhole
  | gap _ hmore => exact ⟨_, rfl, hmore.sublist⟩

/-- The statements that are read add one after the other what they define alone. -/
theorem Script.readOn_eq {texts kept : List String} {lexemes : List Lexeme}
    (hscript : Script texts lexemes) (hdefinitions : ∀ text ∈ texts, IsDefinition text)
    (hkept : Kept texts kept) (schema : Schema) :
    readOn ⟨schema, []⟩ lexemes = ⟨(kept.map asWritten).foldl .extend schema, []⟩ := by
  induction hkept generalizing lexemes schema with
  | none =>
    obtain hlast | - := hscript
    exact readOn_eof hlast
  | @whole text texts kept hwhole _ ih =>
    obtain - | ⟨hopens, hend, hparallel, hmore⟩ := hscript
    have hdefinition := hdefinitions text List.mem_cons_self
    obtain ⟨left, hread⟩ := hdefinition.exists_statement
    have hstatement := hparallel.statement hdefinition.opens hopens hread hend hdefinition.defines
      hwhole schema
    have hturns : Turns scriptStep ⟨schema, []⟩ lexemes _ _ :=
      turns_accepted (by rw [hopens]; exact nofun) hstatement
    rw [readOn_of_turns hturns]
    exact ih hmore (fun other hmem => hdefinitions other (List.mem_cons_of_mem _ hmem)) _
  | @last text hlacks =>
    obtain - | ⟨hopens, hend, hparallel, hmore⟩ := hscript
    obtain hlast | - := hmore
    have hdefinition := hdefinitions text List.mem_cons_self
    obtain ⟨left, hread⟩ := hdefinition.exists_statement
    have hstatement := hparallel.statement_lacking hdefinition.opens hopens hread hend hlacks
      (.inr hlast) schema
    rw [skipStatement_of_eof hlast] at hstatement
    have hturns : Turns scriptStep ⟨schema, []⟩ lexemes _ _ :=
      turns_accepted (by rw [hopens]; exact nofun) hstatement
    rw [readOn_of_turns hturns, readOn_eof hlast]
    rfl
  | @gap text skipped texts kept hlacks _ ih =>
    obtain - | ⟨hopens, hend, hparallel, hmore⟩ := hscript
    obtain - | ⟨hopens', hend', hparallel', hmore'⟩ := hmore
    have hdefinition := hdefinitions text List.mem_cons_self
    obtain ⟨left, hread⟩ := hdefinition.exists_statement
    have hstatement := hparallel.statement_lacking hdefinition.opens hopens hread hend hlacks
      (.inl hopens') schema
    rw [skipStatement_of_create hopens', hparallel'.skipStatement] at hstatement
    have hturns : Turns scriptStep ⟨schema, []⟩ lexemes _ _ :=
      turns_accepted (by rw [hopens]; exact nofun) hstatement
    rw [readOn_of_turns hturns]
    exact ih hmore' (fun other hmem => hdefinitions other
      (List.mem_cons_of_mem _ (List.mem_cons_of_mem _ hmem))) _

/-- Joined statements define what those of them that are read define, and leave no diagnostics. -/
theorem asWritten_joined {order kept : List String}
    (hdefinitions : ∀ text ∈ order, IsDefinition text) (hkept : Kept order kept) :
    asWritten ("\n".intercalate order) = Schema.gather (kept.map asWritten) ∧
      (Schema.ofSql ("\n".intercalate order)).diagnostics = [] := by
  have hscript : Script order (Lexeme.ofText ("\n".intercalate order)) := by
    rw [Lexeme.ofText, String.toList_intercalate]
    exact script_of_definitions hdefinitions 1
  have hread := hscript.readOn_eq hdefinitions hkept .empty
  exact ⟨congrArg Import.schema hread, by rw [ofSql_eq_readOn, hread]⟩

/-! ## References -/

theorem asWritten_wellKeyed (text : String) : (asWritten text).WellKeyed := by
  rw [asWritten, readOn]
  split
  next result rest hread =>
    exact repeatedly_keeps (fun state : Import => state.schema.WellKeyed)
      (fun _ _ _ _ hkeyed hstep => scriptStep_wellKeyed hkeyed hstep) Schema.wellKeyed_empty hread

/-- A reference without columns gets those of the primary key of its table, or else `id`. -/
theorem keyColumns_eq {schema : Schema} (hnamed : schema.tables.Named Table.name)
    (target : String) :
    keyColumns schema target =
      ((schema.tables.get? target).bind Table.primaryKey?).elim ["id"] Prod.snd := by
  unfold keyColumns
  dsimp only
  cases hfound : (schema.tables.values.filterMap fun found =>
      found.primaryKey?.map fun key => (found.name, key.2)).find? fun key => key.1 == target with
  | some key =>
    obtain ⟨table, hmem, hkey⟩ := List.mem_filterMap.1 (List.mem_of_find?_eq_some hfound)
    obtain ⟨found, hprimary, rfl⟩ := Option.map_eq_some_iff.1 hkey
    have hname := List.find?_some hfound
    dsimp only at hname
    rw [← eq_of_beq hname, hnamed.get?_of_mem hmem, Option.bind_some, hprimary]
    rfl
  | none =>
    cases htable : schema.tables.get? target with
    | none => rfl
    | some table =>
      cases hprimary : table.primaryKey? with
      | none => rw [Option.bind_some, hprimary]; rfl
      | some key =>
        have hmem : (table.name, key.2) ∈ schema.tables.values.filterMap fun found =>
            found.primaryKey?.map fun key => (found.name, key.2) :=
          List.mem_filterMap.2
            ⟨table, Keyed.mem_values_iff.2 ⟨target, htable⟩, by rw [hprimary]; rfl⟩
        exact absurd (beq_iff_eq.2 (hnamed.of_get? htable)) (List.find?_eq_none.1 hfound _ hmem)

/-- The constraint with columns for a reference that has none. -/
def withColumns (columns : String → List String) (constraint : Constraint) : Constraint :=
  match constraint.rule with
  | .foreignKey key =>
    if key.targetColumns.isEmpty then
      { constraint with rule := .foreignKey { key with targetColumns := columns key.targetTable } }
    else constraint
  | _ => constraint

theorem get?_resolveReferences (schema : Schema) (name : String) :
    (resolveReferences schema).tables.get? name = (schema.tables.get? name).map fun table =>
      { table with constraints := table.constraints.map (withColumns (keyColumns schema)) } :=
  Keyed.get?_map _ _ _

theorem sameEntries_resolveReferences {schema other : Schema} (hsame : schema.SameEntries other)
    (hkeyed : schema.WellKeyed) (hkeyed' : other.WellKeyed) :
    (resolveReferences schema).SameEntries (resolveReferences other) := by
  have hcolumns : keyColumns schema = keyColumns other := by
    funext target
    rw [keyColumns_eq hkeyed.1, keyColumns_eq hkeyed'.1, hsame.tables]
  refine ⟨fun name => ?_, hsame.enums, hsame.extensions⟩
  rw [get?_resolveReferences, get?_resolveReferences, hsame.tables, hcolumns]

/-- The columns that a reference without columns stands for: those of the primary key that one of
the statements gives its table, or else `id`. -/
def referenceColumns (statements : List String) (target : String) : List String :=
  ((statements.findSome? fun text => (asWritten text).tables.get? target).bind
    Table.primaryKey?).elim ["id"] Prod.snd

/-! ## Orders -/

/-- The statement lacks no version, or what it would skip of the other one defines nothing. -/
def Spares (text other : String) : Prop :=
  Lacking (Lexeme.ofText text) → (Schema.ofSql other).schema = .empty

/-- A text writes nothing exactly if nothing is read from it. -/
theorem asWritten_eq_empty {text : String} :
    asWritten text = .empty ↔ (Schema.ofSql text).schema = .empty := by
  rw [schema_ofSql]
  constructor
  · intro hempty
    rw [hempty]
    rfl
  · intro hempty
    have hkeys := keys_resolveReferences (asWritten text)
    rw [hempty] at hkeys
    generalize asWritten text = schema at hempty hkeys ⊢
    obtain ⟨tables, enums, extensions⟩ := schema
    obtain rfl : tables = ∅ := Keyed.ext (List.map_eq_nil_iff.1 hkeys.symm)
    obtain rfl : enums = ∅ := congrArg Schema.enums hempty
    obtain rfl : extensions = ∅ := congrArg Schema.extensions hempty
    rfl

/-- The statements that are kept define as much as all of them, if what is skipped defines nothing.
-/
theorem Kept.gather_eq {texts kept : List String} (hkept : Kept texts kept)
    (hspares : texts.Pairwise Spares) (schema : Schema) :
    (kept.map asWritten).foldl .extend schema = (texts.map asWritten).foldl .extend schema := by
  induction hkept generalizing schema with
  | none => rfl
  | whole _ _ ih => exact ih (List.pairwise_cons.1 hspares).2 _
  | last => rfl
  | gap hlacks _ ih =>
    obtain ⟨hfirst, hmore⟩ := List.pairwise_cons.1 hspares
    have hempty := asWritten_eq_empty.2 (hfirst _ List.mem_cons_self hlacks)
    rw [List.map_cons, List.map_cons, List.map_cons, List.foldl_cons, List.foldl_cons,
      List.foldl_cons, hempty, Schema.extend_empty]
    exact ih (List.pairwise_cons.1 hmore).2 _

theorem within_asWritten_of_beq {text other : String}
    (hsame : ((Schema.ofSql text).schema == (Schema.ofSql other).schema) = true) :
    (asWritten text).Within (asWritten other) := by
  rw [schema_ofSql, schema_ofSql] at hsame
  obtain ⟨htables, henums, hextensions⟩ := Schema.within_of_beq hsame
  rw [keys_resolveReferences, keys_resolveReferences] at htables
  exact ⟨htables, henums, hextensions⟩

theorem disjoint_asWritten {text other : String}
    (hdisjoint : (Schema.ofSql text).schema.Disjoint (Schema.ofSql other).schema) :
    (asWritten text).Disjoint (asWritten other) := by
  rw [schema_ofSql, schema_ofSql] at hdisjoint
  have htables := hdisjoint.tables
  rw [keys_resolveReferences, keys_resolveReferences] at htables
  exact ⟨htables, hdisjoint.enums, hdisjoint.extensions⟩

section Orders

variable {statements : List String} (hdefinitions : ∀ text ∈ statements, IsDefinition text)

include hdefinitions

/-- In every order, some of the statements are read, and no diagnostics are left. -/
theorem kept_of_perm {order : List String} (hperm : order.Perm statements) :
    ∃ kept, Kept order kept ∧
      asWritten ("\n".intercalate order) = Schema.gather (kept.map asWritten) ∧
        (Schema.ofSql ("\n".intercalate order)).diagnostics = [] := by
  obtain ⟨kept, hkept⟩ := exists_kept order
  exact ⟨kept, hkept,
    asWritten_joined (fun text hmem => hdefinitions text (hperm.mem_iff.1 hmem)) hkept⟩

theorem asWritten_of_perm
    (hspares : statements.Pairwise fun text other => Spares text other ∧ Spares other text)
    {order : List String} (hperm : order.Perm statements) :
    asWritten ("\n".intercalate order) = Schema.gather (order.map asWritten) := by
  obtain ⟨kept, hkept, hread, -⟩ := kept_of_perm hdefinitions hperm
  rw [hread]
  exact hkept.gather_eq ((hperm.symm.pairwise hspares And.symm).imp And.left) .empty

variable (hdisjoint : statements.Pairwise fun text other =>
  (asWritten text).Disjoint (asWritten other))

include hdisjoint

/-- Behind an extension that lacks its version a statement is skipped, so one that defines something
is missed there, but not in front of the extension. -/
theorem spares_of_sublist {text other : String} {more : List String}
    (hperm : (text :: other :: more).Perm statements)
    (hsame : ((Schema.ofSql ("\n".intercalate (other :: text :: more))).schema ==
      (Schema.ofSql ("\n".intercalate (text :: other :: more))).schema) = true) :
    Spares text other := by
  intro hlacks
  have hperm' : (other :: text :: more).Perm statements :=
    (List.Perm.swap text other more).trans hperm
  obtain ⟨kept, hkept, hread, -⟩ := kept_of_perm hdefinitions hperm
  obtain ⟨kept', hkept', hread', -⟩ := kept_of_perm hdefinitions hperm'
  obtain ⟨rest, rfl, hrest⟩ := hkept.exists_of_lacking hlacks
  obtain ⟨hapart, hothers⟩ :=
    List.pairwise_cons.1 (hperm'.symm.pairwise hdisjoint Schema.Disjoint.symm)
  have hwithin :
      (asWritten other).Within (asWritten ("\n".intercalate (text :: other :: more))) := by
    refine .trans ?_ (within_asWritten_of_beq hsame)
    rw [hread']
    exact Schema.within_gather (List.mem_map_of_mem hkept'.mem)
  refine asWritten_eq_empty.1 (Schema.eq_empty_of_within hwithin ?_)
  rw [hread]
  refine Schema.disjoint_gather (List.forall_mem_map.2 fun part hmem => hapart part ?_)
  exact List.cons_subset_cons text hrest.subset hmem

section Spared

variable (hspares : statements.Pairwise fun text other => Spares text other ∧ Spares other text)

include hspares

theorem sameEntries_of_perm {order other : List String} (hperm : order.Perm statements)
    (hperm' : other.Perm statements) :
    (asWritten ("\n".intercalate order)).SameEntries (asWritten ("\n".intercalate other)) := by
  have hapart := (hperm.symm.pairwise hdisjoint Schema.Disjoint.symm).map asWritten
    fun _ _ hpair => hpair
  rw [asWritten_of_perm hdefinitions hspares hperm,
    asWritten_of_perm hdefinitions hspares hperm']
  exact Schema.gather_perm hapart ((hperm.trans hperm'.symm).map asWritten)

/-- Which columns a reference stands for does not depend on the order of the statements. -/
theorem keyColumns_of_perm {order : List String} (hperm : order.Perm statements)
    (target : String) :
    keyColumns (asWritten ("\n".intercalate order)) target =
      referenceColumns statements target := by
  have hapart := hdisjoint.map asWritten fun _ _ hpair => hpair
  rw [keyColumns_eq (asWritten_wellKeyed _).1, referenceColumns,
    (sameEntries_of_perm hdefinitions hdisjoint hspares hperm (.refl _)).tables,
    asWritten_of_perm hdefinitions hspares (.refl _)]
  cases hfound : statements.findSome? fun text => (asWritten text).tables.get? target with
  | some table =>
    obtain ⟨text, hmem, htable⟩ := List.exists_of_findSome?_eq_some hfound
    rw [Schema.get?_tables_gather hapart (List.mem_map_of_mem hmem) htable]
  | none =>
    rw [Schema.get?_tables_gather_of_none]
    exact List.forall_mem_map.2 (List.findSome?_eq_none_iff.1 hfound)

/-- A reference without columns gets the same columns in every order. -/
theorem constraint?_of_perm {order : List String} (hperm : order.Perm statements) {text : String}
    (hmem : text ∈ statements) {table label : String} {constraint : Constraint} {key : ForeignKey}
    (hconstraint : (asWritten text).constraint? table label = some constraint)
    (hrule : constraint.rule = .foreignKey key) (hcolumns : key.targetColumns = []) :
    (Schema.ofSql ("\n".intercalate order)).schema.constraint? table label =
      some { constraint with
        rule := .foreignKey
          { key with targetColumns := referenceColumns statements key.targetTable } } := by
  obtain ⟨owner, howner, hlabel⟩ := Option.bind_eq_some_iff.1 hconstraint
  have hapart := hdisjoint.map asWritten fun _ _ hpair => hpair
  have hfound : (asWritten ("\n".intercalate order)).tables.get? table = some owner := by
    rw [(sameEntries_of_perm hdefinitions hdisjoint hspares hperm (.refl _)).tables,
      asWritten_of_perm hdefinitions hspares (.refl _)]
    exact Schema.get?_tables_gather hapart (List.mem_map_of_mem hmem) howner
  rw [Schema.constraint?, schema_ofSql, get?_resolveReferences, hfound, Option.map_some,
    Option.bind_some, Keyed.get?_map, hlabel, Option.map_some, withColumns, hrule]
  dsimp only
  rw [hcolumns, if_pos List.isEmpty_nil, keyColumns_of_perm hdefinitions hdisjoint hspares hperm]

end Spared

end Orders

/-- Definitions without a common name, joined by the ends of lines, leave no diagnostics in any
order.  They define the same in all orders exactly if no extension that lacks its version can stand
in front of a statement that defines something.  Then a reference without columns stands for the
primary key of its table, or else for `id`, wherever the statement of that table is. -/
theorem ofSql_perm_beq_iff (statements : List String)
    (hdefinitions : ∀ text ∈ statements, IsDefinition text)
    (hdisjoint : statements.Pairwise fun text other =>
      (Schema.ofSql text).schema.Disjoint (Schema.ofSql other).schema) :
    (∀ order, order.Perm statements →
      (Schema.ofSql ("\n".intercalate order)).diagnostics = []) ∧
    ((∀ order other, order.Perm statements → other.Perm statements →
      ((Schema.ofSql ("\n".intercalate order)).schema ==
        (Schema.ofSql ("\n".intercalate other)).schema) = true) ↔
      statements.Pairwise fun text other => Spares text other ∧ Spares other text) ∧
    ((statements.Pairwise fun text other => Spares text other ∧ Spares other text) →
      ∀ order, order.Perm statements → ∀ text ∈ statements, ∀ table label constraint key,
        (asWritten text).constraint? table label = some constraint →
        constraint.rule = .foreignKey key → key.targetColumns = [] →
        (Schema.ofSql ("\n".intercalate order)).schema.constraint? table label =
          some { constraint with
            rule := .foreignKey
              { key with targetColumns := referenceColumns statements key.targetTable } }) := by
  have hapart := hdisjoint.imp fun hpair => disjoint_asWritten hpair
  refine ⟨fun order hperm => ?_, ⟨fun hsame => ?_, fun hspares order other hperm hperm' => ?_⟩,
    fun hspares order hperm text hmem table label constraint key hconstraint hrule hcolumns =>
      constraint?_of_perm hdefinitions hapart hspares hperm hmem hconstraint hrule hcolumns⟩
  · obtain ⟨kept, -, -, hdiagnostics⟩ := kept_of_perm hdefinitions hperm
    exact hdiagnostics
  · refine List.pairwise_iff_forall_sublist.2 fun {text other} hsublist => ?_
    obtain ⟨more, hperm⟩ := hsublist.exists_perm_append
    have hswap : (other :: text :: more).Perm statements :=
      (List.Perm.swap text other more).trans hperm.symm
    exact ⟨spares_of_sublist hdefinitions hapart hperm.symm (hsame _ _ hswap hperm.symm),
      spares_of_sublist hdefinitions hapart hswap (hsame _ _ hperm.symm hswap)⟩
  · rw [schema_ofSql, schema_ofSql]
    exact (sameEntries_resolveReferences
      (sameEntries_of_perm hdefinitions hapart hspares hperm hperm')
      (asWritten_wellKeyed _) (asWritten_wellKeyed _)).beq

/-- A table that refers to another one without a list of columns. -/
def ordersText : String := "CREATE TABLE orders (item int REFERENCES items);"

def itemsText : String := "CREATE TABLE items (code int PRIMARY KEY);"

theorem isDefinition_orders : IsDefinition ordersText := by
  have hlexemes : Lexeme.ofText ordersText = _ := Lexeme.ofText_ofList _
  refine ⟨?opens, ?defines, ⟨(Lexeme.ofText ordersText).take 9, ⟨[], [';'], .semicolon, 1⟩, 1,
    ?closes⟩, ?accepted⟩
  case accepted =>
    rw [ofSql_eq_readOn, hlexemes]
    decide +kernel
  all_goals
    rw [hlexemes]
    decide +kernel

theorem isDefinition_items : IsDefinition itemsText := by
  have hlexemes : Lexeme.ofText itemsText = _ := Lexeme.ofText_ofList _
  refine ⟨?opens, ?defines, ⟨(Lexeme.ofText itemsText).take 9, ⟨[], [';'], .semicolon, 1⟩, 1,
    ?closes⟩, ?accepted⟩
  case accepted =>
    rw [ofSql_eq_readOn, hlexemes]
    decide +kernel
  all_goals
    rw [hlexemes]
    decide +kernel

theorem spares_of_table {text other : String}
    (htable : next (Lexeme.ofText text).tail = .keyword .table) : Spares text other := by
  rintro ⟨hextension, -⟩
  rw [htable] at hextension
  cases hextension

/-- The reference finds the primary key in front of it and behind it. -/
theorem ofSql_perm_beq_iff_orders :
    (Schema.ofSql ("\n".intercalate [itemsText, ordersText])).diagnostics = [] ∧
    ((Schema.ofSql ("\n".intercalate [ordersText, itemsText])).schema ==
      (Schema.ofSql ("\n".intercalate [itemsText, ordersText])).schema) = true ∧
    (Schema.ofSql ("\n".intercalate [ordersText, itemsText])).schema.constraint? "orders"
      "orders_item_fkey" = some ⟨"orders_item_fkey",
        .foreignKey ⟨["item"], "items", referenceColumns [ordersText, itemsText] "items",
          .noAction, .noAction⟩⟩ ∧
    referenceColumns [ordersText, itemsText] "items" = ["code"] := by
  have hordersLexemes : Lexeme.ofText ordersText = _ := Lexeme.ofText_ofList _
  have hitemsLexemes : Lexeme.ofText itemsText = _ := Lexeme.ofText_ofList _
  have horders : (Schema.ofSql ordersText).schema.tables.keys = ["orders"] ∧
      (Schema.ofSql ordersText).schema.enums.keys = [] ∧
        (Schema.ofSql ordersText).schema.extensions.keys = [] := by
    rw [ofSql_eq_readOn, hordersLexemes]
    decide +kernel
  have hitems : (Schema.ofSql itemsText).schema.tables.keys = ["items"] := by
    rw [ofSql_eq_readOn, hitemsLexemes]
    decide +kernel
  have hdisjoint : (Schema.ofSql ordersText).schema.Disjoint (Schema.ofSql itemsText).schema := by
    refine ⟨?_, ?_, ?_⟩
    · rw [horders.1, hitems]
      simp
    · rw [horders.2.1]
      exact List.disjoint_nil_left _
    · rw [horders.2.2]
      exact List.disjoint_nil_left _
  obtain ⟨hdiagnostics, hsame, hreference⟩ := ofSql_perm_beq_iff [ordersText, itemsText]
    (by simp [isDefinition_orders, isDefinition_items]) (List.pairwise_pair.2 hdisjoint)
  have hspares : [ordersText, itemsText].Pairwise
      fun text other => Spares text other ∧ Spares other text :=
    List.pairwise_pair.2 ⟨spares_of_table (hordersLexemes ▸ by decide +kernel),
      spares_of_table (hitemsLexemes ▸ by decide +kernel)⟩
  have hswap : [itemsText, ordersText].Perm [ordersText, itemsText] := .swap _ _ _
  have hrule : (asWritten ordersText).constraint? "orders" "orders_item_fkey" =
      some ⟨"orders_item_fkey", .foreignKey ⟨["item"], "items", [], .noAction, .noAction⟩⟩ := by
    rw [asWritten, hordersLexemes]
    decide +kernel
  have hcolumns : referenceColumns [ordersText, itemsText] "items" = ["code"] := by
    simp only [referenceColumns, List.findSome?_cons, asWritten, hordersLexemes, hitemsLexemes]
    decide +kernel
  refine ⟨hdiagnostics _ hswap, hsame.2 hspares _ _ (.refl _) hswap, ?_, hcolumns⟩
  exact hreference hspares _ (.refl _) ordersText List.mem_cons_self _ _ _ _ hrule rfl rfl

/-- The extension takes its semicolon for a version, so the table behind it is skipped. -/
example :
    ((Schema.ofSql "CREATE EXTENSION citext VERSION; CREATE TABLE t (a int);").schema ==
      (Schema.ofSql "CREATE TABLE t (a int); CREATE EXTENSION citext VERSION;").schema) = false := by
  have hbehind : Lexeme.ofText "CREATE EXTENSION citext VERSION; CREATE TABLE t (a int);" = _ :=
    Lexeme.ofText_ofList _
  have hbefore : Lexeme.ofText "CREATE TABLE t (a int); CREATE EXTENSION citext VERSION;" = _ :=
    Lexeme.ofText_ofList _
  rw [ofSql_eq_readOn, ofSql_eq_readOn, hbehind, hbefore]
  decide +kernel

end SchemaEvolution.Sql
