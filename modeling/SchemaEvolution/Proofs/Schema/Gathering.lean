import SchemaEvolution.Proofs.Schema.WellKeyed

/-!
# Schemas that are put together

A schema takes over what another one defines.  Schemas that have no name in common are put
together in any order: each of the results has the entries of all of them.
-/

namespace SchemaEvolution

namespace Keyed

variable {α : Type} {key : String}

/-- The entries with those of another collection stored over them. -/
def extend (entries additions : Keyed α) : Keyed α :=
  additions.toList.foldl (fun found entry => found.insert entry.1 entry.2) entries

/-- What is extended with is found first. -/
theorem get?_extend (entries additions : Keyed α) (key : String) :
    (entries.extend additions).get? key = (additions.get? key).or (entries.get? key) := by
  rw [extend]
  cases hvalue : additions.get? key with
  | none =>
    refine get?_foldl_insert_of_ne (fun entry hmem heq => ?_) Prod.snd entries
    have hentry := get?_eq_some_iff.2 hmem
    rw [heq, hvalue] at hentry
    cases hentry
  | some value =>
    refine get?_foldl_insert (fun entry hmem heq => ?_) entries
      (.inr ⟨(key, value), get?_eq_some_iff.1 hvalue, rfl⟩)
    have hentry := get?_eq_some_iff.2 hmem
    rw [heq, hvalue] at hentry
    exact (Option.some.inj hentry).symm

/-- A name of none of the collections is a name of none that they are put together to. -/
theorem get?_foldl_extend_of_none {parts : List (Keyed α)}
    (hnone : ∀ part ∈ parts, part.get? key = none) (done : Keyed α) :
    (parts.foldl extend done).get? key = done.get? key := by
  induction parts generalizing done with
  | nil => rfl
  | cons part more ih =>
    rw [List.foldl_cons, ih fun other hmem => hnone other (List.mem_cons_of_mem _ hmem),
      get?_extend, hnone part List.mem_cons_self, Option.none_or]

/-- What a collection has under a name of its own, all of them together have. -/
theorem get?_foldl_extend {parts : List (Keyed α)} {part : Keyed α} {value : α}
    (hdisjoint : parts.Pairwise fun left right => left.keys.Disjoint right.keys)
    (hpart : part ∈ parts) (hvalue : part.get? key = some value) (done : Keyed α) :
    (parts.foldl extend done).get? key = some value := by
  induction hdisjoint generalizing done with
  | nil => cases hpart
  | @cons first more hfirst _ ih =>
    rw [List.foldl_cons]
    rcases List.mem_cons.1 hpart with rfl | hmore
    · rw [get?_foldl_extend_of_none, get?_extend, hvalue, Option.some_or]
      intro other hother
      exact get?_eq_none_iff.2 fun hkey =>
        hfirst other hother (mem_keys_iff.2 ⟨value, hvalue⟩) hkey
    · exact ih hmore _

/-- The keys of extended collections are those of all parts. -/
theorem mem_keys_foldl_extend {parts : List (Keyed α)} (done : Keyed α) :
    key ∈ (parts.foldl extend done).keys ↔ key ∈ done.keys ∨ ∃ part ∈ parts, key ∈ part.keys := by
  induction parts generalizing done with
  | nil => simp
  | cons part more ih =>
    have hextend : key ∈ (done.extend part).keys ↔ key ∈ part.keys ∨ key ∈ done.keys := by
      simp only [mem_keys_iff, get?_extend, Option.or_eq_some_iff]
      cases part.get? key with
      | none => simp
      | some value => simp
    rw [List.foldl_cons, ih, hextend, List.exists_mem_cons_iff, or_right_comm, or_comm]

theorem keys_subset_foldl_extend {parts : List (Keyed α)} {part : Keyed α} (hpart : part ∈ parts)
    (done : Keyed α) : part.keys ⊆ (parts.foldl extend done).keys :=
  fun _ hkey => (mem_keys_foldl_extend done).2 (.inr ⟨part, hpart, hkey⟩)

theorem disjoint_foldl_extend {parts : List (Keyed α)} {names : List String}
    (hdisjoint : ∀ part ∈ parts, names.Disjoint part.keys) :
    names.Disjoint (parts.foldl extend ∅).keys := by
  intro key hkey hparts
  rcases (mem_keys_foldl_extend ∅).1 hparts with hempty | ⟨part, hpart, hmem⟩
  · cases hempty
  · exact hdisjoint part hpart hkey hmem

/-- Collections without a common name are put together in any order. -/
theorem get?_foldl_extend_perm {parts others : List (Keyed α)} (hperm : parts.Perm others)
    (hdisjoint : parts.Pairwise fun left right => left.keys.Disjoint right.keys)
    (done : Keyed α) (key : String) :
    (parts.foldl extend done).get? key = (others.foldl extend done).get? key := by
  by_cases hsome : ∃ part ∈ parts, ∃ value, part.get? key = some value
  · obtain ⟨part, hpart, value, hvalue⟩ := hsome
    have hdisjoint' := hperm.pairwise hdisjoint fun hleft => List.disjoint_symm hleft
    rw [get?_foldl_extend hdisjoint hpart hvalue,
      get?_foldl_extend hdisjoint' (hperm.mem_iff.1 hpart) hvalue]
  · have hnone : ∀ part ∈ parts, part.get? key = none := fun part hpart =>
      Option.eq_none_iff_forall_ne_some.2 fun value hvalue => hsome ⟨part, hpart, value, hvalue⟩
    rw [get?_foldl_extend_of_none hnone,
      get?_foldl_extend_of_none fun part hpart => hnone part (hperm.mem_iff.2 hpart)]

end Keyed

namespace Schema

def extend (schema addition : Schema) : Schema where
  tables := schema.tables.extend addition.tables
  enums := schema.enums.extend addition.enums
  extensions := schema.extensions.extend addition.extensions

theorem extend_empty (schema : Schema) : schema.extend .empty = schema := rfl

/-- What some schemas define, taken over one after the other. -/
def gather (parts : List Schema) : Schema := parts.foldl extend .empty

/-- No name of a table, of an enumerated type or of an extension is in both. -/
structure Disjoint (left right : Schema) : Prop where
  tables : left.tables.keys.Disjoint right.tables.keys
  enums : left.enums.keys.Disjoint right.enums.keys
  extensions : left.extensions.keys.Disjoint right.extensions.keys

theorem Disjoint.symm {left right : Schema} (hdisjoint : left.Disjoint right) :
    right.Disjoint left :=
  ⟨List.disjoint_symm hdisjoint.tables, List.disjoint_symm hdisjoint.enums,
    List.disjoint_symm hdisjoint.extensions⟩

theorem foldl_extend (parts : List Schema) (schema : Schema) :
    parts.foldl extend schema =
      ⟨(parts.map tables).foldl Keyed.extend schema.tables,
        (parts.map enums).foldl Keyed.extend schema.enums,
        (parts.map extensions).foldl Keyed.extend schema.extensions⟩ := by
  induction parts generalizing schema with
  | nil => rfl
  | cons part more ih => exact ih (schema.extend part)

/-- Both schemas have the same under every name. -/
structure SameEntries (left right : Schema) : Prop where
  tables : ∀ key, left.tables.get? key = right.tables.get? key
  enums : ∀ key, left.enums.get? key = right.enums.get? key
  extensions : ∀ key, left.extensions.get? key = right.extensions.get? key

theorem SameEntries.beq {left right : Schema} (hsame : left.SameEntries right) :
    (left == right) = true := by
  refine (beq_iff left right).2 ⟨?_, ?_, ?_⟩
  · exact (Keyed.beq_iff_get? _ _).2 fun key => by rw [hsame.tables]; exact beq_self_eq_true _
  · exact (Keyed.beq_iff_get? _ _).2 fun key => by rw [hsame.enums]; exact beq_self_eq_true _
  · exact (Keyed.beq_iff_get? _ _).2 fun key => by rw [hsame.extensions]; exact beq_self_eq_true _

section Gather

variable {parts others : List Schema} (hdisjoint : parts.Pairwise Disjoint)

include hdisjoint

/-- Schemas without a common name are put together in any order. -/
theorem gather_perm (hperm : parts.Perm others) : (gather parts).SameEntries (gather others) := by
  rw [gather, gather, foldl_extend, foldl_extend]
  exact ⟨Keyed.get?_foldl_extend_perm (hperm.map tables)
      (hdisjoint.map tables fun _ _ hpair => hpair.tables) ∅,
    Keyed.get?_foldl_extend_perm (hperm.map enums)
      (hdisjoint.map enums fun _ _ hpair => hpair.enums) ∅,
    Keyed.get?_foldl_extend_perm (hperm.map extensions)
      (hdisjoint.map extensions fun _ _ hpair => hpair.extensions) ∅⟩

theorem get?_tables_gather {part : Schema} (hpart : part ∈ parts) {name : String} {table : Table}
    (htable : part.tables.get? name = some table) :
    (gather parts).tables.get? name = some table := by
  rw [gather, foldl_extend]
  exact Keyed.get?_foldl_extend (hdisjoint.map tables fun _ _ hpair => hpair.tables)
    (List.mem_map_of_mem hpart) htable ∅

omit hdisjoint in
theorem get?_tables_gather_of_none {name : String}
    (hnone : ∀ part ∈ parts, part.tables.get? name = none) :
    (gather parts).tables.get? name = none := by
  rw [gather, foldl_extend]
  exact Keyed.get?_foldl_extend_of_none (List.forall_mem_map.2 hnone) ∅

end Gather

/-! ## Names -/

/-- Every name in the schema is in the other one. -/
structure Within (part whole : Schema) : Prop where
  tables : part.tables.keys ⊆ whole.tables.keys
  enums : part.enums.keys ⊆ whole.enums.keys
  extensions : part.extensions.keys ⊆ whole.extensions.keys

theorem within_gather {parts : List Schema} {part : Schema} (hpart : part ∈ parts) :
    part.Within (gather parts) := by
  rw [gather, foldl_extend]
  exact ⟨Keyed.keys_subset_foldl_extend (List.mem_map_of_mem hpart) ∅,
    Keyed.keys_subset_foldl_extend (List.mem_map_of_mem hpart) ∅,
    Keyed.keys_subset_foldl_extend (List.mem_map_of_mem hpart) ∅⟩

theorem disjoint_gather {parts : List Schema} {schema : Schema}
    (hdisjoint : ∀ part ∈ parts, schema.Disjoint part) : schema.Disjoint (gather parts) := by
  rw [gather, foldl_extend]
  exact ⟨Keyed.disjoint_foldl_extend
      (List.forall_mem_map.2 fun part hmem => (hdisjoint part hmem).1),
    Keyed.disjoint_foldl_extend (List.forall_mem_map.2 fun part hmem => (hdisjoint part hmem).2),
    Keyed.disjoint_foldl_extend (List.forall_mem_map.2 fun part hmem => (hdisjoint part hmem).3)⟩

theorem Within.trans {part whole other : Schema} (hpart : part.Within whole)
    (hwhole : whole.Within other) : part.Within other :=
  ⟨fun _ hkey => hwhole.tables (hpart.tables hkey), fun _ hkey => hwhole.enums (hpart.enums hkey),
    fun _ hkey => hwhole.extensions (hpart.extensions hkey)⟩

theorem within_of_beq {left right : Schema} (hsame : (left == right) = true) :
    left.Within right := by
  obtain ⟨htables, henums, hextensions⟩ := (beq_iff left right).1 hsame
  exact ⟨fun key hkey => (Keyed.mem_keys_of_beq htables key).1 hkey,
    fun key hkey => (Keyed.mem_keys_of_beq henums key).1 hkey,
    fun key hkey => (Keyed.mem_keys_of_beq hextensions key).1 hkey⟩

/-- Only the empty schema has its names in one with which it has none in common. -/
theorem eq_empty_of_within {part whole : Schema} (hwithin : part.Within whole)
    (hdisjoint : part.Disjoint whole) : part = .empty := by
  have hnone {α : Type} {entries : Keyed α} (hkeys : ∀ key, key ∉ entries.keys) :
      entries = ∅ :=
    Keyed.ext (List.map_eq_nil_iff.1 (List.eq_nil_iff_forall_not_mem.2 hkeys))
  obtain ⟨tables, enums, extensions⟩ := part
  obtain rfl : tables = ∅ := hnone fun _ hkey => hdisjoint.tables hkey (hwithin.tables hkey)
  obtain rfl : enums = ∅ := hnone fun _ hkey => hdisjoint.enums hkey (hwithin.enums hkey)
  obtain rfl : extensions = ∅ :=
    hnone fun _ hkey => hdisjoint.extensions hkey (hwithin.extensions hkey)
  rfl

end Schema

end SchemaEvolution
