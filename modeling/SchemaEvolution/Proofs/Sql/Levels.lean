import Mathlib.Data.List.Dedup
import SchemaEvolution.Proofs.Sql.References

/-!
# Levels of tables

Levels of tables are found pass after pass.  A table without parents has level zero; a pass goes
through the tables in any order, and gives a table whose parents all have levels by then the next
level after the greatest of theirs.  Passes are made until one of them finds nothing.  Whatever the
orders, the level of a table is the length of the longest path from it, and the tables left without
a level are those that reach a cycle.
-/

namespace SchemaEvolution.Sql

/-- The orders in which the tables are gone through, the roots being collected before the first
pass, and those in which the parents of each table are. -/
structure Visits (schema : Schema) where
  tables : Nat → List String
  parents : String → List String
  perm : ∀ pass, (tables pass).Perm schema.tables.keys
  distinct : ∀ name, (parents name).Nodup
  mem_parents : ∀ {name parent}, parent ∈ parents name ↔ RefersTo schema name parent

/-- The tables and the parents as the schema has them. -/
instance (schema : Schema) : Inhabited (Visits schema) where
  default :=
    { tables := fun _ => schema.tables.keys
      parents := fun name => (parentsOf schema name).dedup
      perm := fun _ => .refl _
      distinct := fun _ => List.nodup_dedup _
      mem_parents := List.mem_dedup.trans mem_parentsOf_iff }

namespace Visits

variable {schema : Schema} (visits : Visits schema)

def rootNames : List String :=
  (visits.tables 0).filter fun name => (visits.parents name).isEmpty

def roots : Keyed Nat := visits.rootNames.foldl (fun levels name => levels.insert name 0) ∅

/-- The level of a table that has none yet, where its parents all have levels. -/
def newLevel? (levels : Keyed Nat) (name : String) : Option Nat :=
  if levels.contains name then none
  else
    let known := (visits.parents name).filterMap levels.get?
    if known.length = (visits.parents name).length then some (known.max?.getD 0 + 1) else none

/-- A table is visited; whether any level was found so far is kept with the levels. -/
def visit (state : Keyed Nat × Bool) (name : String) : Keyed Nat × Bool :=
  match visits.newLevel? state.1 name with
  | some level => (state.1.insert name level, true)
  | none => state

/-- The tables are visited one after the other. -/
def pass (levels : Keyed Nat) (names : List String) : Keyed Nat × Bool :=
  names.foldl visits.visit (levels, false)

theorem pass_concat (levels : Keyed Nat) (names : List String) (name : String) :
    visits.pass levels (names ++ [name]) = visits.visit (visits.pass levels names) name := by
  rw [pass, List.foldl_append, List.foldl_cons, List.foldl_nil, ← pass]

def waiting (schema : Schema) (levels : Keyed Nat) : List String :=
  schema.tables.keys.filter fun name => !levels.contains name

variable {visits} {levels : Keyed Nat} {name : String} {level : Nat}

theorem mem_waiting_iff :
    name ∈ waiting schema levels ↔ name ∈ schema.tables.keys ∧ levels.get? name = none := by
  simp only [waiting, List.mem_filter, Keyed.contains, Option.not_isSome, Option.isNone_iff_eq_none]

theorem newLevel?_eq_some_iff : visits.newLevel? levels name = some level ↔
    levels.get? name = none ∧ (∀ parent, RefersTo schema name parent →
      ∃ n, levels.get? parent = some n) ∧
      ((visits.parents name).filterMap levels.get?).max?.getD 0 + 1 = level := by
  rw [newLevel?, Option.ite_none_left_eq_some, Option.ite_none_right_eq_some,
    List.filterMap_length_eq_length, Option.some.injEq, Keyed.contains,
    Option.not_isSome_iff_eq_none]
  simp only [visits.mem_parents, Option.isSome_iff_exists]

/-- A table that gets its level waits no longer. -/
theorem length_waiting_insert_lt (hname : name ∈ waiting schema levels) (level : Nat) :
    (waiting schema (levels.insert name level)).length < (waiting schema levels).length := by
  have hwaiting : waiting schema (levels.insert name level) =
      (waiting schema levels).filter fun other => !(name == other) := by
    rw [waiting, waiting, List.filter_filter]
    refine List.filter_congr fun other _ => ?_
    rw [Keyed.contains, Keyed.get?_insert, Keyed.contains]
    by_cases hother : name = other <;> simp [hother]
  rw [hwaiting, List.length_filter_lt_length_iff_exists]
  exact ⟨name, hname, by simp⟩

/-- What a pass that has come through some tables has made of the levels. -/
structure Passed (visits : Visits schema) (levels : Keyed Nat) (names : List String)
    (state : Keyed Nat × Bool) : Prop where
  found : state.2 = true →
    (waiting schema state.1).length < (waiting schema levels).length
  nothing : state.2 = false →
    state.1 = levels ∧ ∀ name ∈ names, visits.newLevel? levels name = none

/-- A visit adds the name to those that have been passed. -/
theorem Passed.visit {names : List String} {state : Keyed Nat × Bool}
    (hpassed : Passed visits levels names state) (hname : name ∈ schema.tables.keys) :
    Passed visits levels (names ++ [name]) (visits.visit state name) := by
  cases hlevel : visits.newLevel? state.1 name with
  | none =>
    rw [Visits.visit, hlevel]
    refine ⟨hpassed.found, fun hstate => ?_⟩
    obtain ⟨hsame, hnames⟩ := hpassed.nothing hstate
    refine ⟨hsame, fun other hother => ?_⟩
    obtain hbefore | hnow := List.mem_append.1 hother
    · exact hnames other hbefore
    · rwa [List.mem_singleton.1 hnow, ← hsame]
  | some level =>
    rw [Visits.visit, hlevel]
    refine ⟨fun _ => ?_, fun hstate => absurd hstate (by simp)⟩
    -- what was found before only makes the number of waiting tables smaller
    have hwaiting := mem_waiting_iff.2 ⟨hname, (newLevel?_eq_some_iff.1 hlevel).1⟩
    refine Nat.lt_of_lt_of_le (length_waiting_insert_lt hwaiting level) ?_
    cases hstate : state.2 with
    | false => rw [(hpassed.nothing hstate).1]
    | true => exact Nat.le_of_lt (hpassed.found hstate)

theorem passed_pass {names : List String} (hnames : ∀ name ∈ names, name ∈ schema.tables.keys) :
    Passed visits levels names (visits.pass levels names) := by
  induction names using List.reverseRecOn with
  | nil => exact ⟨by simp [pass], by simp [pass]⟩
  | append_singleton names name ih =>
    rw [pass_concat]
    exact (ih fun other hother => hnames other (List.mem_append_left _ hother)).visit
      (hnames name (List.mem_append_right _ (List.mem_singleton_self name)))

theorem mem_keys (count : Nat) : ∀ name ∈ visits.tables count, name ∈ schema.tables.keys :=
  fun _ hname => (visits.perm count).mem_iff.1 hname

variable (visits)

/-- Passes are made until one of them finds no level. -/
def search (count : Nat) (levels : Keyed Nat) : Keyed Nat :=
  if (visits.pass levels (visits.tables count)).2 then
    search (count + 1) (visits.pass levels (visits.tables count)).1
  else (visits.pass levels (visits.tables count)).1
termination_by (waiting schema levels).length
decreasing_by exact (passed_pass (visits.mem_keys count)).found ‹_›

variable {visits}

/-- Levels are lengths of longest paths, and the roots have theirs. -/
structure Sound (schema : Schema) (levels : Keyed Nat) : Prop where
  longest : ∀ {name level}, levels.get? name = some level →
    LongestFrom (RefersTo schema) name level
  roots : ∀ name ∈ schema.tables.keys, (∀ parent, ¬RefersTo schema name parent) →
    ∃ level, levels.get? name = some level

theorem mem_rootNames_iff : name ∈ visits.rootNames ↔
    name ∈ schema.tables.keys ∧ ∀ parent, ¬RefersTo schema name parent := by
  rw [rootNames, List.mem_filter, (visits.perm 0).mem_iff, List.isEmpty_iff,
    List.eq_nil_iff_forall_not_mem]
  simp only [visits.mem_parents]

/-- The levels start with the roots at nought. -/
theorem get?_roots_eq_some_iff :
    visits.roots.get? name = some level ↔ name ∈ visits.rootNames ∧ 0 = level := by
  by_cases hroot : name ∈ visits.rootNames
  · have hzero : visits.roots.get? name = some 0 :=
      Keyed.get?_foldl_insert (fun _ _ _ => rfl) ∅ (.inr ⟨name, hroot, rfl⟩)
    rw [hzero, Option.some.injEq, and_iff_right hroot]
  · have hne : ∀ root ∈ visits.rootNames, root ≠ name := by
      rintro root hmem rfl
      exact hroot hmem
    have hnone : visits.roots.get? name = none := Keyed.get?_foldl_insert_of_ne hne _ ∅
    simp only [hnone, hroot, reduceCtorEq, false_and]

theorem sound_roots : Sound schema visits.roots where
  longest hlevel := by
    obtain ⟨hroot, rfl⟩ := get?_roots_eq_some_iff.1 hlevel
    exact .of_parents (.here _) fun parent hrefers =>
      absurd hrefers ((mem_rootNames_iff.1 hroot).2 parent)
  roots name hname hparents :=
    ⟨0, get?_roots_eq_some_iff.2 ⟨mem_rootNames_iff.2 ⟨hname, hparents⟩, rfl⟩⟩

/-- Where there are levels, one of them is the greatest. -/
theorem exists_max? {n : Nat} {known : List Nat} (hmem : n ∈ known) :
    ∃ greatest ∈ known, known.max? = some greatest ∧ ∀ other ∈ known, other ≤ greatest := by
  cases hmax : known.max? with
  | none =>
    rw [List.max?_eq_none_iff.1 hmax] at hmem
    exact absurd hmem List.not_mem_nil
  | some greatest =>
    obtain ⟨hgreatest, hle⟩ := List.max?_eq_some_iff.1 hmax
    exact ⟨greatest, hgreatest, rfl, hle⟩

/-- The level that is found is the length of the longest path. -/
theorem Sound.longest_newLevel? (hsound : Sound schema levels) (hname : name ∈ schema.tables.keys)
    (hlevel : visits.newLevel? levels name = some level) :
    LongestFrom (RefersTo schema) name level := by
  obtain ⟨hnew, hknown, hmax⟩ := newLevel?_eq_some_iff.1 hlevel
  have hparent : ∃ parent, RefersTo schema name parent := by
    by_contra hroot
    obtain ⟨root, hroot⟩ := hsound.roots name hname fun parent hrefers => hroot ⟨parent, hrefers⟩
    rw [hnew] at hroot
    cases hroot
  have hmem : ∀ {parent n}, RefersTo schema name parent → levels.get? parent = some n →
      n ∈ (visits.parents name).filterMap levels.get? := fun hrefers hn =>
    List.mem_filterMap.2 ⟨_, visits.mem_parents.2 hrefers, hn⟩
  obtain ⟨parent, hrefers⟩ := hparent
  obtain ⟨n, hn⟩ := hknown parent hrefers
  obtain ⟨greatest, hamong, hgreatest, hle⟩ := exists_max? (hmem hrefers hn)
  rw [hgreatest, Option.getD_some] at hmax
  subst hmax
  -- the longest path goes through a parent of the greatest level
  obtain ⟨through, hthrough, hlevel⟩ := List.mem_filterMap.1 hamong
  refine .of_parents (.next (visits.mem_parents.1 hthrough) (hsound.longest hlevel).path)
    fun other hother => ?_
  obtain ⟨m, hm⟩ := hknown other hother
  exact ⟨m, Nat.lt_succ_of_le (hle m (hmem hother hm)), hsound.longest hm⟩

/-- A visit records a level that the references bear out. -/
theorem Sound.visit {state : Keyed Nat × Bool} (hsound : Sound schema state.1)
    (hname : name ∈ schema.tables.keys) : Sound schema (visits.visit state name).1 := by
  cases hlevel : visits.newLevel? state.1 name with
  | none => rwa [Visits.visit, hlevel]
  | some level =>
    rw [Visits.visit, hlevel]
    refine ⟨fun {other n} hother => ?_, fun other hkey hroot => ?_⟩
    · rw [Keyed.get?_insert] at hother
      split at hother
      · next hsame =>
        obtain rfl := Option.some.inj hother
        exact hsame ▸ hsound.longest_newLevel? hname hlevel
      · exact hsound.longest hother
    · rw [Keyed.get?_insert]
      split
      · exact ⟨level, rfl⟩
      · exact hsound.roots other hkey hroot

theorem Sound.pass (hsound : Sound schema levels) {names : List String}
    (hnames : ∀ name ∈ names, name ∈ schema.tables.keys) :
    Sound schema (visits.pass levels names).1 := by
  induction names using List.reverseRecOn with
  | nil => exact hsound
  | append_singleton names name ih =>
    rw [pass_concat]
    exact (ih fun other hother => hnames other (List.mem_append_left _ hother)).visit
      (hnames name (List.mem_append_right _ (List.mem_singleton_self name)))

/-- Where no table finds a level, those without one keep each other waiting. -/
theorem reachesCycle_of_newLevel?_eq_none
    (hnothing : ∀ name ∈ schema.tables.keys, visits.newLevel? levels name = none) :
    ∀ name ∈ waiting schema levels, ReachesCycle (RefersTo schema) name := by
  refine reachesCycle_of_forall_refers fun name hname => ?_
  obtain ⟨hkey, hnone⟩ := mem_waiting_iff.1 hname
  by_contra hall
  push Not at hall
  have hlevel : visits.newLevel? levels name = some _ := newLevel?_eq_some_iff.2
    ⟨hnone, fun parent hrefers => ?_, rfl⟩
  · rw [hnothing name hkey] at hlevel
    cases hlevel
  · by_contra hmissing
    rw [← Option.isSome_iff_exists, Option.not_isSome_iff_eq_none] at hmissing
    exact hall parent (mem_waiting_iff.2 ⟨hrefers.2.1, hmissing⟩) hrefers

/-- The search ends with the levels of exactly the tables that reach no cycle. -/
theorem search_sound (count : Nat) (hsound : Sound schema levels) :
    Sound schema (visits.search count levels) ∧
      ∀ name ∈ waiting schema (visits.search count levels),
        ReachesCycle (RefersTo schema) name := by
  fun_induction Visits.search visits count levels with
  | case1 count levels hfound ih => exact ih (hsound.pass (mem_keys count))
  | case2 count levels hnothing =>
    refine ⟨hsound.pass (mem_keys count), ?_⟩
    have hpassed := (passed_pass (mem_keys count)).nothing (Bool.eq_false_iff.2 hnothing)
    rw [hpassed.1]
    exact reachesCycle_of_newLevel?_eq_none fun name hname =>
      hpassed.2 name ((visits.perm count).mem_iff.2 hname)

/-! ## The order by levels -/

variable (visits)

def levelMap : Keyed Nat := visits.search 1 visits.roots

/-- What tables without a level count as: one more than the greatest level. -/
def lastLevel (levels : Keyed Nat) : Nat := levels.values.max?.elim 0 (· + 1)

/-- Tables by level, and by name within a level. -/
def isOrdered (first second : Nat × String) : Bool :=
  first.1 < second.1 || first.1 == second.1 && !(second.2 < first.2)

def rank (levels : Keyed Nat) (name : String) : Nat := (levels.get? name).getD (lastLevel levels)

def ranked (schema : Schema) (levels : Keyed Nat) : List (Nat × String) :=
  schema.tables.keys.map fun name => (rank levels name, name)

/-- The names of the tables in the order of their levels. -/
def order : List String := ((ranked schema visits.levelMap).mergeSort isOrdered).map Prod.snd

variable {visits}

theorem lt_lastLevel (hlevel : levels.get? name = some level) : level < lastLevel levels := by
  have hmem := Keyed.mem_values_iff.2 ⟨name, hlevel⟩
  obtain ⟨greatest, -, hgreatest, hle⟩ := exists_max? hmem
  rw [lastLevel, hgreatest]
  exact Nat.lt_succ_of_le (hle level hmem)

theorem isOrdered_iff {first second : Nat × String} : isOrdered first second = true ↔
    first.1 < second.1 ∨ first.1 = second.1 ∧ first.2 ≤ second.2 := by
  simp only [isOrdered, Bool.or_eq_true, Bool.and_eq_true, decide_eq_true_eq, beq_iff_eq,
    Bool.not_eq_true', decide_eq_false_iff_not, String.not_lt]

theorem isOrdered_trans (first second third : Nat × String) (hfirst : isOrdered first second = true)
    (hsecond : isOrdered second third = true) : isOrdered first third = true := by
  rw [isOrdered_iff] at hfirst hsecond ⊢
  obtain hlt | ⟨heq, hname⟩ := hfirst
  · obtain hlt' | ⟨heq', -⟩ := hsecond
    · exact .inl (Nat.lt_trans hlt hlt')
    · exact .inl (heq' ▸ hlt)
  · rw [heq]
    exact hsecond.imp_right fun h => ⟨h.1, String.le_trans hname h.2⟩

theorem isOrdered_total (first second : Nat × String) :
    (isOrdered first second || isOrdered second first) = true := by
  rw [Bool.or_eq_true, isOrdered_iff, isOrdered_iff]
  obtain hlt | heq | hgt := Nat.lt_trichotomy first.1 second.1
  · exact .inl (.inl hlt)
  · exact (String.le_total first.2 second.2).imp (fun h => .inr ⟨heq, h⟩)
      fun h => .inr ⟨heq.symm, h⟩
  · exact .inr (.inl hgt)

theorem map_snd_ranked : (ranked schema levels).map Prod.snd = schema.tables.keys := by
  rw [ranked, List.map_map]
  exact List.map_id _

theorem order_perm : visits.order.Perm schema.tables.keys := by
  have hperm := (List.mergeSort_perm (ranked schema visits.levelMap) isOrdered).map Prod.snd
  rwa [map_snd_ranked] at hperm

theorem sound_levelMap : Sound schema visits.levelMap := (search_sound 1 sound_roots).1

theorem reachesCycle_of_levelMap (hname : name ∈ schema.tables.keys)
    (hnone : visits.levelMap.get? name = none) : ReachesCycle (RefersTo schema) name :=
  (search_sound 1 sound_roots).2 name (mem_waiting_iff.2 ⟨hname, hnone⟩)

/-- A table precedes those of a greater level, and those of its own with a later name. -/
theorem precedes_of_rank {other : String} (hother : other ∈ schema.tables.keys)
    (hrank : rank visits.levelMap name < rank visits.levelMap other ∨
      rank visits.levelMap name = rank visits.levelMap other ∧ name < other) :
    Precedes (RefersTo schema) name other := by
  rw [rank, rank] at hrank
  cases hn : visits.levelMap.get? other with
  | none =>
    refine .inr ⟨reachesCycle_of_levelMap hother hn, fun hcycle => ?_⟩
    cases hm : visits.levelMap.get? name with
    | none =>
      rw [hm, hn] at hrank
      exact (hrank.resolve_left (Nat.lt_irrefl _)).2
    | some m => exact absurd hcycle (sound_levelMap.longest hm).not_reachesCycle
  | some n =>
    cases hm : visits.levelMap.get? name with
    | none =>
      rw [hm, hn, Option.getD_none, Option.getD_some] at hrank
      have hlast := lt_lastLevel hn
      omega
    | some m =>
      rw [hm, hn] at hrank
      exact .inl ⟨m, n, sound_levelMap.longest hm, sound_levelMap.longest hn, hrank⟩

/-- In the order, what a table refers to comes in front of it. -/
theorem pairwise_order : visits.order.Pairwise (Precedes (RefersTo schema)) := by
  have hnodup : ((ranked schema visits.levelMap).mergeSort isOrdered).Pairwise
      fun first second => first.2 ≠ second.2 :=
    List.pairwise_map.1 (order_perm.nodup_iff.2 schema.tables.distinct)
  have hsorted := List.pairwise_mergeSort isOrdered_trans isOrdered_total
    (ranked schema visits.levelMap)
  have hperm := List.mergeSort_perm (ranked schema visits.levelMap) isOrdered
  refine List.pairwise_map.2 ((hsorted.and hnodup).imp_of_mem ?_)
  rintro first second hfirst hsecond ⟨hordered, hne⟩
  obtain ⟨name, -, rfl⟩ := List.mem_map.1 (hperm.mem_iff.1 hfirst)
  obtain ⟨other, hother, rfl⟩ := List.mem_map.1 (hperm.mem_iff.1 hsecond)
  refine precedes_of_rank hother ((isOrdered_iff.1 hordered).imp_right fun h => ?_)
  exact ⟨h.1, Std.lt_of_le_of_ne h.2 hne⟩

end Visits

end SchemaEvolution.Sql
