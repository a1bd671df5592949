import Mathlib.Data.Fintype.Pigeonhole
import Mathlib.Data.Set.Finite.Basic
import Mathlib.Logic.Relation
import SchemaEvolution.Proofs.Schema.WellKeyed
import SchemaEvolution.Sql.Export

/-!
# References between tables

A table refers to the other tables of the schema that its foreign keys name.  Either a path along
these references that starts at a table has a greatest length, or the table reaches a cycle.  Both
say where the table belongs among the others.
-/

namespace SchemaEvolution.Sql

section Paths

variable {α : Type} {refers : α → α → Prop}

/-- A path of references starts at a table and has a length. -/
inductive PathFrom (refers : α → α → Prop) : α → Nat → Prop where
  | here (name : α) : PathFrom refers name 0
  | next {name parent : α} {length : Nat} : refers name parent →
      PathFrom refers parent length → PathFrom refers name (length + 1)

/-- The length of the longest path of references that starts at a table. -/
structure LongestFrom (refers : α → α → Prop) (name : α) (length : Nat) : Prop where
  path : PathFrom refers name length
  longest : ∀ {other}, PathFrom refers name other → other ≤ length

/-- References lead from a table to one that refers to itself in the end. -/
def ReachesCycle (refers : α → α → Prop) (name : α) : Prop :=
  ∃ other, Relation.ReflTransGen refers name other ∧ Relation.TransGen refers other other

theorem LongestFrom.unique {name : α} {m n : Nat} (hm : LongestFrom refers name m)
    (hn : LongestFrom refers name n) : m = n :=
  Nat.le_antisymm (hn.longest hm.path) (hm.longest hn.path)

/-- A table whose parents all have shorter paths has no longer path than the one that there is. -/
theorem LongestFrom.of_parents {name : α} {n : Nat} (hpath : PathFrom refers name n)
    (hparents : ∀ parent, refers name parent → ∃ m < n, LongestFrom refers parent m) :
    LongestFrom refers name n where
  path := hpath
  longest hother := by
    cases hother with
    | here => exact Nat.zero_le n
    | next hrefers htail =>
      obtain ⟨m, hm, hlongest⟩ := hparents _ hrefers
      exact Nat.le_trans (Nat.succ_le_succ (hlongest.longest htail)) hm

theorem LongestFrom.lt_of_refers {child parent : α} {m n : Nat} (hrefers : refers child parent)
    (hparent : LongestFrom refers parent m) (hchild : LongestFrom refers child n) : m < n :=
  hchild.longest (.next hrefers hparent.path)

/-- A table that reaches a cycle has a parent that does. -/
theorem ReachesCycle.exists_refers {name : α} (hname : ReachesCycle refers name) :
    ∃ parent, refers name parent ∧ ReachesCycle refers parent := by
  obtain ⟨other, hreach, hcycle⟩ := hname
  obtain hhere | ⟨parent, hrefers, htail⟩ := Relation.ReflTransGen.cases_head hreach
  · subst hhere
    obtain ⟨parent, hrefers, htail⟩ := Relation.TransGen.head'_iff.1 hcycle
    exact ⟨parent, hrefers, name, htail, hcycle⟩
  · exact ⟨parent, hrefers, other, htail, hcycle⟩

theorem ReachesCycle.of_refers {name parent : α} (hparent : ReachesCycle refers parent)
    (hrefers : refers name parent) : ReachesCycle refers name := by
  obtain ⟨other, hreach, hcycle⟩ := hparent
  exact ⟨other, .head hrefers hreach, hcycle⟩

/-- Paths go round a cycle as often as asked. -/
theorem ReachesCycle.pathFrom {name : α} (hname : ReachesCycle refers name) (length : Nat) :
    PathFrom refers name length := by
  induction length generalizing name with
  | zero => exact .here name
  | succ length ih =>
    obtain ⟨parent, hrefers, hparent⟩ := hname.exists_refers
    exact .next hrefers (ih hparent)

theorem LongestFrom.not_reachesCycle {name : α} {n : Nat} (hlongest : LongestFrom refers name n) :
    ¬ReachesCycle refers name := fun hcycle =>
  Nat.not_succ_le_self n (hlongest.longest (hcycle.pathFrom (n + 1)))

section Successor

variable (succ : α → α) (hsucc : ∀ name, refers name (succ name))

include hsucc

theorem reflTransGen_iterate (n : Nat) (name : α) :
    Relation.ReflTransGen refers name (succ^[n] name) := by
  induction n generalizing name with
  | zero => exact .refl
  | succ n ih => exact .head (hsucc name) (ih (succ name))

/-- In a finite collection, to follow references for ever is to come back. -/
theorem reachesCycle_of_finite [Finite α] (name : α) : ReachesCycle refers name := by
  obtain ⟨m, n, hne, hsame⟩ := Finite.exists_ne_map_eq_of_infinite fun count : Nat =>
    succ^[count] name
  wlog hlt : m < n generalizing m n
  · exact this n m hne.symm hsame.symm (Nat.lt_of_le_of_ne (Nat.not_lt.1 hlt) hne.symm)
  -- the table of step `m` is met again at step `n`
  refine ⟨succ^[m] name, reflTransGen_iterate succ hsucc m name, ?_⟩
  have hback : succ^[n - m - 1] (succ (succ^[m] name)) = succ^[m] name := by
    calc
      succ^[n - m - 1] (succ (succ^[m] name)) = succ^[n - m - 1 + 1] (succ^[m] name) := rfl
      _ = succ^[n - m - 1 + 1 + m] name := (Function.iterate_add_apply succ _ m name).symm
      _ = succ^[n] name := by rw [show n - m - 1 + 1 + m = n by omega]
      _ = succ^[m] name := hsame.symm
  refine Relation.TransGen.head' (hsucc _) ?_
  have htail := reflTransGen_iterate succ hsucc (n - m - 1) (succ (succ^[m] name))
  rwa [hback] at htail

end Successor

/-- Tables each of which has a parent among them reach a cycle. -/
theorem reachesCycle_of_forall_refers {names : List α}
    (hparents : ∀ name ∈ names, ∃ parent ∈ names, refers name parent) :
    ∀ name ∈ names, ReachesCycle refers name := by
  choose! succ hmem hrefers using hparents
  intro name hname
  have : Finite {name // name ∈ names} := List.finite_toSet names
  have hcycle : ReachesCycle (fun child parent : {name // name ∈ names} => refers child parent)
      ⟨name, hname⟩ :=
    reachesCycle_of_finite (fun child : {name // name ∈ names} => ⟨succ child, hmem child child.2⟩)
      (fun child => hrefers child child.2) _
  obtain ⟨other, hreach, hround⟩ := hcycle
  exact ⟨other, hreach.lift Subtype.val fun _ _ h => h, hround.lift Subtype.val fun _ _ h => h⟩

end Paths

section Places

variable {refers : String → String → Prop} {first second : String}

/-- Of two tables that reach no cycle, the one with the shorter longest path comes first, and the
names decide where these have one length. -/
def Before (refers : String → String → Prop) (first second : String) : Prop :=
  ∃ m n, LongestFrom refers first m ∧ LongestFrom refers second n ∧
    (m < n ∨ m = n ∧ first < second)

/-- The tables that reach a cycle come after the others, and among them the names decide. -/
def Precedes (refers : String → String → Prop) (first second : String) : Prop :=
  Before refers first second ∨
    ReachesCycle refers second ∧ (ReachesCycle refers first → first < second)

theorem Before.not_reachesCycle (hbefore : Before refers first second) :
    ¬ReachesCycle refers first ∧ ¬ReachesCycle refers second := by
  obtain ⟨m, n, hfirst, hsecond, -⟩ := hbefore
  exact ⟨hfirst.not_reachesCycle, hsecond.not_reachesCycle⟩

/-- Of two names at most one comes before the other. -/
theorem Before.asymm (hbefore : Before refers first second) : ¬Before refers second first := by
  rintro ⟨n', m', hsecond', hfirst', hafter⟩
  obtain ⟨m, n, hfirst, hsecond, hbefore⟩ := hbefore
  obtain rfl := hfirst.unique hfirst'
  obtain rfl := hsecond.unique hsecond'
  obtain hlt | ⟨rfl, hname⟩ := hbefore
  · obtain hgt | ⟨heq, -⟩ := hafter
    · exact Nat.lt_asymm hlt hgt
    · exact Nat.lt_irrefl _ (heq ▸ hlt)
  · obtain hgt | ⟨-, hname'⟩ := hafter
    · exact Nat.lt_irrefl _ hgt
    · exact String.lt_asymm hname hname'

theorem Precedes.asymm (hprecedes : Precedes refers first second) :
    ¬Precedes refers second first := by
  rintro (hbefore' | ⟨hfirst, hname'⟩)
  · obtain hbefore | ⟨hsecond, -⟩ := hprecedes
    · exact hbefore.asymm hbefore'
    · exact hbefore'.not_reachesCycle.1 hsecond
  · obtain hbefore | ⟨hsecond, hname⟩ := hprecedes
    · exact hbefore.not_reachesCycle.1 hfirst
    · exact String.lt_asymm (hname hfirst) (hname' hsecond)

/-- There is one order of the tables in which each precedes those after it. -/
theorem eq_of_pairwise_precedes {names others : List String} (hperm : names.Perm others)
    (hnames : names.Pairwise (Precedes refers)) (hothers : others.Pairwise (Precedes refers)) :
    names = others :=
  hperm.eq_of_pairwise (fun _ _ _ _ hleft hright => absurd hright hleft.asymm) hnames hothers

/-- A name that precedes another one comes first in the order. -/
theorem idxOf_lt_of_precedes {names : List String} (hnames : names.Pairwise (Precedes refers))
    (hfirst : first ∈ names) (hsecond : second ∈ names) (hprecedes : Precedes refers first second) :
    names.idxOf first < names.idxOf second := by
  have hi := List.idxOf_lt_length_iff.2 hfirst
  have hj := List.idxOf_lt_length_iff.2 hsecond
  obtain hlt | heq | hgt := Nat.lt_trichotomy (names.idxOf first) (names.idxOf second)
  · exact hlt
  · obtain rfl := (List.idxOf_inj hfirst).1 heq
    exact absurd hprecedes hprecedes.asymm
  · have hafter := List.pairwise_iff_getElem.1 hnames _ _ hj hi hgt
    rw [List.getElem_idxOf hj, List.getElem_idxOf hi] at hafter
    exact absurd hafter hprecedes.asymm

end Places

/-! ## References of a schema -/

/-- The table has a foreign key to the other one, and the schema holds it. -/
def RefersTo (schema : Schema) (child parent : String) : Prop :=
  parent ≠ child ∧ parent ∈ schema.tables.keys ∧
    ∃ name constraint key, schema.constraint? child name = some constraint ∧
      constraint.rule = .foreignKey key ∧ key.targetTable = parent

/-- A parent is another table of the schema that some foreign key leads to. -/
theorem mem_parents_iff {schema : Schema} {name parent : String} {table : Table} :
    parent ∈ parents schema name table ↔ parent ≠ name ∧ parent ∈ schema.tables.keys ∧
      ∃ constraint ∈ table.constraints.values, ∃ key, constraint.rule = .foreignKey key ∧
        key.targetTable = parent := by
  rw [parents, List.mem_filterMap]
  constructor
  · rintro ⟨constraint, hmem, hparent⟩
    split at hparent
    · next key hrule =>
      obtain ⟨hcondition, htarget⟩ := Option.ite_none_right_eq_some.1 hparent
      obtain rfl := Option.some.inj htarget
      rw [Bool.and_eq_true, bne_iff_ne] at hcondition
      exact ⟨hcondition.1, Keyed.contains_eq_true_iff.1 hcondition.2, constraint, hmem, key, hrule,
        rfl⟩
    · cases hparent
  · rintro ⟨hne, hkey, constraint, hmem, key, hrule, rfl⟩
    refine ⟨constraint, hmem, ?_⟩
    rw [hrule]
    dsimp only
    rw [if_pos]
    rw [Bool.and_eq_true, bne_iff_ne]
    exact ⟨hne, Keyed.contains_eq_true_iff.2 hkey⟩

/-- The parents of a table are the tables that it refers to. -/
theorem mem_parentsOf_iff {schema : Schema} {child parent : String} :
    parent ∈ parentsOf schema child ↔ RefersTo schema child parent := by
  simp only [parentsOf, RefersTo, Schema.constraint?]
  cases schema.tables.get? child with
  | none => simp
  | some table =>
    rw [mem_parents_iff]
    refine and_congr_right fun _ => and_congr_right fun _ => ?_
    constructor
    · rintro ⟨constraint, hmem, key, hrule, htarget⟩
      obtain ⟨name, hname⟩ := Keyed.mem_values_iff.1 hmem
      exact ⟨name, constraint, key, hname, hrule, htarget⟩
    · rintro ⟨name, constraint, key, hname, hrule, htarget⟩
      exact ⟨constraint, Keyed.mem_values_iff.2 ⟨name, hname⟩, key, hrule, htarget⟩

theorem RefersTo.child_mem_keys {schema : Schema} {child parent : String}
    (hrefers : RefersTo schema child parent) : child ∈ schema.tables.keys := by
  obtain ⟨-, -, name, constraint, key, hconstraint, -⟩ := hrefers
  obtain ⟨table, htable, -⟩ := Option.bind_eq_some_iff.1 hconstraint
  exact Keyed.mem_keys_iff.2 ⟨table, htable⟩

/-- In equal schemas the tables refer to the same ones. -/
theorem refersTo_of_beq {left right : Schema} (hsame : (left == right) = true) :
    RefersTo left = RefersTo right := by
  have hkeys := Keyed.mem_keys_of_beq ((Schema.beq_iff left right).1 hsame).1
  funext child parent
  simp only [RefersTo, hkeys, Schema.constraint?_of_beq hsame]

end SchemaEvolution.Sql
