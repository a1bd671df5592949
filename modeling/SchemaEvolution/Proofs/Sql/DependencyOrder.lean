import SchemaEvolution.Proofs.Sql.Levels
import SchemaEvolution.Proofs.Sql.Reexport

/-!
# The order of the tables

The layers put every table after those that it refers to, as far as no cycle forbids it: the
tables that reach no cycle stand in the order of their longest paths, the others after them, and
names decide within a layer.
-/

namespace SchemaEvolution.Sql

/-- Names in the order of their characters, none of them twice. -/
theorem pairwise_lt_sortNames {names : List String} (hdistinct : names.Nodup) :
    (sortNames names).Pairwise (· < ·) := by
  have hnodup : (sortNames names).Nodup := (sortNames_perm names).nodup_iff.2 hdistinct
  refine ((pairwise_sortNames names).and hnodup).imp fun {first second} h => ?_
  obtain ⟨hle, hne⟩ := h
  rw [Bool.not_eq_true', decide_eq_false_iff_not, String.not_lt] at hle
  exact Std.lt_of_le_of_ne hle hne

/-- Tables that reach no cycle in the order of their longest paths, and tables that reach one in
the order of their names. -/
structure Arranged (refers : String → String → Prop) (settled held : List String) : Prop where
  longest : ∀ name ∈ settled, ∃ n, LongestFrom refers name n
  cycle : ∀ name ∈ held, ReachesCycle refers name
  before : settled.Pairwise (Before refers)
  names : held.Pairwise (· < ·)

namespace Arranged

variable {refers : String → String → Prop} {settled held : List String}

theorem pairwise_precedes (harranged : Arranged refers settled held) :
    (settled ++ held).Pairwise (Precedes refers) := by
  refine List.pairwise_append.2 ⟨harranged.before.imp .inl, ?_, ?_⟩
  · refine harranged.names.imp_of_mem fun {first second} _ hsecond hlt => ?_
    exact .inr ⟨harranged.cycle second hsecond, fun _ => hlt⟩
  · intro first hfirst second hsecond
    obtain ⟨n, hlongest⟩ := harranged.longest first hfirst
    exact .inr ⟨harranged.cycle second hsecond, fun h => absurd h hlongest.not_reachesCycle⟩

theorem not_reachesCycle (harranged : Arranged refers settled held) :
    ∀ name ∈ settled, ¬ReachesCycle refers name := by
  intro name hname
  obtain ⟨n, hlongest⟩ := harranged.longest name hname
  exact hlongest.not_reachesCycle

/-- A layer stands before the tables that have longer paths. -/
theorem append_layer (harranged : Arranged refers settled held) {layer : List String} {count : Nat}
    (hlayer : ∀ name ∈ layer, LongestFrom refers name count) (hnames : layer.Pairwise (· < ·))
    (hlater : ∀ name ∈ settled, ∃ n > count, LongestFrom refers name n) :
    Arranged refers (layer ++ settled) held where
  longest name hname := by
    obtain hnow | hthen := List.mem_append.1 hname
    · exact ⟨count, hlayer name hnow⟩
    · exact harranged.longest name hthen
  cycle := harranged.cycle
  before := by
    refine List.pairwise_append.2 ⟨?_, harranged.before, ?_⟩
    · refine hnames.imp_of_mem fun {first second} hfirst hsecond hlt => ?_
      exact ⟨count, count, hlayer first hfirst, hlayer second hsecond, .inr ⟨rfl, hlt⟩⟩
    · intro first hfirst second hsecond
      obtain ⟨n, hcount, hlongest⟩ := hlater second hsecond
      exact ⟨count, n, hlayer first hfirst, hlongest, .inl hcount⟩
  names := harranged.names

end Arranged

/-! ## Layers -/

/-- The tables left whose parents are all done. -/
def ready (schema : Schema) (done left : List String) : List String :=
  left.filter fun name => (parentsOf schema name).all done.contains

/-- The tables left that wait for a parent. -/
def blocked (schema : Schema) (done left : List String) : List String :=
  left.filter fun name => !(parentsOf schema name).all done.contains

section Layers

variable {schema : Schema} {done left : List String} {name : String}

theorem layersFrom_succ (fuel : Nat) : layersFrom schema (fuel + 1) done left =
    if (ready schema done left).isEmpty then [sortNames (blocked schema done left)]
    else sortNames (ready schema done left) ::
      layersFrom schema fuel (done ++ ready schema done left) (blocked schema done left) := by
  rw [layersFrom, List.partition_eq_filter_filter]
  rfl

theorem mem_ready_iff : name ∈ ready schema done left ↔
    name ∈ left ∧ ∀ parent, RefersTo schema name parent → parent ∈ done := by
  simp only [ready, List.mem_filter, List.all_eq_true, mem_parentsOf_iff, List.contains_iff_mem]

theorem mem_blocked_iff : name ∈ blocked schema done left ↔
    name ∈ left ∧ ∃ parent, RefersTo schema name parent ∧ parent ∉ done := by
  simp only [blocked, List.mem_filter, Bool.not_eq_true', List.all_eq_false, mem_parentsOf_iff,
    List.contains_iff_mem]

theorem length_blocked_lt (hsome : ¬(ready schema done left).isEmpty = true) :
    (blocked schema done left).length < left.length := by
  have hparts : (ready schema done left ++ blocked schema done left).Perm left :=
    List.filter_append_perm _ left
  have hready : 0 < (ready schema done left).length :=
    List.length_pos_iff.2 fun hnone => hsome (List.isEmpty_iff.2 hnone)
  have hlength := hparts.length_eq
  rw [List.length_append] at hlength
  omega

/-- What holds after so many layers: the tables that are done have shorter longest paths, and a
path of this length starts at each table that is left. -/
structure Layered (schema : Schema) (count : Nat) (done left : List String) : Prop where
  distinct : left.Nodup
  closed : ∀ name ∈ left, ∀ parent, RefersTo schema name parent → parent ∈ done ∨ parent ∈ left
  longest : ∀ name ∈ done, ∃ n < count, LongestFrom (RefersTo schema) name n
  path : ∀ name ∈ left, PathFrom (RefersTo schema) name count

namespace Layered

variable {count : Nat} (hlayered : Layered schema count done left)

include hlayered

theorem longest_ready (hready : name ∈ ready schema done left) :
    LongestFrom (RefersTo schema) name count := by
  obtain ⟨hleft, hparents⟩ := mem_ready_iff.1 hready
  exact .of_parents (hlayered.path name hleft) fun parent hrefers =>
    hlayered.longest parent (hparents parent hrefers)

theorem next : Layered schema (count + 1) (done ++ ready schema done left)
    (blocked schema done left) where
  distinct := hlayered.distinct.filter _
  closed name hname parent hrefers := by
    obtain ⟨hleft, -⟩ := mem_blocked_iff.1 hname
    obtain hdone | hparent := hlayered.closed name hleft parent hrefers
    · exact .inl (List.mem_append_left _ hdone)
    · by_cases hready : parent ∈ ready schema done left
      · exact .inl (List.mem_append_right _ hready)
      · refine .inr (mem_blocked_iff.2 ⟨hparent, ?_⟩)
        simpa [mem_ready_iff, hparent] using hready
  longest name hname := by
    obtain hdone | hready := List.mem_append.1 hname
    · obtain ⟨n, hlt, hlongest⟩ := hlayered.longest name hdone
      exact ⟨n, Nat.lt_succ_of_lt hlt, hlongest⟩
    · exact ⟨count, Nat.lt_succ_self count, hlayered.longest_ready hready⟩
  path name hname := by
    obtain ⟨hleft, parent, hrefers, hwaiting⟩ := mem_blocked_iff.1 hname
    have hparent := (hlayered.closed name hleft parent hrefers).resolve_left hwaiting
    exact .next hrefers (hlayered.path parent hparent)

/-- Where nothing is ready, a cycle holds back all that is left. -/
theorem reachesCycle_of_ready_eq_nil (hnone : ready schema done left = []) :
    ∀ name ∈ left, ReachesCycle (RefersTo schema) name := by
  refine reachesCycle_of_forall_refers fun name hname => ?_
  have hblocked : ¬∀ parent, RefersTo schema name parent → parent ∈ done := fun hparents =>
    List.not_mem_nil (hnone ▸ mem_ready_iff.2 ⟨hname, hparents⟩)
  push Not at hblocked
  obtain ⟨parent, hrefers, hwaiting⟩ := hblocked
  exact ⟨parent, (hlayered.closed name hname parent hrefers).resolve_left hwaiting, hrefers⟩

end Layered

/-- The layers arrange the tables that are left. -/
theorem Layered.exists_arranged {count : Nat} (hlayered : Layered schema count done left)
    {fuel : Nat} (hfuel : left.length ≤ fuel) :
    ∃ settled held, (layersFrom schema fuel done left).flatten = settled ++ held ∧
      Arranged (RefersTo schema) settled held ∧
      ∀ name ∈ settled, ∃ n ≥ count, LongestFrom (RefersTo schema) name n := by
  induction fuel generalizing count done left with
  | zero =>
    obtain rfl := List.length_eq_zero_iff.1 (Nat.le_zero.1 hfuel)
    exact ⟨[], [], by simp [layersFrom, sortNames], ⟨by simp, by simp, .nil, .nil⟩, by simp⟩
  | succ fuel ih =>
    rw [layersFrom_succ]
    split
    -- nothing is ready: all that is left waits for a cycle
    · next hnone =>
      have hcycle := hlayered.reachesCycle_of_ready_eq_nil (List.isEmpty_iff.1 hnone)
      refine ⟨[], sortNames (blocked schema done left), by simp, ⟨by simp, ?_, .nil, ?_⟩, by simp⟩
      · intro name hname
        exact hcycle name (mem_blocked_iff.1 ((sortNames_perm _).mem_iff.1 hname)).1
      · exact pairwise_lt_sortNames hlayered.next.distinct
    -- what is ready stands before the layers that follow
    · next hsome =>
      have hready := sortNames_perm (ready schema done left)
      have hlongest : ∀ name ∈ sortNames (ready schema done left),
          LongestFrom (RefersTo schema) name count := fun name hname =>
        hlayered.longest_ready (hready.mem_iff.1 hname)
      have hsorted := pairwise_lt_sortNames (hlayered.distinct.filter fun name =>
        (parentsOf schema name).all done.contains)
      obtain ⟨settled, held, hlayers, harranged, hlater⟩ :=
        ih hlayered.next (Nat.le_of_lt_succ (Nat.lt_of_lt_of_le (length_blocked_lt hsome) hfuel))
      refine ⟨sortNames (ready schema done left) ++ settled, held, ?_,
        harranged.append_layer hlongest hsorted hlater, ?_⟩
      · rw [List.flatten_cons, hlayers, List.append_assoc]
      · intro name hname
        obtain hnow | hthen := List.mem_append.1 hname
        · exact ⟨count, Nat.le_refl count, hlongest name hnow⟩
        · obtain ⟨n, hcount, hn⟩ := hlater name hthen
          exact ⟨n, Nat.le_of_succ_le hcount, hn⟩

end Layers

variable (schema : Schema)

theorem dependencyOrder_perm : (dependencyOrder schema).Perm schema.tables.keys :=
  flatten_layersFrom_perm schema _ _ _

theorem layered_keys : Layered schema 0 [] schema.tables.keys where
  distinct := schema.tables.distinct
  closed _ _ _ hrefers := .inr hrefers.2.1
  longest _ hname := absurd hname List.not_mem_nil
  path name _ := .here name

theorem dependencyOrder_arranged : ∃ settled held, dependencyOrder schema = settled ++ held ∧
    Arranged (RefersTo schema) settled held := by
  have hsize : schema.tables.keys.length ≤ schema.tables.size :=
    Nat.le_of_eq (List.length_map Prod.fst)
  obtain ⟨settled, held, horder, harranged, -⟩ := (layered_keys schema).exists_arranged hsize
  exact ⟨settled, held, horder, harranged⟩

theorem pairwise_dependencyOrder :
    (dependencyOrder schema).Pairwise (Precedes (RefersTo schema)) := by
  obtain ⟨settled, held, horder, harranged⟩ := dependencyOrder_arranged schema
  rw [horder]
  exact harranged.pairwise_precedes

variable {schema} {child parent : String}

theorem exists_longestFrom (hname : parent ∈ schema.tables.keys)
    (hfree : ¬ReachesCycle (RefersTo schema) parent) :
    ∃ n, LongestFrom (RefersTo schema) parent n := by
  obtain ⟨settled, held, horder, harranged⟩ := dependencyOrder_arranged schema
  have hmem := (dependencyOrder_perm schema).mem_iff.2 hname
  rw [horder, List.mem_append] at hmem
  exact harranged.longest parent (hmem.resolve_right fun h => hfree (harranged.cycle parent h))

/-- A table that reaches no cycle precedes those that refer to it. -/
theorem precedes_of_refersTo (hrefers : RefersTo schema child parent)
    (hfree : ¬ReachesCycle (RefersTo schema) parent) :
    Precedes (RefersTo schema) parent child := by
  by_cases hcycle : ReachesCycle (RefersTo schema) child
  · exact .inr ⟨hcycle, fun h => absurd h hfree⟩
  · obtain ⟨m, hparent⟩ := exists_longestFrom hrefers.2.1 hfree
    obtain ⟨n, hchild⟩ := exists_longestFrom hrefers.child_mem_keys hcycle
    exact .inl ⟨m, n, hparent, hchild, .inl (hparent.lt_of_refers hrefers hchild)⟩

/-- Every table stands in the order once: first the tables that reach no cycle, by the length of
their longest path and by name, then those that reach one, by name.  So a table that reaches no
cycle stands before those that refer to it.  Neither the order of the schema nor the orders in
which a search for levels goes through the tables and their parents make a difference. -/
theorem dependencyOrder_sorted (schema : Schema) :
    ((dependencyOrder schema).Perm schema.tables.keys ∧ (dependencyOrder schema).Nodup) ∧
    (∃ settled held, dependencyOrder schema = settled ++ held ∧
      (∀ name ∈ settled, ¬ReachesCycle (RefersTo schema) name) ∧
      Arranged (RefersTo schema) settled held) ∧
    (∀ child parent, RefersTo schema child parent → ¬ReachesCycle (RefersTo schema) parent →
      (dependencyOrder schema).idxOf parent < (dependencyOrder schema).idxOf child) ∧
    (∀ other : Schema, (other == schema) = true →
      dependencyOrder other = dependencyOrder schema) ∧
    ∀ visits : Visits schema, visits.order = dependencyOrder schema := by
  have hperm := dependencyOrder_perm schema
  have hsorted := pairwise_dependencyOrder schema
  refine ⟨⟨hperm, hperm.nodup_iff.2 schema.tables.distinct⟩, ?_, ?_, ?_, ?_⟩
  · obtain ⟨settled, held, horder, harranged⟩ := dependencyOrder_arranged schema
    exact ⟨settled, held, horder, harranged.not_reachesCycle, harranged⟩
  · intro child parent hrefers hfree
    exact idxOf_lt_of_precedes hsorted (hperm.mem_iff.2 hrefers.2.1)
      (hperm.mem_iff.2 hrefers.child_mem_keys) (precedes_of_refersTo hrefers hfree)
  · intro other hsame
    have hother := pairwise_dependencyOrder other
    rw [refersTo_of_beq hsame] at hother
    have hkeys := Keyed.keys_perm (Keyed.mem_keys_of_beq ((Schema.beq_iff other schema).1 hsame).1)
    exact eq_of_pairwise_precedes ((dependencyOrder_perm other).trans (hkeys.trans hperm.symm))
      hother hsorted
  · intro visits
    exact eq_of_pairwise_precedes (Visits.order_perm.trans hperm.symm) Visits.pairwise_order hsorted

def referring (name : String) (targets : List String) : Table :=
  targets.foldl
    (fun table target => table.addConstraint
      (.foreignKey target ⟨["id"], target, ["id"], .noAction, .noAction⟩)) (.empty name)

/-- Orders of users, and two tables that refer to each other. -/
def shop : Schema :=
  [referring "orders" ["users", "orders"], referring "left" ["right"], referring "right" ["left"],
    referring "users" []].foldl Schema.addTable .empty

def shopTurned : Schema :=
  [referring "users" [], referring "right" ["left"], referring "left" ["right"],
    referring "orders" ["orders", "users"]].foldl Schema.addTable .empty

/-- The users stand before their orders, in whatever order the tables are found. -/
theorem dependencyOrder_sorted_shop :
    (RefersTo shop "orders" "users" ∧ ¬ReachesCycle (RefersTo shop) "users" ∧
      (shopTurned == shop) = true) ∧
    (dependencyOrder shop).idxOf "users" < (dependencyOrder shop).idxOf "orders" ∧
    dependencyOrder shopTurned = dependencyOrder shop ∧
    (default : Visits shop).order = dependencyOrder shop := by
  have hrefers : RefersTo shop "orders" "users" := mem_parentsOf_iff.1 (by decide)
  have hfree : ¬ReachesCycle (RefersTo shop) "users" := by
    intro hcycle
    obtain ⟨parent, hparent, -⟩ := hcycle.exists_refers
    exact absurd (mem_parentsOf_iff.2 hparent) List.not_mem_nil
  have hsame : (shopTurned == shop) = true := by decide
  obtain ⟨-, -, hbefore, hturned, hvisits⟩ := dependencyOrder_sorted shop
  exact ⟨⟨hrefers, hfree, hsame⟩, hbefore "orders" "users" hrefers hfree, hturned _ hsame,
    hvisits default⟩

end SchemaEvolution.Sql
