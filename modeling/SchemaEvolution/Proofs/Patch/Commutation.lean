import SchemaEvolution.Proofs.Patch.Frame
import SchemaEvolution.Proofs.Patch.Locality

/-!
# Operations that touch different owners

Whether an operation is refused, and what it makes of the owners it touches, depends on what these
owners have and on nothing else.  So two operations that touch different owners do not notice each
other, and may be applied in either order.
-/

namespace SchemaEvolution

open Patch

/-- Two results fail for the same reason, or succeed with values that are related. -/
inductive ResultsAgree {ε α : Type} (related : α → α → Prop) : Except ε α → Except ε α → Prop
  | failed (fault : ε) : ResultsAgree related (.error fault) (.error fault)
  | succeeded {left right : α} (hrelated : related left right) :
      ResultsAgree related (.ok left) (.ok right)

def Schema.SameOn (touched : List Owner) (left right : Schema) : Prop :=
  ∀ owner ∈ touched, owner.view left = owner.view right

namespace ResultsAgree

variable {ε ε' α β : Type} {related : α → α → Prop} {left right : Except ε α}

theorem map (hresults : ResultsAgree related left right) {related' : β → β → Prop}
    {first second : α → β} (hmap : ∀ one other, related one other →
      related' (first one) (second other)) :
    ResultsAgree related' (left >>= fun one => pure (first one))
      (right >>= fun other => pure (second other)) := by
  cases hresults with
  | failed fault => exact .failed fault
  | succeeded hrelated => exact .succeeded (hmap _ _ hrelated)

theorem mapError (hresults : ResultsAgree related left right) (wrap : ε → ε') :
    ResultsAgree related (left.mapError wrap) (right.mapError wrap) := by
  cases hresults with
  | failed fault => exact .failed (wrap fault)
  | succeeded hrelated => exact .succeeded hrelated

end ResultsAgree

namespace Patch

section Entries

variable {α : Type} {left right : Keyed α}

/-- Changing an entry depends on that entry only. -/
theorem changeEntry_congr {name : String} (hname : left.get? name = right.get? name)
    (absent : Missing) (change : α → Except Obstacle α) :
    ResultsAgree (fun one other => one.get? name = other.get? name)
      (changeEntry left name absent change) (changeEntry right name absent change) := by
  rw [changeEntry, changeEntry, hname]
  cases right.get? name with
  | none => exact .failed _
  | some value =>
    simp only
    cases change value with
    | error obstacle => exact .failed obstacle
    | ok new =>
      refine .succeeded ?_
      rw [get?_insert_self, get?_insert_self]

/-- Renaming an entry depends on its two names only. -/
theorem renameEntry_congr {source target : String} (hsource : left.get? source = right.get? source)
    (htarget : left.get? target = right.get? target) (absent : Missing) (setName : α → α) :
    ResultsAgree
      (fun one other => one.get? source = other.get? source ∧ one.get? target = other.get? target)
      (renameEntry left source target absent setName)
      (renameEntry right source target absent setName) := by
  have hcontains : left.contains source = right.contains source := by
    rw [Keyed.contains, hsource, Keyed.contains]
  have htaken : target ∈ left.keys ↔ target ∈ right.keys := by
    rw [Keyed.mem_keys_iff, Keyed.mem_keys_iff, htarget]
  rw [renameEntry, renameEntry, hcontains]
  split
  · exact .failed _
  split
  · exact .succeeded ⟨hsource, htarget⟩
  by_cases hmem : target ∈ left.keys
  · have hleft : left.rename? source target setName = none := dif_pos hmem
    have hright : right.rename? source target setName = none := dif_pos (htaken.1 hmem)
    rw [hleft, hright]
    exact .failed _
  · obtain ⟨one, hleft⟩ : ∃ one, left.rename? source target setName = some one :=
      ⟨_, dif_neg hmem⟩
    obtain ⟨other, hright⟩ : ∃ other, right.rename? source target setName = some other :=
      ⟨_, dif_neg fun hright => hmem (htaken.2 hright)⟩
    rw [hleft, hright]
    have hone := Keyed.get?_rename? hleft
    have hother := Keyed.get?_rename? hright
    exact .succeeded ⟨by rw [hone, hother, hsource], by rw [hone, hother, hsource, htarget]⟩

end Entries

section Edits

variable {left right : Schema} {name target : String}

theorem sameOn_singleton {owner : Owner} :
    left.SameOn [owner] right ↔ owner.view left = owner.view right :=
  List.forall_mem_singleton

theorem sameOn_pair {first second : Owner} : left.SameOn [first, second] right ↔
    first.view left = first.view right ∧ second.view left = second.view right := by
  simp [Schema.SameOn]

theorem Path.touched_table {spot : TableSpot} (hspot : spot ≠ .field .name)
    (text? : Option String) : (Path.table name spot).touched text? = [.table name] := by
  unfold touched
  split
  · next heq =>
    cases heq
    exact absurd rfl hspot
  · next heq => cases heq
  · rfl

/-- An edit of a table, if it keeps the name, depends on that table only. -/
theorem Edit.apply_table_congr {edit : TableEdit} (hspot : edit.spot ≠ .field .name)
    (hsame : left.SameOn [.table name] right) :
    ResultsAgree (Schema.SameOn [.table name]) ((Edit.table name edit).apply left)
      ((Edit.table name edit).apply right) := by
  have hname : left.tables.get? name = right.tables.get? name := sameOn_singleton.1 hsame
  have hcontains : left.tables.contains name = right.tables.contains name := by
    rw [Keyed.contains, hname, Keyed.contains]
  have hrename : ∀ target, edit ≠ .rename target := by
    rintro target rfl
    exact hspot rfl
  rw [Edit.apply, Edit.apply, hcontains]
  · split
    · exact .succeeded hsame
    · exact (changeEntry_congr hname _ _).map fun _ _ hentry => sameOn_singleton.2 hentry
  · exact hrename
  · exact hrename

/-- Whether an edit is refused, and what it makes of what it touches, depends on that alone. -/
theorem Edit.apply_congr {edit : Edit} {text? : Option String}
    (hname : ∀ target, edit.newName? = some target → text? = some target)
    (hsame : left.SameOn (edit.path.touched text?) right) :
    ResultsAgree (Schema.SameOn (edit.path.touched text?)) (edit.apply left)
      (edit.apply right) := by
  cases edit with
  | putTable name new =>
    refine .succeeded (sameOn_singleton.2 ?_)
    exact (get?_insert_self ..).trans (get?_insert_self ..).symm
  | removeTable name =>
    refine .succeeded (sameOn_singleton.2 ?_)
    exact (get?_erase_self ..).trans (get?_erase_self ..).symm
  | table name edit =>
    by_cases hspot : edit.spot = .field .name
    · obtain ⟨target, rfl⟩ := TableEdit.exists_rename hspot
      obtain rfl := hname target rfl
      obtain ⟨hsource, htarget⟩ := sameOn_pair.1 hsame
      exact (renameEntry_congr hsource htarget _ _).map fun _ _ hentry => sameOn_pair.2 hentry
    · rw [Edit.path, Path.touched_table hspot] at hsame ⊢
      exact apply_table_congr hspot hsame
  | putEnum name new =>
    refine .succeeded (sameOn_singleton.2 ?_)
    exact (get?_insert_self ..).trans (get?_insert_self ..).symm
  | removeEnum name =>
    refine .succeeded (sameOn_singleton.2 ?_)
    exact (get?_erase_self ..).trans (get?_erase_self ..).symm
  | enumType name edit =>
    cases edit with
    | rename target =>
      obtain rfl := hname target rfl
      obtain ⟨hsource, htarget⟩ := sameOn_pair.1 hsame
      exact (renameEntry_congr hsource htarget _ _).map fun _ _ hentry => sameOn_pair.2 hentry
    | values _ | comment _ | item _ =>
      exact (changeEntry_congr (sameOn_singleton.1 hsame) _ _).map fun _ _ hentry =>
        sameOn_singleton.2 hentry
  | putExtension name new =>
    refine .succeeded (sameOn_singleton.2 ?_)
    exact (get?_insert_self ..).trans (get?_insert_self ..).symm
  | removeExtension name =>
    refine .succeeded (sameOn_singleton.2 ?_)
    exact (get?_erase_self ..).trans (get?_erase_self ..).symm
  | extension name edit =>
    exact (changeEntry_congr (sameOn_singleton.1 hsame) _ _).map fun _ _ hentry =>
      sameOn_singleton.2 hentry
  | hint => exact .succeeded hsame

end Edits

section Operations

variable {op : Operation} {schema left right : Schema}

/-- An operation depends on what it touches only. -/
theorem Operation.apply_congr (hsame : left.SameOn op.touched right) :
    ResultsAgree (Schema.SameOn op.touched) (op.apply left) (op.apply right) := by
  rw [apply, apply]
  cases hedit : op.edit with
  | error obstacle => exact .failed _
  | ok edit =>
    refine ResultsAgree.mapError ?_ _
    rcases Edit.askedAt_of_edit hedit with rfl | ⟨path, hpath, rfl, hname⟩
    · exact .succeeded hsame
    · rw [touched_of_path? hpath] at hsame ⊢
      exact Edit.apply_congr hname hsame

/-- The refusals of an operation, and what it leaves of what it touches, depend on that alone. -/
theorem applyAll_congr (hsame : left.SameOn op.touched right) :
    (applyAll left [op]).refusals = (applyAll right [op]).refusals ∧
      (applyAll left [op]).schema.SameOn op.touched (applyAll right [op]).schema := by
  have hresults := Operation.apply_congr hsame
  generalize hleft : op.apply left = one, hright : op.apply right = other at hresults
  cases hresults with
  | failed refusal =>
    rw [applyAll_cons_of_error hleft, applyAll_cons_of_error hright]
    exact ⟨rfl, hsame⟩
  | succeeded hrelated =>
    rw [applyAll_cons_of_ok hleft, applyAll_cons_of_ok hright]
    exact ⟨rfl, hrelated⟩

/-- What an operation does not touch is as it was. -/
theorem view_applyAll {owner : Owner} (hout : owner ∉ op.touched) (schema : Schema) :
    owner.view (applyAll schema [op]).schema = owner.view schema := by
  have hsame := sameOutside_applyAll schema op
  cases owner with
  | table name => exact Keyed.get?_of_outside hsame.tables (decide_eq_false hout)
  | enumType name => exact Keyed.get?_of_outside hsame.enums (decide_eq_false hout)
  | extension name => exact Keyed.get?_of_outside hsame.extensions (decide_eq_false hout)

end Operations

/-! ## Either order -/

theorem beq_of_view {left right : Schema}
    (hviews : ∀ owner : Owner, owner.view left = owner.view right) : (left == right) = true := by
  rw [Schema.beq_iff, Keyed.beq_iff_get?, Keyed.beq_iff_get?, Keyed.beq_iff_get?]
  refine ⟨fun name => ?_, fun name => ?_, fun name => ?_⟩
  · rw [show left.tables.get? name = right.tables.get? name from hviews (.table name)]
    exact BEq.rfl
  · exact beq_iff_eq.2 (hviews (.enumType name))
  · exact beq_iff_eq.2 (hviews (.extension name))

/-- An operation does not notice one that touches nothing of what it touches. -/
theorem sameOn_of_disjoint {first second : Operation}
    (hdisjoint : first.touched.Disjoint second.touched) (schema : Schema) :
    (applyAll schema [second]).schema.SameOn first.touched schema :=
  fun _ hmem => view_applyAll (hdisjoint hmem) schema

/-- Two operations that touch different owners lead to equal schemas in either order, and each of
them is refused in both orders as it would be alone. -/
theorem applyAll_comm {first second : Operation}
    (hdisjoint : first.touched.Disjoint second.touched) (schema : Schema) :
    ((applyAll schema [first, second]).schema == (applyAll schema [second, first]).schema) = true ∧
    (applyAll schema [first, second]).refusals =
      (applyAll schema [first]).refusals ++ (applyAll schema [second]).refusals ∧
    (applyAll schema [second, first]).refusals =
      (applyAll schema [second]).refusals ++ (applyAll schema [first]).refusals := by
  obtain ⟨hrefusedFirst, hfirst⟩ := applyAll_congr (sameOn_of_disjoint hdisjoint schema)
  obtain ⟨hrefusedSecond, hsecond⟩ := applyAll_congr
    (sameOn_of_disjoint (List.disjoint_symm hdisjoint) schema)
  have hforth := applyAll_append schema [first] [second]
  have hback := applyAll_append schema [second] [first]
  rw [List.singleton_append] at hforth hback
  rw [hforth, hback, hrefusedFirst, hrefusedSecond]
  refine ⟨beq_of_view fun owner => ?_, rfl, rfl⟩
  by_cases hmem : owner ∈ first.touched
  · calc
      owner.view (applyAll (applyAll schema [first]).schema [second]).schema =
          owner.view (applyAll schema [first]).schema := view_applyAll (hdisjoint hmem) _
      _ = owner.view (applyAll (applyAll schema [second]).schema [first]).schema :=
        (hfirst owner hmem).symm
  by_cases hmem' : owner ∈ second.touched
  · calc
      owner.view (applyAll (applyAll schema [first]).schema [second]).schema =
          owner.view (applyAll schema [second]).schema := hsecond owner hmem'
      _ = owner.view (applyAll (applyAll schema [second]).schema [first]).schema :=
        (view_applyAll hmem _).symm
  · calc
      owner.view (applyAll (applyAll schema [first]).schema [second]).schema =
          owner.view schema := (view_applyAll hmem' _).trans (view_applyAll hmem _)
      _ = owner.view (applyAll (applyAll schema [second]).schema [first]).schema :=
        ((view_applyAll hmem _).trans (view_applyAll hmem' _)).symm

def usersToMembers : Operation := .replace (.table "users" (.field .name)) (.string "members")

def postsComment : Operation := .replace (.table "posts" (.field .comment)) (.string "all posts")

/-- The table is renamed before or after the comment is refused. -/
theorem applyAll_comm_usersToMembers :
    usersToMembers.touched.Disjoint postsComment.touched ∧
    ((applyAll usersByEmail [usersToMembers, postsComment]).schema ==
      (applyAll usersByEmail [postsComment, usersToMembers]).schema) = true ∧
    (applyAll usersByEmail [usersToMembers, postsComment]).refusals =
      (applyAll usersByEmail [usersToMembers]).refusals ++
        (applyAll usersByEmail [postsComment]).refusals ∧
    (applyAll usersByEmail [postsComment, usersToMembers]).refusals =
      (applyAll usersByEmail [postsComment]).refusals ++
        (applyAll usersByEmail [usersToMembers]).refusals := by
  have hformed : (Path.table "users" (.field .name)).WellFormed := ⟨by decide, trivial⟩
  have hformed' : (Path.table "posts" (.field .comment)).WellFormed := ⟨by decide, trivial⟩
  have hrename : usersToMembers.path? = some (.table "users" (.field .name)) :=
    Operation.path?_of_wellFormed hformed _
  have hcomment : postsComment.path? = some (.table "posts" (.field .comment)) :=
    Operation.path?_of_wellFormed hformed' _
  have hdisjoint : usersToMembers.touched.Disjoint postsComment.touched := by
    rw [Operation.touched_of_path? hrename, Operation.touched_of_path? hcomment]
    change [Owner.table "users", .table "members"].Disjoint [Owner.table "posts"]
    simp
  exact ⟨hdisjoint, applyAll_comm hdisjoint usersByEmail⟩

end Patch

end SchemaEvolution
