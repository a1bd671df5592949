import SchemaEvolution.Patch.Diff
import SchemaEvolution.Patch.Status
import SchemaEvolution.Proofs.Keyed.Lookup
import SchemaEvolution.Proofs.Patch.Edit

/-!
# Selecting operations

Which operations of a list are chosen by their paths, when the list was written for known
edits, and when it goes along the entries of a collection: then only the part of the list that
belongs to one entry counts.
-/

namespace SchemaEvolution.Patch

theorem selectPaths_append (keep : Path → Bool) (front back : List Operation) :
    selectPaths keep (front ++ back) = selectPaths keep front ++ selectPaths keep back :=
  List.filter_append ..

theorem selectPaths_filter (keep : Path → Bool) (ops : List Operation)
    (chosen : Operation → Bool) :
    selectPaths keep (ops.filter chosen) = (selectPaths keep ops).filter chosen := by
  rw [selectPaths, selectPaths, List.filter_filter, List.filter_filter]
  congr 1
  funext op
  exact Bool.and_comm ..

/-- The changes along a collection are those of one of its entries, which is new or was there. -/
theorem mem_entryChanges {α : Type} {old new : Keyed α} {added : String → α → List Operation}
    {changed : String → α → α → List Operation} {op : Operation}
    (hop : op ∈ entryChanges old new added changed) :
    ∃ name value, new.get? name = some value ∧
      (old.get? name = none ∧ op ∈ added name value ∨
        ∃ previous, old.get? name = some previous ∧ op ∈ changed name previous value) := by
  obtain ⟨⟨name, value⟩, hentry, hmem⟩ := List.mem_flatMap.1 hop
  refine ⟨name, value, Keyed.get?_eq_some_iff.2 hentry, ?_⟩
  cases hold : old.get? name with
  | none =>
    simp only [hold] at hmem
    exact .inl ⟨rfl, hmem⟩
  | some previous =>
    simp only [hold] at hmem
    exact .inr ⟨previous, rfl, hmem⟩

/-- Every operation is written for an edit that has a property. -/
def EditsIn (property : Edit → Prop) (ops : List Operation) : Prop :=
  ∀ op ∈ ops, ∃ edit : Edit, op = edit.operation ∧ edit.Writable ∧ property edit

namespace EditsIn

variable {property : Edit → Prop}

theorem mono {other : Edit → Prop} {ops : List Operation} (hedits : EditsIn property ops)
    (himp : ∀ edit, property edit → other edit) : EditsIn other ops := by
  intro op hop
  obtain ⟨edit, hedit, hwritable, hproperty⟩ := hedits op hop
  exact ⟨edit, hedit, hwritable, himp edit hproperty⟩

theorem nil : EditsIn property [] := by
  intro op hop
  cases hop

theorem append {front back : List Operation} (hfront : EditsIn property front)
    (hback : EditsIn property back) : EditsIn property (front ++ back) := by
  intro op hop
  rcases List.mem_append.1 hop with hmem | hmem
  · exact hfront op hmem
  · exact hback op hmem

theorem filter {ops : List Operation} (hedits : EditsIn property ops)
    (chosen : Operation → Bool) : EditsIn property (ops.filter chosen) :=
  fun op hop => hedits op (List.mem_filter.1 hop).1

theorem singleton (edit : Edit) (hwritable : edit.Writable) (hproperty : property edit) :
    EditsIn property [edit.operation] := by
  intro op hop
  rw [List.mem_singleton] at hop
  exact ⟨edit, hop, hwritable, hproperty⟩

/-- Replacing a field is one edit, or none. -/
theorem replaceField {α : Type} [BEq α] {view : α → Json} {old new : α} (edit : Edit)
    (haction : edit.action = .replace (view new)) (hwritable : edit.Writable)
    (hproperty : property edit) :
    EditsIn property (replaceField edit.path view old new) := by
  rw [Patch.replaceField]
  split
  · exact nil
  · have hop : Operation.replace edit.path (view new) = edit.operation := by
      rw [Operation.replace, Edit.operation, haction]
    rw [hop]
    exact singleton edit hwritable hproperty

theorem map_names {names : List String} {remove : String → Operation} (removal : String → Edit)
    (hremoval : ∀ name ∈ names, remove name = (removal name).operation ∧
      (removal name).Writable ∧ property (removal name)) :
    EditsIn property (names.map remove) := by
  intro op hop
  obtain ⟨name, hmem, rfl⟩ := List.mem_map.1 hop
  exact ⟨removal name, hremoval name hmem⟩

theorem entryChanges {α : Type} {old new : Keyed α} {added : String → α → List Operation}
    {changed : String → α → α → List Operation}
    (hadded : ∀ name value, new.get? name = some value → EditsIn property (added name value))
    (hchanged : ∀ name previous value, old.get? name = some previous →
      new.get? name = some value → EditsIn property (changed name previous value)) :
    EditsIn property (entryChanges old new added changed) := by
  intro op hop
  obtain ⟨name, value, hvalue, ⟨-, hmem⟩ | ⟨previous, hprevious, hmem⟩⟩ := mem_entryChanges hop
  · exact hadded name value hvalue op hmem
  · exact hchanged name previous value hprevious hvalue op hmem

end EditsIn

theorem selectPaths_eq_self {keep : Path → Bool} {ops : List Operation}
    (hedits : EditsIn (fun edit => keep edit.path = true) ops) : selectPaths keep ops = ops := by
  rw [selectPaths, List.filter_eq_self]
  intro op hop
  obtain ⟨edit, rfl, hwritable, hkeep⟩ := hedits op hop
  rw [hwritable.path?]
  exact hkeep

theorem selectPaths_eq_nil {keep : Path → Bool} {ops : List Operation}
    (hedits : EditsIn (fun edit => keep edit.path = false) ops) : selectPaths keep ops = [] := by
  rw [selectPaths, List.filter_eq_nil_iff]
  intro op hop
  obtain ⟨edit, rfl, hwritable, hkeep⟩ := hedits op hop
  rw [hwritable.path?]
  simp [hkeep]

/-- The removal of an entry that only the old collection has. -/
def removalOf {α β : Type} (old : Option α) (new : Option β) (removal : Operation) :
    List Operation :=
  match old, new with
  | some _, none => [removal]
  | _, _ => []

def changesOf {α : Type} (old new : Option α) (added : α → List Operation)
    (changed : α → α → List Operation) : List Operation :=
  match old, new with
  | _, none => []
  | none, some value => added value
  | some previous, some value => changed previous value

section Collections

variable {α : Type} {keep : Path → Bool} (key : String)

/-- Along the entries of a collection, only the one under the key counts. -/
theorem selectPaths_flatMap_toList (entries : Keyed α) (part : String × α → List Operation)
    (hother : ∀ entry ∈ entries.toList, entry.1 ≠ key → selectPaths keep (part entry) = []) :
    selectPaths keep (entries.toList.flatMap part) =
      match entries.get? key with
      | some value => selectPaths keep (part (key, value))
      | none => [] :=
  Keyed.filter_flatMap_toList _ key entries part hother

theorem flatMap_filter {β γ : Type} (items : List β) (chosen : β → Bool) (f : β → List γ) :
    (items.filter chosen).flatMap f =
      items.flatMap fun item => if chosen item then f item else [] := by
  induction items with
  | nil => rfl
  | cons item rest ih =>
    rw [List.flatMap_cons, ← ih]
    by_cases hchosen : chosen item = true <;> simp [hchosen]

theorem map_filter_eq_flatMap {β γ : Type} (items : List β) (chosen : β → Bool) (f : β → γ) :
    (items.filter chosen).map f =
      items.flatMap fun item => if chosen item then [f item] else [] := by
  rw [List.map_eq_flatMap, flatMap_filter]

/-- Of the removals of chosen entries, only the one of the entry under the key counts. -/
theorem selectPaths_map_filter (entries : Keyed α) (chosen : String × α → Bool)
    (remove : String → Operation)
    (hself : ∀ value, entries.get? key = some value → selectPaths keep [remove key] = [remove key])
    (hother : ∀ name value, entries.get? name = some value → name ≠ key →
      selectPaths keep [remove name] = []) :
    selectPaths keep (((entries.toList.filter chosen).map Prod.fst).map remove) =
      match entries.get? key with
      | some value => if chosen (key, value) then [remove key] else []
      | none => [] := by
  rw [List.map_map, map_filter_eq_flatMap, selectPaths_flatMap_toList key]
  · cases hvalue : entries.get? key with
    | none => rfl
    | some value =>
      by_cases hchosen : chosen (key, value) = true
      · simp only [hchosen, if_true, Function.comp]
        exact hself value hvalue
      · simp only [hchosen]
        rfl
  · intro entry hmem hname
    by_cases hchosen : chosen entry = true
    · simp only [hchosen, if_true, Function.comp]
      exact hother entry.1 entry.2 (Keyed.get?_eq_some_iff.2 hmem) hname
    · simp only [hchosen]
      rfl

theorem goneNames_eq {β : Type} (old : Keyed α) (new : Keyed β) :
    goneNames old new =
      (old.toList.filter fun entry => !new.contains entry.1).map Prod.fst := by
  rw [goneNames, Keyed.keys, List.filter_map]
  rfl

end Collections

/-! ## Regions

A region is a set of paths, such that the edits of interest lie in one region each.  A family
gives a region to every name of a collection.
-/

def Edit.OnlyIn {R : Type} [DecidableEq R] (contains : R → Path → Bool) (region : R)
    (edit : Edit) : Prop :=
  ∀ other, contains other edit.path = decide (region = other)

section Regions

variable {R : Type} [DecidableEq R] {contains : R → Path → Bool} {region : R}

theorem selectPaths_of_onlyIn {ops : List Operation}
    (hedits : EditsIn (Edit.OnlyIn contains region) ops) :
    selectPaths (contains region) ops = ops :=
  selectPaths_eq_self (hedits.mono fun _ honly => by rw [honly, decide_eq_true rfl])

theorem selectPaths_of_outside {ops : List Operation}
    (hedits : EditsIn (fun edit => ∃ other, other ≠ region ∧ edit.OnlyIn contains other) ops) :
    selectPaths (contains region) ops = [] := by
  refine selectPaths_eq_nil (hedits.mono ?_)
  rintro edit ⟨other, hother, honly⟩
  rw [honly, decide_eq_false hother]

variable {α β : Type} {family : String → R} {remove : String → Operation}

theorem selectPaths_map_outside {names : List String} (hother : ∀ name, family name ≠ region)
    (hremove : ∀ name ∈ names, EditsIn (Edit.OnlyIn contains (family name)) [remove name]) :
    selectPaths (contains region) (names.map remove) = [] := by
  refine selectPaths_of_outside ?_
  intro op hop
  obtain ⟨name, hmem, rfl⟩ := List.mem_map.1 hop
  exact (hremove name hmem).mono (fun _ honly => ⟨family name, hother name, honly⟩) _
    (List.mem_singleton.2 rfl)

/-- Of the removals of chosen entries, only that of the entry of the region counts. -/
theorem selectPaths_map_family (hinjective : Function.Injective family) (entries : Keyed α)
    (chosen : String × α → Bool)
    (hremove : ∀ name ∈ entries.keys, EditsIn (Edit.OnlyIn contains (family name)) [remove name])
    (name : String) :
    selectPaths (contains (family name))
        (((entries.toList.filter chosen).map Prod.fst).map remove) =
      match entries.get? name with
      | some value => if chosen (name, value) then [remove name] else []
      | none => [] := by
  refine selectPaths_map_filter name entries chosen remove ?_ ?_
  · intro value hvalue
    exact selectPaths_of_onlyIn (hremove name (Keyed.mem_keys_iff.2 ⟨value, hvalue⟩))
  · intro other value hvalue hother
    have hedits := hremove other (Keyed.mem_keys_iff.2 ⟨value, hvalue⟩)
    exact selectPaths_of_outside
      (hedits.mono fun _ honly => ⟨_, fun heq => hother (hinjective heq), honly⟩)

theorem selectPaths_goneNames (hinjective : Function.Injective family) (old : Keyed α)
    (new : Keyed β)
    (hremove : ∀ name ∈ old.keys, EditsIn (Edit.OnlyIn contains (family name)) [remove name])
    (name : String) :
    selectPaths (contains (family name)) ((goneNames old new).map remove) =
      removalOf (old.get? name) (new.get? name) (remove name) := by
  rw [goneNames_eq, selectPaths_map_family hinjective old _ hremove]
  cases old.get? name <;> cases hnew : new.get? name <;> simp [Keyed.contains, hnew, removalOf]

variable {old new : Keyed α} {added : String → α → List Operation}
  {changed : String → α → α → List Operation}

theorem selectPaths_entryChanges_outside (hother : ∀ name, family name ≠ region)
    (hadded : ∀ name value, new.get? name = some value →
      EditsIn (Edit.OnlyIn contains (family name)) (added name value))
    (hchanged : ∀ name previous value, old.get? name = some previous →
      new.get? name = some value →
      EditsIn (Edit.OnlyIn contains (family name)) (changed name previous value)) :
    selectPaths (contains region) (entryChanges old new added changed) = [] := by
  refine selectPaths_of_outside (.entryChanges ?_ ?_)
  · intro name value hvalue
    exact (hadded name value hvalue).mono fun _ honly => ⟨family name, hother name, honly⟩
  · intro name previous value hprevious hvalue
    exact (hchanged name previous value hprevious hvalue).mono
      fun _ honly => ⟨family name, hother name, honly⟩

/-- Of the changes of all entries, only those of the entry of the region count. -/
theorem selectPaths_entryChanges (hinjective : Function.Injective family)
    (hadded : ∀ name value, new.get? name = some value →
      EditsIn (Edit.OnlyIn contains (family name)) (added name value))
    (hchanged : ∀ name previous value, old.get? name = some previous →
      new.get? name = some value →
      EditsIn (Edit.OnlyIn contains (family name)) (changed name previous value))
    (name : String) :
    selectPaths (contains (family name)) (entryChanges old new added changed) =
      changesOf (old.get? name) (new.get? name) (added name) (changed name) := by
  rw [entryChanges, selectPaths_flatMap_toList name]
  · cases hnew : new.get? name with
    | none => cases old.get? name <;> rfl
    | some value =>
      cases hold : old.get? name with
      | none => simpa only [hold, changesOf] using selectPaths_of_onlyIn (hadded name value hnew)
      | some previous =>
        simpa only [hold, changesOf] using
          selectPaths_of_onlyIn (hchanged name previous value hold hnew)
  · intro entry hmem hname
    have hvalue := Keyed.get?_eq_some_iff.2 hmem
    have hregion : family entry.1 ≠ family name := fun heq => hname (hinjective heq)
    cases hold : old.get? entry.1 with
    | none =>
      simp only [hold]
      exact selectPaths_of_outside ((hadded entry.1 entry.2 hvalue).mono
        fun _ honly => ⟨family entry.1, hregion, honly⟩)
    | some previous =>
      simp only [hold]
      exact selectPaths_of_outside ((hchanged entry.1 previous entry.2 hold hvalue).mono
        fun _ honly => ⟨family entry.1, hregion, honly⟩)

end Regions

end SchemaEvolution.Patch
