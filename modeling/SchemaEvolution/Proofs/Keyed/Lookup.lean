import Mathlib.Data.List.Nodup
import Mathlib.Data.List.Perm.Subperm
import SchemaEvolution.Keyed

/-!
# Keyed collections by their look-ups

A collection is known by what stands under each name, up to the order of its entries: two
collections are alike exactly when every look-up agrees.  The operations are described by
the look-ups of their results.
-/

namespace SchemaEvolution.Keyed

universe u v w

variable {α : Type u} {β : Type v}

/-- Nothing is found under a key exactly if the key is not there. -/
theorem find?_eq_none_iff {key : String} {entries : List (String × α)} :
    find? key entries = none ↔ key ∉ entries.map Prod.fst := by
  induction entries with
  | nil => simp [find?]
  | cons entry rest ih =>
    obtain ⟨name, value⟩ := entry
    by_cases hname : name = key
    · simp [find?, hname]
    · have hkey : key ≠ name := Ne.symm hname
      simp [find?, hname, hkey, ih]

/-- What is found under a key is there under it. -/
theorem mem_of_find?_eq_some {key : String} {value : α} {entries : List (String × α)}
    (hfound : find? key entries = some value) : (key, value) ∈ entries := by
  induction entries with
  | nil => simp [find?] at hfound
  | cons entry rest ih =>
    obtain ⟨name, current⟩ := entry
    by_cases hname : name = key
    · simp only [find?, hname, if_true, Option.some.injEq] at hfound
      simp [hname, hfound]
    · simp only [find?, hname, if_false] at hfound
      exact List.mem_cons_of_mem _ (ih hfound)

/-- With distinct keys every entry is found under its key. -/
theorem find?_eq_some_of_mem {key : String} {value : α} {entries : List (String × α)}
    (hdistinct : (entries.map Prod.fst).Nodup) (hmem : (key, value) ∈ entries) :
    find? key entries = some value := by
  induction entries with
  | nil => simp at hmem
  | cons entry rest ih =>
    obtain ⟨name, current⟩ := entry
    rw [List.map_cons, List.nodup_cons] at hdistinct
    rcases List.mem_cons.1 hmem with heq | hrest
    · cases heq
      simp [find?]
    · have hname : name ≠ key := by
        rintro rfl
        exact hdistinct.1 (List.mem_map.2 ⟨(name, value), hrest, rfl⟩)
      simp only [find?, hname, if_false]
      exact ih hdistinct.2 hrest

/-- Where names are distinct, an item is found by its name. -/
theorem find?_named {name : α → String} {items : List α} {item : α}
    (hnames : (items.map name).Nodup) (hmem : item ∈ items) :
    (items.find? fun other => name other == name item) = some item := by
  induction items with
  | nil => cases hmem
  | cons other more ih =>
    obtain ⟨hother, hmore⟩ := List.nodup_cons.1 hnames
    rw [List.find?_cons]
    rcases List.mem_cons.1 hmem with rfl | hmem
    · rw [beq_self_eq_true]
    · have hne : (name other == name item) = false :=
        beq_eq_false_iff_ne.2 fun heq => hother (heq ▸ List.mem_map_of_mem hmem)
      rw [hne]
      exact ih hmore hmem

/-- Where names are distinct, what is found by a name does not depend on the order of the items. -/
theorem find?_perm {name : α → String} {items others : List α} (hnames : (items.map name).Nodup)
    (hperm : items.Perm others) (key : String) :
    (items.find? fun item => name item == key) = others.find? fun item => name item == key := by
  cases hfound : others.find? fun item => name item == key with
  | none =>
    rw [List.find?_eq_none] at hfound ⊢
    exact fun item hmem => hfound item (hperm.mem_iff.1 hmem)
  | some item =>
    obtain rfl : name item = key := by simpa using List.find?_some hfound
    exact find?_named hnames (hperm.mem_iff.2 (List.mem_of_find?_eq_some hfound))

theorem nodup_map_reverse {name : α → String} {items : List α} (hnames : (items.map name).Nodup) :
    (items.reverse.map name).Nodup := by
  rw [List.map_reverse, List.nodup_reverse]
  exact hnames

/-- Where names are distinct, the last item of a name is the only one. -/
theorem find?_reverse_perm {name : α → String} {items others : List α}
    (hnames : (items.map name).Nodup) (hperm : items.Perm others) (key : String) :
    (items.reverse.find? fun item => name item == key) =
      others.reverse.find? fun item => name item == key :=
  find?_perm (nodup_map_reverse hnames)
    ((List.reverse_perm _).trans (hperm.trans (List.reverse_perm _).symm)) key

theorem get?_eq_some_iff {entries : Keyed α} {key : String} {value : α} :
    entries.get? key = some value ↔ (key, value) ∈ entries.toList :=
  ⟨mem_of_find?_eq_some, find?_eq_some_of_mem entries.distinct⟩

theorem get?_eq_none_iff {entries : Keyed α} {key : String} :
    entries.get? key = none ↔ key ∉ entries.keys :=
  find?_eq_none_iff

theorem contains_eq_true_iff {entries : Keyed α} {key : String} :
    entries.contains key = true ↔ key ∈ entries.keys := by
  rw [contains, Option.isSome_iff_ne_none, Ne, get?_eq_none_iff, Classical.not_not]

theorem mem_keys_iff {entries : Keyed α} {key : String} :
    key ∈ entries.keys ↔ ∃ value, entries.get? key = some value := by
  rw [← contains_eq_true_iff, contains, Option.isSome_iff_exists]

theorem mem_keys_insert {entries : Keyed α} {key other : String} {value : α} :
    other ∈ (entries.insert key value).keys ↔ other ∈ entries.keys ∨ other = key := by
  rw [keys_insert]
  split
  · next hmem => exact (or_iff_left_of_imp fun heq => heq ▸ hmem).symm
  · rw [List.mem_append, List.mem_singleton]

theorem mem_values_iff {entries : Keyed α} {value : α} :
    value ∈ entries.values ↔ ∃ key, entries.get? key = some value := by
  simp only [values, get?_eq_some_iff, List.mem_map, Prod.exists, exists_eq_right, toList]

@[simp]
theorem get?_empty (key : String) : (∅ : Keyed α).get? key = none := rfl

@[simp]
theorem toList_empty : (∅ : Keyed α).toList = [] := rfl

/-- With its entry left out nothing is found under a key, and all others are. -/
theorem find?_filter_ne (key other : String) (entries : List (String × α)) :
    find? other (entries.filter fun entry => entry.1 ≠ key) =
      if key = other then none else find? other entries := by
  induction entries with
  | nil => simp [find?]
  | cons entry rest ih =>
    obtain ⟨name, value⟩ := entry
    by_cases hname : name = key
    · subst hname
      by_cases hother : name = other
      · simpa [find?, hother] using ih
      · simpa [find?, hother] using ih
    · by_cases hother : name = other
      · subst hother
        simp [find?, hname, Ne.symm hname]
      · simpa [find?, hname, hother] using ih

@[simp]
theorem get?_erase (entries : Keyed α) (key other : String) :
    (entries.erase key).get? other = if key = other then none else entries.get? other :=
  find?_filter_ne key other entries.entries

theorem find?_map (f : String → α → β) (key : String) (entries : List (String × α)) :
    find? key (entries.map fun entry => (entry.1, f entry.1 entry.2)) =
      (find? key entries).map (f key) := by
  induction entries with
  | nil => rfl
  | cons entry rest ih =>
    obtain ⟨name, value⟩ := entry
    by_cases hname : name = key
    · simp [find?, hname]
    · simpa [find?, hname] using ih

@[simp]
theorem get?_map (f : α → β) (entries : Keyed α) (key : String) :
    (entries.map f).get? key = (entries.get? key).map f :=
  find?_map (fun _ => f) key entries.entries

@[simp]
theorem get?_update (entries : Keyed α) (key other : String) (change : α → α) :
    (entries.update key change).get? other =
      if other = key then (entries.get? other).map change else entries.get? other := by
  refine (find?_map (fun name value => if name = key then change value else value) other
    entries.entries).trans ?_
  by_cases hother : other = key
  · simp [hother, get?]
  · simp [hother, get?]

/-- Changing the value under a key in place is storing the changed value. -/
theorem map_eq_put {key : String} {value : α} {entries : List (String × α)}
    (hdistinct : (entries.map Prod.fst).Nodup) (hvalue : find? key entries = some value)
    (change : α → α) :
    (entries.map fun entry => (entry.1, if entry.1 = key then change entry.2 else entry.2)) =
      put key (change value) entries := by
  induction entries with
  | nil => cases hvalue
  | cons entry rest ih =>
    obtain ⟨name, old⟩ := entry
    rw [List.map_cons, List.nodup_cons] at hdistinct
    by_cases hname : name = key
    · subst hname
      rw [find?, if_pos rfl, Option.some.injEq] at hvalue
      subst hvalue
      have hrest : (rest.map fun entry =>
          (entry.1, if entry.1 = name then change entry.2 else entry.2)) = rest := by
        refine (List.map_congr_left fun entry hmem => ?_).trans (List.map_id rest)
        have hother : entry.1 ≠ name := fun heq => hdistinct.1 (List.mem_map.2 ⟨entry, hmem, heq⟩)
        rw [if_neg hother]
        rfl
      rw [List.map_cons, hrest, put, if_pos rfl, if_pos rfl]
    · rw [find?, if_neg hname] at hvalue
      rw [List.map_cons, ih hdistinct.2 hvalue, put, if_neg hname, if_neg hname]

/-- To change what stands under a name is to store it changed. -/
theorem update_eq_insert {entries : Keyed α} {key : String} {value : α}
    (hvalue : entries.get? key = some value) (change : α → α) :
    entries.update key change = entries.insert key (change value) :=
  Keyed.ext (map_eq_put entries.distinct hvalue change)

theorem update_eq_self {entries : Keyed α} {key : String} {change : α → α}
    (hsame : ∀ value, entries.get? key = some value → change value = value) :
    entries.update key change = entries := by
  refine Keyed.ext ((List.map_congr_left fun entry hmem => ?_).trans (List.map_id _))
  obtain ⟨name, value⟩ := entry
  by_cases hname : name = key
  · rw [if_pos hname, hsame value (get?_eq_some_iff.2 (hname ▸ hmem))]
    rfl
  · rw [if_neg hname]
    rfl

theorem insert_eq_self {entries : Keyed α} {key : String} {value : α}
    (hvalue : entries.get? key = some value) : entries.insert key value = entries :=
  (update_eq_insert hvalue id).symm.trans (update_eq_self fun _ _ => rfl)

theorem map_congr {entries : Keyed α} {first second : α → β}
    (hsame : ∀ value ∈ entries.values, first value = second value) :
    entries.map first = entries.map second := by
  refine Keyed.ext (List.map_congr_left fun entry hmem => ?_)
  rw [hsame entry.2 (List.mem_map.2 ⟨entry, hmem, rfl⟩)]

theorem map_eq_self {entries : Keyed α} {change : α → α}
    (hsame : ∀ value ∈ entries.values, change value = value) : entries.map change = entries :=
  (map_congr hsame).trans (Keyed.ext (List.map_id _))

theorem put_put (key : String) (first second : α) (entries : List (String × α)) :
    put key second (put key first entries) = put key second entries := by
  induction entries with
  | nil => simp [put]
  | cons entry rest ih =>
    obtain ⟨name, old⟩ := entry
    by_cases hname : name = key
    · simp [put, hname]
    · simp [put, hname, ih]

/-- Of two values stored under one name the second one counts. -/
theorem insert_insert (entries : Keyed α) (key : String) (first second : α) :
    (entries.insert key first).insert key second = entries.insert key second :=
  Keyed.ext (put_put key first second entries.entries)

/-- Of what entries give, only the entry under one key counts where the others give nothing of it.
-/
theorem filter_flatMap_entries {γ : Type w} (p : γ → Bool) (key : String)
    {entries : List (String × α)} (hdistinct : (entries.map Prod.fst).Nodup)
    (part : String × α → List γ)
    (hother : ∀ entry ∈ entries, entry.1 ≠ key → (part entry).filter p = []) :
    (entries.flatMap part).filter p =
      match find? key entries with
      | some value => (part (key, value)).filter p
      | none => [] := by
  induction entries with
  | nil => rfl
  | cons entry rest ih =>
    obtain ⟨name, value⟩ := entry
    rw [List.map_cons, List.nodup_cons] at hdistinct
    have hrest := ih hdistinct.2 fun entry hmem => hother entry (List.mem_cons_of_mem _ hmem)
    rw [List.flatMap_cons, List.filter_append, hrest]
    by_cases hname : name = key
    · subst hname
      have hnone : find? name rest = none := find?_eq_none_iff.2 hdistinct.1
      simp [find?, hnone]
    · rw [hother (name, value) List.mem_cons_self hname, List.nil_append]
      simp [find?, hname]

/-- Of what the entries of a collection give in order, only what the entry under the key gives
counts, when nothing else is chosen. -/
theorem filter_flatMap_toList {γ : Type w} (p : γ → Bool) (key : String) (entries : Keyed α)
    (part : String × α → List γ)
    (hother : ∀ entry ∈ entries.toList, entry.1 ≠ key → (part entry).filter p = []) :
    (entries.toList.flatMap part).filter p =
      match entries.get? key with
      | some value => (part (key, value)).filter p
      | none => [] :=
  filter_flatMap_entries p key entries.distinct part hother

/-- What is stored under a new key comes last. -/
theorem put_of_not_mem {key : String} {value : α} {entries : List (String × α)}
    (hnew : key ∉ entries.map Prod.fst) : put key value entries = entries ++ [(key, value)] := by
  induction entries with
  | nil => rfl
  | cons entry rest ih =>
    obtain ⟨name, old⟩ := entry
    rw [List.map_cons, List.mem_cons, not_or] at hnew
    have hname : name ≠ key := fun e => hnew.1 e.symm
    rw [put, if_neg hname, ih hnew.2]
    rfl

/-- Storing every entry of a collection under names that are all new appends them in order. -/
theorem foldl_insert_entries (pairs : List (String × α)) (done : Keyed α)
    (hdistinct : (done.keys ++ pairs.map Prod.fst).Nodup) :
    (pairs.foldl (fun entries pair => entries.insert pair.1 pair.2) done).entries =
      done.entries ++ pairs := by
  induction pairs generalizing done with
  | nil => simp
  | cons pair rest ih =>
    have hnew : pair.1 ∉ done.keys := by
      intro hmem
      exact (List.nodup_append.1 hdistinct).2.2 _ hmem pair.1 (by simp) rfl
    have hentries : (done.insert pair.1 pair.2).entries = done.entries ++ [pair] :=
      put_of_not_mem hnew
    have hkeys : (done.insert pair.1 pair.2).keys = done.keys ++ [pair.1] := by
      rw [keys_insert, if_neg hnew]
    rw [List.foldl_cons, ih, hentries, List.append_assoc, List.singleton_append]
    rw [hkeys, List.append_assoc]
    exact hdistinct

/-- A collection is what storing its own entries one by one gives. -/
theorem foldl_insert_toList (entries : Keyed α) :
    entries.toList.foldl (fun done pair => done.insert pair.1 pair.2) Keyed.empty = entries := by
  apply Keyed.ext
  rw [foldl_insert_entries]
  · rfl
  · exact entries.distinct

/-- Storing changed values one by one under the names that they had is changing them in place. -/
theorem foldl_insert_values (entries : Keyed α) {name : α → String} (change : α → β)
    (hnamed : ∀ entry ∈ entries.toList, name entry.2 = entry.1) :
    entries.values.foldl (fun done value => done.insert (name value) (change value)) ∅ =
      entries.map change := by
  have hpairs : entries.values.map (fun value => (name value, change value)) =
      (entries.map change).toList := by
    rw [values, List.map_map]
    exact List.map_congr_left fun entry hmem => by rw [Function.comp, hnamed entry hmem]
  rw [← foldl_insert_toList (entries.map change), ← hpairs, List.foldl_map]
  rfl

/-- Storing all values of a collection under their own names gives the collection. -/
theorem foldl_insert_self (entries : Keyed α) {name : α → String}
    (hnamed : ∀ entry ∈ entries.toList, name entry.2 = entry.1) :
    entries.values.foldl (fun done value => done.insert (name value) value) ∅ = entries :=
  (foldl_insert_values entries (fun value => value) hnamed).trans (map_eq_self fun _ _ => rfl)

/-- Values with distinct names that are stored one by one stand in their order. -/
theorem toList_foldl_insert {items : List α} {name : α → String}
    (hdistinct : (items.map name).Nodup) :
    (items.foldl (fun (found : Keyed α) item => found.insert (name item) item) ∅).toList =
      items.map fun item => (name item, item) := by
  have hpairs : (items.map fun item => (name item, item)).map Prod.fst = items.map name := by
    rw [List.map_map]
    rfl
  have hentries := foldl_insert_entries (items.map fun item => (name item, item)) ∅
    (hpairs.symm ▸ hdistinct)
  rw [List.foldl_map] at hentries
  exact hentries

theorem get?_foldl_insert_of_ne {γ : Type w} {items : List γ} {name : γ → String} {key : String}
    (hother : ∀ item ∈ items, name item ≠ key) (change : γ → α) (done : Keyed α) :
    (items.foldl (fun found item => found.insert (name item) (change item)) done).get? key =
      done.get? key := by
  induction items generalizing done with
  | nil => rfl
  | cons item more ih =>
    rw [List.foldl_cons, ih fun other hmem => hother other (List.mem_cons_of_mem _ hmem),
      get?_insert, if_neg (hother item List.mem_cons_self)]

/-- Where all items of one name have the same value, that value is under the name. -/
theorem get?_foldl_insert {γ : Type w} {items : List γ} {name : γ → String} {change : γ → α}
    {key : String} {value : α}
    (hsame : ∀ item ∈ items, name item = key → change item = value) (done : Keyed α)
    (hsome : done.get? key = some value ∨ ∃ item ∈ items, name item = key) :
    (items.foldl (fun found item => found.insert (name item) (change item)) done).get? key =
      some value := by
  induction items generalizing done with
  | nil =>
    rcases hsome with hdone | ⟨item, hmem, -⟩
    · exact hdone
    · cases hmem
  | cons item more ih =>
    refine ih (fun other hmem => hsame other (List.mem_cons_of_mem _ hmem)) _ ?_
    rw [get?_insert]
    by_cases hkey : name item = key
    · rw [if_pos hkey, hsame item List.mem_cons_self hkey]
      exact .inl rfl
    · rw [if_neg hkey]
      refine hsome.imp_right ?_
      rintro ⟨other, hmem, hother⟩
      rcases List.mem_cons.1 hmem with rfl | hmore
      · exact absurd hother hkey
      · exact ⟨other, hmore, hother⟩

/-- A value that is there after storing items was there before or comes from one of them. -/
theorem mem_values_foldl_insert {γ : Type w} {items : List γ} {name : γ → String}
    {change : γ → α} {done : Keyed α} {value : α}
    (hmem : value ∈ (items.foldl
      (fun found item => found.insert (name item) (change item)) done).values) :
    value ∈ done.values ∨ ∃ item ∈ items, change item = value := by
  induction items generalizing done with
  | nil => exact .inl hmem
  | cons item more ih =>
    rcases ih hmem with hinserted | ⟨other, hother, hvalue⟩
    · obtain ⟨key, hkey⟩ := mem_values_iff.1 hinserted
      rw [get?_insert] at hkey
      split at hkey
      · exact .inr ⟨item, List.mem_cons_self, Option.some.inj hkey⟩
      · exact .inl (mem_values_iff.2 ⟨key, hkey⟩)
    · exact .inr ⟨other, List.mem_cons_of_mem _ hother, hvalue⟩

theorem toList_eq_filterMap (entries : Keyed α) :
    entries.toList = entries.keys.filterMap fun key =>
      (entries.get? key).map fun value => (key, value) := by
  rw [keys, List.filterMap_map, toList]
  refine (List.filterMap_some.symm.trans (List.filterMap_congr fun entry hmem => ?_))
  rw [Function.comp, get?_eq_some_iff.2 hmem]
  rfl

theorem values_eq_filterMap (entries : Keyed α) :
    entries.values = entries.keys.filterMap entries.get? := by
  rw [keys, List.filterMap_map, values, ← List.filterMap_eq_map]
  refine List.filterMap_congr fun entry hmem => ?_
  rw [Function.comp, Function.comp, get?_eq_some_iff.2 hmem]

/-- Names in the same order with the same values under them are the same collection. -/
theorem ext_get? {left right : Keyed α} (hkeys : left.keys = right.keys)
    (hvalues : ∀ key, left.get? key = right.get? key) : left = right := by
  apply Keyed.ext
  change left.toList = right.toList
  simp only [toList_eq_filterMap, hkeys, hvalues]

/-- Collections with the same names have them once each. -/
theorem keys_perm {left : Keyed α} {right : Keyed β}
    (hkeys : ∀ key, key ∈ left.keys ↔ key ∈ right.keys) : left.keys.Perm right.keys :=
  (List.perm_ext_iff_of_nodup left.distinct right.distinct).2 hkeys

/-- Where every look-up agrees, the values are the same but for their order. -/
theorem values_perm {left right : Keyed α} (hvalues : ∀ key, left.get? key = right.get? key) :
    left.values.Perm right.values := by
  have hkeys : left.keys.Perm right.keys :=
    keys_perm fun key => by rw [mem_keys_iff, mem_keys_iff, hvalues]
  have hget : left.get? = right.get? := funext hvalues
  rw [values_eq_filterMap, values_eq_filterMap, hget]
  exact hkeys.filterMap _

/-! ## Likeness -/

/-- Two collections are alike exactly when every look-up agrees. -/
theorem beq_iff_get? [BEq α] (left right : Keyed α) :
    (left == right) = true ↔ ∀ key, (left.get? key == right.get? key) = true := by
  constructor
  · intro halike key
    obtain ⟨hsize, hall⟩ := (Bool.and_eq_true _ _).mp halike
    have hmatch : ∀ name value, left.get? name = some value →
        ∃ other, right.get? name = some other ∧ (value == other) = true := by
      intro name value hvalue
      have hentry := List.all_eq_true.1 hall (name, value) (get?_eq_some_iff.1 hvalue)
      cases hright : right.get? name with
      | none => simp [hright] at hentry
      | some other => exact ⟨other, rfl, by simpa [hright] using hentry⟩
    have hsubset : left.keys ⊆ right.keys := by
      intro name hname
      obtain ⟨value, hvalue⟩ := mem_keys_iff.1 hname
      obtain ⟨other, hother, -⟩ := hmatch name value hvalue
      exact mem_keys_iff.2 ⟨other, hother⟩
    have hlength : right.keys.length ≤ left.keys.length := by
      simp only [keys, List.length_map]
      exact Nat.le_of_eq (beq_iff_eq.1 hsize).symm
    have hperm : left.keys.Perm right.keys :=
      (List.subperm_of_subset left.distinct hsubset).perm_of_length_le hlength
    cases hleft : left.get? key with
    | none =>
      have hnone : right.get? key = none := by
        rw [get?_eq_none_iff] at hleft ⊢
        exact fun hmem => hleft (hperm.mem_iff.2 hmem)
      rw [hnone]
      rfl
    | some value =>
      obtain ⟨other, hother, hsame⟩ := hmatch key value hleft
      rw [hother]
      exact hsame
  · intro hagree
    have hkeys : ∀ key, key ∈ left.keys ↔ key ∈ right.keys := by
      intro key
      have hkey := hagree key
      rw [mem_keys_iff, mem_keys_iff]
      cases hleft : left.get? key <;> cases hright : right.get? key <;> simp_all
    have hperm : left.keys.Perm right.keys := keys_perm hkeys
    have hsize : left.size = right.size := by
      have := hperm.length_eq
      simpa only [keys, List.length_map, size] using this
    refine (Bool.and_eq_true _ _).mpr ⟨beq_iff_eq.2 hsize, List.all_eq_true.2 ?_⟩
    intro entry hmem
    have hentry := hagree entry.1
    rw [get?_eq_some_iff.2 hmem] at hentry
    cases hright : right.get? entry.1 with
    | none => simp [hright] at hentry
    | some other => simpa [hright] using hentry

instance [BEq α] [ReflBEq α] : ReflBEq (Keyed α) where
  rfl {entries} := (beq_iff_get? entries entries).2 fun key => by
    cases entries.get? key <;> simp

theorem exists_of_beq [BEq α] {left right : Keyed α} (hsame : (left == right) = true)
    {key : String} {value : α} (hvalue : left.get? key = some value) :
    ∃ other, right.get? key = some other ∧ (value == other) = true := by
  have hkey := (beq_iff_get? left right).1 hsame key
  rw [hvalue] at hkey
  cases hother : right.get? key with
  | none => rw [hother] at hkey; cases hkey
  | some other => rw [hother] at hkey; exact ⟨other, rfl, hkey⟩

/-- What may be absent, on both sides, when look-ups agree. -/
theorem eq_none_or_of_beq [BEq α] {left right : Keyed α} (hsame : (left == right) = true)
    (key : String) : (left.get? key = none ∧ right.get? key = none) ∨
      ∃ value other, left.get? key = some value ∧ right.get? key = some other ∧
        (value == other) = true := by
  cases hleft : left.get? key with
  | some value =>
    obtain ⟨other, hother, hvalues⟩ := exists_of_beq hsame hleft
    exact .inr ⟨value, other, rfl, hother, hvalues⟩
  | none =>
    have hkey := (beq_iff_get? left right).1 hsame key
    cases hright : right.get? key with
    | none => exact .inl ⟨rfl, rfl⟩
    | some other => rw [hleft, hright] at hkey; cases hkey

/-- Collections that are alike have the same keys. -/
theorem mem_keys_of_beq [BEq α] {left right : Keyed α} (hsame : (left == right) = true)
    (key : String) : key ∈ left.keys ↔ key ∈ right.keys := by
  rw [mem_keys_iff, mem_keys_iff]
  obtain ⟨hleft, hright⟩ | ⟨value, other, hleft, hright, -⟩ := eq_none_or_of_beq hsame key
  · rw [hleft, hright]
  · simp only [hleft, hright, Option.some.injEq, exists_eq']

/-- Values of a collection are stored until all of it is there. -/
theorem foldl_insert_beq [BEq α] [ReflBEq α] {items : List α} {name : α → String}
    {target done : Keyed α} (hitems : ∀ item ∈ items, target.get? (name item) = some item)
    (hdone : ∀ key, (∀ item ∈ items, name item ≠ key) →
      (done.get? key == target.get? key) = true) :
    (items.foldl (fun found item => found.insert (name item) item) done == target) = true := by
  refine (beq_iff_get? _ _).2 fun key => ?_
  by_cases hnew : ∃ item ∈ items, name item = key
  · obtain ⟨item, hmem, rfl⟩ := hnew
    have hsame : ∀ other ∈ items, name other = name item → other = item := by
      intro other hother heq
      have hvalue := hitems other hother
      rw [heq, hitems item hmem] at hvalue
      exact (Option.some.inj hvalue).symm
    rw [get?_foldl_insert hsame done (.inr ⟨item, hmem, rfl⟩), hitems item hmem]
    exact BEq.rfl
  · have hother : ∀ item ∈ items, name item ≠ key := fun item hmem heq => hnew ⟨item, hmem, heq⟩
    rw [get?_foldl_insert_of_ne hother]
    exact hdone key hother

/-- Values with distinct names may be stored in any order. -/
theorem beq_foldl_insert_perm [BEq α] [ReflBEq α] {items others : List α} {name : α → String}
    (hdistinct : (items.map name).Nodup) (hperm : items.Perm others) :
    (items.foldl (fun (found : Keyed α) item => found.insert (name item) item) ∅ ==
      others.foldl (fun (found : Keyed α) item => found.insert (name item) item) ∅) = true := by
  refine foldl_insert_beq (fun item hmem => ?_) fun key hother => ?_
  · refine get?_foldl_insert (fun other hother heq => ?_) ∅ (.inr ⟨item, hperm.mem_iff.1 hmem, rfl⟩)
    exact List.inj_on_of_nodup_map hdistinct (hperm.mem_iff.2 hother) hmem heq
  · rw [get?_foldl_insert_of_ne fun item hmem => hother item (hperm.mem_iff.2 hmem)]
    exact BEq.rfl

end SchemaEvolution.Keyed
