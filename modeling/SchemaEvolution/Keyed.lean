/-!
# Insertion-ordered keyed collections

A `Keyed α` holds values under distinct names and remembers the order in which the
names first arrived.  Storing under a name that is present replaces the value where
it stands; a new name goes to the end.  Two collections are alike when they hold the
same values under the same names, in whatever order.
-/

namespace SchemaEvolution

universe u v

/-- Values under distinct names, in order of first arrival. -/
structure Keyed (α : Type u) where
  entries : List (String × α)
  distinct : (entries.map Prod.fst).Nodup

namespace Keyed

variable {α : Type u} {β : Type v}

/-- The value under the first occurrence of `key`. -/
def find? (key : String) : List (String × α) → Option α
  | [] => none
  | (name, value) :: rest => if name = key then some value else find? key rest

/-- Replaces the value under `key` where it stands, or appends it. -/
def put (key : String) (value : α) : List (String × α) → List (String × α)
  | [] => [(key, value)]
  | (name, old) :: rest =>
    if name = key then (key, value) :: rest else (name, old) :: put key value rest

/-- Storing under a key that is there keeps the order of the keys, and a new key comes last. -/
theorem map_fst_put (key : String) (value : α) (entries : List (String × α)) :
    (put key value entries).map Prod.fst =
      if key ∈ entries.map Prod.fst then entries.map Prod.fst
      else entries.map Prod.fst ++ [key] := by
  induction entries with
  | nil => simp [put]
  | cons entry rest ih =>
    obtain ⟨name, old⟩ := entry
    by_cases h : name = key
    · simp [put, h]
    · have h' : ¬ key = name := fun e => h e.symm
      simp only [put, h, if_false, List.map_cons, ih, List.mem_cons, h', false_or]
      split <;> rfl

/-- Storing keeps the keys distinct. -/
theorem nodup_put (key : String) (value : α) {entries : List (String × α)}
    (h : (entries.map Prod.fst).Nodup) : ((put key value entries).map Prod.fst).Nodup := by
  rw [map_fst_put]
  split
  · exact h
  · next hmem =>
    rw [List.nodup_append]
    refine ⟨h, by simp, ?_⟩
    intro a ha b hb hab
    simp only [List.mem_singleton] at hb
    subst hb; subst hab
    exact hmem ha

/-- Gives every entry under `source` the name `target` and a changed value, in place. -/
def relabel (source target : String) (change : α → α) (entries : List (String × α)) :
    List (String × α) :=
  entries.map fun entry => if entry.1 = source then (target, change entry.2) else entry

/-- A key that gives way to a free one leaves the keys distinct. -/
theorem nodup_relabel {source target : String} {change : α → α} {entries : List (String × α)}
    (h : (entries.map Prod.fst).Nodup) (hfree : target ∉ entries.map Prod.fst) :
    ((relabel source target change entries).map Prod.fst).Nodup := by
  have hnames : (relabel source target change entries).map Prod.fst =
      (entries.map Prod.fst).map fun name => if name = source then target else name := by
    simp only [relabel, List.map_map]
    apply List.map_congr_left
    intro entry _
    simp only [Function.comp]
    split <;> rfl
  rw [hnames]
  generalize entries.map Prod.fst = names at h hfree
  induction names with
  | nil => simp
  | cons name rest ih =>
    rw [List.nodup_cons] at h
    rw [List.mem_cons, not_or] at hfree
    rw [List.map_cons, List.nodup_cons]
    refine ⟨?_, ih h.2 hfree.2⟩
    intro hmem
    obtain ⟨other, hother, heq⟩ := List.mem_map.1 hmem
    by_cases h1 : other = source <;> by_cases h2 : name = source
    · subst h1; subst h2; exact h.1 hother
    · rw [if_pos h1, if_neg h2] at heq
      exact hfree.1 heq
    · rw [if_neg h1, if_pos h2] at heq
      exact hfree.2 (heq ▸ hother)
    · rw [if_neg h1, if_neg h2] at heq
      exact h.1 (heq ▸ hother)

def empty : Keyed α := ⟨[], List.nodup_nil⟩

instance : EmptyCollection (Keyed α) := ⟨empty⟩
instance : Inhabited (Keyed α) := ⟨empty⟩

def toList (entries : Keyed α) : List (String × α) := entries.entries

def keys (entries : Keyed α) : List String := entries.entries.map Prod.fst

def values (entries : Keyed α) : List α := entries.entries.map Prod.snd

def isEmpty (entries : Keyed α) : Bool := entries.entries.isEmpty

def size (entries : Keyed α) : Nat := entries.entries.length

def get? (entries : Keyed α) (key : String) : Option α := find? key entries.entries

def contains (entries : Keyed α) (key : String) : Bool := (entries.get? key).isSome

def insert (entries : Keyed α) (key : String) (value : α) : Keyed α :=
  ⟨put key value entries.entries, nodup_put key value entries.distinct⟩

def erase (entries : Keyed α) (key : String) : Keyed α :=
  ⟨entries.entries.filter fun entry => entry.1 ≠ key,
    (List.filter_sublist.map Prod.fst).nodup entries.distinct⟩

/-- Gives the entry under `source` the name `target` and a changed value, in place.  Refused when
an entry already has that name. -/
def rename? (entries : Keyed α) (source target : String) (change : α → α) : Option (Keyed α) :=
  if h : target ∈ entries.keys then none
  else some ⟨relabel source target change entries.entries, nodup_relabel entries.distinct h⟩

/-- Changes the value under `key`, leaving every position as it is. -/
def update (entries : Keyed α) (key : String) (change : α → α) : Keyed α :=
  ⟨entries.entries.map fun entry => (entry.1, if entry.1 = key then change entry.2 else entry.2), by
    have h : ((entries.entries.map fun entry =>
        (entry.1, if entry.1 = key then change entry.2 else entry.2)).map Prod.fst) =
        entries.entries.map Prod.fst := by
      rw [List.map_map]
      rfl
    rw [h]
    exact entries.distinct⟩

def ofList (pairs : List (String × α)) : Keyed α :=
  pairs.foldl (fun entries pair => entries.insert pair.1 pair.2) empty

/-- The same names in the same order under changed values. -/
def map (f : α → β) (entries : Keyed α) : Keyed β :=
  ⟨entries.entries.map fun entry => (entry.1, f entry.2), by
    rw [List.map_map]
    exact entries.distinct⟩

/-- Equality of contents: order does not count. -/
def alike [BEq α] (left right : Keyed α) : Bool :=
  left.size == right.size &&
    left.entries.all fun entry =>
      match right.get? entry.1 with
      | some value => entry.2 == value
      | none => false

instance [BEq α] : BEq (Keyed α) := ⟨alike⟩

theorem ext {left right : Keyed α} (h : left.entries = right.entries) : left = right := by
  cases left; cases right; cases h; rfl

instance [DecidableEq α] : DecidableEq (Keyed α) := fun left right =>
  decidable_of_iff (left.entries = right.entries) ⟨ext, fun h => h ▸ rfl⟩

/-! ## Reading back -/

/-- What was stored last under a key is found there, and everything else as before. -/
theorem find?_put (key other : String) (value : α) (entries : List (String × α)) :
    find? other (put key value entries) =
      if key = other then some value else find? other entries := by
  induction entries with
  | nil => simp [put, find?]
  | cons entry rest ih =>
    obtain ⟨name, old⟩ := entry
    by_cases h : name = key
    · subst h; by_cases h2 : name = other <;> simp [put, find?, h2]
    · by_cases h2 : name = other
      · subst h2; simp [put, find?, h, Ne.symm h]
      · simp [put, find?, h, h2, ih]

@[simp]
theorem get?_insert (entries : Keyed α) (key other : String) (value : α) :
    (entries.insert key value).get? other =
      if key = other then some value else entries.get? other :=
  find?_put key other value entries.entries

theorem keys_insert (entries : Keyed α) (key : String) (value : α) :
    (entries.insert key value).keys =
      if key ∈ entries.keys then entries.keys else entries.keys ++ [key] :=
  map_fst_put key value entries.entries

@[simp]
theorem keys_erase (entries : Keyed α) (key : String) :
    (entries.erase key).keys = entries.keys.filter (· ≠ key) := by
  simp only [keys, erase, List.filter_map]
  rfl

@[simp]
theorem keys_update (entries : Keyed α) (key : String) (change : α → α) :
    (entries.update key change).keys = entries.keys := by
  simp only [keys, update, List.map_map]
  rfl

end Keyed

end SchemaEvolution
