import Mathlib.Data.List.Nodup
import SchemaEvolution.Proofs.Keyed.Lookup

/-!
# Keyed collections by the order of their entries

An entry stands at a place between the others.  It may be taken out and stored at a place again;
and what stands under some keys may change in any way while the entries under all other keys stay
the same, in the same order.
-/

namespace SchemaEvolution.Keyed

universe u

variable {α : Type u}

/-- Takes the entry under a key out: its place, its value, and the other entries in order. -/
def takeOut? (entries : Keyed α) (key : String) : Option (Nat × α × Keyed α) :=
  (entries.get? key).map fun value => (entries.keys.idxOf key, value, entries.erase key)

theorem nodup_take_cons_drop {key : String} {value : α} {others : List (String × α)}
    (hothers : (others.map Prod.fst).Nodup) (hnew : key ∉ others.map Prod.fst) (place : Nat) :
    ((others.take place ++ (key, value) :: others.drop place).map Prod.fst).Nodup := by
  have hperm : (others.take place ++ (key, value) :: others.drop place).Perm
      ((key, value) :: others) := by
    have hmiddle : (others.take place ++ (key, value) :: others.drop place).Perm
        ((key, value) :: (others.take place ++ others.drop place)) := List.perm_middle
    rwa [List.take_append_drop] at hmiddle
  rw [(hperm.map Prod.fst).nodup_iff, List.map_cons, List.nodup_cons]
  exact ⟨hnew, hothers⟩

theorem not_mem_keys_erase (entries : Keyed α) (key : String) :
    key ∉ (entries.erase key).keys := by
  rw [keys_erase]
  simp

/-- Stores a value at a place, and moves its key there if the key is present. -/
def insertAt (entries : Keyed α) (place : Nat) (key : String) (value : α) : Keyed α :=
  ⟨(entries.erase key).entries.take place ++
      (key, value) :: (entries.erase key).entries.drop place,
    nodup_take_cons_drop (entries.erase key).distinct (not_mem_keys_erase entries key) place⟩

theorem filter_ne_eq_self {key : String} {entries : List (String × α)}
    (hother : ∀ entry ∈ entries, entry.1 ≠ key) :
    entries.filter (fun entry => entry.1 ≠ key) = entries :=
  List.filter_eq_self.2 fun entry hmem => decide_eq_true (hother entry hmem)

theorem relabel_eq_self {source target : String} {change : α → α} {entries : List (String × α)}
    (hother : ∀ entry ∈ entries, entry.1 ≠ source) :
    relabel source target change entries = entries :=
  (List.map_congr_left fun entry hmem => if_neg (hother entry hmem)).trans (List.map_id _)

theorem erase_eq_self {entries : Keyed α} {key : String} (hnew : key ∉ entries.keys) :
    entries.erase key = entries :=
  Keyed.ext (filter_ne_eq_self fun _ hmem heq => hnew (heq ▸ List.mem_map_of_mem hmem))

/-- An entry stands between others that have other keys. -/
theorem exists_split {entries : Keyed α} {key : String} {value : α}
    (hvalue : entries.get? key = some value) :
    ∃ front back, entries.entries = front ++ (key, value) :: back ∧
      (∀ entry ∈ front, entry.1 ≠ key) ∧ ∀ entry ∈ back, entry.1 ≠ key := by
  obtain ⟨front, back, hsplit⟩ := List.append_of_mem (get?_eq_some_iff.1 hvalue)
  have hdistinct := entries.distinct
  change entries.entries = front ++ (key, value) :: back at hsplit
  rw [hsplit, List.map_append, List.map_cons, List.nodup_middle, List.nodup_cons,
    List.mem_append, not_or] at hdistinct
  refine ⟨front, back, hsplit, ?_, ?_⟩
  · exact fun entry hmem heq => hdistinct.1.1 (List.mem_map.2 ⟨entry, hmem, heq⟩)
  · exact fun entry hmem heq => hdistinct.1.2 (List.mem_map.2 ⟨entry, hmem, heq⟩)

/-- The value under one key stands changed under another one, at the same place. -/
def Renamed (source target : String) (change : α → α) (before after : Keyed α) : Prop :=
  ∃ front value back, before.toList = front ++ (source, value) :: back ∧
    after.toList = front ++ (target, change value) :: back

section Renaming

variable {entries renamed : Keyed α} {source target : String} {value : α} {change : α → α}

theorem relabel_split {front back : List (String × α)}
    (hfront : ∀ entry ∈ front, entry.1 ≠ source) (hback : ∀ entry ∈ back, entry.1 ≠ source) :
    relabel source target change (front ++ (source, value) :: back) =
      front ++ (target, change value) :: back := by
  have hmap : relabel source target change (front ++ (source, value) :: back) =
      relabel source target change front ++
        (target, change value) :: relabel source target change back := by
    rw [relabel, List.map_append, List.map_cons, if_pos rfl]
    rfl
  rw [hmap, relabel_eq_self hfront, relabel_eq_self hback]

/-- A renaming that succeeds moves the entry, changed, to its new name. -/
theorem renamed_of_rename? (hvalue : entries.get? source = some value)
    (hrenamed : entries.rename? source target change = some renamed) :
    entries.Renamed source target change renamed := by
  obtain ⟨front, back, hsplit, hfront, hback⟩ := exists_split hvalue
  rw [rename?] at hrenamed
  split at hrenamed
  · cases hrenamed
  · cases hrenamed
    refine ⟨front, value, back, hsplit, ?_⟩
    change relabel source target change entries.entries = _
    rw [hsplit, relabel_split hfront hback]

/-- To take an entry out, and to store it changed under a new key where it stood, is to rename
it. -/
theorem rename?_eq_insertAt (hvalue : entries.get? source = some value)
    (hfree : target ∉ entries.keys) (change : α → α) :
    entries.rename? source target change =
      some ((entries.erase source).insertAt (entries.keys.idxOf source) target
        (change value)) := by
  obtain ⟨front, back, hsplit, hfront, hback⟩ := exists_split hvalue
  have hplace : entries.keys.idxOf source = front.length := by
    have hmissing : source ∉ front.map Prod.fst := by
      intro hmem
      obtain ⟨entry, hentry, heq⟩ := List.mem_map.1 hmem
      exact hfront entry hentry heq
    rw [keys, hsplit, List.map_append, List.idxOf_append_of_notMem hmissing, List.map_cons,
      List.idxOf_cons_self, List.length_map, Nat.add_zero]
  have herased : (entries.erase source).entries = front ++ back := by
    change entries.entries.filter (fun entry => entry.1 ≠ source) = front ++ back
    rw [hsplit, List.filter_append, List.filter_cons_of_neg (by simp), filter_ne_eq_self hfront,
      filter_ne_eq_self hback]
  have hfree' : target ∉ (entries.erase source).keys := by
    rw [keys_erase]
    exact fun hmem => hfree (List.mem_of_mem_filter hmem)
  rw [rename?, dif_neg hfree, Option.some.injEq]
  apply Keyed.ext
  calc
    relabel source target change entries.entries = front ++ (target, change value) :: back := by
      rw [hsplit, relabel_split hfront hback]
    _ = _ := by
      simp only [insertAt, erase_eq_self hfree', herased, hplace, List.take_left, List.drop_left]

/-- Under the new key there is the changed value of the old one, and nothing under the old key. -/
theorem find?_relabel (other : String) {entries : List (String × α)}
    (hfree : target ∉ entries.map Prod.fst) :
    find? other (relabel source target change entries) =
      if target = other then (find? source entries).map change
      else if source = other then none
      else find? other entries := by
  induction entries with
  | nil => simp [relabel, find?]
  | cons entry rest ih =>
    obtain ⟨name, old⟩ := entry
    rw [List.map_cons, List.mem_cons, not_or] at hfree
    have hrest := ih hfree.2
    rw [relabel] at hrest
    by_cases hname : name = source
    · subst hname
      by_cases htarget : target = other
      · simp [relabel, find?, htarget]
      · by_cases hother : name = other
        · subst hother
          simp [relabel, find?, htarget, hrest]
        · simp [relabel, find?, htarget, hother, hrest]
    · by_cases htarget : target = other
      · subst htarget
        simp [relabel, find?, hname, Ne.symm hfree.1, hrest]
      · by_cases hother : source = other
        · subst hother
          simp [relabel, find?, hname, htarget, hrest]
        · simp [relabel, find?, hname, htarget, hother, hrest]

theorem get?_rename? (hrenamed : entries.rename? source target change = some renamed)
    (other : String) :
    renamed.get? other =
      if target = other then (entries.get? source).map change
      else if source = other then none
      else entries.get? other := by
  rw [rename?] at hrenamed
  split at hrenamed
  · cases hrenamed
  · next hfree =>
    cases hrenamed
    exact find?_relabel other hfree

end Renaming

/-! ## Entries under other keys -/

def outside (chosen : String → Bool) (entries : Keyed α) : List (String × α) :=
  entries.toList.filter fun entry => !chosen entry.1

section Outside

variable {chosen : String → Bool} {key : String}

theorem filter_put (hkey : chosen key = true) (value : α) (entries : List (String × α)) :
    (put key value entries).filter (fun entry => !chosen entry.1) =
      entries.filter fun entry => !chosen entry.1 := by
  induction entries with
  | nil => simp [put, hkey]
  | cons entry rest ih =>
    obtain ⟨name, old⟩ := entry
    by_cases hname : name = key
    · simp [put, hname, hkey]
    · simp only [put, if_neg hname, List.filter_cons, ih]

theorem outside_insert (hkey : chosen key = true) (entries : Keyed α) (value : α) :
    (entries.insert key value).outside chosen = entries.outside chosen :=
  filter_put hkey value entries.entries

theorem outside_erase (hkey : chosen key = true) (entries : Keyed α) :
    (entries.erase key).outside chosen = entries.outside chosen := by
  change (entries.entries.filter fun entry => entry.1 ≠ key).filter (fun entry => !chosen entry.1) =
    entries.entries.filter fun entry => !chosen entry.1
  rw [List.filter_filter]
  refine List.filter_congr fun entry _ => ?_
  by_cases hentry : entry.1 = key
  · simp [hentry, hkey]
  · simp [hentry]

/-- Giving a chosen entry another chosen key leaves what is not chosen as it was, in order. -/
theorem outside_rename? {source target : String} {change : α → α} {entries renamed : Keyed α}
    (hsource : chosen source = true) (htarget : chosen target = true)
    (hrenamed : entries.rename? source target change = some renamed) :
    renamed.outside chosen = entries.outside chosen := by
  rw [rename?] at hrenamed
  split at hrenamed
  · cases hrenamed
  · cases hrenamed
    change (relabel source target change entries.entries).filter (fun entry => !chosen entry.1) =
      entries.entries.filter fun entry => !chosen entry.1
    induction entries.entries with
    | nil => rfl
    | cons entry rest ih =>
      rw [relabel, List.map_cons, ← relabel, List.filter_cons, List.filter_cons, ih]
      by_cases hentry : entry.1 = source
      · simp [hentry, hsource, htarget]
      · simp [hentry]

/-- Leaving out what is chosen keeps every other entry where it is found. -/
theorem find?_filter_of_false (hkey : chosen key = false) (entries : List (String × α)) :
    find? key (entries.filter fun entry => !chosen entry.1) = find? key entries := by
  induction entries with
  | nil => rfl
  | cons entry rest ih =>
    obtain ⟨name, value⟩ := entry
    by_cases hname : name = key
    · simp [find?, hname, hkey]
    · cases hchosen : chosen name with
      | true => simp [find?, hname, hchosen, ih]
      | false => simp [find?, hname, hchosen, ih]

/-- The entries under other keys tell what stands under them. -/
theorem get?_of_outside {left right : Keyed α}
    (hsame : left.outside chosen = right.outside chosen) (hkey : chosen key = false) :
    left.get? key = right.get? key := by
  calc
    left.get? key = find? key (left.outside chosen) := (find?_filter_of_false hkey _).symm
    _ = find? key (right.outside chosen) := by rw [hsame]
    _ = right.get? key := find?_filter_of_false hkey _

end Outside

end SchemaEvolution.Keyed
