import Mathlib.Data.List.Basic
import Mathlib.Data.List.Nodup

/-!
# Lists around one of their items

Where an item stands in a list is said by what is in front of it and what is behind it.
-/

namespace SchemaEvolution

variable {α β : Type} {left right front back : List α} {item : α}

theorem exists_of_not_mem_left (heq : left ++ right = front ++ item :: back)
    (hleft : item ∉ left) : ∃ middle, front = left ++ middle ∧ right = middle ++ item :: back := by
  rcases List.append_eq_append_iff.1 heq with ⟨middle, hfront, hright⟩ | ⟨rest, hfront, hback⟩
  · exact ⟨middle, hfront, hright⟩
  · cases rest with
    | nil => exact ⟨[], by simpa using hfront.symm, hback.symm⟩
    | cons first rest =>
      cases hback
      exact absurd (hfront ▸ List.mem_append_right _ List.mem_cons_self) hleft

theorem exists_of_not_mem_right (heq : left ++ right = front ++ item :: back)
    (hright : item ∉ right) : ∃ rest, left = front ++ item :: rest := by
  rcases List.append_eq_append_iff.1 heq with ⟨middle, -, hitem⟩ | ⟨rest, hfront, hback⟩
  · exact absurd (hitem ▸ List.mem_append_right _ List.mem_cons_self) hright
  · cases rest with
    | nil => exact absurd ((show right = item :: back from hback.symm) ▸ List.mem_cons_self) hright
    | cons first rest =>
      cases hback
      exact ⟨rest, hfront⟩

/-- An item among the parts of some others lies in the part of one of them. -/
theorem exists_of_flatMap_split {items : List β} {part : β → List α}
    (heq : items.flatMap part = front ++ item :: back) :
    ∃ earlier owner later inner rest, items = earlier ++ owner :: later ∧
      part owner = inner ++ item :: rest ∧ front = earlier.flatMap part ++ inner := by
  induction items generalizing front with
  | nil => simp at heq
  | cons first more ih =>
    rw [List.flatMap_cons] at heq
    rcases List.append_eq_append_iff.1 heq with ⟨middle, rfl, hmore⟩ | ⟨rest, hfirst, hrest⟩
    · obtain ⟨earlier, owner, later, inner, rest, rfl, hpart, rfl⟩ := ih hmore
      exact ⟨first :: earlier, owner, later, inner, rest, rfl, hpart, by simp⟩
    · cases rest with
      | nil =>
        have hmore : more.flatMap part = [] ++ item :: back := hrest.symm
        obtain ⟨earlier, owner, later, inner, rest, rfl, hpart, hnone⟩ := ih hmore
        refine ⟨first :: earlier, owner, later, inner, rest, rfl, hpart, ?_⟩
        rw [List.flatMap_cons, List.append_assoc, ← hnone, hfirst, List.append_nil, List.append_nil]
      | cons found rest =>
        cases hrest
        exact ⟨[], first, more, front, rest, rfl, hfirst, rfl⟩

/-- Of distinct items those in front of one of them come first in order. -/
theorem mem_front_iff {items : List α} {first second : α} (hitems : items.Nodup)
    (hsplit : items = front ++ second :: back) :
    first ∈ front ↔ [first, second].Sublist items := by
  constructor
  · intro hfirst
    rw [hsplit]
    exact (List.singleton_sublist.2 hfirst).append (List.singleton_sublist.2 List.mem_cons_self)
  · intro horder
    obtain ⟨before, after, rfl, hfirst, hsecond⟩ :=
      List.append_sublist_iff.1 (show ([first] ++ [second]).Sublist items from horder)
    have hother : second ∉ before := fun hmem =>
      (List.nodup_append.1 hitems).2.2 _ hmem _ (List.singleton_sublist.1 hsecond) rfl
    obtain ⟨middle, rfl, -⟩ := exists_of_not_mem_left hsplit hother
    exact List.mem_append_left _ (List.singleton_sublist.1 hfirst)

/-- Where only one of distinct items has a part, there is nothing but that part. -/
theorem flatMap_eq_of_only {items : List α} (hitems : items.Nodup) (hitem : item ∈ items)
    {part : α → List β} (honly : ∀ other ∈ items, other ≠ item → part other = []) :
    items.flatMap part = part item := by
  obtain ⟨front, back, rfl⟩ := List.append_of_mem hitem
  obtain ⟨-, hback, hapart⟩ := List.nodup_append.1 hitems
  have hfront : front.flatMap part = [] := by
    refine List.flatMap_eq_nil_iff.2 fun other hother => ?_
    exact honly other (List.mem_append_left _ hother) (hapart other hother item List.mem_cons_self)
  have hrest : back.flatMap part = [] := by
    refine List.flatMap_eq_nil_iff.2 fun other hother => ?_
    refine honly other (List.mem_append_right _ (List.mem_cons_of_mem _ hother)) ?_
    rintro rfl
    exact (List.nodup_cons.1 hback).1 hother
  rw [List.flatMap_append, List.flatMap_cons, hfront, hrest, List.nil_append, List.append_nil]

end SchemaEvolution
