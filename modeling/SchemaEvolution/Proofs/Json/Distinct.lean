import SchemaEvolution.Json.Value
import SchemaEvolution.Proofs.Keyed.Lookup

/-!
# Values with every name once

In a value that was read every object has each of its names once: the last value of a repeated
name stands where the name first stood.  A value that has no repeated names stays as it is.
-/

namespace SchemaEvolution.Json

/-- Every object has each of its names once. -/
inductive NamesOnce : Json → Prop where
  | null : NamesOnce .null
  | bool (value : Bool) : NamesOnce (.bool value)
  | number (value : Number) : NamesOnce (.number value)
  | string (value : String) : NamesOnce (.string value)
  | array {items : List Json} (hitems : ∀ item ∈ items, NamesOnce item) : NamesOnce (.array items)
  | object {members : List (String × Json)} (hnames : (members.map Prod.fst).Nodup)
    (hmembers : ∀ member ∈ members, NamesOnce member.2) : NamesOnce (.object members)

theorem distinctItems_eq_map (items : List Json) : distinctItems items = items.map distinct := by
  induction items with
  | nil => rfl
  | cons item rest ih => rw [distinctItems, ih, List.map_cons]

/-- What is stored is the new entry or one that was there. -/
theorem mem_put {α : Type} {name : String} {value : α} {entry : String × α}
    {entries : List (String × α)} (hmem : entry ∈ Keyed.put name value entries) :
    entry = (name, value) ∨ entry ∈ entries := by
  induction entries with
  | nil => exact .inl (List.mem_singleton.1 hmem)
  | cons first rest ih =>
    rw [Keyed.put] at hmem
    split at hmem
    · exact (List.mem_cons.1 hmem).imp_right (List.mem_cons_of_mem _)
    · rcases List.mem_cons.1 hmem with rfl | hmem
      · exact .inr List.mem_cons_self
      · exact (ih hmem).imp_right (List.mem_cons_of_mem _)

mutual

theorem namesOnce_distinct : (value : Json) → value.distinct.NamesOnce
  | .null => .null
  | .bool value => .bool value
  | .number value => .number value
  | .string value => .string value
  | .array items => .array (namesOnce_distinctItems items)
  | .object members =>
    have hmembers := @namesOnce_distinctMembers members [] List.nodup_nil nofun
    .object hmembers.1 hmembers.2

theorem namesOnce_distinctItems : (items : List Json) → ∀ item ∈ distinctItems items, item.NamesOnce
  | [] => nofun
  | item :: rest => List.forall_mem_cons.2 ⟨namesOnce_distinct item, namesOnce_distinctItems rest⟩

theorem namesOnce_distinctMembers : (members : List (String × Json)) →
    {done : List (String × Json)} → (done.map Prod.fst).Nodup →
    (∀ member ∈ done, member.2.NamesOnce) →
    ((distinctMembers done members).map Prod.fst).Nodup ∧
      ∀ member ∈ distinctMembers done members, member.2.NamesOnce
  | [], _, hnames, hdone => ⟨hnames, hdone⟩
  | (name, value) :: rest, _, hnames, hdone =>
    namesOnce_distinctMembers rest (Keyed.nodup_put name value.distinct hnames)
      fun member hmem => (mem_put hmem).elim (fun heq => heq ▸ namesOnce_distinct value)
        (hdone member)

end

/-- New names are appended. -/
theorem distinctMembers_of_nodup {done members : List (String × Json)}
    (hnames : ((done ++ members).map Prod.fst).Nodup) :
    distinctMembers done members =
      done ++ members.map fun member => (member.1, member.2.distinct) := by
  induction members generalizing done with
  | nil => rw [distinctMembers, List.map_nil, List.append_nil]
  | cons member rest ih =>
    obtain ⟨name, value⟩ := member
    have hnew : name ∉ done.map Prod.fst := by
      rw [List.map_append, List.map_cons] at hnames
      exact fun hmem => (List.nodup_append.1 hnames).2.2 name hmem name List.mem_cons_self rfl
    rw [distinctMembers, Keyed.put_of_not_mem hnew, ih]
    · rw [List.map_cons, List.append_assoc, List.singleton_append]
    · simpa using hnames

/-- Where no object repeats a name there is nothing to leave out. -/
theorem distinct_eq_self {value : Json} (honce : value.NamesOnce) : value.distinct = value := by
  induction honce with
  | null | bool | number | string => rfl
  | array _ ih =>
    rw [distinct, distinctItems_eq_map, List.map_congr_left ih, List.map_id']
  | object hnames _ ih =>
    rw [distinct, @distinctMembers_of_nodup [] _ hnames, List.nil_append]
    refine congrArg Json.object ((List.map_congr_left fun member hmem => ?_).trans (List.map_id _))
    rw [ih member hmem]
    rfl

/-! ## What is found under a name -/

def occurrences (name : String) (members : List (String × Json)) : List Json :=
  (members.filter fun member => member.1 = name).map Prod.snd

def others (name : String) (members : List (String × Json)) : List (String × Json) :=
  members.filter fun member => member.1 ≠ name

theorem occurrences_cons (name key : String) (value : Json) (members : List (String × Json)) :
    occurrences name ((key, value) :: members) =
      if key = name then value :: occurrences name members else occurrences name members := by
  by_cases hname : key = name <;> simp [occurrences, hname]

theorem others_cons (name key : String) (value : Json) (members : List (String × Json)) :
    others name ((key, value) :: members) =
      if key = name then others name members else (key, value) :: others name members := by
  by_cases hname : key = name <;> simp [others, hname]

/-- Leaving out one name keeps the occurrences of another. -/
theorem occurrences_others {name other : String} (hne : other ≠ name)
    (members : List (String × Json)) :
    occurrences name (others other members) = occurrences name members := by
  induction members with
  | nil => rfl
  | cons member rest ih =>
    obtain ⟨key, value⟩ := member
    rw [others_cons, occurrences_cons]
    split
    · next hkey => rw [ih, if_neg (hkey ▸ hne)]
    · rw [occurrences_cons, ih]

/-- Of several members with one name the last one is found, made distinct. -/
theorem find?_distinctMembers (name : String) (done members : List (String × Json)) :
    Keyed.find? name (distinctMembers done members) =
      ((occurrences name members).getLast?.map distinct).or (Keyed.find? name done) := by
  induction members generalizing done with
  | nil => rfl
  | cons member rest ih =>
    obtain ⟨other, value⟩ := member
    rw [distinctMembers, ih, Keyed.find?_put]
    by_cases hname : other = name
    · rw [occurrences_cons, if_pos hname, if_pos hname, List.getLast?_cons]
      cases (occurrences name rest).getLast? <;> rfl
    · rw [occurrences_cons, if_neg hname, if_neg hname]

/-- A name that is there once occurs as it is found. -/
theorem occurrences_of_nodup {name : String} {members : List (String × Json)}
    (hnames : (members.map Prod.fst).Nodup) :
    occurrences name members = (Keyed.find? name members).toList := by
  induction members with
  | nil => rfl
  | cons member rest ih =>
    obtain ⟨other, value⟩ := member
    rw [List.map_cons, List.nodup_cons] at hnames
    by_cases hname : other = name
    · subst hname
      have hnone : Keyed.find? other rest = none := Keyed.find?_eq_none_iff.2 hnames.1
      have hrest := ih hnames.2
      rw [hnone] at hrest
      simpa [occurrences, Keyed.find?] using hrest
    · simpa [occurrences, Keyed.find?, hname] using ih hnames.2

/-- Of the values of a name the last one is kept. -/
theorem occurrences_distinctMembers (name : String) (members : List (String × Json)) :
    occurrences name (distinctMembers [] members) =
      ((occurrences name members).getLast?.map distinct).toList := by
  have hnames := (@namesOnce_distinctMembers members [] List.nodup_nil nofun).1
  rw [occurrences_of_nodup hnames, find?_distinctMembers]
  cases (occurrences name members).getLast? <;> rfl

/-- Storing under another name leaves the other members alone. -/
theorem others_put (name other : String) (value : Json) (members : List (String × Json)) :
    others name (Keyed.put other value members) =
      if other = name then others name members
      else Keyed.put other value (others name members) := by
  induction members with
  | nil => by_cases hname : other = name <;> simp [others, Keyed.put, hname]
  | cons member rest ih =>
    obtain ⟨key, old⟩ := member
    by_cases hkey : key = other
    · subst hkey
      by_cases hname : key = name <;> simp [others, Keyed.put, hname]
    · simp only [others, Keyed.put, hkey, if_false] at ih ⊢
      by_cases hname : key = name
      · simpa [hname] using ih
      · by_cases hother : other = name <;> simp_all [Keyed.put]

/-- The members with other names do not depend on those with the name. -/
theorem others_distinctMembers (name : String) (done members : List (String × Json)) :
    others name (distinctMembers done members) =
      distinctMembers (others name done) (others name members) := by
  induction members generalizing done with
  | nil => rfl
  | cons member rest ih =>
    obtain ⟨other, value⟩ := member
    rw [distinctMembers, ih, others_put]
    by_cases hname : other = name
    · simp [others, hname]
    · simp only [others, hname, if_false] at ih ⊢
      simp [hname, distinctMembers]

end SchemaEvolution.Json
