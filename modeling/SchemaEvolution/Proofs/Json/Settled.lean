import SchemaEvolution.Proofs.Json.Agreement
import SchemaEvolution.Proofs.Json.Distinct

/-!
# Decoding without repeated names

A document that is decoded as it was written is decoded to the same value when only the last
value of each repeated name is left.  A field that is read may not be repeated at all; in a
keyed collection the last value stands anyway, at the place of the first.
-/

namespace SchemaEvolution.Json

variable {α β γ σ : Type} {origin : Origin}

/-- What a document gives, it still gives when repeated names are settled. -/
def Settles (view : Json → Except Fault α) : Prop :=
  ∀ document value, view document = .ok value → view document.distinct = .ok value

mutual

def Shape.Steady : {α : Type} → Shape α → Prop
  | _, .whole view => Settles view
  | _, .optional shape => shape.Steady
  | _, .list shape => shape.Steady
  | _, .keyed shape => shape.Steady
  | _, .record _ fields _ => fields.Steady
  | _, .tagged _ _ variants => ∀ variant ∈ variants, Settles variant.2
  | _, .text | _, .flag | _, .word | _, .choice _ => True

def Fields.Steady : {α σ : Type} → Fields α σ → Prop
  | _, _, .nil => True
  | _, _, .cons _ shape _ rest => shape.Steady ∧ rest.Steady

end

/-- A word among variants is decoded from what settles as a word. -/
theorem settles_choiceOf (variants : List (String × α)) :
    Settles (choiceOf origin variants) := by
  intro document value hdecode
  unfold choiceOf at hdecode
  split at hdecode
  · exact hdecode
  · next name payload =>
    obtain ⟨found, hfound, hpayload⟩ := exists_of_bind_eq_ok hdecode
    simp only [distinct, distinctMembers, Keyed.put, choiceOf, hfound]
    split at hpayload
    · exact hpayload
    · exact hpayload
    · cases hpayload
  · cases hdecode
  · cases hdecode

/-- Items that are made distinct are decoded to the same values. -/
theorem mapM_distinct {decode : Json → Except Fault α} (hsettles : Settles decode)
    {items : List Json} {values : List α} (hmap : items.mapM decode = .ok values) :
    (items.map distinct).mapM decode = .ok values := by
  induction items generalizing values with
  | nil => exact hmap
  | cons item rest ih =>
    rw [List.mapM_cons] at hmap
    obtain ⟨value, hitem, hmap⟩ := exists_of_bind_eq_ok hmap
    obtain ⟨others, hrest, hmap⟩ := exists_of_bind_eq_ok hmap
    rw [List.map_cons, List.mapM_cons, hsettles _ _ hitem]
    simp only [ih hrest]
    exact hmap

def DecodedFrom (decode : Json → Except Fault α) (entry : String × α) (member : String × Json) :
    Prop :=
  member.1 = entry.1 ∧ decode member.2 = .ok entry.2

/-- Storing under the same name keeps entries and members in step. -/
theorem forall₂_put {decode : Json → Except Fault α} {name : String} {value : α}
    {document : Json} {entries : List (String × α)} {members : List (String × Json)}
    (hpairs : List.Forall₂ (DecodedFrom decode) entries members)
    (hvalue : decode document = .ok value) :
    List.Forall₂ (DecodedFrom decode) (Keyed.put name value entries)
      (Keyed.put name document members) := by
  induction hpairs with
  | nil => exact .cons ⟨rfl, hvalue⟩ .nil
  | @cons entry member entries members hpair hrest ih =>
    obtain ⟨key, _⟩ := entry
    obtain ⟨key', _⟩ := member
    obtain rfl : key' = key := hpair.1
    simp only [Keyed.put]
    split
    · exact .cons ⟨rfl, hvalue⟩ hrest
    · exact .cons hpair ih

/-- Of the members of a keyed collection those are left that its entries come from. -/
theorem forall₂_of_foldlM_insert {decode : Json → Except Fault α} (hsettles : Settles decode)
    {members settled : List (String × Json)} {done result : Keyed α}
    (hdone : List.Forall₂ (DecodedFrom decode) done.toList settled)
    (hfold : members.foldlM (fun (done : Keyed α) member => do
      return done.insert member.1 (← decode member.2)) done = Except.ok result) :
    List.Forall₂ (DecodedFrom decode) result.toList (distinctMembers settled members) := by
  induction members generalizing done settled with
  | nil =>
    cases hfold
    exact hdone
  | cons member rest ih =>
    rw [List.foldlM_cons] at hfold
    obtain ⟨next, hmember, hfold⟩ := exists_of_bind_eq_ok hfold
    obtain ⟨value, hdecode, hnext⟩ := exists_of_bind_eq_ok hmember
    cases hnext
    refine ih ?_ hfold
    exact forall₂_put hdone (hsettles _ _ hdecode)

/-- Puts a value of a name into the field of that name. -/
def fieldStep (origin : Origin) (name : String) (shape : Shape β) (found : Option β)
    (document : Json) : Except Fault (Option β) :=
  match found with
  | some _ => .error (.duplicateField name)
  | none => (shape.decode origin document).map some

/-- A field takes the values of its name; the other fields take the other members. -/
theorem Fields.foldlM_decodeMember_iff {name : String} {shape : Shape β} {absent : Option β}
    {rest : Fields γ σ} {found result : Option β} {blank filled : σ}
    {members : List (String × Json)} :
    members.foldlM (fun done member =>
        (Fields.cons name shape absent rest).decodeMember origin done member.1 member.2)
      (found, blank) = .ok (result, filled) ↔
      (occurrences name members).foldlM (fieldStep origin name shape) found = .ok result ∧
        (others name members).foldlM
          (fun done member => rest.decodeMember origin done member.1 member.2) blank =
            .ok filled := by
  induction members generalizing found blank with
  | nil =>
    constructor
    · intro hfold
      cases hfold
      exact ⟨rfl, rfl⟩
    · rintro ⟨hfound, hblank⟩
      cases hfound
      cases hblank
      rfl
  | cons member more ih =>
    obtain ⟨key, value⟩ := member
    by_cases hname : key = name
    · rw [occurrences_cons, others_cons, if_pos hname, if_pos hname, List.foldlM_cons,
        List.foldlM_cons]
      simp only [decodeMember, hname, if_true, fieldStep]
      cases found with
      | some _ => exact iff_of_false (by rintro ⟨⟩) (by rintro ⟨⟨⟩, -⟩)
      | none =>
        cases shape.decode origin value with
        | error fault => exact iff_of_false (by rintro ⟨⟩) (by rintro ⟨⟨⟩, -⟩)
        | ok value => exact ih
    · rw [occurrences_cons, others_cons, if_neg hname, if_neg hname, List.foldlM_cons,
        List.foldlM_cons]
      simp only [decodeMember, hname, if_false]
      cases rest.decodeMember origin blank key value with
      | error fault => exact iff_of_false (by rintro ⟨⟩) (by rintro ⟨-, ⟨⟩⟩)
      | ok blank => exact ih

/-- A field that is found has one value, which is also the last one. -/
theorem foldlM_fieldStep_last {name : String} {shape : Shape β}
    (hsettles : Settles (shape.decode origin)) {values : List Json} {result : Option β}
    (hfold : values.foldlM (fieldStep origin name shape) none = .ok result) :
    (values.getLast?.map distinct).toList.foldlM (fieldStep origin name shape) none =
      .ok result := by
  match values with
  | [] => exact hfold
  | [value] =>
    rw [List.foldlM_cons] at hfold
    obtain ⟨found, hvalue, hfold⟩ := exists_of_bind_eq_ok hfold
    obtain ⟨value, hdecode, rfl⟩ := exists_of_map_eq_ok hvalue
    cases hfold
    simp only [List.getLast?_singleton, Option.map_some, Option.toList_some, List.foldlM_cons,
      fieldStep, hsettles _ _ hdecode]
    rfl
  | first :: second :: more =>
    rw [List.foldlM_cons] at hfold
    obtain ⟨found, hvalue, hfold⟩ := exists_of_bind_eq_ok hfold
    obtain ⟨value, hdecode, rfl⟩ := exists_of_map_eq_ok hvalue
    cases hfold

/-- Once the variant is known, the tag must not come again. -/
theorem splitTag_some_iff {tag : String} {variants : List (String × α)} {found view : α}
    {done result members : List (String × Json)} :
    splitTag tag variants (some found) done members = .ok (view, result) ↔
      occurrences tag members = [] ∧ view = found ∧
        result = done.reverse ++ others tag members := by
  induction members generalizing done with
  | nil =>
    simp only [splitTag, Except.ok.injEq, Prod.mk.injEq, others, occurrences, List.filter_nil,
      List.map_nil, List.append_nil, true_and, eq_comm]
  | cons member more ih =>
    obtain ⟨name, value⟩ := member
    rw [splitTag, occurrences_cons, others_cons]
    split
    · exact iff_of_false (by rintro ⟨⟩) (by rintro ⟨⟨⟩, -⟩)
    · rw [ih, List.reverse_cons, List.append_assoc, List.singleton_append]

/-- The tag stands once among the members. -/
theorem splitTag_none_iff {tag : String} {variants : List (String × α)} {view : α}
    {done result members : List (String × Json)} :
    splitTag tag variants none done members = .ok (view, result) ↔
      ∃ value, occurrences tag members = [value] ∧ tagOf variants value = .ok view ∧
        result = done.reverse ++ others tag members := by
  induction members generalizing done with
  | nil => exact iff_of_false (by rintro ⟨⟩) (by rintro ⟨_, ⟨⟩, -⟩)
  | cons member more ih =>
    obtain ⟨name, value⟩ := member
    rw [splitTag, occurrences_cons, others_cons]
    split
    · constructor
      · intro hsplit
        obtain ⟨found, htag, hsplit⟩ := exists_of_bind_eq_ok hsplit
        obtain ⟨hnone, rfl, hresult⟩ := splitTag_some_iff.1 hsplit
        exact ⟨value, by rw [hnone], htag, hresult⟩
      · rintro ⟨first, hfirst, htag, hresult⟩
        obtain ⟨rfl, hnone⟩ := List.cons.inj hfirst
        rw [htag]
        exact splitTag_some_iff.2 ⟨hnone, rfl, hresult⟩
    · rw [ih, List.reverse_cons, List.append_assoc, List.singleton_append]

theorem settles_tagOf (variants : List (String × α)) : Settles (tagOf variants) := by
  intro document value htag
  cases document with
  | string name => exact htag
  | _ => cases htag

/-- A variant that is found is one of those given. -/
theorem mem_of_tagOf {variants : List (String × α)} {document : Json} {view : α}
    (htag : tagOf variants document = .ok view) : ∃ name, (name, view) ∈ variants := by
  cases document with
  | string name =>
    refine ⟨name, Keyed.mem_of_find?_eq_some ?_⟩
    simp only [tagOf, variantOf] at htag
    split at htag
    · next found hfound =>
      cases htag
      exact hfound
    · cases htag
  | _ => cases htag

mutual

/-- A document that is decoded is decoded to the same value without its repeated names. -/
theorem Shape.settles_decode : {α : Type} → (shape : Shape α) → shape.Steady →
    Settles (shape.decode origin)
  | _, .text, _, document, value, hdecode => by
    cases document with
    | string text => exact hdecode
    | _ => cases hdecode
  | _, .flag, _, document, value, hdecode => by
    cases document with
    | bool flag => exact hdecode
    | _ => cases hdecode
  | _, .word, _, document, value, hdecode => by
    cases document with
    | number number => exact hdecode
    | _ => cases hdecode
  | _, .whole view, hsteady, document, value, hdecode => hsteady _ _ hdecode
  | _, .choice variants, _, document, value, hdecode => settles_choiceOf variants _ _ hdecode
  | _, .optional shape, hsteady, document, value, hdecode => by
    cases document with
    | null => exact hdecode
    | _ =>
      obtain ⟨value, hvalue, rfl⟩ := exists_of_map_eq_ok hdecode
      exact congrArg (Except.map some) (shape.settles_decode hsteady _ _ hvalue)
  | _, .list shape, hsteady, document, value, hdecode => by
    cases document with
    | array items =>
      rw [distinct, distinctItems_eq_map]
      exact mapM_distinct (shape.settles_decode hsteady) hdecode
    | _ => cases hdecode
  | _, .keyed shape, hsteady, document, value, hdecode => by
    cases document with
    | object members =>
      exact foldlM_insert_of_forall₂ origin
        (forall₂_of_foldlM_insert (shape.settles_decode hsteady) .nil hdecode)
    | _ => cases hdecode
  | _, .record name fields make, hsteady, document, value, hdecode => by
    cases document with
    | array items =>
      obtain ⟨⟨values, taken⟩, hitems, hvalue⟩ := exists_of_bind_eq_ok hdecode
      rw [distinct, distinctItems_eq_map, Shape.decode,
        fields.decodeItems_distinct hsteady hitems, List.length_map]
      exact hvalue
    | object members =>
      obtain ⟨found, hmembers, hvalue⟩ := exists_of_bind_eq_ok hdecode
      rw [distinct, Shape.decode, fields.decodeMembers_distinct hsteady hmembers]
      exact hvalue
    | _ => cases hdecode
  | _, .tagged name tag variants, hsteady, document, value, hdecode => by
    cases document with
    | array items =>
      cases items with
      | nil => cases hdecode
      | cons first rest =>
        obtain ⟨view, htag, hview⟩ := exists_of_bind_eq_ok hdecode
        obtain ⟨name, hmem⟩ := mem_of_tagOf htag
        rw [distinct, distinctItems, Shape.decode, settles_tagOf variants _ _ htag]
        exact hsteady _ hmem _ _ hview
    | object members =>
      obtain ⟨⟨view, result⟩, hsplit, hview⟩ := exists_of_bind_eq_ok hdecode
      obtain ⟨first, hfirst, htag, rfl⟩ := splitTag_none_iff.1 hsplit
      obtain ⟨name, hmem⟩ := mem_of_tagOf htag
      have hdistinct : splitTag tag variants none [] (distinctMembers [] members) =
          .ok (view, distinctMembers [] (others tag members)) := by
        refine splitTag_none_iff.2 ⟨first.distinct, ?_, settles_tagOf variants _ _ htag, ?_⟩
        · rw [occurrences_distinctMembers, hfirst]
          rfl
        · rw [others_distinctMembers]
          rfl
      rw [distinct, Shape.decode, hdistinct]
      exact hsteady _ hmem _ _ hview
    | _ => cases hdecode

theorem Fields.decodeItems_distinct : {α σ : Type} → (fields : Fields α σ) → fields.Steady →
    {record : String} → {count index taken : Nat} → {items : List Json} → {values : α} →
    fields.decodeItems origin record count index items = .ok (values, taken) →
    fields.decodeItems origin record count index (items.map distinct) = .ok (values, taken)
  | _, _, .nil, _, _, _, _, _, _, _, hdecode => hdecode
  | _, _, .cons name shape absent rest, hsteady, record, count, index, taken, items, values,
      hdecode => by
    cases items with
    | nil => exact hdecode
    | cons item items =>
      obtain ⟨value, hitem, hdecode⟩ := exists_of_bind_eq_ok hdecode
      obtain ⟨⟨others, taken'⟩, hrest, hdecode⟩ := exists_of_bind_eq_ok hdecode
      rw [List.map_cons]
      simp only [Fields.decodeItems, shape.settles_decode hsteady.1 _ _ hitem,
        rest.decodeItems_distinct hsteady.2 hrest]
      exact hdecode

theorem Fields.decodeMembers_distinct : {α σ : Type} → (fields : Fields α σ) → fields.Steady →
    {members : List (String × Json)} → {found : σ} →
    members.foldlM (fun done member => fields.decodeMember origin done member.1 member.2)
      fields.unfilled = .ok found →
    (distinctMembers [] members).foldlM
      (fun done member => fields.decodeMember origin done member.1 member.2) fields.unfilled =
        .ok found
  | _, _, .nil, _, members, found, _ => List.foldlM_pure
  | _, _, .cons name shape absent rest, hsteady, members, found, hfold => by
    obtain ⟨first, filled⟩ := found
    obtain ⟨hfirst, hothers⟩ := Fields.foldlM_decodeMember_iff.1 hfold
    refine Fields.foldlM_decodeMember_iff.2 ⟨?_, ?_⟩
    · rw [occurrences_distinctMembers]
      exact foldlM_fieldStep_last (shape.settles_decode hsteady.1) hfirst
    · rw [others_distinctMembers]
      exact rest.decodeMembers_distinct hsteady.2 hothers

end

/-! ## Whole texts -/

theorem exists_of_readText {reader : Cursor → Except ReadFault (α × Cursor)} {text : String}
    {value : α} (hread : readText reader text = .ok value) :
    ∃ c, reader (.start text) = .ok (value, c) := by
  obtain ⟨⟨found, c⟩, hfound, hread⟩ := exists_of_bind_eq_ok hread
  dsimp only at hread
  split at hread
  · cases hread
    exact ⟨c, hfound⟩
  · cases hread

/-- A text that is read directly as a value of a shape has a parsed form that is decoded to it. -/
theorem Shape.decode_of_parse {shape : Shape α} (hsteady : shape.Steady) {text : String}
    {value : α} {document : Json} (hread : shape.parse text = .ok value)
    (hparse : Json.parse text = .ok document) : shape.decode .document document = .ok value := by
  obtain ⟨raw, hraw, rfl⟩ := exists_of_map_eq_ok hparse
  obtain ⟨stop, hread⟩ := exists_of_readText hread
  obtain ⟨after, hraw⟩ := exists_of_readText hraw
  exact shape.settles_decode hsteady _ _ (shape.agrees hread hraw).2

end SchemaEvolution.Json
