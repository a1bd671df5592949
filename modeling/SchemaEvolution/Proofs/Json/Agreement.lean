import SchemaEvolution.Proofs.Json.Skipping
import SchemaEvolution.Proofs.Json.Spelling

/-!
# Reading a shape and decoding what was read

A text that is read directly as a value of a shape, and can be read as any value at all, is read
up to the same place, and the value that was read is decoded to the value of the shape.  So it
makes no difference whether a document is taken from its text or from its parsed form, repeated
names included.
-/

namespace SchemaEvolution.Json

variable {α β σ : Type} {c start after stop : Cursor} {depth : Nat} {document : Json}

theorem readAny_of_word (value : Json) {letters rest : List Char} {first : Char}
    (hrest : c.skipGap.rest = first :: rest)
    (hword : readIdent letters c.skipGap.advance = .ok stop)
    (hkind : (first, letters, value) ∈ [('n', ['u', 'l', 'l'], Json.null),
      ('t', ['r', 'u', 'e'], .bool true), ('f', ['a', 'l', 's', 'e'], .bool false)])
    (hany : readAny (depth + 1) c = .ok (document, after)) : stop = after ∧ document = value := by
  simp only [List.mem_cons, Prod.mk.injEq, List.not_mem_nil, or_false] at hkind
  rcases hkind with ⟨rfl, rfl, rfl⟩ | ⟨rfl, rfl, rfl⟩ | ⟨rfl, rfl, rfl⟩ <;>
    simp only [readAny, hrest, hword] at hany <;> cases hany <;> exact ⟨rfl, rfl⟩

theorem readAny_of_quote {rest : List Char} {text : String}
    (hrest : c.skipGap.rest = '"' :: rest)
    (hread : readString c.skipGap.advance = .ok (text, after)) :
    readAny (depth + 1) c = .ok (.string text, after) := by
  simp only [readAny, hrest, hread]
  rfl

theorem ok_of_placedAt {outcome : Except Fault α} {value : α}
    (hplaced : placedAt c outcome = .ok (value, stop)) : outcome = .ok value ∧ stop = c := by
  cases outcome with
  | error fault => cases hplaced
  | ok found =>
    cases hplaced
    exact ⟨rfl, rfl⟩

theorem ok_of_atCursor {outcome : Except Fault α} {value : α}
    (hplaced : atCursor c outcome = .ok (value, stop)) : outcome = .ok value ∧ stop = c := by
  cases outcome with
  | error fault => cases hplaced
  | ok found =>
    cases hplaced
    exact ⟨rfl, rfl⟩

/-- What is read as a word is a string. -/
theorem string_of_readWord {wanted : String} {view : String → Except Fault α} {value : α}
    (hread : readWord wanted view c = .ok (value, stop))
    (hany : readAny depth c = .ok (document, after)) :
    stop = after ∧ ∃ text, document = .string text ∧ view text = .ok value := by
  cases depth with
  | zero => cases hany
  | succ depth =>
    simp only [readWord] at hread
    split at hread
    · cases hread
    · next rest hrest =>
      obtain ⟨⟨text, place⟩, hstring, hread⟩ := exists_of_bind_eq_ok hread
      obtain ⟨hview, rfl⟩ := ok_of_placedAt hread
      rw [readAny_of_quote hrest hstring] at hany
      cases hany
      exact ⟨rfl, text, rfl, hview⟩
    · cases hread

/-- A value that opens with a bracket is the array of the items that are read up to the closing one.
-/
theorem items_of_readAny {rest : List Char} (hrest : c.skipGap.rest = '[' :: rest)
    (hany : readAny (depth + 1) c = .ok (document, after)) :
    ∃ items last, document = .array items ∧
      Items (readAny depth) true c.skipGap.advance items last ∧ closeList last = (none, after) := by
  cases value_of_readAny hany with
  | array _ hitems hclose => exact ⟨_, _, rfl, hitems, hclose⟩
  | number hother hfirst =>
    rw [hrest] at hother
    cases hother
    cases hfirst
  | _ hother =>
    rw [hrest] at hother
    cases hother

/-- A value that opens with a brace is the object of the members that are read up to the closing
one. -/
theorem members_of_readAny {rest : List Char} (hrest : c.skipGap.rest = '\x7b' :: rest)
    (hany : readAny (depth + 1) c = .ok (document, after)) :
    ∃ members last, document = .object members ∧
      Members (readAny depth) true c.skipGap.advance members last ∧
        closeObject last = (none, after) := by
  cases value_of_readAny hany with
  | object _ hmembers hclose => exact ⟨_, _, rfl, hmembers, hclose⟩
  | number hother hfirst =>
    rw [hrest] at hother
    cases hother
    cases hfirst
  | _ hother =>
    rw [hrest] at hother
    cases hother

/-- Decoding the items while they are gathered is decoding all of them. -/
theorem mapM_of_foldlM {decode : Json → Except Fault α} {items : List Json} {done result : List α}
    (hfold : items.foldlM (fun done item => (decode item).map (· :: done)) done = .ok result) :
    ∃ values, items.mapM decode = .ok values ∧ result = values.reverse ++ done := by
  induction items generalizing done with
  | nil =>
    cases hfold
    exact ⟨[], rfl, rfl⟩
  | cons item rest ih =>
    rw [List.foldlM_cons] at hfold
    obtain ⟨next, hitem, hfold⟩ := exists_of_bind_eq_ok hfold
    obtain ⟨value, hdecode, rfl⟩ := exists_of_map_eq_ok hitem
    obtain ⟨values, hrest, rfl⟩ := ih hfold
    refine ⟨value :: values, ?_, ?_⟩
    · rw [List.mapM_cons, hdecode]
      simp only [hrest]
      rfl
    · rw [List.reverse_cons, List.append_assoc]
      rfl

/-- Puts a member of a tagged record in its place. -/
def tagStep (tag : String) (variants : List (String × α))
    (done : Option α × List (String × Json)) (member : String × Json) :
    Except Fault (Option α × List (String × Json)) :=
  if member.1 = tag then
    match done.1 with
    | some _ => .error (.duplicateField tag)
    | none => (tagOf variants member.2).map fun found => (some found, done.2)
  else .ok (done.1, member :: done.2)

/-- Looking for the tag member by member finds what looking through all members finds. -/
theorem splitTag_of_foldlM {tag : String} {variants : List (String × α)} {found : Option α}
    {view : α} {done others members : List (String × Json)}
    (hfold : members.foldlM (tagStep tag variants) (found, done) = .ok (some view, others)) :
    splitTag tag variants found done members = .ok (view, others.reverse) := by
  induction members generalizing found done with
  | nil =>
    cases hfold
    rfl
  | cons member rest ih =>
    obtain ⟨name, value⟩ := member
    rw [List.foldlM_cons] at hfold
    obtain ⟨⟨found', done'⟩, hstep, hfold⟩ := exists_of_bind_eq_ok hfold
    rw [splitTag.eq_def]
    simp only [tagStep] at hstep
    split at hstep
    · next hname =>
      cases found with
      | some _ => cases hstep
      | none =>
        obtain ⟨view', htag, heq⟩ := exists_of_map_eq_ok hstep
        cases heq
        simp only [if_pos hname, htag]
        exact ih hfold
    · next hname =>
      cases hstep
      simp only [if_neg hname]
      exact ih hfold

/-- A member that is read as one of a tagged record does to the record what its value does. -/
theorem tagStep_of_taggedMember {tag name : String} {variants : List (String × α)}
    {done next : Option α × List (String × Json)} {named : Cursor}
    (hread : taggedMember depth tag variants done name named = .ok (next, stop))
    (hcolon : readColon named = .ok start)
    (hany : readAny depth start = .ok (document, after)) :
    stop = after ∧ tagStep tag variants done (name, document) = .ok next := by
  unfold taggedMember at hread
  unfold tagStep
  split at hread
  · next hname =>
    split at hread
    · cases hread
    · next hfound =>
      obtain ⟨place, hplace, hread⟩ := exists_of_bind_eq_ok hread
      cases hcolon.symm.trans hplace
      obtain ⟨⟨found, place⟩, hword, hread⟩ := exists_of_bind_eq_ok hread
      cases hread
      obtain ⟨rfl, text, rfl, hvariant⟩ := string_of_readWord hword hany
      refine ⟨rfl, ?_⟩
      rw [if_pos hname]
      rw [Bool.not_eq_true, Option.isSome_eq_false_iff, Option.isNone_iff_eq_none] at hfound
      simp only [hfound, tagOf, hvariant]
      rfl
  · next hname =>
    obtain ⟨place, hplace, hread⟩ := exists_of_bind_eq_ok hread
    cases hcolon.symm.trans hplace
    obtain ⟨⟨value, place⟩, hvalue, hread⟩ := exists_of_bind_eq_ok hread
    cases hread
    rw [hany] at hvalue
    cases hvalue
    exact ⟨rfl, if_neg hname⟩

/-- A tagged record in an object is split where its tag is. -/
theorem splitTag_of_readTagged {tag : String} {variants : List (String × α)} {view : α}
    {members others : List (String × Json)} {last : Cursor}
    (hmembers : Members (readAny depth) true c members last)
    (hread : readTagged depth tag variants c = .ok ((view, others), stop)) :
    stop = last ∧ splitTag tag variants none [] members = .ok (view, others) := by
  rw [readTagged_eq] at hread
  obtain ⟨⟨⟨found, done⟩, place⟩, hcollect, hread⟩ := exists_of_bind_eq_ok hread
  obtain ⟨rfl, hfold⟩ := hmembers.foldlM_of_readMembers (tagStep tag variants) hcollect
    tagStep_of_taggedMember
  cases found with
  | none => cases hread
  | some view =>
    cases hread
    exact ⟨rfl, splitTag_of_foldlM hfold⟩

/-- A tagged record in a list has its tag first. -/
theorem tagOf_of_readTaggedItems {tag : String} {variants : List (String × α)} {view : α}
    {items others : List Json} {last : Cursor}
    (hitems : Items (readAny depth) true c items last)
    (hread : readTaggedItems depth tag variants c = .ok ((view, others), stop)) :
    ∃ first, stop = last ∧ items = first :: others ∧ tagOf variants first = .ok view := by
  obtain ⟨⟨more, start⟩, hmore, hread⟩ := exists_of_bind_eq_ok hread
  cases hitems with
  | nil hnext =>
    cases hnext.symm.trans hmore
    cases hread
  | @cons _ _ _ _ _ first rest hnext hitem hitems =>
    cases hnext.symm.trans hmore
    obtain ⟨⟨found, place⟩, hword, hread⟩ := exists_of_bind_eq_ok hread
    obtain ⟨⟨collected, place'⟩, hcollect, hread⟩ := exists_of_bind_eq_ok hread
    cases hread
    obtain ⟨rfl, text, rfl, hvariant⟩ := string_of_readWord hword hitem
    obtain ⟨rfl, hfold⟩ := hitems.foldlM_of_readItems (fun done item => pure (item :: done))
      hcollect fun hitem hvalue => by
        obtain ⟨⟨value, place⟩, hread, hnext⟩ := exists_of_bind_eq_ok hitem
        cases hnext
        cases hread.symm.trans hvalue
        exact ⟨rfl, rfl⟩
    rw [List.foldlM_pure, List.foldl_flip_cons_eq_append'] at hfold
    cases hfold
    refine ⟨.string text, rfl, ?_, hvariant⟩
    rw [List.append_nil, List.reverse_reverse]

/-! ## Shapes -/

/-- What is read as a value of the shape is decoded to it, and ends where it ends as any value. -/
def Shape.Agrees (shape : Shape α) : Prop :=
  ∀ ⦃depth : Nat⦄ ⦃c after stop : Cursor⦄ ⦃value : α⦄ ⦃document : Json⦄,
    shape.read (depth + 1) c = .ok (value, stop) → readAny (depth + 1) c = .ok (document, after) →
      stop = after ∧ shape.decode .document document = .ok value

/-- The fields that are read from a list are decoded from its items, which they use up. -/
def Fields.ItemsAgree (fields : Fields α σ) : Prop :=
  ∀ ⦃depth : Nat⦄ ⦃record : String⦄ ⦃count index : Nat⦄ ⦃first : Bool⦄
    ⦃c last place stop : Cursor⦄ ⦃values : α⦄ ⦃items : List Json⦄, first = (index == 0) →
    Items (readAny (depth + 1)) first c items last →
    fields.readItems record count index (depth + 1) c = .ok (values, place) →
    closeList place = (none, stop) →
      closeList last = (none, stop) ∧
        fields.decodeItems .document record count index items = .ok (values, index + items.length)

/-- A member that is read into its field is decoded into it. -/
def Fields.MembersAgree (fields : Fields α σ) : Prop :=
  ∀ ⦃depth : Nat⦄ ⦃found next : σ⦄ ⦃name : String⦄ ⦃named start after stop : Cursor⦄
    ⦃document : Json⦄, fields.readMember (depth + 1) found name named = .ok (next, stop) →
    readColon named = .ok start → readAny (depth + 1) start = .ok (document, after) →
      stop = after ∧ fields.decodeMember .document found name document = .ok next

section Agreement

variable {shape : Shape α}

theorem Shape.agrees_text : Shape.text.Agrees := by
  intro depth c after stop value document hread hany
  obtain ⟨hstop, text, rfl, hview⟩ := string_of_readWord hread hany
  exact ⟨hstop, hview⟩

/-- A truth value is decoded as it is read. -/
theorem Shape.agrees_flag : Shape.flag.Agrees := by
  intro depth c after stop value document hread hany
  simp only [Shape.read] at hread
  split at hread
  · cases hread
  · next hrest =>
    obtain ⟨place, hword, hread⟩ := exists_of_bind_eq_ok hread
    cases hread
    obtain ⟨hstop, rfl⟩ := readAny_of_word (.bool true) hrest hword (by simp) hany
    exact ⟨hstop, rfl⟩
  · next hrest =>
    obtain ⟨place, hword, hread⟩ := exists_of_bind_eq_ok hread
    cases hread
    obtain ⟨hstop, rfl⟩ := readAny_of_word (.bool false) hrest hword (by simp) hany
    exact ⟨hstop, rfl⟩
  · cases hread

/-- A number within 32 bits is decoded as it is read. -/
theorem Shape.agrees_word : Shape.word.Agrees := by
  intro depth c after stop value document hread hany
  simp only [Shape.read] at hread
  split at hread
  · cases hread
  · next hrest =>
    obtain ⟨⟨number, place⟩, hnumber, hread⟩ := exists_of_bind_eq_ok hread
    obtain ⟨hword, rfl⟩ := ok_of_placedAt hread
    rw [readAny_of_minus depth hrest hnumber] at hany
    cases hany
    exact ⟨rfl, hword⟩
  · next hrest =>
    split at hread
    · next hfirst =>
      obtain ⟨⟨number, place⟩, hnumber, hread⟩ := exists_of_bind_eq_ok hread
      obtain ⟨hword, rfl⟩ := ok_of_placedAt hread
      rw [readAny_of_digit depth hrest hfirst hnumber] at hany
      cases hany
      exact ⟨rfl, hword⟩
    · cases hread

theorem Shape.agrees_whole (view : Json → Except Fault α) : (Shape.whole view).Agrees := by
  intro depth c after stop value document hread hany
  obtain ⟨⟨found, place⟩, hfound, hread⟩ := exists_of_bind_eq_ok hread
  rw [hany] at hfound
  cases hfound
  exact (ok_of_atCursor hread).symm

theorem Shape.agrees_choice (variants : List (String × α)) : (Shape.choice variants).Agrees := by
  intro depth c after stop value document hread hany
  obtain ⟨⟨found, place⟩, hfound, hread⟩ := exists_of_bind_eq_ok hread
  rw [hany] at hfound
  cases hfound
  exact (ok_of_atCursor hread).symm

/-- A value that may be null is decoded as it is read if the value is. -/
theorem Shape.Agrees.optional (hshape : shape.Agrees) : (Shape.optional shape).Agrees := by
  intro depth c after stop value document hread hany
  simp only [Shape.read] at hread
  split at hread
  · next hrest =>
    obtain ⟨place, hword, hread⟩ := exists_of_bind_eq_ok hread
    cases hread
    obtain ⟨hstop, rfl⟩ := readAny_of_word .null hrest hword (by simp) hany
    exact ⟨hstop, rfl⟩
  · next hnull =>
    obtain ⟨⟨found, place⟩, hinner, hfound⟩ := exists_of_bind_eq_ok hread
    cases hfound
    obtain ⟨hstop, hdecode⟩ := hshape hinner ((readAny_skipGap depth c).trans hany)
    refine ⟨hstop, ?_⟩
    cases value_of_readAny hany with
    | null hrest => exact absurd hrest (hnull _)
    | _ => exact congrArg (Except.map some) hdecode

/-- A list is decoded as it is read if its items are. -/
theorem Shape.Agrees.list (hshape : shape.Agrees) : (Shape.list shape).Agrees := by
  intro depth c after stop value document hread hany
  simp only [Shape.read] at hread
  split at hread
  · cases hread
  · next hrest =>
    obtain ⟨items, last, rfl, hitems, hclose⟩ := items_of_readAny hrest hany
    split at hread
    · cases hread
    · next hdepth =>
      obtain ⟨depth, rfl⟩ : ∃ inner, depth = inner + 1 := ⟨depth - 1, by omega⟩
      obtain ⟨⟨values, place⟩, henclosed, hvalue⟩ := exists_of_bind_eq_ok hread
      cases hvalue
      obtain ⟨last', hcollect, hclose'⟩ := exists_of_enclosed henclosed
      obtain ⟨rfl, hfold⟩ := hitems.foldlM_of_readItems
        (fun done item => (shape.decode .document item).map (· :: done)) hcollect
        fun hitem hvalue => by
          obtain ⟨⟨value, place⟩, hread, hnext⟩ := exists_of_bind_eq_ok hitem
          cases hnext
          obtain ⟨hstop, hdecode⟩ := hshape hread hvalue
          exact ⟨hstop, congrArg (Except.map (· :: _)) hdecode⟩
      obtain ⟨values, hmap, rfl⟩ := mapM_of_foldlM hfold
      rw [hclose] at hclose'
      cases hclose'
      refine ⟨rfl, ?_⟩
      rw [List.append_nil, List.reverse_reverse]
      exact hmap
  · cases hread

/-- An object with free names is decoded as it is read if its values are. -/
theorem Shape.Agrees.keyed (hshape : shape.Agrees) : (Shape.keyed shape).Agrees := by
  intro depth c after stop value document hread hany
  simp only [Shape.read] at hread
  split at hread
  · cases hread
  · next hrest =>
    obtain ⟨members, last, rfl, hmembers, hclose⟩ := members_of_readAny hrest hany
    split at hread
    · cases hread
    · next hdepth =>
      obtain ⟨depth, rfl⟩ : ∃ inner, depth = inner + 1 := ⟨depth - 1, by omega⟩
      obtain ⟨last', hread, hclose'⟩ := exists_of_enclosed hread
      obtain ⟨rfl, hfold⟩ := hmembers.foldlM_of_readMembers
        (fun (done : Keyed _) member => do
          return done.insert member.1 (← shape.decode .document member.2)) hread
        fun hmember hcolon hvalue => by
          obtain ⟨place, hplace, hmember⟩ := exists_of_bind_eq_ok hmember
          cases hcolon.symm.trans hplace
          obtain ⟨⟨value, place⟩, hread, hnext⟩ := exists_of_bind_eq_ok hmember
          cases hnext
          obtain ⟨hstop, hdecode⟩ := hshape hread hvalue
          refine ⟨hstop, ?_⟩
          rw [hdecode]
          rfl
      rw [hclose] at hclose'
      cases hclose'
      exact ⟨rfl, hfold⟩
  · cases hread

/-- A record is decoded as it is read, from a list and from an object, if its fields are. -/
theorem Shape.agrees_record {fields : Fields α σ} (name : String) (make : α → β)
    (hitems : fields.ItemsAgree) (hmembers : fields.MembersAgree) :
    (Shape.record name fields make).Agrees := by
  intro depth c after stop value document hread hany
  simp only [Shape.read] at hread
  split at hread
  · cases hread
  · next hrest =>
    obtain ⟨items, last, rfl, hlist, hclose⟩ := items_of_readAny hrest hany
    split at hread
    · cases hread
    · next hdepth =>
      obtain ⟨depth, rfl⟩ : ∃ inner, depth = inner + 1 := ⟨depth - 1, by omega⟩
      obtain ⟨⟨values, place⟩, henclosed, hvalue⟩ := exists_of_bind_eq_ok hread
      cases hvalue
      obtain ⟨last', hfields, hclose'⟩ := exists_of_enclosed henclosed
      obtain ⟨hlast, hdecode⟩ := hitems rfl hlist hfields hclose'
      rw [hclose] at hlast
      cases hlast
      refine ⟨rfl, ?_⟩
      simp only [Shape.decode, hdecode]
      change (if 0 + items.length < items.length then _ else _) = _
      rw [if_neg (by omega)]
      rfl
  · next hrest =>
    obtain ⟨members, last, rfl, hobject, hclose⟩ := members_of_readAny hrest hany
    split at hread
    · cases hread
    · next hdepth =>
      obtain ⟨depth, rfl⟩ : ∃ inner, depth = inner + 1 := ⟨depth - 1, by omega⟩
      obtain ⟨last', hread, hclose'⟩ := exists_of_enclosed hread
      obtain ⟨⟨found, place⟩, hfields, hrecord⟩ := exists_of_bind_eq_ok hread
      obtain ⟨⟨values, place'⟩, hplaced, hvalue⟩ := exists_of_bind_eq_ok hrecord
      cases hvalue
      obtain ⟨hcomplete, rfl⟩ := ok_of_atCursor hplaced
      obtain ⟨rfl, hfold⟩ := hobject.foldlM_of_readMembers
        (fun done member => fields.decodeMember .document done member.1 member.2) hfields
        (hmembers · · ·)
      rw [hclose] at hclose'
      cases hclose'
      refine ⟨rfl, ?_⟩
      simp only [Shape.decode, hfold]
      exact congrArg (fun result => result >>= fun values => pure (make values)) hcomplete
  · cases hread

/-- A tagged record is decoded as it is read, with its tag set aside. -/
theorem Shape.agrees_tagged (name tag : String)
    (variants : List (String × (Json → Except Fault α))) :
    (Shape.tagged name tag variants).Agrees := by
  intro depth c after stop value document hread hany
  simp only [Shape.read] at hread
  split at hread
  · cases hread
  · next hrest =>
    obtain ⟨items, last, rfl, hitems, hclose⟩ := items_of_readAny hrest hany
    split at hread
    · cases hread
    · next hdepth =>
      obtain ⟨depth, rfl⟩ : ∃ inner, depth = inner + 1 := ⟨depth - 1, by omega⟩
      obtain ⟨⟨⟨view, others⟩, place⟩, henclosed, hview⟩ := exists_of_bind_eq_ok hread
      obtain ⟨hview, rfl⟩ := ok_of_atCursor hview
      obtain ⟨last', hparts, hclose'⟩ := exists_of_enclosed henclosed
      obtain ⟨first, rfl, rfl, htag⟩ := tagOf_of_readTaggedItems hitems hparts
      rw [hclose] at hclose'
      cases hclose'
      refine ⟨rfl, ?_⟩
      simp only [Shape.decode, htag]
      exact hview
  · next hrest =>
    obtain ⟨members, last, rfl, hmembers, hclose⟩ := members_of_readAny hrest hany
    split at hread
    · cases hread
    · next hdepth =>
      obtain ⟨depth, rfl⟩ : ∃ inner, depth = inner + 1 := ⟨depth - 1, by omega⟩
      obtain ⟨⟨⟨view, others⟩, place⟩, henclosed, hview⟩ := exists_of_bind_eq_ok hread
      obtain ⟨hview, rfl⟩ := ok_of_atCursor hview
      obtain ⟨last', hparts, hclose'⟩ := exists_of_enclosed henclosed
      obtain ⟨rfl, hsplit⟩ := splitTag_of_readTagged hmembers hparts
      rw [hclose] at hclose'
      cases hclose'
      refine ⟨rfl, ?_⟩
      simp only [Shape.decode, hsplit]
      exact hview
  · cases hread

/-- A list without fields is closed at once. -/
theorem Fields.itemsAgree_nil : Fields.nil.ItemsAgree := by
  intro depth record count index first c last place stop values items hfirst hitems hread hclose
  cases hread
  cases hitems with
  | nil hnext =>
    rw [eq_skipGap_of_nextItem hnext, closeList_skipGap]
    exact ⟨hclose, rfl⟩
  | cons hnext =>
    obtain ⟨next, rest, hrest, hend, -⟩ := rest_of_nextItem hnext
    obtain ⟨rest', hrest'⟩ := rest_of_closeList hclose
    rw [hrest] at hrest'
    cases hrest'
    exact absurd rfl hend

/-- The first field takes the first item, or its default where there is none. -/
theorem Fields.ItemsAgree.cons {rest : Fields β σ} (name : String) (absent : Option α)
    (hshape : shape.Agrees) (hrest : rest.ItemsAgree) :
    (Fields.cons name shape absent rest).ItemsAgree := by
  intro depth record count index first c last place stop values items hfirst hitems hread hclose
  subst hfirst
  obtain ⟨⟨more, start⟩, hmore, hread⟩ := exists_of_bind_eq_ok hread
  cases hitems with
  | nil hnext =>
    cases hnext.symm.trans hmore
    obtain ⟨habsent, rfl⟩ := ok_of_atCursor hread
    refine ⟨hclose, ?_⟩
    simp only [Fields.decodeItems, habsent]
    rfl
  | cons hnext hitem hitems =>
    cases hnext.symm.trans hmore
    obtain ⟨⟨value, place'⟩, hvalue, hread⟩ := exists_of_bind_eq_ok hread
    obtain ⟨⟨others, place''⟩, hothers, hread⟩ := exists_of_bind_eq_ok hread
    cases hread
    obtain ⟨rfl, hdecode⟩ := hshape hvalue hitem
    obtain ⟨hlast, hrest⟩ := hrest rfl hitems hothers hclose
    refine ⟨hlast, ?_⟩
    simp only [Fields.decodeItems, hdecode, hrest]
    rw [List.length_cons, Nat.add_right_comm, Nat.add_assoc]
    rfl

theorem Fields.membersAgree_nil : Fields.nil.MembersAgree := by
  intro depth found next name named start after stop document hread hcolon hany
  obtain ⟨place, hplace, hread⟩ := exists_of_bind_eq_ok hread
  cases hcolon.symm.trans hplace
  obtain ⟨place, hskip, hread⟩ := exists_of_bind_eq_ok hread
  cases hread
  exact ⟨skipValue_stops hany hskip, rfl⟩

/-- A member is the value of the field that it names, or belongs to the others. -/
theorem Fields.MembersAgree.cons {rest : Fields β σ} (field : String) (absent : Option α)
    (hshape : shape.Agrees) (hrest : rest.MembersAgree) :
    (Fields.cons field shape absent rest).MembersAgree := by
  intro depth found next name named start after stop document hread hcolon hany
  obtain ⟨first, others⟩ := found
  simp only [Fields.readMember] at hread
  simp only [Fields.decodeMember]
  split at hread
  · next hname =>
    rw [if_pos hname]
    cases first with
    | some _ => cases hread
    | none =>
      obtain ⟨place, hplace, hread⟩ := exists_of_bind_eq_ok hread
      cases hcolon.symm.trans hplace
      obtain ⟨⟨value, place⟩, hvalue, hread⟩ := exists_of_bind_eq_ok hread
      cases hread
      obtain ⟨hstop, hdecode⟩ := hshape hvalue hany
      refine ⟨hstop, ?_⟩
      simp only [hdecode]
      rfl
  · next hname =>
    rw [if_neg hname]
    obtain ⟨⟨others', place⟩, hothers, hread⟩ := exists_of_bind_eq_ok hread
    cases hread
    obtain ⟨hstop, hdecode⟩ := hrest hothers hcolon hany
    refine ⟨hstop, ?_⟩
    rw [hdecode]
    rfl

end Agreement

mutual

/-- Reading a shape and decoding it agree, whatever the shape is. -/
theorem Shape.agrees : {α : Type} → (shape : Shape α) → shape.Agrees
  | _, .text => Shape.agrees_text
  | _, .flag => Shape.agrees_flag
  | _, .word => Shape.agrees_word
  | _, .whole view => Shape.agrees_whole view
  | _, .choice variants => Shape.agrees_choice variants
  | _, .optional shape => shape.agrees.optional
  | _, .list shape => shape.agrees.list
  | _, .keyed shape => shape.agrees.keyed
  | _, .record name fields make =>
    Shape.agrees_record name make fields.itemsAgree fields.membersAgree
  | _, .tagged name tag variants => Shape.agrees_tagged name tag variants

theorem Fields.itemsAgree : {α σ : Type} → (fields : Fields α σ) → fields.ItemsAgree
  | _, _, .nil => Fields.itemsAgree_nil
  | _, _, .cons name shape absent rest =>
    Fields.ItemsAgree.cons name absent shape.agrees rest.itemsAgree

theorem Fields.membersAgree : {α σ : Type} → (fields : Fields α σ) → fields.MembersAgree
  | _, _, .nil => Fields.membersAgree_nil
  | _, _, .cons name shape absent rest =>
    Fields.MembersAgree.cons name absent shape.agrees rest.membersAgree

end

end SchemaEvolution.Json
