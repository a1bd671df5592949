import SchemaEvolution.Json.Shape
import SchemaEvolution.Proofs.Json.Cursor
import SchemaEvolution.Repeated

/-!
# What stands between brackets

A reader of any value that succeeds has found one of the kinds of values, and between brackets
it has read the items one after the other.  A second reader of the same brackets that agrees on
each item stops where the first one stopped, and what it gives is made from the same items.
-/

namespace SchemaEvolution.Json

variable {σ : Type} {c start after last : Cursor} {first : Bool}

namespace Cursor

theorem skipGap_skipGap (c : Cursor) : c.skipGap.skipGap = c.skipGap := by
  have hnone : c.skipGap.rest.takeWhile isGap = [] := by
    rw [rest_skipGap, List.takeWhile_eq_nil_iff]
    exact fun hlength => Bool.not_eq_true _ ▸ List.dropWhile_get_zero_not isGap c.rest hlength
  rw [skipGap, hnone]
  rfl

end Cursor

theorem closeList_skipGap (c : Cursor) : closeList c.skipGap = closeList c := by
  rw [closeList, Cursor.skipGap_skipGap, closeList]

/-- Where no item comes next, only white space has been passed. -/
theorem eq_skipGap_of_nextItem (hnext : nextItem first c = .ok (false, last)) :
    last = c.skipGap := by
  simp only [nextItem] at hnext
  split at hnext
  · cases hnext
  · cases hnext
    rfl
  · split at hnext
    · cases hnext
    · split at hnext
      · split at hnext <;> cases hnext
      · cases hnext

theorem rest_of_closeList (hclose : closeList c = (none, after)) :
    ∃ rest, c.skipGap.rest = ']' :: rest := by
  simp only [closeList] at hclose
  split at hclose
  · cases hclose
  · next rest hrest => exact ⟨rest, hrest⟩
  · split at hclose <;> cases hclose
  · cases hclose

/-- The reader of items moves to the next item and reads it. -/
theorem readItems_succ (item : σ → Cursor → Except ReadFault (σ × Cursor)) (fuel : Nat)
    (first : Bool) (done : σ) (c : Cursor) :
    readItems item (fuel + 1) first done c =
      nextItem first c >>= fun next =>
        if next.1 then
          item done next.2 >>= fun read => readItems item fuel false read.1 read.2
        else .ok (done, next.2) := by
  simp only [readItems, nextItem]
  generalize c.skipGap = place
  generalize place.advance.skipGap = second
  rcases hplace : place.rest with _ | ⟨next, rest⟩
  · rfl
  · by_cases hclose : next = ']'
    · subst hclose
      rfl
    · cases first with
      | true => simp [bind, Except.bind]
      | false =>
        by_cases hcomma : next = ','
        · rcases hsecond : second.rest with _ | ⟨char, more⟩
          · simp [hcomma, bind, Except.bind]
          · by_cases hend : char = ']' <;> simp [hcomma, hend, bind, Except.bind]
        · simp [hcomma, bind, Except.bind]

/-- The items of a list, each read by `value`, from a cursor up to the closing bracket. -/
inductive Items (value : Cursor → Except ReadFault (Json × Cursor)) :
    Bool → Cursor → List Json → Cursor → Prop where
  | nil {first : Bool} {c last : Cursor} (hnext : nextItem first c = .ok (false, last)) :
    Items value first c [] last
  | cons {first : Bool} {c start after last : Cursor} {item : Json} {items : List Json}
    (hnext : nextItem first c = .ok (true, start)) (hitem : value start = .ok (item, after))
    (hmore : Items value false after items last) : Items value first c (item :: items) last

variable {value : Cursor → Except ReadFault (Json × Cursor)} {items : List Json}

/-- Whoever reads the same items stops at the same bracket. -/
theorem Items.foldlM_of_readItems (hitems : Items value first c items last)
    {item : σ → Cursor → Except ReadFault (σ × Cursor)} (step : σ → Json → Except Fault σ)
    {fuel : Nat} {done result : σ} {stop : Cursor}
    (hread : readItems item fuel first done c = .ok (result, stop))
    (hagree : ∀ {done next : σ} {start after stop : Cursor} {read : Json},
      item done start = .ok (next, stop) → value start = .ok (read, after) →
      stop = after ∧ step done read = .ok next) :
    stop = last ∧ items.foldlM step done = .ok result := by
  induction hitems generalizing fuel done with
  | nil hnext =>
    cases fuel with
    | zero => cases hread
    | succ fuel =>
      rw [readItems_succ, hnext] at hread
      cases hread
      exact ⟨rfl, rfl⟩
  | cons hnext hitem _ ih =>
    cases fuel with
    | zero => cases hread
    | succ fuel =>
      rw [readItems_succ, hnext] at hread
      obtain ⟨⟨more, start⟩, hfound, hread⟩ := exists_of_bind_eq_ok hread
      cases hfound
      obtain ⟨⟨next, place⟩, hread, hmore⟩ := exists_of_bind_eq_ok hread
      obtain ⟨rfl, hstep⟩ := hagree hread hitem
      obtain ⟨rfl, hfold⟩ := ih hmore
      refine ⟨rfl, ?_⟩
      rw [List.foldlM_cons, hstep]
      exact hfold

/-- A reader that collects values has read the items. -/
theorem items_of_readItems {fuel : Nat} {done result : List Json}
    (hread : readItems (fun done c => do
      let (item, c) ← value c
      return (item :: done, c)) fuel first done c = .ok (result, last)) :
    ∃ items, result = items.reverse ++ done ∧ Items value first c items last := by
  induction fuel generalizing first done c with
  | zero => cases hread
  | succ fuel ih =>
    rw [readItems_succ] at hread
    obtain ⟨⟨more, start⟩, hnext, hread⟩ := exists_of_bind_eq_ok hread
    cases more with
    | false =>
      cases hread
      exact ⟨[], rfl, .nil hnext⟩
    | true =>
      obtain ⟨⟨done', after⟩, hitem, hread⟩ := exists_of_bind_eq_ok hread
      obtain ⟨⟨item, after⟩, hvalue, hitem⟩ := exists_of_bind_eq_ok hitem
      cases hitem
      obtain ⟨items, rfl, hitems⟩ := ih hread
      refine ⟨item :: items, ?_, .cons hnext hvalue hitems⟩
      rw [List.reverse_cons, List.append_assoc]
      rfl

/-- Moves past the name of the next member of an object, if there is one. -/
def nextMember (first : Bool) (c : Cursor) : Except ReadFault (Option String × Cursor) :=
  let c := c.skipGap
  match c.rest with
  | [] => .error (c.failNext .eofInObject)
  | '\x7d' :: _ => .ok (none, c)
  | next :: _ =>
    if first then
      if next = '"' then do
        let (name, c) ← readString c.advance
        return (some name, c)
      else .error (c.failNext .keyNotString)
    else if next = ',' then
      let c := c.advance.skipGap
      match c.rest with
      | [] => .error (c.failNext .eofInValue)
      | '"' :: _ => do
        let (name, c) ← readString c.advance
        return (some name, c)
      | '\x7d' :: _ => .error (c.failNext .trailingComma)
      | _ => .error (c.failNext .keyNotString)
    else .error (c.failNext .expectedObjectCommaOrEnd)

/-- The reader of members moves past the next name and reads what follows it. -/
theorem readMembers_succ (member : σ → String → Cursor → Except ReadFault (σ × Cursor))
    (fuel : Nat) (first : Bool) (done : σ) (c : Cursor) :
    readMembers member (fuel + 1) first done c =
      nextMember first c >>= fun next =>
        match next.1 with
        | none => .ok (done, next.2)
        | some name =>
          member done name next.2 >>= fun read => readMembers member fuel false read.1 read.2 := by
  simp only [readMembers, nextMember]
  generalize c.skipGap = place
  generalize place.advance.skipGap = second
  rcases hplace : place.rest with _ | ⟨next, rest⟩
  · rfl
  · by_cases hclose : next = '\x7d'
    · subst hclose
      rfl
    · cases first with
      | true =>
        by_cases hquote : next = '"'
        · cases readString place.advance <;> simp [hquote, bind, Except.bind, pure, Except.pure]
        · simp [hquote, bind, Except.bind]
      | false =>
        by_cases hcomma : next = ','
        · rcases hsecond : second.rest with _ | ⟨char, more⟩
          · simp [hcomma, bind, Except.bind]
          · by_cases hquote : char = '"'
            · cases readString second.advance <;>
                simp [hcomma, hquote, bind, Except.bind, pure, Except.pure]
            · by_cases hend : char = '\x7d' <;> simp [hcomma, hquote, hend, bind, Except.bind]
        · simp [hcomma, bind, Except.bind]

/-- The members of an object, each read by `value` after its colon, up to the closing brace. -/
inductive Members (value : Cursor → Except ReadFault (Json × Cursor)) :
    Bool → Cursor → List (String × Json) → Cursor → Prop where
  | nil {first : Bool} {c last : Cursor} (hnext : nextMember first c = .ok (none, last)) :
    Members value first c [] last
  | cons {first : Bool} {c named start after last : Cursor} {name : String} {item : Json}
    {members : List (String × Json)} (hnext : nextMember first c = .ok (some name, named))
    (hcolon : readColon named = .ok start) (hitem : value start = .ok (item, after))
    (hmore : Members value false after members last) :
    Members value first c ((name, item) :: members) last

variable {members : List (String × Json)}

theorem closeObject_skipGap (c : Cursor) : closeObject c.skipGap = closeObject c := by
  rw [closeObject, Cursor.skipGap_skipGap, closeObject]

/-- Where no member comes next, only white space has been passed. -/
theorem eq_skipGap_of_nextMember (hnext : nextMember first c = .ok (none, last)) :
    last = c.skipGap := by
  simp only [nextMember] at hnext
  split at hnext
  · cases hnext
  · cases hnext
    rfl
  · split at hnext
    · split at hnext
      · obtain ⟨_, _, hnext⟩ := exists_of_bind_eq_ok hnext
        cases hnext
      · cases hnext
    · split at hnext
      · split at hnext
        · cases hnext
        · obtain ⟨_, _, hnext⟩ := exists_of_bind_eq_ok hnext
          cases hnext
        · cases hnext
        · cases hnext
      · cases hnext

/-- Whoever reads the same members stops at the same brace. -/
theorem Members.foldlM_of_readMembers (hmembers : Members value first c members last)
    {member : σ → String → Cursor → Except ReadFault (σ × Cursor)}
    (step : σ → String × Json → Except Fault σ)
    {fuel : Nat} {done result : σ} {stop : Cursor}
    (hread : readMembers member fuel first done c = .ok (result, stop))
    (hagree : ∀ {done next : σ} {name : String} {named start after stop : Cursor} {read : Json},
      member done name named = .ok (next, stop) → readColon named = .ok start →
      value start = .ok (read, after) → stop = after ∧ step done (name, read) = .ok next) :
    stop = last ∧ members.foldlM step done = .ok result := by
  induction hmembers generalizing fuel done with
  | nil hnext =>
    cases fuel with
    | zero => cases hread
    | succ fuel =>
      rw [readMembers_succ, hnext] at hread
      cases hread
      exact ⟨rfl, rfl⟩
  | cons hnext hcolon hitem _ ih =>
    cases fuel with
    | zero => cases hread
    | succ fuel =>
      rw [readMembers_succ, hnext] at hread
      obtain ⟨⟨name?, named⟩, hfound, hread⟩ := exists_of_bind_eq_ok hread
      cases hfound
      obtain ⟨⟨next, place⟩, hread, hmore⟩ := exists_of_bind_eq_ok hread
      obtain ⟨rfl, hstep⟩ := hagree hread hcolon hitem
      obtain ⟨rfl, hfold⟩ := ih hmore
      refine ⟨rfl, ?_⟩
      rw [List.foldlM_cons, hstep]
      exact hfold

/-- A reader that collects values under their names has read the members. -/
theorem members_of_readMembers {fuel : Nat} {done result : List (String × Json)}
    (hread : readMembers (fun done name c => do
      let (item, c) ← value (← readColon c)
      return ((name, item) :: done, c)) fuel first done c = .ok (result, last)) :
    ∃ members, result = members.reverse ++ done ∧ Members value first c members last := by
  induction fuel generalizing first done c with
  | zero => cases hread
  | succ fuel ih =>
    rw [readMembers_succ] at hread
    obtain ⟨⟨name?, named⟩, hnext, hread⟩ := exists_of_bind_eq_ok hread
    cases name? with
    | none =>
      cases hread
      exact ⟨[], rfl, .nil hnext⟩
    | some name =>
      obtain ⟨⟨done', after⟩, hmember, hread⟩ := exists_of_bind_eq_ok hread
      obtain ⟨start, hcolon, hmember⟩ := exists_of_bind_eq_ok hmember
      obtain ⟨⟨item, after⟩, hvalue, hmember⟩ := exists_of_bind_eq_ok hmember
      cases hmember
      obtain ⟨members, rfl, hmembers⟩ := ih hread
      refine ⟨(name, item) :: members, ?_, .cons hnext hcolon hvalue hmembers⟩
      rw [List.reverse_cons, List.append_assoc]
      rfl

/-! ## Values -/

/-- What stands between brackets is read if its items are and the closing bracket is there. -/
theorem exists_of_enclosed {α : Type} {close : Cursor → Option ReadFault × Cursor}
    {outcome : Except ReadFault (α × Cursor)} {result : α}
    (hread : enclosed close outcome = .ok (result, after)) :
    ∃ last, outcome = .ok (result, last) ∧ close last = (none, after) := by
  unfold enclosed at hread
  split at hread
  · next found last =>
    split at hread
    · next hclose =>
      cases hread
      exact ⟨last, rfl, hclose⟩
    · cases hread
  · cases hread
  · cases hread

/-- The text of a value, from the cursor at its first character to the cursor after it; within
brackets the values have at most `depth` more levels. -/
inductive Value (depth : Nat) (c : Cursor) : Json → Cursor → Prop where
  | null {rest : List Char} {after : Cursor} (hrest : c.rest = 'n' :: rest)
    (hword : readIdent ['u', 'l', 'l'] c.advance = .ok after) : Value depth c .null after
  | true {rest : List Char} {after : Cursor} (hrest : c.rest = 't' :: rest)
    (hword : readIdent ['r', 'u', 'e'] c.advance = .ok after) : Value depth c (.bool true) after
  | false {rest : List Char} {after : Cursor} (hrest : c.rest = 'f' :: rest)
    (hword : readIdent ['a', 'l', 's', 'e'] c.advance = .ok after) :
    Value depth c (.bool false) after
  | negative {rest : List Char} {number : Number} {after : Cursor} (hrest : c.rest = '-' :: rest)
    (hnumber : readNumber true c.advance = .ok (number, after)) :
    Value depth c (.number number) after
  | number {first : Char} {rest : List Char} {number : Number} {after : Cursor}
    (hrest : c.rest = first :: rest) (hfirst : first.isDigit = Bool.true)
    (hnumber : readNumber Bool.false c = .ok (number, after)) :
    Value depth c (.number number) after
  | string {rest : List Char} {text : String} {after : Cursor} (hrest : c.rest = '"' :: rest)
    (hstring : readString c.advance = .ok (text, after)) : Value depth c (.string text) after
  | array {rest : List Char} {items : List Json} {last after : Cursor}
    (hrest : c.rest = '[' :: rest) (hitems : Items (readAny depth) Bool.true c.advance items last)
    (hclose : closeList last = (none, after)) : Value depth c (.array items) after
  | object {rest : List Char} {members : List (String × Json)} {last after : Cursor}
    (hrest : c.rest = '\x7b' :: rest)
    (hmembers : Members (readAny depth) Bool.true c.advance members last)
    (hclose : closeObject last = (none, after)) : Value depth c (.object members) after

theorem readAny_skipGap (depth : Nat) (c : Cursor) :
    readAny (depth + 1) c.skipGap = readAny (depth + 1) c := by
  rw [readAny, Cursor.skipGap_skipGap, readAny]

/-- What any reader of values gives it has read as one of the kinds of values. -/
theorem value_of_readAny {depth : Nat} {result : Json}
    (hread : readAny (depth + 1) c = .ok (result, after)) : Value depth c.skipGap result after := by
  rw [readAny] at hread
  dsimp only at hread
  split at hread
  · cases hread
  · next hrest =>
    obtain ⟨after, hword, hread⟩ := exists_of_bind_eq_ok hread
    cases hread
    exact .null hrest hword
  · next hrest =>
    obtain ⟨after, hword, hread⟩ := exists_of_bind_eq_ok hread
    cases hread
    exact .true hrest hword
  · next hrest =>
    obtain ⟨after, hword, hread⟩ := exists_of_bind_eq_ok hread
    cases hread
    exact .false hrest hword
  · next hrest =>
    obtain ⟨⟨number, after⟩, hnumber, hread⟩ := exists_of_bind_eq_ok hread
    cases hread
    exact .negative hrest hnumber
  · next hrest =>
    obtain ⟨⟨text, after⟩, hstring, hread⟩ := exists_of_bind_eq_ok hread
    cases hread
    exact .string hrest hstring
  · next hrest =>
    split at hread
    · cases hread
    · obtain ⟨⟨collected, after⟩, hcollect, hread⟩ := exists_of_bind_eq_ok hread
      cases hread
      obtain ⟨last, hcollect, hclose⟩ := exists_of_enclosed hcollect
      obtain ⟨items, rfl, hitems⟩ := items_of_readItems hcollect
      rw [List.append_nil, List.reverse_reverse]
      exact .array hrest hitems hclose
  · next hrest =>
    split at hread
    · cases hread
    · obtain ⟨⟨collected, after⟩, hcollect, hread⟩ := exists_of_bind_eq_ok hread
      cases hread
      obtain ⟨last, hcollect, hclose⟩ := exists_of_enclosed hcollect
      obtain ⟨members, rfl, hmembers⟩ := members_of_readMembers hcollect
      rw [List.append_nil, List.reverse_reverse]
      exact .object hrest hmembers hclose
  · next first rest _ _ _ _ _ _ _ hrest =>
    split at hread
    · next hfirst =>
      obtain ⟨⟨number, after⟩, hnumber, hread⟩ := exists_of_bind_eq_ok hread
      cases hread
      exact .number hrest hfirst hnumber
    · cases hread

end SchemaEvolution.Json
