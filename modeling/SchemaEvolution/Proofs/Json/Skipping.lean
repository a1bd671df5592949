import SchemaEvolution.Proofs.Json.Contents
import SchemaEvolution.Proofs.Json.Number

/-!
# Passing over what can be read

Passing over a value is more lenient than reading it.  Where both succeed they stop at the same
place: a number and a string end where they end, and between brackets each value that was read is
one that was passed over.
-/

namespace SchemaEvolution.Json

variable {c start after last : Cursor} {first : Bool}

theorem isEmpty_digits {digit : Char} {rest : List Char} (hrest : c.rest = digit :: rest)
    (hdigit : digit.isDigit = true) : c.digits.1.isEmpty = false := by
  rw [Cursor.fst_digits, hrest, List.takeWhile_cons_of_pos hdigit]
  rfl

theorem finishDouble_stops {negative : Bool} {significand : Nat} {power : Int} {number : Number}
    (hread : finishDouble negative significand power c = .ok (number, after)) : after = c := by
  unfold finishDouble at hread
  split at hread <;> cases hread
  rfl

theorem skipPower_eq (c : Cursor) :
    skipPower c =
      if (powerSign c.advance).2.digits.1.isEmpty then
        .error ((powerSign c.advance).2.failNext .invalidNumber)
      else .ok (powerSign c.advance).2.digits.2 := by
  unfold skipPower powerSign
  dsimp only
  generalize c.advance.rest = text
  split <;> simp_all

/-- An exponent that is read is also passed over, up to the same place. -/
theorem skipPower_of_readPower {negative : Bool} {significand : Nat} {power : Int}
    {number : Number} (hread : readPower negative significand power c = .ok (number, after)) :
    skipPower c = .ok after := by
  rw [readPower_eq] at hread
  rw [skipPower_eq]
  generalize (powerSign c.advance).2 = place at hread ⊢
  unfold readPowerDigits at hread
  split at hread
  · cases hread
  · next digit rest hrest =>
    split at hread
    · cases hread
    · next hdigit =>
      rw [Bool.not_eq_true, Bool.not_eq_false'] at hdigit
      rw [isEmpty_digits hrest hdigit, if_neg Bool.false_ne_true]
      split at hread
      · rw [finishDouble_stops hread]
      · split at hread <;> cases hread
        rfl

/-- Passes over what comes after a fraction. -/
def skipAfterFraction (c : Cursor) : Except ReadFault Cursor :=
  match c.rest with
  | 'e' :: _ | 'E' :: _ => skipPower c
  | _ => .ok c

/-- Passes over what comes after the whole digits. -/
def skipAfterWhole (c : Cursor) : Except ReadFault Cursor :=
  match c.rest with
  | '.' :: _ =>
    if c.advance.digits.1.isEmpty then .error (c.advance.failNext .invalidNumber)
    else skipAfterFraction c.advance.digits.2
  | 'e' :: _ | 'E' :: _ => skipPower c
  | _ => .ok c

/-- A number is passed over behind its fraction where it is read. -/
theorem skipAfterFraction_of_read {negative : Bool} {significand : Nat} {power : Int}
    {number : Number} (hread : afterFraction negative significand power c = .ok (number, after)) :
    skipAfterFraction c = .ok after := by
  unfold afterFraction at hread
  split at hread
  · next hrest =>
    simp only [skipAfterFraction, hrest]
    exact skipPower_of_readPower hread
  · next hrest =>
    simp only [skipAfterFraction, hrest]
    exact skipPower_of_readPower hread
  · next hlower hupper =>
    rw [finishDouble_stops hread, skipAfterFraction]
    split
    · next hrest => exact absurd hrest (hlower _)
    · next hrest => exact absurd hrest (hupper _)
    · rfl

/-- A number is passed over behind its whole digits where it is read. -/
theorem skipAfterWhole_of_read {negative : Bool} {run : List Char} {number : Number}
    (hread : afterWhole negative run c = .ok (number, after)) : skipAfterWhole c = .ok after := by
  unfold afterWhole at hread
  split at hread
  · next hrest =>
    simp only [skipAfterWhole, hrest]
    rw [readFraction_eq] at hread
    split at hread
    · cases hread
    · next hdigits =>
      rw [if_neg hdigits]
      exact skipAfterFraction_of_read hread
  · next hrest =>
    simp only [skipAfterWhole, hrest]
    exact skipPower_of_readPower hread
  · next hrest =>
    simp only [skipAfterWhole, hrest]
    exact skipPower_of_readPower hread
  · next hpoint hlower hupper =>
    have hstop : after = c := by
      split at hread
      · cases hread
        rfl
      · exact finishDouble_stops hread
    rw [hstop, skipAfterWhole]
    split
    · next hrest => exact absurd hrest (hpoint _)
    · next hrest => exact absurd hrest (hlower _)
    · next hrest => exact absurd hrest (hupper _)
    · rfl

/-- To skip a number is to skip its whole digits and what follows them. -/
theorem skipNumber_eq {digit : Char} {rest : List Char} (hrest : c.rest = digit :: rest)
    (hdigit : digit.isDigit = true) :
    skipNumber c =
      if digit = '0' then
        if c.advance.rest.head?.any Char.isDigit then
          .error (c.advance.failNext .invalidNumber)
        else skipAfterWhole c.advance
      else skipAfterWhole c.digits.2 := by
  have hempty := isEmpty_digits hrest hdigit
  unfold skipNumber
  simp only [hrest, List.head?_cons, Option.some.injEq]
  by_cases hzero : digit = '0'
  · simp only [hzero, if_true, List.isEmpty_cons, Bool.false_eq_true, if_false]
    rfl
  · simp only [hzero, if_false, hempty, Bool.false_eq_true, decide_false, Bool.false_and]
    rfl

/-- A number that is read is also passed over, up to the same place. -/
theorem skipNumber_of_readNumber {negative : Bool} {number : Number}
    (hread : readNumber negative c = .ok (number, after)) : skipNumber c = .ok after := by
  rw [readNumber_eq] at hread
  split at hread
  · cases hread
  · next digit rest hrest =>
    split at hread
    · cases hread
    · next hdigit =>
      rw [Bool.not_eq_true, Bool.not_eq_false'] at hdigit
      rw [skipNumber_eq hrest hdigit]
      split at hread
      · next hzero =>
        rw [if_pos hzero]
        split at hread
        · cases hread
        · next hmore =>
          rw [if_neg hmore]
          exact skipAfterWhole_of_read hread
      · next hzero =>
        rw [if_neg hzero]
        exact skipAfterWhole_of_read hread

/-! ## Strings -/

/-- The mark of a surrogate pair is one character. -/
theorem rest_of_readPairMark {mark : Char} (hread : readPairMark mark c = .ok after) :
    (∃ rest, c.rest = mark :: rest) ∧ after = c.advance := by
  unfold readPairMark at hread
  split at hread
  · cases hread
  · next char rest hrest =>
    split at hread
    · next hchar =>
      cases hread
      exact ⟨⟨rest, hchar ▸ hrest⟩, rfl⟩
    · cases hread

/-- An escape of code units is passed over, a pair of them one after the other. -/
theorem skipStringFrom_of_readUnitEscape {rest : List Char} {char : Char} {fuel : Nat}
    {stop : Cursor} (hmark : c.rest = '\\' :: rest) (hletter : ∃ rest, c.advance.rest = 'u' :: rest)
    (hread : readUnitEscape c.advance.advance = .ok (char, after))
    (hskip : skipStringFrom fuel c = .ok stop) : ∃ fuel, skipStringFrom fuel after = .ok stop := by
  have hstep : ∀ {c : Cursor} {fuel unit : Nat} {after : Cursor}, (∃ rest, c.rest = '\\' :: rest) →
      (∃ rest, c.advance.rest = 'u' :: rest) → readUnit c.advance.advance = .ok (unit, after) →
      skipStringFrom fuel c = .ok stop → ∃ fuel, skipStringFrom fuel after = .ok stop := by
    rintro c fuel unit after ⟨_, hmark⟩ ⟨_, hletter⟩ hunit hskip
    cases fuel with
    | zero => cases hskip
    | succ fuel =>
      simp only [skipStringFrom, hmark, hletter, hunit] at hskip
      exact ⟨fuel, hskip⟩
  obtain ⟨⟨unit, second⟩, hunit, hread⟩ := exists_of_bind_eq_ok hread
  dsimp only at hread
  obtain ⟨fuel, hskip⟩ := hstep ⟨_, hmark⟩ hletter hunit hskip
  split at hread
  · cases hread
  · split at hread
    · obtain ⟨third, hslash, hread⟩ := exists_of_bind_eq_ok hread
      obtain ⟨fourth, hu, hread⟩ := exists_of_bind_eq_ok hread
      obtain ⟨⟨low, last⟩, hlow, hpair⟩ := exists_of_bind_eq_ok hread
      obtain ⟨hslashRest, rfl⟩ := rest_of_readPairMark hslash
      obtain ⟨huRest, rfl⟩ := rest_of_readPairMark hu
      split at hpair
      · obtain rfl : last = after := congrArg Prod.snd (Except.ok.inj hpair)
        exact hstep hslashRest huRest hlow hskip
      · cases hpair
    · cases hread
      exact ⟨fuel, hskip⟩

/-- A character that is read is passed over. -/
theorem skipStringFrom_of_readStringChar {char : Char} {fuel : Nat} {stop : Cursor}
    (hread : readStringChar c = .ok (some char, after))
    (hskip : skipStringFrom fuel c = .ok stop) : ∃ fuel, skipStringFrom fuel after = .ok stop := by
  cases fuel with
  | zero => cases hskip
  | succ fuel =>
    unfold readStringChar at hread
    split at hread
    · cases hread
    · cases hread
    · next rest hrest =>
      dsimp only at hread
      split at hread
      · cases hread
      · next more hmore =>
        obtain ⟨⟨char, after⟩, hescape, hread⟩ := exists_of_bind_eq_ok hread
        cases hread
        exact skipStringFrom_of_readUnitEscape hrest ⟨_, hmore⟩ hescape hskip
      · next letter more hletter hmore =>
        split at hread
        · next hshort =>
          cases hread
          simp only [skipStringFrom, hrest, hmore, hshort, Option.isSome_some, if_true] at hskip
          exact ⟨fuel, hskip⟩
        · cases hread
    · next first rest hquote hslash hrest =>
      split at hread
      · cases hread
      · next hcontrol =>
        cases hread
        simp only [skipStringFrom, hrest, hcontrol, if_false] at hskip
        exact ⟨fuel, hskip⟩

/-- Only the closing quote ends a string. -/
theorem rest_of_readStringChar (hread : readStringChar c = .ok (none, after)) :
    (∃ rest, c.rest = '"' :: rest) ∧ after = c.advance := by
  unfold readStringChar at hread
  split at hread
  · cases hread
  · next rest hrest =>
    cases hread
    exact ⟨⟨rest, hrest⟩, rfl⟩
  · dsimp only at hread
    split at hread
    · cases hread
    · obtain ⟨_, _, hread⟩ := exists_of_bind_eq_ok hread
      cases hread
    · split at hread <;> cases hread
  · split at hread <;> cases hread

/-- A string that is read and passed over ends at one place. -/
theorem skipStringFrom_stops {fuel limit : Nat} {done : List Char} {text : String} {stop : Cursor}
    (hread : readStringFrom fuel done c = .ok (text, after))
    (hskip : skipStringFrom limit c = .ok stop) : stop = after := by
  induction fuel generalizing limit done c with
  | zero => cases hread
  | succ fuel ih =>
    obtain ⟨⟨next, place⟩, hchar, hread⟩ := exists_of_bind_eq_ok hread
    cases next with
    | some char =>
      obtain ⟨limit, hskip⟩ := skipStringFrom_of_readStringChar hchar hskip
      exact ih hread hskip
    | none =>
      cases hread
      obtain ⟨⟨rest, hrest⟩, rfl⟩ := rest_of_readStringChar hchar
      cases limit with
      | zero => cases hskip
      | succ limit =>
        simp only [skipStringFrom, hrest] at hskip
        cases hskip
        rfl

/-- A string that is read ends where it ends for who passes over it. -/
theorem skipString_stops {text : String} {stop : Cursor}
    (hread : readString c = .ok (text, after)) (hskip : skipString c = .ok stop) : stop = after :=
  skipStringFrom_stops hread hskip

/-! ## Values -/

/-- Whoever passes over a value at the first cursor goes on at the second one. -/
def PassedUpTo (c after : Cursor) : Prop :=
  ∀ {fuel : Nat} {brackets : List Bracket} {stop : Cursor},
    skipFrom fuel .value brackets c = .ok stop →
    ∃ fuel, skipFrom fuel .next brackets after = .ok stop

variable {value : Cursor → Except ReadFault (Json × Cursor)} {brackets : List Bracket}

/-- What is expected before an item: the first one may be missing. -/
def expectingItem (first : Bool) : Expecting := if first then .inside else .next

theorem skipFrom_inside_eq (fuel : Nat) (bracket : Bracket) (c : Cursor) :
    skipFrom (fuel + 1) .inside (bracket :: brackets) c =
      match c.skipGap.rest with
      | [] => .error (c.skipGap.failNext bracket.unclosed)
      | char :: _ =>
        if bracket.isEnd char then skipFrom fuel .next brackets c.skipGap.advance
        else skipName bracket c.skipGap >>= skipFrom fuel .value (bracket :: brackets) := by
  rfl

theorem skipFrom_next_eq (fuel : Nat) (bracket : Bracket) (c : Cursor) :
    skipFrom (fuel + 1) .next (bracket :: brackets) c =
      match c.skipGap.rest with
      | [] => .error (c.skipGap.failNext bracket.unclosed)
      | char :: _ =>
        if char = ',' then
          skipName bracket c.skipGap.advance >>= skipFrom fuel .value (bracket :: brackets)
        else if bracket.isEnd char then skipFrom fuel .next brackets c.skipGap.advance
        else .error (c.skipGap.failNext bracket.noSeparator) := by
  rfl

theorem skipFrom_skipGap {fuel : Nat} {stop : Cursor}
    (hskip : skipFrom fuel .value brackets c = .ok stop) :
    skipFrom fuel .value brackets c.skipGap = .ok stop := by
  cases fuel with
  | zero => cases hskip
  | succ fuel =>
    rw [skipFrom] at hskip ⊢
    rw [Cursor.skipGap_skipGap]
    exact hskip

/-- An item comes next at once if it is the first, and behind a comma if not. -/
theorem rest_of_nextItem (hnext : nextItem first c = .ok (true, start)) :
    ∃ next rest, c.skipGap.rest = next :: rest ∧ next ≠ ']' ∧
      if first then start = c.skipGap else next = ',' ∧ start = c.skipGap.advance.skipGap := by
  simp only [nextItem] at hnext
  split at hnext
  · cases hnext
  · cases hnext
  · next next rest hend hrest =>
    refine ⟨next, rest, hrest, fun heq => hend heq, ?_⟩
    split at hnext
    · next hfirst =>
      cases hnext
      rw [if_pos hfirst]
    · next hfirst =>
      rw [if_neg hfirst]
      split at hnext
      · next hcomma =>
        split at hnext <;> cases hnext
        exact ⟨hcomma, rfl⟩
      · cases hnext

/-- The next item of a list is passed over as a value. -/
theorem skipFrom_of_nextItem {fuel : Nat} {stop : Cursor}
    (hnext : nextItem first c = .ok (true, start))
    (hskip : skipFrom fuel (expectingItem first) (.list :: brackets) c = .ok stop) :
    ∃ fuel, skipFrom fuel .value (.list :: brackets) start = .ok stop := by
  obtain ⟨next, rest, hrest, hend, hstart⟩ := rest_of_nextItem hnext
  have hnotEnd : Bracket.list.isEnd next = false := beq_false_of_ne hend
  cases fuel with
  | zero => cases first <;> cases hskip
  | succ fuel =>
    cases first with
    | true =>
      cases hstart
      simp only [expectingItem, if_true, skipFrom_inside_eq, hrest, hnotEnd, Bool.false_eq_true, if_false,
        skipName] at hskip
      exact ⟨fuel, hskip⟩
    | false =>
      obtain ⟨rfl, rfl⟩ := hstart
      simp only [expectingItem, Bool.false_eq_true, if_false, skipFrom_next_eq, hrest, if_true,
        skipName] at hskip
      exact ⟨fuel, skipFrom_skipGap hskip⟩

/-- The end of a list is passed over. -/
theorem skipFrom_of_closeList {fuel : Nat} {stop : Cursor} (hclose : closeList c = (none, after))
    (hskip : skipFrom fuel (expectingItem first) (.list :: brackets) c = .ok stop) :
    ∃ fuel, skipFrom fuel .next brackets after = .ok stop := by
  simp only [closeList] at hclose
  split at hclose
  · cases hclose
  · next rest hrest =>
    cases hclose
    cases fuel with
    | zero => cases first <;> cases hskip
    | succ fuel =>
      refine ⟨fuel, ?_⟩
      cases first with
      | true =>
        simp only [expectingItem, if_true, skipFrom_inside_eq, hrest] at hskip
        exact hskip
      | false =>
        simp only [expectingItem, Bool.false_eq_true, if_false, skipFrom_next_eq, hrest] at hskip
        rw [if_neg (by decide)] at hskip
        exact hskip
  · split at hclose <;> cases hclose
  · cases hclose

/-- The items of a list are passed over up to its end. -/
theorem Items.skipFrom_next {items : List Json} (hitems : Items value first c items last)
    (hvalue : ∀ {start after : Cursor} {read : Json}, value start = .ok (read, after) →
      PassedUpTo start after)
    (hclose : closeList last = (none, after)) {fuel : Nat} {stop : Cursor}
    (hskip : skipFrom fuel (expectingItem first) (.list :: brackets) c = .ok stop) :
    ∃ fuel, skipFrom fuel .next brackets after = .ok stop := by
  induction hitems generalizing fuel with
  | nil hnext =>
    rw [eq_skipGap_of_nextItem hnext, closeList_skipGap] at hclose
    exact skipFrom_of_closeList hclose hskip
  | cons hnext hitem _ ih =>
    obtain ⟨fuel, hskip⟩ := skipFrom_of_nextItem hnext hskip
    obtain ⟨fuel, hskip⟩ := hvalue hitem hskip
    exact ih hclose hskip

/-- A member comes next at once if it is the first, and behind a comma if not; its name is read. -/
theorem rest_of_nextMember {name : String} {named : Cursor}
    (hnext : nextMember first c = .ok (some name, named)) :
    ∃ place rest, place.rest = '"' :: rest ∧ readString place.advance = .ok (name, named) ∧
      if first then place = c.skipGap
      else (∃ more, c.skipGap.rest = ',' :: more) ∧ place = c.skipGap.advance.skipGap := by
  simp only [nextMember] at hnext
  split at hnext
  · cases hnext
  · cases hnext
  · next next rest hend hrest =>
    split at hnext
    · next hfirst =>
      split at hnext
      · next hquote =>
        obtain ⟨⟨text, after⟩, hread, hnext⟩ := exists_of_bind_eq_ok hnext
        cases hnext
        exact ⟨c.skipGap, rest, hquote ▸ hrest, hread, by rw [if_pos hfirst]⟩
      · cases hnext
    · next hfirst =>
      split at hnext
      · next hcomma =>
        split at hnext
        · cases hnext
        · next more hmore =>
          obtain ⟨⟨text, after⟩, hread, hnext⟩ := exists_of_bind_eq_ok hnext
          cases hnext
          refine ⟨_, more, hmore, hread, ?_⟩
          rw [if_neg hfirst]
          exact ⟨⟨rest, hcomma ▸ hrest⟩, rfl⟩
        · cases hnext
        · cases hnext
      · cases hnext

/-- A name and its colon are passed over. -/
theorem skipName_stops {name : String} {named place stop : Cursor} {rest : List Char}
    (hrest : place.rest = '"' :: rest) (hname : readString place.advance = .ok (name, named))
    (hcolon : readColon named = .ok start) (hplace : c.skipGap = place)
    (hskip : skipName .object c = .ok stop) : stop = start := by
  subst hplace
  simp only [skipName, hrest] at hskip
  obtain ⟨after, hstring, hskip⟩ := exists_of_bind_eq_ok hskip
  obtain rfl := skipString_stops hname hstring
  simp only [readColon] at hcolon
  split at hcolon
  · next hmark =>
    simp only [hmark] at hskip
    cases hcolon
    cases hskip
    rfl
  · cases hcolon
  · cases hcolon

/-- The next member of an object is passed over up to its value. -/
theorem skipFrom_of_nextMember {fuel : Nat} {stop : Cursor} {name : String} {named : Cursor}
    (hnext : nextMember first c = .ok (some name, named)) (hcolon : readColon named = .ok start)
    (hskip : skipFrom fuel (expectingItem first) (.object :: brackets) c = .ok stop) :
    ∃ fuel, skipFrom fuel .value (.object :: brackets) start = .ok stop := by
  obtain ⟨place, rest, hrest, hname, hplace⟩ := rest_of_nextMember hnext
  cases fuel with
  | zero => cases first <;> cases hskip
  | succ fuel =>
    refine ⟨fuel, ?_⟩
    cases first with
    | true =>
      cases hplace
      simp only [expectingItem, if_true, skipFrom_inside_eq, hrest] at hskip
      rw [if_neg (by decide)] at hskip
      obtain ⟨after, hpassed, hskip⟩ := exists_of_bind_eq_ok hskip
      obtain rfl := skipName_stops hrest hname hcolon (Cursor.skipGap_skipGap c) hpassed
      exact hskip
    | false =>
      obtain ⟨⟨more, hcomma⟩, rfl⟩ := hplace
      simp only [expectingItem, Bool.false_eq_true, if_false, skipFrom_next_eq, hcomma, if_true] at hskip
      obtain ⟨after, hpassed, hskip⟩ := exists_of_bind_eq_ok hskip
      obtain rfl := skipName_stops hrest hname hcolon rfl hpassed
      exact hskip

/-- The end of an object is passed over. -/
theorem skipFrom_of_closeObject {fuel : Nat} {stop : Cursor}
    (hclose : closeObject c = (none, after))
    (hskip : skipFrom fuel (expectingItem first) (.object :: brackets) c = .ok stop) :
    ∃ fuel, skipFrom fuel .next brackets after = .ok stop := by
  simp only [closeObject] at hclose
  split at hclose
  · cases hclose
  · next rest hrest =>
    cases hclose
    cases fuel with
    | zero => cases first <;> cases hskip
    | succ fuel =>
      refine ⟨fuel, ?_⟩
      cases first with
      | true =>
        simp only [expectingItem, if_true, skipFrom_inside_eq, hrest] at hskip
        exact hskip
      | false =>
        simp only [expectingItem, Bool.false_eq_true, if_false, skipFrom_next_eq, hrest] at hskip
        rw [if_neg (by decide)] at hskip
        exact hskip
  · cases hclose
  · cases hclose

/-- The members of an object are passed over up to its end. -/
theorem Members.skipFrom_next {members : List (String × Json)}
    (hmembers : Members value first c members last)
    (hvalue : ∀ {start after : Cursor} {read : Json}, value start = .ok (read, after) →
      PassedUpTo start after)
    (hclose : closeObject last = (none, after)) {fuel : Nat} {stop : Cursor}
    (hskip : skipFrom fuel (expectingItem first) (.object :: brackets) c = .ok stop) :
    ∃ fuel, skipFrom fuel .next brackets after = .ok stop := by
  induction hmembers generalizing fuel with
  | nil hnext =>
    rw [eq_skipGap_of_nextMember hnext, closeObject_skipGap] at hclose
    exact skipFrom_of_closeObject hclose hskip
  | cons hnext hcolon hitem _ ih =>
    obtain ⟨fuel, hskip⟩ := skipFrom_of_nextMember hnext hcolon hskip
    obtain ⟨fuel, hskip⟩ := hvalue hitem hskip
    exact ih hclose hskip

/-- What can be read as a value is passed over up to where it ends. -/
theorem passedUpTo_of_readAny {depth : Nat} {read : Json}
    (hread : readAny depth c = .ok (read, after)) : PassedUpTo c after := by
  induction depth generalizing c after read with
  | zero => cases hread
  | succ depth ih =>
    intro fuel brackets stop hskip
    cases fuel with
    | zero => cases hskip
    | succ fuel =>
      rw [skipFrom] at hskip
      cases value_of_readAny hread with
      | null hrest hword | true hrest hword | false hrest hword =>
        simp only [hrest, hword] at hskip
        exact ⟨fuel, hskip⟩
      | negative hrest hnumber =>
        simp only [hrest, skipNumber_of_readNumber hnumber] at hskip
        exact ⟨fuel, hskip⟩
      | number hrest hfirst hnumber =>
        rw [hrest] at hskip
        split at hskip
        case h_9 heq =>
          cases heq
          rw [if_pos hfirst, skipNumber_of_readNumber hnumber] at hskip
          exact ⟨fuel, hskip⟩
        all_goals next heq => cases heq <;> cases hfirst
      | string hrest hstring =>
        simp only [hrest] at hskip
        obtain ⟨place, hpassed, hskip⟩ := exists_of_bind_eq_ok hskip
        obtain rfl := skipString_stops hstring hpassed
        exact ⟨fuel, hskip⟩
      | array hrest hitems hclose =>
        simp only [hrest] at hskip
        exact hitems.skipFrom_next ih hclose hskip
      | object hrest hmembers hclose =>
        simp only [hrest] at hskip
        exact hmembers.skipFrom_next ih hclose hskip

/-- A value ends for its reader where it ends for who passes over it. -/
theorem skipValue_stops {depth : Nat} {read : Json} {stop : Cursor}
    (hread : readAny depth c = .ok (read, after)) (hskip : skipValue c = .ok stop) :
    stop = after := by
  obtain ⟨fuel, hskip⟩ := passedUpTo_of_readAny hread hskip
  cases fuel <;> cases hskip
  rfl

end SchemaEvolution.Json
