import SchemaEvolution.Json.Printer
import SchemaEvolution.Proofs.Json.Cursor
import SchemaEvolution.Proofs.Numeral.Whole
import SchemaEvolution.Repeated

/-!
# Numbers before other text

A number that is read at the end of a text is read alike before anything that may follow a
value: none of that continues a run of digits, opens a fraction or marks an exponent.
-/

namespace SchemaEvolution.Json

variable {c c' : Cursor} {tail : List Char}

/-- Nothing that may follow a value is part of a number. -/
theorem Follows.head_ne (hfollows : Follows tail) (char : Char)
    (hchar : char ∉ terminators) (rest : List Char) : tail ≠ char :: rest := by
  rintro rfl
  exact hchar (hfollows char rfl)

theorem Follows.isDigit_eq_false {char : Char} {rest : List Char}
    (hfollows : Follows (char :: rest)) : char.isDigit = false := by
  have hmem := hfollows char rfl
  simp only [terminators, List.mem_cons, List.not_mem_nil, or_false] at hmem
  rcases hmem with rfl | rfl | rfl | rfl | rfl | rfl | rfl <;> rfl

theorem Follows.startsWithDigit (hfollows : Follows tail) (text : List Char) :
    (text ++ tail).head?.any Char.isDigit = text.head?.any Char.isDigit := by
  cases text with
  | cons first rest => rfl
  | nil =>
    cases tail with
    | nil => rfl
    | cons char rest => exact hfollows.isDigit_eq_false

/-- What follows a number adds no digit to it. -/
theorem Follows.takeWhile_isDigit (hfollows : Follows tail) (text : List Char) :
    (text ++ tail).takeWhile Char.isDigit = text.takeWhile Char.isDigit := by
  cases tail with
  | nil => rw [List.append_nil]
  | cons char rest =>
    have hchar := hfollows.isDigit_eq_false
    rw [List.takeWhile_append]
    split
    · rw [List.takeWhile_cons_of_neg (by rw [hchar]; decide), List.append_nil]
      next hall => exact (List.takeWhile_prefix _).eq_of_length hall |>.symm
    · rfl

/-- The run of digits is the same, and what comes after it is longer by what follows. -/
theorem Follows.digits (hfollows : Follows tail) (hrest : c'.rest = c.rest ++ tail) :
    c'.digits.1 = c.digits.1 ∧ c'.digits.2.rest = c.digits.2.rest ++ tail := by
  have hrun := hfollows.takeWhile_isDigit c.rest
  have hlength := (List.takeWhile_prefix (p := Char.isDigit) (l := c.rest)).length_le
  constructor
  · rw [Cursor.fst_digits, Cursor.fst_digits, hrest, hrun]
  · simp only [Cursor.digits, hrest, hrun]
    exact List.drop_append_of_le_length hlength

/-- One outcome is the other with more text left, if that is a number at all. -/
def LeavesMore (tail : List Char) (outcome longer : Except ReadFault (Number × Cursor)) : Prop :=
  ∀ number after, outcome = .ok (number, after) →
    ∃ after', longer = .ok (number, after') ∧ after'.rest = after.rest ++ tail

theorem leavesMore_error (fault : ReadFault) (longer : Except ReadFault (Number × Cursor)) :
    LeavesMore tail (.error fault) longer := nofun

theorem leavesMore_ok (number : Number) (hrest : c'.rest = c.rest ++ tail) :
    LeavesMore tail (.ok (number, c)) (.ok (number, c')) := by
  rintro _ _ ⟨⟩
  exact ⟨c', rfl, hrest⟩

theorem leavesMore_finishDouble (negative : Bool) (significand : Nat) (power : Int)
    (hrest : c'.rest = c.rest ++ tail) :
    LeavesMore tail (finishDouble negative significand power c)
      (finishDouble negative significand power c') := by
  unfold finishDouble
  cases doubleOf negative significand power with
  | none => exact leavesMore_error _ _
  | some value => exact leavesMore_ok _ hrest

def powerSign (c : Cursor) : Bool × Cursor :=
  match c.rest with
  | '+' :: _ => (false, c.advance)
  | '-' :: _ => (true, c.advance)
  | _ => (false, c)

def readPowerDigits (negative : Bool) (significand : Nat) (start : Int) (down : Bool)
    (c : Cursor) : Except ReadFault (Number × Cursor) :=
  match c.rest with
  | [] => .error (c.failHere .eofInValue)
  | first :: _ =>
    if !first.isDigit then .error (c.failNext .invalidNumber)
    else
      match accumulatePower 0 c.digits.1 with
      | (power, []) =>
        let total := if down then start - power else start + power
        finishDouble negative significand (max leastPower (min greatestPower total)) c.digits.2
      | (_, excess) =>
        if significand != 0 && !down then
          .error ((c.skip (c.digits.1.length - excess.length + 1)).failHere .numberOutOfRange)
        else .ok (.double (.zero negative), c.digits.2)

theorem readPower_eq (negative : Bool) (significand : Nat) (start : Int) (c : Cursor) :
    readPower negative significand start c =
      readPowerDigits negative significand start (powerSign c.advance).1
        (powerSign c.advance).2 := rfl

/-- What follows a number adds no sign to its exponent. -/
theorem Follows.powerSign (hfollows : Follows tail) (hrest : c'.rest = c.rest ++ tail) :
    (powerSign c').1 = (powerSign c).1 ∧
      (powerSign c').2.rest = (powerSign c).2.rest ++ tail := by
  obtain ⟨rest, line, column⟩ := c
  obtain ⟨rest', line', column'⟩ := c'
  cases hrest
  cases rest with
  | nil =>
    have hplus := hfollows.head_ne '+' (by decide)
    have hminus := hfollows.head_ne '-' (by decide)
    unfold Json.powerSign
    split
    · next rest heq => exact absurd heq (hplus rest)
    · next rest heq => exact absurd heq (hminus rest)
    · exact ⟨rfl, rfl⟩
  | cons first rest =>
    by_cases hplus : first = '+'
    · subst hplus
      exact ⟨rfl, by simp [Json.powerSign]⟩
    · by_cases hminus : first = '-'
      · subst hminus
        exact ⟨rfl, by simp [Json.powerSign]⟩
      · simp [Json.powerSign, hplus, hminus]

/-- The digits of an exponent end where the number ends. -/
theorem leavesMore_readPowerDigits (negative : Bool) (significand : Nat) (start : Int)
    (down : Bool) (hfollows : Follows tail) (hrest : c'.rest = c.rest ++ tail) :
    LeavesMore tail (readPowerDigits negative significand start down c)
      (readPowerDigits negative significand start down c') := by
  obtain ⟨hrun, hafter⟩ := hfollows.digits hrest
  unfold readPowerDigits
  rw [hrun, hrest]
  cases c.rest with
  | nil => exact leavesMore_error _ _
  | cons first rest =>
    simp only [List.cons_append]
    by_cases hdigit : first.isDigit = true
    · rw [if_neg (by simp [hdigit]), if_neg (by simp [hdigit])]
      split
      · exact leavesMore_finishDouble _ _ _ hafter
      · split
        · exact leavesMore_error _ _
        · exact leavesMore_ok _ hafter
    · rw [if_pos (by simp [hdigit])]
      exact leavesMore_error _ _

theorem leavesMore_readPower (negative : Bool) (significand : Nat) (start : Int)
    (hfollows : Follows tail) (hrest : c'.advance.rest = c.advance.rest ++ tail) :
    LeavesMore tail (readPower negative significand start c)
      (readPower negative significand start c') := by
  obtain ⟨hsign, hafter⟩ := hfollows.powerSign hrest
  rw [readPower_eq, readPower_eq, hsign]
  exact leavesMore_readPowerDigits _ _ _ _ hfollows hafter

/-- What a text continues a number with. -/
inductive Mark where
  | point
  | power
  | none

def markOf : List Char → Mark
  | '.' :: _ => .point
  | 'e' :: _ | 'E' :: _ => .power
  | _ => .none

/-- What follows a number does not continue it. -/
theorem Follows.markOf (hfollows : Follows tail) (text : List Char) :
    markOf (text ++ tail) = markOf text := by
  cases text with
  | nil =>
    have hpoint := hfollows.head_ne '.' (by decide)
    have hlower := hfollows.head_ne 'e' (by decide)
    have hupper := hfollows.head_ne 'E' (by decide)
    rw [List.nil_append]
    unfold Json.markOf
    split
    · next rest => exact absurd rfl (hpoint rest)
    · next rest => exact absurd rfl (hlower rest)
    · next rest => exact absurd rfl (hupper rest)
    · rfl
  | cons first rest =>
    rw [List.cons_append]
    unfold Json.markOf
    split <;> simp_all

theorem markOf_ne_power {text : List Char} (hlower : ∀ rest, text = 'e' :: rest → False)
    (hupper : ∀ rest, text = 'E' :: rest → False) : markOf text ≠ .power := by
  unfold markOf
  split <;> simp_all

def afterFraction (negative : Bool) (significand : Nat) (power : Int) (c : Cursor) :
    Except ReadFault (Number × Cursor) :=
  match c.rest with
  | 'e' :: _ | 'E' :: _ => readPower negative significand power c
  | _ => finishDouble negative significand power c

theorem readFraction_eq (negative : Bool) (significand : Nat) (start : Int) (c : Cursor) :
    readFraction negative significand start c =
      if c.advance.digits.1.isEmpty then
        .error (if c.advance.rest.isEmpty then c.advance.failNext .eofInValue
          else c.advance.failNext .invalidNumber)
      else
        afterFraction negative (accumulate significand c.advance.digits.1).1
          (start - ((c.advance.digits.1.length -
            (accumulate significand c.advance.digits.1).2.length : Nat) : Int))
          c.advance.digits.2 := rfl

/-- Behind a fraction there is an exponent or the end of the number. -/
theorem afterFraction_eq (negative : Bool) (significand : Nat) (power : Int) (c : Cursor) :
    afterFraction negative significand power c =
      match markOf c.rest with
      | .power => readPower negative significand power c
      | _ => finishDouble negative significand power c := by
  unfold afterFraction
  generalize c.rest = text
  split
  · rfl
  · rfl
  · next hlower hupper =>
    cases hmark : markOf text with
    | power => exact absurd hmark (markOf_ne_power hlower hupper)
    | point => rfl
    | none => rfl

def afterWhole (negative : Bool) (run : List Char) (c : Cursor) :
    Except ReadFault (Number × Cursor) :=
  match c.rest with
  | '.' :: _ => readFraction negative (accumulate 0 run).1 (accumulate 0 run).2.length c
  | 'e' :: _ | 'E' :: _ => readPower negative (accumulate 0 run).1 (accumulate 0 run).2.length c
  | _ =>
    if (accumulate 0 run).2.isEmpty then .ok (wholeNumber negative (accumulate 0 run).1, c)
    else finishDouble negative (accumulate 0 run).1 (accumulate 0 run).2.length c

theorem afterWhole_eq (negative : Bool) (run : List Char) (c : Cursor) :
    afterWhole negative run c =
      match markOf c.rest with
      | .point => readFraction negative (accumulate 0 run).1 (accumulate 0 run).2.length c
      | .power => readPower negative (accumulate 0 run).1 (accumulate 0 run).2.length c
      | .none =>
        if (accumulate 0 run).2.isEmpty then
          .ok (wholeNumber negative (accumulate 0 run).1, c)
        else
          finishDouble negative (accumulate 0 run).1 (accumulate 0 run).2.length c := by
  unfold afterWhole
  generalize c.rest = text
  unfold markOf
  split <;> rfl

/-- A number starts with a zero alone or with digits of which the first is none. -/
theorem readNumber_eq (negative : Bool) (c : Cursor) :
    readNumber negative c =
      match c.rest with
      | [] => .error (c.failHere .eofInValue)
      | first :: _ =>
        if !first.isDigit then .error (c.failNext .invalidNumber)
        else if first = '0' then
          if c.advance.rest.head?.any Char.isDigit then
            .error (c.advance.failNext .invalidNumber)
          else afterWhole negative ['0'] c.advance
        else afterWhole negative c.digits.1 c.digits.2 := by
  unfold readNumber
  cases c.rest with
  | nil => rfl
  | cons first rest =>
    by_cases hzero : first = '0'
    · subst hzero
      rfl
    · simp only [hzero, if_false, decide_false, Bool.false_and]
      rfl

/-- The rest of a text starts as the longer rest does, unless it is empty. -/
theorem advance_append (hrest : c'.rest = c.rest ++ tail) (hmore : c.rest ≠ []) :
    c'.advance.rest = c.advance.rest ++ tail := by
  rw [Cursor.rest_advance, Cursor.rest_advance, hrest, List.tail_append_of_ne_nil hmore]

theorem leavesMore_afterFraction (negative : Bool) (significand : Nat) (power : Int)
    (hfollows : Follows tail) (hrest : c'.rest = c.rest ++ tail) :
    LeavesMore tail (afterFraction negative significand power c)
      (afterFraction negative significand power c') := by
  rw [afterFraction_eq, afterFraction_eq, hrest, hfollows.markOf]
  cases hmark : markOf c.rest with
  | power =>
    have hadvance := advance_append hrest (by rintro heq; rw [heq] at hmark; cases hmark)
    exact leavesMore_readPower _ _ _ hfollows hadvance
  | point => exact leavesMore_finishDouble _ _ _ hrest
  | none => exact leavesMore_finishDouble _ _ _ hrest

theorem leavesMore_readFraction (negative : Bool) (significand : Nat) (start : Int)
    (hfollows : Follows tail) (hrest : c'.advance.rest = c.advance.rest ++ tail) :
    LeavesMore tail (readFraction negative significand start c)
      (readFraction negative significand start c') := by
  obtain ⟨hrun, hafter⟩ := hfollows.digits hrest
  rw [readFraction_eq, readFraction_eq, hrun]
  split
  · exact leavesMore_error _ _
  · exact leavesMore_afterFraction _ _ _ hfollows hafter

/-- A number is read up to what follows it, whichever parts it has. -/
theorem leavesMore_afterWhole (negative : Bool) (run : List Char) (hfollows : Follows tail)
    (hrest : c'.rest = c.rest ++ tail) :
    LeavesMore tail (afterWhole negative run c) (afterWhole negative run c') := by
  rw [afterWhole_eq, afterWhole_eq, hrest, hfollows.markOf]
  cases hmark : markOf c.rest with
  | point =>
    have hadvance := advance_append hrest (by rintro heq; rw [heq] at hmark; cases hmark)
    exact leavesMore_readFraction _ _ _ hfollows hadvance
  | power =>
    have hadvance := advance_append hrest (by rintro heq; rw [heq] at hmark; cases hmark)
    exact leavesMore_readPower _ _ _ hfollows hadvance
  | none =>
    dsimp only
    split
    · exact leavesMore_ok _ hrest
    · exact leavesMore_finishDouble _ _ _ hrest

/-- A number is read alike before anything that may follow a value. -/
theorem leavesMore_readNumber (negative : Bool) (hfollows : Follows tail)
    (hrest : c'.rest = c.rest ++ tail) :
    LeavesMore tail (readNumber negative c) (readNumber negative c') := by
  rw [readNumber_eq, readNumber_eq, hrest]
  cases hc : c.rest with
  | nil => exact leavesMore_error _ _
  | cons first rest =>
    have hadvance := advance_append hrest (by rw [hc]; exact List.cons_ne_nil _ _)
    simp only [List.cons_append]
    split
    · exact leavesMore_error _ _
    · split
      · rw [hadvance, hfollows.startsWithDigit]
        split
        · exact leavesMore_error _ _
        · exact leavesMore_afterWhole _ _ hfollows hadvance
      · obtain ⟨hrun, hafter⟩ := hfollows.digits hrest
        rw [hrun]
        exact leavesMore_afterWhole _ _ hfollows hafter

/-- What a reader of any value did when it gave a number. -/
theorem readNumber_of_readAny {depth : Nat} {number : Number} {after : Cursor}
    (hread : readAny (depth + 1) c = .ok (.number number, after)) :
    (∃ rest, c.skipGap.rest = '-' :: rest ∧
        readNumber true c.skipGap.advance = .ok (number, after)) ∨
      ∃ first rest, c.skipGap.rest = first :: rest ∧ first.isDigit = true ∧
        readNumber false c.skipGap = .ok (number, after) := by
  unfold readAny at hread
  dsimp only at hread
  split at hread
  · cases hread
  iterate 3
    · obtain ⟨_, -, hlast⟩ := exists_of_bind_eq_ok hread
      cases hlast
  · next rest heq =>
    obtain ⟨_, hnumber, hlast⟩ := exists_of_bind_eq_ok hread
    cases hlast
    exact .inl ⟨rest, heq, hnumber⟩
  · obtain ⟨_, -, hlast⟩ := exists_of_bind_eq_ok hread
    cases hlast
  iterate 2
    · split at hread
      · cases hread
      · obtain ⟨_, -, hlast⟩ := exists_of_bind_eq_ok hread
        cases hlast
  · next first rest _ _ _ _ _ _ _ heq =>
    split at hread
    · next hdigit =>
      obtain ⟨_, hnumber, hlast⟩ := exists_of_bind_eq_ok hread
      cases hlast
      exact .inr ⟨first, rest, heq, hdigit, hnumber⟩
    · cases hread

theorem readAny_of_minus {rest : List Char} {number : Number} {after : Cursor} (depth : Nat)
    (hrest : c.skipGap.rest = '-' :: rest)
    (hread : readNumber true c.skipGap.advance = .ok (number, after)) :
    readAny (depth + 1) c = .ok (.number number, after) := by
  simp only [readAny, hrest, hread]
  rfl

/-- A value that starts with a digit is the number that is read there. -/
theorem readAny_of_digit {first : Char} {rest : List Char} {number : Number} {after : Cursor}
    (depth : Nat) (hrest : c.skipGap.rest = first :: rest) (hfirst : first.isDigit = true)
    (hread : readNumber false c.skipGap = .ok (number, after)) :
    readAny (depth + 1) c = .ok (.number number, after) := by
  have hne : ∀ other : Char, other.isDigit = false → first ≠ other := by
    rintro other hother rfl
    rw [hfirst] at hother
    cases hother
  have hletters := And.intro (hne 'n' rfl) (And.intro (hne 't' rfl) (hne 'f' rfl))
  have hquotes := And.intro (hne '-' rfl) (hne '"' rfl)
  have hbrackets := And.intro (hne '[' rfl) (hne '\x7b' rfl)
  simp only [readAny, hrest, hread]
  split <;> simp_all

def Number.ReadsBack (number : Number) : Prop := Json.parse number.text = .ok (.number number)

/-- A text that is parsed to a number holds nothing behind it. -/
theorem readAny_of_parse {text : String} {number : Number}
    (hparse : Json.parse text = .ok (.number number)) :
    ∃ after, readAny depthLimit (Cursor.start text) = .ok (.number number, after) ∧
      after.At [] := by
  unfold parse readText at hparse
  cases hread : readAny depthLimit (Cursor.start text) with
  | error fault =>
    rw [hread] at hparse
    cases hparse
  | ok read =>
    obtain ⟨value, after⟩ := read
    rw [hread] at hparse
    change Except.map distinct (if after.skipGap.rest.isEmpty then _ else _) = _ at hparse
    split at hparse
    · next hempty =>
      have hvalue : value.distinct = .number number := Except.ok.inj hparse
      have hsame : value = .number number := by
        cases value with
        | number other => exact hvalue
        | _ => cases hvalue
      rw [hsame]
      refine ⟨after, rfl, ?_⟩
      rw [Cursor.At, ← Cursor.rest_skipGap, List.isEmpty_iff.1 hempty]
      rfl
    · cases hparse

/-- A number that is read back from its text is read back from it wherever it stands. -/
theorem Number.ReadsBack.reads {number : Number} (hback : number.ReadsBack) (depth : Nat) :
    Reads (readAny (depth + 1)) number.text.toList (.number number) := by
  intro c tail hat hfollows
  obtain ⟨last, hread, hlast⟩ := readAny_of_parse hback
  have hleft := (Cursor.at_start number.text).rest_skipGap
  have hmore : ∀ after : Cursor, after.rest = last.rest ++ tail → after.At tail := by
    intro after hafter
    rw [Cursor.At, hafter, List.dropWhile_append, hlast]
    rfl
  have hrest : ∀ {first : Char} {rest : List Char},
      (Cursor.start number.text).skipGap.rest = first :: rest →
      c.skipGap.rest = (Cursor.start number.text).skipGap.rest ++ tail := by
    intro first rest heq
    rw [hat.rest_skipGap, List.dropWhile_append, ← hleft, heq]
    rfl
  rcases readNumber_of_readAny hread with ⟨rest, heq, hnumber⟩ | ⟨first, rest, heq, hfirst, hnumber⟩
  · have hadvance := advance_append (hrest heq) (by rw [heq]; exact List.cons_ne_nil _ _)
    obtain ⟨after, hafter, hafterRest⟩ :=
      leavesMore_readNumber true hfollows hadvance number last hnumber
    have hminus := hrest heq
    rw [heq, List.cons_append] at hminus
    exact ⟨after, readAny_of_minus depth hminus hafter, hmore after hafterRest⟩
  · obtain ⟨after, hafter, hafterRest⟩ :=
      leavesMore_readNumber false hfollows (hrest heq) number last hnumber
    have hdigit := hrest heq
    rw [heq, List.cons_append] at hdigit
    exact ⟨after, readAny_of_digit depth hdigit hfirst hafter, hmore after hafterRest⟩

/-- The text of a number that is read back starts with a sign or a digit. -/
theorem Number.ReadsBack.starts {number : Number} (hback : number.ReadsBack) :
    ∃ first rest, number.text.toList.dropWhile Cursor.isGap = first :: rest ∧
      (first = '-' ∨ first.isDigit = true) := by
  obtain ⟨last, hread, -⟩ := readAny_of_parse hback
  rw [← (Cursor.at_start number.text).rest_skipGap]
  rcases readNumber_of_readAny hread with ⟨rest, heq, -⟩ | ⟨first, rest, heq, hfirst, -⟩
  · exact ⟨'-', rest, heq, .inl rfl⟩
  · exact ⟨first, rest, heq, .inr hfirst⟩

/-! ## Whole numbers -/

open Numeral (digitValue)

theorem accumulate_eq {digits : List Char} {significand : Nat}
    (hfits : digits.foldl (fun total c => total * 10 + digitValue c) significand ≤ greatestWord) :
    accumulate significand digits =
      (digits.foldl (fun total c => total * 10 + digitValue c) significand, []) := by
  induction digits generalizing significand with
  | nil => rfl
  | cons digit rest ih =>
    rw [List.foldl_cons] at hfits ⊢
    have hnext := Nat.le_trans (Numeral.digitsValue_cons_le _ rest) hfits
    rw [accumulate, if_neg (Nat.not_lt.2 hnext)]
    exact ih hfits

theorem Number.text_natCast (n : Nat) : (Number.integer n).text.toList = Nat.toDigits 10 n :=
  Nat.toList_repr

theorem afterWhole_of_rest_nil {negative : Bool} {run : List Char} {c : Cursor} {n : Nat}
    (hrest : c.rest = []) (hrun : accumulate 0 run = (n, [])) :
    afterWhole negative run c = .ok (wholeNumber negative n, c) := by
  rw [afterWhole_eq, hrest, hrun]
  rfl

/-- The digits of a whole number of 64 bits are read as that number. -/
theorem readNumber_toDigits {n : Nat} (hn : n ≤ greatestWord) {c : Cursor}
    (hrest : c.rest = Nat.toDigits 10 n) :
    ∃ after, readNumber false c = .ok (.integer n, after) ∧ after.rest = [] := by
  obtain ⟨first, rest, hdigits, hfirst⟩ := Numeral.toDigits_eq_cons n
  have hvalue : accumulate 0 (Nat.toDigits 10 n) = (n, []) := by
    have heq := Numeral.digitsValue_toDigits n
    rw [Numeral.digitsValue] at heq
    rw [accumulate_eq (by rw [heq]; exact hn), heq]
  rw [readNumber_eq, hrest, hdigits]
  simp only [hfirst, Bool.not_true, Bool.false_eq_true, if_false]
  by_cases hzero : first = '0'
  · obtain rfl : n = 0 := by
      by_contra hne
      exact Numeral.head?_toDigits_ne hne (by rw [hdigits, hzero]; rfl)
    have hadvance : c.advance.rest = [] := by
      rw [Cursor.rest_advance, hrest]
      rfl
    refine ⟨c.advance, ?_, hadvance⟩
    rw [if_pos hzero, hadvance]
    exact afterWhole_of_rest_nil hadvance rfl
  · have hrun : c.digits.1 = Nat.toDigits 10 n := by
      rw [Cursor.fst_digits, hrest, List.takeWhile_eq_self_iff]
      exact List.all_eq_true.1 (Numeral.all_isDigit_toDigits n)
    have hafter : c.digits.2.rest = [] := by
      have hlength : c.digits.2.rest = c.rest.drop c.digits.1.length := rfl
      rw [hlength, hrun, hrest, List.drop_length]
    refine ⟨c.digits.2, ?_, hafter⟩
    rw [if_neg hzero, hrun]
    exact afterWhole_of_rest_nil hafter hvalue

/-- A whole number of 64 bits is read back. -/
theorem Number.readsBack_natCast {n : Nat} (hn : n ≤ greatestWord) :
    (Number.integer n).ReadsBack := by
  obtain ⟨first, rest, hdigits, hfirst⟩ := Numeral.toDigits_eq_cons n
  have hat : (Cursor.start (Number.integer n).text).At (Nat.toDigits 10 n) :=
    .of_rest (Number.text_natCast n)
  have hgap : Cursor.isGap first = false := by
    have hne := fun char => @Numeral.ne_of_isDigit first char hfirst
    simp [Cursor.isGap, hne]
  have hrest : (Cursor.start (Number.integer n).text).skipGap.rest = Nat.toDigits 10 n := by
    rw [hdigits] at hat ⊢
    exact hat.rest_cons hgap
  obtain ⟨after, hread, hafter⟩ := readNumber_toDigits hn hrest
  have hany := readAny_of_digit 127 (hrest.trans hdigits) hfirst hread
  have hend : after.skipGap.rest = [] := by
    rw [Cursor.rest_skipGap, hafter]
    rfl
  rw [ReadsBack, parse, readText, depthLimit, hany]
  change Except.map distinct (if after.skipGap.rest.isEmpty then _ else _) = _
  rw [hend]
  rfl

end SchemaEvolution.Json
