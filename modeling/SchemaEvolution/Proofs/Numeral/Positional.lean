import SchemaEvolution.Proofs.Numeral.Shortest
import SchemaEvolution.Proofs.Numeral.Whole

/-!
# Numbers printed with a point

A number that is printed without an exponent has digits on both sides of a point.  The digits denote
the number, so it is read back.
-/

namespace SchemaEvolution.Numeral

/-- Digits before and after a point, and the value they denote. -/
structure Positional (text whole fraction : List Char) (value : ℚ) : Prop where
  text_eq : text = whole ++ '.' :: fraction
  whole_digits : ∀ c ∈ whole, c.isDigit = true
  fraction_digits : ∀ c ∈ fraction, c.isDigit = true
  whole_some : whole ≠ []
  fraction_some : fraction ≠ []
  value_eq : (digitsValue (whole ++ fraction) : ℚ) / 10 ^ fraction.length = value
  /-- The number is not so small that it is taken for zero unread. -/
  size : fraction.length ≤ (digitsValue (whole ++ fraction)).log2 / 3 + 400

theorem digitsValue_append (left right : List Char) :
    digitsValue (left ++ right) = digitsValue left * 10 ^ right.length + digitsValue right := by
  simp only [digitsValue_eq_ofDigitChars, Nat.ofDigitChars_append]
  rw [Nat.ofDigitChars_eq_ofDigitChars_zero, Nat.mul_comm]

theorem digitsValue_zeros (count : Nat) : digitsValue (List.replicate count '0') = 0 := by
  induction count with
  | zero => rfl
  | succ count ih => rw [List.replicate_succ', digitsValue_append, ih]; rfl

theorem isDigit_of_mem_toDigits {n : Nat} {c : Char} (hmem : c ∈ Nat.toDigits 10 n) :
    c.isDigit = true :=
  Nat.isDigit_of_mem_toDigits (by decide) (by decide) hmem

theorem isDigit_of_mem_zeros {count : Nat} {c : Char} (hmem : c ∈ List.replicate count '0') :
    c.isDigit = true := by
  rw [List.eq_of_mem_replicate hmem]
  rfl

theorem isDigit_of_mem_zero {c : Char} (hmem : c ∈ ['0']) : c.isDigit = true := by
  rw [List.mem_singleton.1 hmem]
  rfl

theorem positional_zero : Positional ['0', '.', '0'] ['0'] ['0'] 0 where
  text_eq := rfl
  whole_digits := fun _ => isDigit_of_mem_zero
  fraction_digits := fun _ => isDigit_of_mem_zero
  whole_some := List.cons_ne_nil _ _
  fraction_some := List.cons_ne_nil _ _
  value_eq := by
    have hdigits : digitsValue (['0'] ++ ['0']) = 0 := rfl
    rw [hdigits, Nat.cast_zero, zero_div]
  size := Nat.le_add_left_of_le (by decide)

section Layouts

variable {digits : List Char} {power : Int} (hdigits : ∀ c ∈ digits, c.isDigit = true)
  (hsome : digits ≠ []) (hsize : digits.length ≤ (digitsValue digits).log2 / 3 + 1)

include hdigits

/-- Digits and zeros before the point. -/
theorem positional_whole (hsome : digits ≠ []) (hpower : 0 ≤ power) :
    Positional (digits ++ List.replicate power.toNat '0' ++ ['.', '0'])
      (digits ++ List.replicate power.toNat '0') ['0'] (digitsValue digits * 10 ^ power) where
  text_eq := rfl
  whole_digits := fun c hmem => (List.mem_append.1 hmem).elim (hdigits c) isDigit_of_mem_zeros
  fraction_digits := fun _ => isDigit_of_mem_zero
  whole_some := List.append_ne_nil_of_left_ne_nil hsome _
  fraction_some := List.cons_ne_nil _ _
  value_eq := by
    obtain ⟨n, rfl⟩ := Int.eq_ofNat_of_zero_le hpower
    have hlast : digitsValue ['0'] = 0 := rfl
    rw [digitsValue_append, digitsValue_append, digitsValue_zeros, hlast]
    simp
  size := Nat.le_add_left_of_le (by decide)

include hsize

/-- The point among the digits. -/
theorem positional_among (hpower : power < 0) (hpoint : 0 < (digits.length : Int) + power) :
    Positional (digits.take (digits.length + power).toNat ++ ['.'] ++
        digits.drop (digits.length + power).toNat)
      (digits.take (digits.length + power).toNat) (digits.drop (digits.length + power).toNat)
      (digitsValue digits * 10 ^ power) := by
  obtain ⟨n, hn⟩ := Int.eq_ofNat_of_zero_le (a := -power) (by omega)
  obtain rfl : power = -n := by omega
  have hlength : (digits.drop (digits.length + -(n : Int)).toNat).length = n := by
    rw [List.length_drop]
    omega
  constructor
  · rw [List.append_assoc, List.singleton_append]
  · exact fun c hmem => hdigits c (List.mem_of_mem_take hmem)
  · exact fun c hmem => hdigits c (List.mem_of_mem_drop hmem)
  · rw [← List.length_pos_iff, List.length_take]
    omega
  · rw [← List.length_pos_iff, hlength]
    omega
  · rw [hlength, List.take_append_drop, zpow_neg, zpow_natCast, div_eq_mul_inv]
  · rw [hlength, List.take_append_drop]
    omega

/-- Zeros between the point and the digits. -/
theorem positional_after (hsome : digits ≠ []) (hpoint : (digits.length : Int) + power ≤ 0)
    (hzeros : -4 ≤ (digits.length : Int) + power) :
    Positional (['0', '.'] ++ List.replicate (-(digits.length + power)).toNat '0' ++ digits) ['0']
      (List.replicate (-(digits.length + power)).toNat '0' ++ digits)
      (digitsValue digits * 10 ^ power) := by
  obtain ⟨n, hn⟩ := Int.eq_ofNat_of_zero_le (a := -power) (by omega)
  obtain rfl : power = -n := by omega
  generalize hcount : (-((digits.length : Int) + -(n : Int))).toNat = count
  have hlength : (List.replicate count '0' ++ digits).length = n := by
    rw [List.length_append, List.length_replicate]
    omega
  have hvalue : digitsValue (['0'] ++ (List.replicate count '0' ++ digits)) =
      digitsValue digits := by
    have hfirst : digitsValue ['0'] = 0 := rfl
    rw [digitsValue_append, digitsValue_append, digitsValue_zeros, hfirst, Nat.zero_mul,
      Nat.zero_mul, Nat.zero_add, Nat.zero_add]
  constructor
  · rw [List.append_assoc]
    rfl
  · exact fun _ => isDigit_of_mem_zero
  · exact fun c hmem => (List.mem_append.1 hmem).elim isDigit_of_mem_zeros (hdigits c)
  · exact List.cons_ne_nil _ _
  · exact List.append_ne_nil_of_right_ne_nil _ hsome
  · rw [hlength, hvalue, zpow_neg, zpow_natCast, div_eq_mul_inv]
  · rw [hlength, hvalue]
    omega

end Layouts

/-- A decimal that is printed without an exponent has digits on both sides of a point. -/
theorem exists_positional {d : Decimal} (hplain : 'e' ∉ (Layout.standard.text d).toList) :
    ∃ whole fraction,
      Positional (Layout.standard.text d).toList whole fraction (d.digits * 10 ^ d.power) := by
  have htext : (Nat.repr d.digits).toList = Nat.toDigits 10 d.digits := Nat.toList_repr
  have hdigits : ∀ c ∈ Nat.toDigits 10 d.digits, c.isDigit = true :=
    fun c => isDigit_of_mem_toDigits
  have hsome : Nat.toDigits 10 d.digits ≠ [] := Nat.toDigits_ne_nil
  have hvalue := digitsValue_toDigits d.digits
  have hsize : (Nat.toDigits 10 d.digits).length ≤
      (digitsValue (Nat.toDigits 10 d.digits)).log2 / 3 + 1 := by
    rw [hvalue]
    exact length_toDigits_le d.digits
  rw [Layout.text] at hplain ⊢
  simp only [htext, Layout.standard, Bool.and_eq_true, decide_eq_true_eq] at hplain ⊢
  generalize Nat.toDigits 10 d.digits = digits at *
  rw [← hvalue]
  by_cases hwhole : 0 ≤ d.power ∧ (digits.length : Int) + d.power ≤ 16
  · rw [if_pos hwhole, String.toList_ofList]
    exact ⟨_, _, positional_whole hdigits hsome hwhole.1⟩
  rw [if_neg hwhole] at hplain ⊢
  by_cases hamong : 0 < (digits.length : Int) + d.power ∧ (digits.length : Int) + d.power ≤ 16
  · rw [if_pos hamong, String.toList_ofList]
    exact ⟨_, _, positional_among hdigits hsize (by omega) hamong.1⟩
  rw [if_neg hamong] at hplain ⊢
  by_cases hafter : -4 ≤ (digits.length : Int) + d.power ∧ (digits.length : Int) + d.power ≤ 0
  · rw [if_pos hafter, String.toList_ofList]
    exact ⟨_, _, positional_after hdigits hsize hsome hafter.2 hafter.1⟩
  rw [if_neg hafter, String.toList_append, String.toList_ofList] at hplain
  refine absurd (List.mem_append_left _ (List.mem_append_right _ ?_)) hplain
  split_ifs <;> exact List.mem_cons_self

variable {text whole fraction : List Char} {value : ℚ}

def signOf (negative : Bool) : List Char := if negative then ['-'] else []

theorem splitSign_signOf (negative : Bool) {first : Char} {rest : List Char}
    (hfirst : first.isDigit = true) :
    splitSign (signOf negative ++ first :: rest) = (negative, first :: rest) := by
  cases negative with
  | true => rfl
  | false => exact splitSign_of_isDigit hfirst

theorem Positional.exists_first (hpositional : Positional text whole fraction value) :
    ∃ first rest, whole = first :: rest ∧ first.isDigit = true := by
  obtain ⟨first, rest, rfl⟩ := List.exists_cons_of_ne_nil hpositional.whole_some
  exact ⟨first, rest, rfl, hpositional.whole_digits first List.mem_cons_self⟩

/-- A numeral with a point is read as the number nearest to its digits. -/
theorem readBinary64?_positional (hpositional : Positional text whole fraction value)
    (negative : Bool) :
    readBinary64? (String.ofList (signOf negative ++ text)) =
      if digitsValue (whole ++ fraction) = 0 then some (.zero negative)
      else Binary64.ofRatio negative (digitsValue (whole ++ fraction)) (10 ^ fraction.length) := by
  obtain ⟨first, rest, hwhole, hfirst⟩ := hpositional.exists_first
  have htake : (whole ++ '.' :: fraction).takeWhile Char.isDigit = whole := by
    rw [List.takeWhile_append_of_pos hpositional.whole_digits]
    exact List.append_nil _
  have hdrop : (whole ++ '.' :: fraction).dropWhile Char.isDigit = '.' :: fraction := by
    rw [List.dropWhile_append_of_pos hpositional.whole_digits]
    rfl
  have hfraction : fraction.takeWhile Char.isDigit = fraction :=
    List.takeWhile_eq_self_iff.2 hpositional.fraction_digits
  have hrest : fraction.dropWhile Char.isDigit = [] :=
    List.dropWhile_eq_nil_iff.2 hpositional.fraction_digits
  have hsign : splitSign (signOf negative ++ (whole ++ '.' :: fraction)) =
      (negative, whole ++ '.' :: fraction) := by
    rw [hwhole]
    exact splitSign_signOf negative hfirst
  have hempty : whole.isEmpty = false := List.isEmpty_eq_false_iff.2 hpositional.whole_some
  have hlength := List.length_pos_iff.2 hpositional.fraction_some
  simp only [readBinary64?, String.toList_ofList, hpositional.text_eq, hsign, htake, hdrop,
    hfraction, hrest, readExponent?, hempty, Bool.false_and, Bool.false_eq_true, if_false,
    Option.bind_eq_bind, Option.bind_some]
  have hsize := hpositional.size
  by_cases hzero : digitsValue (whole ++ fraction) = 0
  · rw [Binary64.ofDecimal, if_pos hzero, if_pos hzero]
  · have hpower : (-(0 - (fraction.length : Int))).toNat = fraction.length := by omega
    rw [Binary64.ofDecimal, if_neg hzero, if_neg hzero, if_neg (by omega), if_neg (by omega),
      if_neg (by omega), hpower]
    rfl

/-! ## Numbers -/

variable {x : Binary64}

def magnitudeText (x : Binary64) : String :=
  if x.isZero then "0.0" else Layout.standard.text (shortest x)

def printedValue (x : Binary64) : ℚ :=
  if x.isZero then 0 else (shortest x).digits * 10 ^ (shortest x).power

theorem text_eq_signOf (x : Binary64) :
    Numeral.text x = String.ofList (signOf x.negative ++ (magnitudeText x).toList) := by
  rw [← String.toList_inj, String.toList_ofList, Numeral.text, magnitudeText, signOf]
  cases x.negative <;> simp

/-- A number that is printed without an exponent. -/
structure IsPositional (x : Binary64) : Prop where
  canonical : x.IsCanonical
  plain : 'e' ∉ (Numeral.text x).toList

namespace IsPositional

variable (hx : IsPositional x)

include hx

/-- The printed text of a number has digits before and behind its point. -/
theorem exists_digits :
    ∃ whole fraction, Positional (magnitudeText x).toList whole fraction (printedValue x) := by
  have hplain : 'e' ∉ (magnitudeText x).toList := by
    have hplain := hx.plain
    rw [text_eq_signOf, String.toList_ofList, List.mem_append, not_or] at hplain
    exact hplain.2
  rw [magnitudeText, printedValue] at *
  split_ifs at hplain ⊢
  · exact ⟨_, _, positional_zero⟩
  · exact exists_positional hplain

/-- The digits of a number that is not zero are positive. -/
theorem printedValue_eq_zero_iff : printedValue x = 0 ↔ x.significand = 0 := by
  rw [printedValue, Binary64.isZero]
  by_cases hzero : x.significand = 0
  · simp [hzero]
  · have hdenotes := denotes_shortest hx.canonical (Nat.pos_of_ne_zero hzero)
    rw [Denotes, Bool.and_eq_true, bne_iff_ne] at hdenotes
    have hpower : (10 : ℚ) ^ (shortest x).power ≠ 0 := zpow_ne_zero _ (by norm_num)
    simp [hzero, hdenotes.1, hpower]

/-- The digits that are printed round to the number. -/
theorem rounds_printedValue (hpositive : 0 < x.significand) : x.Rounds (printedValue x) := by
  have hdenotes := denotes_shortest hx.canonical hpositive
  rw [Denotes, Bool.and_eq_true] at hdenotes
  obtain ⟨hden, hratio⟩ := (shortest x).ratio_spec
  have hrounds := Interval.rounds_of_contains hden hpositive hdenotes.2
  rw [hratio] at hrounds
  have hzero : ¬ x.isZero = true := by simp [Binary64.isZero, hpositive.ne']
  rwa [printedValue, if_neg hzero]

/-- A number that is printed without an exponent is read back. -/
theorem readBinary64?_text : readBinary64? (Numeral.text x) = some x := by
  obtain ⟨whole, fraction, hpositional⟩ := hx.exists_digits
  have hvalue := hpositional.value_eq
  rw [text_eq_signOf, readBinary64?_positional hpositional]
  by_cases hzero : x.significand = 0
  · have hdigits : digitsValue (whole ++ fraction) = 0 := by
      rw [hx.printedValue_eq_zero_iff.2 hzero, div_eq_zero_iff] at hvalue
      exact_mod_cast hvalue.resolve_right (by positivity)
    have hleast : x.exponent = Binary64.leastExponent := by
      refine hx.canonical.normal.resolve_left ?_
      rw [hzero]
      decide
    rw [if_pos hdigits, Binary64.zero, ← hzero, ← hleast]
  · have hdigits : digitsValue (whole ++ fraction) ≠ 0 := by
      intro hnil
      rw [hnil, Nat.cast_zero, zero_div] at hvalue
      exact hzero (hx.printedValue_eq_zero_iff.1 hvalue.symm)
    have hpositive := Nat.pos_of_ne_zero hzero
    have hrounds := hx.rounds_printedValue hpositive
    rw [← hvalue] at hrounds
    rw [if_neg hdigits]
    refine Binary64.ofRatio_of_rounds hx.canonical hpositive (Nat.pow_pos (by decide)) ?_ _
    push_cast
    exact hrounds

/-- A number with a point is no integer. -/
theorem readInt64?_text : readInt64? (Numeral.text x) = none := by
  obtain ⟨whole, fraction, hpositional⟩ := hx.exists_digits
  obtain ⟨first, rest, rfl, hfirst⟩ := hpositional.exists_first
  have hpoint : (first :: rest ++ '.' :: fraction).all Char.isDigit = false := by
    rw [List.all_append, List.all_cons (a := '.')]
    exact Bool.and_false _
  have hsign : splitSign (signOf x.negative ++ (first :: rest ++ '.' :: fraction)) =
      (x.negative, first :: rest ++ '.' :: fraction) := splitSign_signOf _ hfirst
  simp only [readInt64?, text_eq_signOf, String.toList_ofList, hpositional.text_eq, hsign, hpoint,
    Bool.not_false, Bool.or_true, if_true]

end IsPositional

end SchemaEvolution.Numeral
