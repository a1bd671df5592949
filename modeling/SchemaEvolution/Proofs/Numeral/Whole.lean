import SchemaEvolution.Numeral.Reader

/-!
# Whole numbers in decimal

The decimal digits of a number denote that number, so the readers of unsigned and of signed
numbers read back what was printed.
-/

namespace SchemaEvolution.Numeral

theorem digitsValue_eq_ofDigitChars (digits : List Char) :
    digitsValue digits = Nat.ofDigitChars 10 digits 0 := by
  rw [digitsValue, Nat.ofDigitChars_eq_foldl]
  congr 1
  funext total c
  rw [Nat.mul_comm, digitValue]

@[simp]
theorem digitsValue_toDigits (n : Nat) : digitsValue (Nat.toDigits 10 n) = n := by
  rw [digitsValue_eq_ofDigitChars, Nat.ofDigitChars_ten_toDigits]

/-- A number has a binary digit more than three times for each decimal digit but one. -/
theorem length_toDigits_le (n : Nat) : (Nat.toDigits 10 n).length ≤ n.log2 / 3 + 1 := by
  rw [Nat.length_toDigits_le_iff (by decide) (Nat.succ_pos _)]
  calc n
    _ < 2 ^ (n.log2 + 1) := Nat.lt_log2_self
    _ ≤ 2 ^ (3 * (n.log2 / 3 + 1)) := Nat.pow_le_pow_right (by decide) (by omega)
    _ = 8 ^ (n.log2 / 3 + 1) := by rw [Nat.pow_mul]
    _ ≤ 10 ^ (n.log2 / 3 + 1) := Nat.pow_le_pow_left (by decide) _

theorem all_isDigit_toDigits (n : Nat) : (Nat.toDigits 10 n).all Char.isDigit = true :=
  List.all_eq_true.2 fun _ hc => Nat.isDigit_of_mem_toDigits (by decide) (by decide) hc

/-- The digits of a number start with a digit, so with no sign. -/
theorem toDigits_eq_cons (n : Nat) :
    ∃ first rest, Nat.toDigits 10 n = first :: rest ∧ first.isDigit = true := by
  cases hdigits : Nat.toDigits 10 n with
  | nil => exact absurd hdigits Nat.toDigits_ne_nil
  | cons first rest =>
    refine ⟨first, rest, rfl, ?_⟩
    have hall := all_isDigit_toDigits n
    rw [hdigits, List.all_cons, Bool.and_eq_true] at hall
    exact hall.1

theorem ne_of_isDigit {c other : Char} (hdigit : c.isDigit = true)
    (hother : other.isDigit = false) : c ≠ other := by
  rintro rfl
  rw [hdigit] at hother
  cases hother

/-- An unsigned number within the bound is read back. -/
theorem readUnsigned?_repr {bound n : Nat} (hbound : n < bound) :
    readUnsigned? bound (Nat.repr n) = some n := by
  obtain ⟨first, rest, hdigits, hfirst⟩ := toDigits_eq_cons n
  have hplus : first ≠ '+' := ne_of_isDigit hfirst (by decide)
  have hall := all_isDigit_toDigits n
  have hvalue := digitsValue_toDigits n
  rw [hdigits] at hall hvalue
  simp only [readUnsigned?, Nat.toList_repr, hdigits]
  split
  · next heq =>
    cases heq
    exact absurd rfl hplus
  · rw [hall, hvalue]
    simp [hbound]

/-- An unsigned number that is read is within the bound, however it is spelled. -/
theorem lt_of_readUnsigned? {bound n : Nat} {text : String}
    (hread : readUnsigned? bound text = some n) : n < bound := by
  simp only [readUnsigned?, Option.ite_none_left_eq_some, Option.ite_none_right_eq_some,
    Option.some.injEq] at hread
  obtain ⟨-, hbound, rfl⟩ := hread
  exact hbound

theorem splitSign_of_isDigit {first : Char} {rest : List Char} (hfirst : first.isDigit = true) :
    splitSign (first :: rest) = (false, first :: rest) := by
  have hminus : first ≠ '-' := ne_of_isDigit hfirst (by decide)
  have hplus : first ≠ '+' := ne_of_isDigit hfirst (by decide)
  unfold splitSign
  split
  · next heq =>
    cases heq
    exact absurd rfl hminus
  · next heq =>
    cases heq
    exact absurd rfl hplus
  · rfl

/-- A signed number of 64 bits is read back. -/
theorem readInt64?_toString {value : Int} (hleast : leastInt64 ≤ value)
    (hgreatest : value ≤ greatestInt64) : readInt64? (toString value) = some value := by
  cases value with
  | ofNat n =>
    obtain ⟨first, rest, hdigits, hfirst⟩ := toDigits_eq_cons n
    have htext : (toString (Int.ofNat n)).toList = first :: rest := by
      rw [← hdigits, ← Nat.toList_repr]
      rfl
    have hall := all_isDigit_toDigits n
    have hvalue := digitsValue_toDigits n
    rw [hdigits] at hall hvalue
    simp only [readInt64?, htext, splitSign_of_isDigit hfirst, hall, hvalue]
    simp_all
  | negSucc n =>
    have htext : (toString (Int.negSucc n)).toList = '-' :: Nat.toDigits 10 (n + 1) := by
      rw [← Nat.toList_repr, Int.toString_eq_repr, Int.repr]
      simp
    have hempty : (Nat.toDigits 10 (n + 1)).isEmpty = false := by
      simp [Nat.toDigits_ne_nil]
    have hneg : -((n + 1 : Nat) : Int) = Int.negSucc n := rfl
    simp only [readInt64?, htext, splitSign, all_isDigit_toDigits, hempty, digitsValue_toDigits,
      if_true, hneg]
    simp [hleast, hgreatest]

theorem digitsValue_cons_le (total : Nat) (digits : List Char) :
    total ≤ digits.foldl (fun total c => total * 10 + digitValue c) total := by
  induction digits generalizing total with
  | nil => exact Nat.le_refl total
  | cons digit rest ih =>
    have hnext := ih (total * 10 + digitValue digit)
    rw [List.foldl_cons]
    omega

/-- Only zero starts with the digit zero. -/
theorem head?_toDigits_ne {n : Nat} (hn : n ≠ 0) : (Nat.toDigits 10 n).head? ≠ some '0' := by
  induction n using Nat.strongRecOn with
  | ind n ih =>
    rw [Nat.toDigits_eq_if (by decide)]
    split
    · next hlt =>
      have hdigit : ∀ digit < 10, digit ≠ 0 → digit.digitChar ≠ '0' := by decide
      exact fun hhead => hdigit n hlt hn (Option.some.inj hhead)
    · next hge =>
      obtain ⟨first, rest, hdigits, -⟩ := toDigits_eq_cons (n / 10)
      have hhead := ih (n / 10) (by omega) (by omega)
      rw [hdigits] at hhead ⊢
      exact hhead

end SchemaEvolution.Numeral
