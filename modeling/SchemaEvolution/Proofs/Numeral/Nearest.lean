import Mathlib.Algebra.Order.Field.Power
import Mathlib.Data.Rat.Cast.Order
import Mathlib.Tactic.FieldSimp
import Mathlib.Tactic.Linarith
import Mathlib.Tactic.NormNum
import Mathlib.Tactic.Positivity
import Mathlib.Tactic.Ring
import SchemaEvolution.Numeral.Shortest

/-!
# Rounding to the nearest number

A ratio in the interval of a number rounds to that number.  The ratio fixes the exponent, except
below a power of two, where it rounds up to it; the significand is the nearest integer, and at the
ends of the interval the even one.
-/

namespace SchemaEvolution.Binary64

/-- The significand has 53 bits unless the exponent is the least one, and the exponent is that of a
finite number. -/
structure IsCanonical (x : Binary64) : Prop where
  significand_lt : x.significand < 2 * leastSignificand
  least_le : leastExponent ≤ x.exponent
  le_greatest : x.exponent ≤ greatestExponent
  normal : leastSignificand ≤ x.significand ∨ x.exponent = leastExponent

theorem IsCanonical.significand_succ_le {x : Binary64} (hx : x.IsCanonical) :
    (x.significand : ℚ) + 1 ≤ 2 ^ 53 := by
  have hbound : x.significand + 1 ≤ 2 * leastSignificand := hx.significand_lt
  rw [leastSignificand] at hbound
  exact_mod_cast hbound

/-- Scaling by a power of two divides the ratio by it. -/
theorem scaled_spec (num : Nat) {den : Nat} (hden : 0 < den) (exponent : Int) :
    0 < (scaled num den exponent).2 ∧
      ((scaled num den exponent).1 : ℚ) / (scaled num den exponent).2 =
        num / den / 2 ^ exponent := by
  by_cases hsign : 0 ≤ exponent
  · obtain ⟨n, rfl⟩ := Int.eq_ofNat_of_zero_le hsign
    rw [scaled, if_pos hsign]
    refine ⟨Nat.mul_pos hden (Nat.pow_pos (by decide)), ?_⟩
    simp [div_div]
  · obtain ⟨n, hn⟩ := Int.eq_ofNat_of_zero_le (a := -exponent) (by omega)
    obtain rfl : exponent = -n := by omega
    rw [scaled, if_neg hsign]
    refine ⟨hden, ?_⟩
    simp [mul_div_right_comm]

/-- The magnitude of a positive natural number. -/
theorem log2_bounds {n : Nat} (hn : 0 < n) :
    (2 : ℚ) ^ (n.log2 : Int) ≤ n ∧ (n : ℚ) < 2 ^ ((n.log2 : Int) + 1) := by
  constructor
  · exact_mod_cast Nat.log2_self_le hn.ne'
  · exact_mod_cast Nat.lt_log2_self

/-- The logarithms of numerator and denominator bound a ratio within a factor of four. -/
theorem ratio_bounds {num den : Nat} (hnum : 0 < num) (hden : 0 < den) :
    (2 : ℚ) ^ ((num.log2 : Int) - den.log2 - 1) < num / den ∧
      (num : ℚ) / den < 2 ^ ((num.log2 : Int) - den.log2 + 1) := by
  obtain ⟨hnumLow, hnumHigh⟩ := log2_bounds hnum
  obtain ⟨hdenLow, hdenHigh⟩ := log2_bounds hden
  have hpositive : (0 : ℚ) < den := by exact_mod_cast hden
  constructor
  · rw [lt_div_iff₀ hpositive]
    calc (2 : ℚ) ^ ((num.log2 : Int) - den.log2 - 1) * den
      _ < 2 ^ ((num.log2 : Int) - den.log2 - 1) * 2 ^ ((den.log2 : Int) + 1) := by gcongr
      _ = 2 ^ (num.log2 : Int) := by rw [← zpow_add₀ (by norm_num)]; congr 1; ring
      _ ≤ num := hnumLow
  · rw [div_lt_iff₀ hpositive]
    calc (num : ℚ)
      _ < 2 ^ ((num.log2 : Int) + 1) := hnumHigh
      _ = 2 ^ ((num.log2 : Int) - den.log2 + 1) * 2 ^ (den.log2 : Int) := by
        rw [← zpow_add₀ (by norm_num)]; congr 1; ring
      _ ≤ 2 ^ ((num.log2 : Int) - den.log2 + 1) * den := by gcongr

/-- The exponent gives the value a significand of 53 bits, or of fewer if it is the least one. -/
structure HasExponent (value : ℚ) (exponent : Int) : Prop where
  least_le : leastExponent ≤ exponent
  lt : value < 2 ^ 53 * 2 ^ exponent
  le : exponent = leastExponent ∨ 2 ^ 52 * 2 ^ exponent ≤ value

theorem leastSignificand_eq : (leastSignificand : ℚ) = 2 ^ 52 := by norm_num [leastSignificand]

/-- Whether a scaled ratio is less than an integer. -/
theorem scaled_lt_iff (num : Nat) {den : Nat} (hden : 0 < den) (exponent : Int) (bound : Nat) :
    (scaled num den exponent).1 < (scaled num den exponent).2 * bound ↔
      (num : ℚ) / den < bound * 2 ^ exponent := by
  obtain ⟨hpositive, hratio⟩ := scaled_spec num hden exponent
  rw [← div_lt_iff₀ (by positivity), ← hratio, div_lt_iff₀ (by exact_mod_cast hpositive),
    mul_comm (bound : ℚ)]
  exact_mod_cast Iff.rfl

/-- The exponent that gives a ratio a significand of 53 bits, be it less than the least one. -/
def normalExponent (num den : Nat) : Int :=
  let guess : Int := (num.log2 : Int) - (den.log2 : Int) - 52
  if (scaled num den guess).1 < (scaled num den guess).2 * leastSignificand then guess - 1
  else guess

theorem exponentFor_eq (num den : Nat) :
    exponentFor num den = max leastExponent (normalExponent num den) := rfl

/-- Of two exponents next to each other, the one is chosen that gives 53 bits. -/
theorem normalExponent_spec {num den : Nat} (hnum : 0 < num) (hden : 0 < den) :
    2 ^ 52 * 2 ^ normalExponent num den ≤ (num : ℚ) / den ∧
      (num : ℚ) / den < 2 ^ 53 * 2 ^ normalExponent num den := by
  obtain ⟨hlow, hhigh⟩ := ratio_bounds hnum hden
  rw [normalExponent]
  generalize hguess : (num.log2 : Int) - (den.log2 : Int) - 52 = guess
  have hsplit := scaled_lt_iff num hden guess leastSignificand
  rw [leastSignificand_eq] at hsplit
  by_cases hless : (scaled num den guess).1 < (scaled num den guess).2 * leastSignificand
  · have hbelow := hsplit.1 hless
    have hone : (2 : ℚ) ^ guess = 2 * 2 ^ (guess - 1) := by
      rw [← zpow_one_add₀ (by norm_num)]
      congr 1
      ring
    have hexact : (2 : ℚ) ^ ((num.log2 : Int) - den.log2 - 1) = 2 ^ 52 * 2 ^ (guess - 1) := by
      rw [← zpow_natCast, ← zpow_add₀ (by norm_num), ← hguess]
      congr 1
      push_cast
      ring
    rw [if_pos hless]
    constructor <;> linarith
  · have habove := not_lt.1 fun hlt => hless (hsplit.2 hlt)
    have hexact : (2 : ℚ) ^ ((num.log2 : Int) - den.log2 + 1) = 2 ^ 53 * 2 ^ guess := by
      rw [← zpow_natCast, ← zpow_add₀ (by norm_num), ← hguess]
      congr 1
      push_cast
      ring
    rw [if_neg hless]
    constructor <;> linarith

/-- The exponent that is found is the one that the ratio has. -/
theorem hasExponent_exponentFor {num den : Nat} (hnum : 0 < num) (hden : 0 < den) :
    HasExponent (num / den) (exponentFor num den) := by
  obtain ⟨hlow, hhigh⟩ := normalExponent_spec hnum hden
  rw [exponentFor_eq]
  refine ⟨le_max_left _ _, ?_, ?_⟩
  · calc (num : ℚ) / den
      _ < 2 ^ 53 * 2 ^ normalExponent num den := hhigh
      _ ≤ 2 ^ 53 * 2 ^ max leastExponent (normalExponent num den) := by
        gcongr
        · norm_num
        · exact le_max_right _ _
  · rcases le_total leastExponent (normalExponent num den) with hle | hle
    · rw [max_eq_right hle]
      exact .inr hlow
    · exact .inl (max_eq_left hle)

theorem HasExponent.not_lt {value : ℚ} {low high : Int} (hlow : HasExponent value low)
    (hhigh : HasExponent value high) : ¬ low < high := by
  intro hlt
  have hnormal := hhigh.le.resolve_left (ne_of_gt (lt_of_le_of_lt hlow.least_le hlt))
  have hmono : (2 : ℚ) ^ (low + 1) ≤ 2 ^ high :=
    zpow_le_zpow_right₀ (by norm_num) (Int.add_one_le_of_lt hlt)
  rw [zpow_add_one₀ (by norm_num)] at hmono
  have hless := hlow.lt
  linarith

/-- A value has one exponent only. -/
theorem HasExponent.unique {value : ℚ} {first second : Int} (hfirst : HasExponent value first)
    (hsecond : HasExponent value second) : first = second :=
  le_antisymm (le_of_not_gt (hsecond.not_lt hfirst)) (le_of_not_gt (hfirst.not_lt hsecond))

/-- An integer within one half of a quotient is what it rounds to; at one half, the even one. -/
theorem roundedQuotient_eq {num den k : Nat} (hden : 0 < den)
    (hlow : 2 * k * den ≤ 2 * num + den) (hhigh : 2 * num ≤ 2 * k * den + den)
    (htie : 2 * k * den = 2 * num + den ∨ 2 * num = 2 * k * den + den → k % 2 = 0) :
    roundedQuotient num den = k := by
  have hdivision := Nat.div_add_mod num den
  have hmod := Nat.mod_lt num hden
  unfold roundedQuotient
  dsimp only
  generalize num / den = quotient at *
  generalize num % den = rest at *
  subst hdivision
  have hk : k = quotient ∨ k = quotient + 1 := by
    have hupper : 2 * k * den < (2 * quotient + 3) * den := by linarith
    have hlower : 2 * quotient * den ≤ (2 * k + 1) * den := by nlinarith
    have hupper' := Nat.lt_of_mul_lt_mul_right hupper
    have hlower' := Nat.le_of_mul_le_mul_right hlower hden
    omega
  have htwice : 2 * k * den = 2 * (den * k) := by ring
  rw [htwice] at hlow hhigh htie
  rcases hk with rfl | rfl
  · have hhalf : 2 * rest ≤ den := by omega
    have heven : 2 * rest = den → k % 2 = 0 := fun heq => htie (.inr (by omega))
    rw [if_neg (Nat.not_lt.2 hhalf)]
    split_ifs with hless hodd
    · rfl
    · rfl
    · exact absurd (heven (by omega)) hodd
  · have hproduct : den * (quotient + 1) = den * quotient + den := by ring
    rw [hproduct] at hlow htie
    have hhalf : den ≤ 2 * rest := by omega
    have heven : 2 * rest = den → (quotient + 1) % 2 = 0 := fun heq => htie (.inl (by omega))
    rw [if_neg (Nat.not_lt.2 hhalf)]
    split_ifs with hmore hodd
    · rfl
    · have heq := heven (by omega)
      omega
    · rfl

/-- As `roundedQuotient_eq`, for the quotient as a rational number. -/
theorem roundedQuotient_of_near {num den k : Nat} (hden : 0 < den)
    (hlow : (k : ℚ) - 1 / 2 ≤ num / den) (hhigh : (num : ℚ) / den ≤ k + 1 / 2)
    (htie : (num : ℚ) / den = k - 1 / 2 ∨ (num : ℚ) / den = k + 1 / 2 → k % 2 = 0) :
    roundedQuotient num den = k := by
  have hpositive : (0 : ℚ) < den := by exact_mod_cast hden
  rw [le_div_iff₀ hpositive] at hlow
  rw [div_le_iff₀ hpositive] at hhigh
  rw [div_eq_iff hpositive.ne', div_eq_iff hpositive.ne'] at htie
  refine roundedQuotient_eq hden ?_ ?_ fun hends => htie (hends.imp (fun heq => ?_) fun heq => ?_)
  · have hcast : (2 : ℚ) * k * den ≤ 2 * num + den := by linarith
    exact_mod_cast hcast
  · have hcast : (2 : ℚ) * num ≤ 2 * k * den + den := by linarith
    exact_mod_cast hcast
  · have hcast : (2 : ℚ) * k * den = 2 * num + den := by exact_mod_cast heq
    linarith
  · have hcast : (2 : ℚ) * num = 2 * k * den + den := by exact_mod_cast heq
    linarith

/-! ## Ratios that round to a number -/

/-- Half the gap below a number in units of the last place.  Below a power of two the gap is half
as wide as above it. -/
def gapBelow (x : Binary64) : ℚ :=
  if x.significand = leastSignificand ∧ x.exponent ≠ leastExponent then 1 / 4 else 1 / 2

/-- The value is within half a gap of the magnitude of the number; at the ends of that interval the
significand is even. -/
structure Rounds (x : Binary64) (value : ℚ) : Prop where
  low : x.significand - gapBelow x ≤ value / 2 ^ x.exponent
  high : value / 2 ^ x.exponent ≤ x.significand + 1 / 2
  tie : value / 2 ^ x.exponent = x.significand - 1 / 2 ∨
    value / 2 ^ x.exponent = x.significand + 1 / 2 → x.significand % 2 = 0

theorem gapBelow_pos (x : Binary64) : 0 < gapBelow x := by
  rw [gapBelow]
  split_ifs <;> norm_num

theorem gapBelow_le (x : Binary64) : gapBelow x ≤ 1 / 2 := by
  rw [gapBelow]
  split_ifs <;> norm_num

variable {x : Binary64}

/-- A ratio whose exponent and rounded significand are known. -/
theorem ofRatio_eq {num den : Nat} (hnum : 0 < num) {exponent : Int} {significand : Nat}
    (hexponent : exponentFor num den = exponent)
    (hrounded : roundedQuotient (scaled num den exponent).1 (scaled num den exponent).2 =
      significand) (negative : Bool) :
    ofRatio negative num den =
      if significand = 2 * leastSignificand then
        if greatestExponent < exponent + 1 then none
        else some ⟨negative, leastSignificand, exponent + 1⟩
      else if greatestExponent < exponent then none
      else some ⟨negative, significand, exponent⟩ := by
  rw [ofRatio, if_neg hnum.ne', hexponent]
  simp only [hrounded]
  split_ifs <;> rfl

section Rounds

variable (hx : x.IsCanonical) {num den : Nat} (hnum : 0 < num) (hden : 0 < den)
  (hrounds : x.Rounds (num / den))

include hx hnum hden hrounds

/-- At or above the least significand of the exponent, the exponent is that of the number. -/
theorem ofRatio_of_normal
    (hnormal : x.exponent = leastExponent ∨ 2 ^ 52 ≤ (num : ℚ) / den / 2 ^ x.exponent)
    (negative : Bool) : ofRatio negative num den = some { x with negative := negative } := by
  have hpower : (0 : ℚ) < 2 ^ x.exponent := by positivity
  have hlow : (x.significand : ℚ) - 1 / 2 ≤ num / den / 2 ^ x.exponent := by
    linarith [hrounds.low, gapBelow_le x]
  have hfits : HasExponent (num / den) x.exponent := by
    refine ⟨hx.least_le, ?_, hnormal.imp_right fun hle => (le_div_iff₀ hpower).1 hle⟩
    rw [← div_lt_iff₀ hpower]
    linarith [hrounds.high, hx.significand_succ_le]
  obtain ⟨hpositive, hratio⟩ := scaled_spec num hden x.exponent
  rw [ofRatio_eq hnum ((hasExponent_exponentFor hnum hden).unique hfits) (roundedQuotient_of_near
    hpositive (hratio ▸ hlow) (hratio ▸ hrounds.high) (hratio ▸ hrounds.tie)),
    if_neg hx.significand_lt.ne, if_neg (not_lt.2 hx.le_greatest)]

/-- Below it, the ratio rounds up to a power of two. -/
theorem ofRatio_of_below (hexponent : x.exponent ≠ leastExponent)
    (hbelow : (num : ℚ) / den / 2 ^ x.exponent < 2 ^ 52) (negative : Bool) :
    ofRatio negative num den = some { x with negative := negative } := by
  have hpower : (0 : ℚ) < 2 ^ (x.exponent - 1) := by positivity
  have hhalf : (num : ℚ) / den / 2 ^ (x.exponent - 1) = 2 * (num / den / 2 ^ x.exponent) := by
    rw [zpow_sub_one₀ (by norm_num)]
    field_simp
  have hsignificand : x.significand = leastSignificand := by
    refine le_antisymm (not_lt.1 fun hmore => ?_) (hx.normal.resolve_right hexponent)
    have hle : (2 : ℚ) ^ 52 + 1 ≤ x.significand := by
      rw [leastSignificand] at hmore
      exact_mod_cast hmore
    linarith [hrounds.low, gapBelow_le x]
  have hlow := hrounds.low
  rw [gapBelow, if_pos ⟨hsignificand, hexponent⟩, hsignificand, leastSignificand_eq] at hlow
  have hfits : HasExponent (num / den) (x.exponent - 1) := by
    refine ⟨?_, ?_, .inr ?_⟩
    · have hleast := hx.least_le
      omega
    · rw [← div_lt_iff₀ hpower, hhalf]
      linarith
    · rw [← le_div_iff₀ hpower, hhalf]
      linarith
  obtain ⟨hpositive, hratio⟩ := scaled_spec num hden (x.exponent - 1)
  rw [hhalf] at hratio
  have hdouble : ((2 * leastSignificand : Nat) : ℚ) = 2 ^ 53 := by
    norm_num [leastSignificand]
  have hrounded := roundedQuotient_of_near (k := 2 * leastSignificand) hpositive
    (by rw [hratio, hdouble]; linarith) (by rw [hratio, hdouble]; linarith) fun _ => rfl
  rw [ofRatio_eq hnum ((hasExponent_exponentFor hnum hden).unique hfits) hrounded, if_pos rfl,
    sub_add_cancel, if_neg (not_lt.2 hx.le_greatest), ← hsignificand]

end Rounds

/-- A ratio that rounds to a positive number is read as that number. -/
theorem ofRatio_of_rounds (hx : x.IsCanonical) (hpositive : 0 < x.significand) {num den : Nat}
    (hden : 0 < den) (hrounds : x.Rounds (num / den)) (negative : Bool) :
    ofRatio negative num den = some { x with negative := negative } := by
  have hnum : 0 < num := by
    have hone : (1 : ℚ) ≤ x.significand := by exact_mod_cast hpositive
    have hlow := hrounds.low
    rw [Nat.pos_iff_ne_zero]
    rintro rfl
    rw [Nat.cast_zero, zero_div, zero_div] at hlow
    linarith [gapBelow_le x]
  by_cases hnormal : x.exponent = leastExponent ∨ 2 ^ 52 ≤ (num : ℚ) / den / 2 ^ x.exponent
  · exact ofRatio_of_normal hx hnum hden hrounds hnormal negative
  · rw [not_or, not_le] at hnormal
    exact ofRatio_of_below hx hnum hden hrounds hnormal.1 hnormal.2 negative

end SchemaEvolution.Binary64
