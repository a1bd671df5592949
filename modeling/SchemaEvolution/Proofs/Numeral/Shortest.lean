import Mathlib.Data.List.TakeWhile
import SchemaEvolution.Proofs.Numeral.Nearest

/-!
# The shortest digits denote their number

The digits that are printed lie in the interval of reals that round to the number, so they are
rounded to it.  Seventeen digits always suffice: their grid is finer than the interval is wide.
-/

namespace SchemaEvolution.Numeral

open Binary64

variable {x : Binary64}

namespace Interval

/-- A quarter of a unit in the last place, as numerator and denominator. -/
def quarter (x : Binary64) : Nat × Nat :=
  if 0 ≤ x.exponent - 2 then (Nat.pow 2 (x.exponent - 2).toNat, 1)
  else (1, Nat.pow 2 (-(x.exponent - 2)).toNat)

/-- The quarter of the last place is a ratio of whole numbers. -/
theorem quarter_spec (x : Binary64) :
    0 < (quarter x).2 ∧ ((quarter x).1 : ℚ) / (quarter x).2 = 2 ^ x.exponent / 4 := by
  have hquarter : (2 : ℚ) ^ x.exponent / 4 = 2 ^ (x.exponent - 2) := by
    rw [zpow_sub₀ (by norm_num)]
    norm_num
  rw [quarter, hquarter]
  by_cases hsign : 0 ≤ x.exponent - 2
  · obtain ⟨n, hn⟩ := Int.eq_ofNat_of_zero_le hsign
    rw [if_pos hsign, hn]
    exact ⟨Nat.one_pos, by simp⟩
  · obtain ⟨n, hn⟩ := Int.eq_ofNat_of_zero_le (a := -(x.exponent - 2)) (by omega)
    have hshift : x.exponent - 2 = -n := by omega
    rw [if_neg hsign, hn, hshift]
    exact ⟨Nat.pow_pos (by decide), by simp⟩

/-- The gap below the least significand of an exponent is half as wide, if there is a smaller
exponent. -/
def isNarrow (x : Binary64) : Bool :=
  x.significand == leastSignificand && x.exponent != leastExponent

theorem of_eq (x : Binary64) :
    Interval.of x =
      { low := (4 * x.significand - if isNarrow x then 1 else 2) * (quarter x).1
        value := 4 * x.significand * (quarter x).1
        high := (4 * x.significand + 2) * (quarter x).1
        den := (quarter x).2
        closed := x.significand % 2 == 0 } := rfl

/-- A number of quarters of a unit in the last place. -/
theorem quarters_eq (x : Binary64) (count : Nat) :
    ((count * (quarter x).1 : Nat) : ℚ) / (quarter x).2 / 2 ^ x.exponent = count / 4 := by
  obtain ⟨-, hquarter⟩ := quarter_spec x
  rw [Nat.cast_mul, mul_div_assoc, hquarter]
  field_simp

theorem den_pos (x : Binary64) : 0 < (Interval.of x).den := (quarter_spec x).1

theorem value_eq (x : Binary64) :
    ((Interval.of x).value : ℚ) / (Interval.of x).den / 2 ^ x.exponent = x.significand := by
  rw [of_eq, quarters_eq]
  push_cast
  ring

theorem high_eq (x : Binary64) :
    ((Interval.of x).high : ℚ) / (Interval.of x).den / 2 ^ x.exponent = x.significand + 1 / 2 := by
  rw [of_eq, quarters_eq]
  push_cast
  ring

/-- The lower end of the interval lies half a gap below the number. -/
theorem low_eq (hpositive : 0 < x.significand) :
    ((Interval.of x).low : ℚ) / (Interval.of x).den / 2 ^ x.exponent =
      x.significand - gapBelow x := by
  have hgap : gapBelow x = ((if isNarrow x then 1 else 2 : Nat) : ℚ) / 4 := by
    rw [gapBelow, isNarrow]
    simp only [Bool.and_eq_true, beq_iff_eq, bne_iff_ne]
    split_ifs <;> norm_num
  have hle : (if isNarrow x then 1 else 2) ≤ 4 * x.significand := by split_ifs <;> omega
  rw [of_eq, quarters_eq, Nat.cast_sub hle, hgap]
  push_cast
  ring

variable {num den : Nat} (hden : 0 < den)

include hden

/-- Whether a ratio lies in the interval, in units of the last place. -/
theorem contains_iff (hpositive : 0 < x.significand) :
    (Interval.of x).contains num den = true ↔
      if x.significand % 2 = 0 then
        x.significand - gapBelow x ≤ (num : ℚ) / den / 2 ^ x.exponent ∧
          (num : ℚ) / den / 2 ^ x.exponent ≤ x.significand + 1 / 2
      else
        x.significand - gapBelow x < (num : ℚ) / den / 2 ^ x.exponent ∧
          (num : ℚ) / den / 2 ^ x.exponent < x.significand + 1 / 2 := by
  have hpower : (0 : ℚ) < 2 ^ x.exponent := by positivity
  have hden' : (0 : ℚ) < den := by exact_mod_cast hden
  have hunit : (0 : ℚ) < (Interval.of x).den := by exact_mod_cast den_pos x
  have hclosed : (Interval.of x).closed = (x.significand % 2 == 0) := rfl
  rw [← low_eq hpositive, ← high_eq, div_le_div_iff_of_pos_right hpower,
    div_le_div_iff_of_pos_right hpower, div_lt_div_iff_of_pos_right hpower,
    div_lt_div_iff_of_pos_right hpower, div_le_div_iff₀ hunit hden', div_le_div_iff₀ hden' hunit,
    div_lt_div_iff₀ hunit hden', div_lt_div_iff₀ hden' hunit, Interval.contains, hclosed]
  simp only [beq_iff_eq]
  split_ifs
  · simp only [Bool.and_eq_true, decide_eq_true_eq]
    exact_mod_cast Iff.rfl
  · simp only [Bool.and_eq_true, decide_eq_true_eq]
    exact_mod_cast Iff.rfl

/-- What lies in the interval of a number rounds to it. -/
theorem rounds_of_contains (hpositive : 0 < x.significand)
    (hcontains : (Interval.of x).contains num den = true) : x.Rounds (num / den) := by
  rw [contains_iff hden hpositive] at hcontains
  split_ifs at hcontains with heven
  · exact ⟨hcontains.1, hcontains.2, fun _ => heven⟩
  · refine ⟨hcontains.1.le, hcontains.2.le, fun hends => ?_⟩
    rcases hends with hlow | hhigh
    · linarith [hcontains.1, gapBelow_le x]
    · linarith [hcontains.2]

end Interval

/-- The ratio of a decimal is its value. -/
theorem Decimal.ratio_spec (d : Decimal) :
    0 < d.ratio.2 ∧ (d.ratio.1 : ℚ) / d.ratio.2 = d.digits * 10 ^ d.power := by
  rw [Decimal.ratio]
  by_cases hsign : 0 ≤ d.power
  · obtain ⟨n, hn⟩ := Int.eq_ofNat_of_zero_le hsign
    rw [if_pos hsign, hn]
    exact ⟨Nat.one_pos, by simp⟩
  · obtain ⟨n, hn⟩ := Int.eq_ofNat_of_zero_le (a := -d.power) (by omega)
    have hpower : d.power = -n := by omega
    rw [if_neg hsign, hn, hpower]
    exact ⟨Nat.pow_pos (by decide), by simp [div_eq_mul_inv]⟩

variable (num : Nat) {den : Nat}

/-- Powers of ten are compared with a ratio in whole numbers. -/
theorem tenPowerLe_iff (power : Int) (hden : 0 < den) :
    tenPowerLe power num den = true ↔ (10 : ℚ) ^ power ≤ num / den := by
  have hden' : (0 : ℚ) < den := by exact_mod_cast hden
  rw [tenPowerLe, le_div_iff₀ hden']
  by_cases hsign : 0 ≤ power
  · obtain ⟨n, rfl⟩ := Int.eq_ofNat_of_zero_le hsign
    rw [if_pos hsign, decide_eq_true_eq, zpow_natCast]
    exact_mod_cast Iff.rfl
  · obtain ⟨n, hn⟩ := Int.eq_ofNat_of_zero_le (a := -power) (by omega)
    obtain rfl : power = -n := by omega
    rw [if_neg hsign, hn, decide_eq_true_eq, zpow_neg, zpow_natCast,
      inv_mul_le_iff₀ (by positivity), mul_comm]
    exact_mod_cast Iff.rfl

/-- The ratio lies between two neighbours of the grid. -/
theorem gridFloor_bounds (power : Int) (hden : 0 < den) :
    (gridFloor num den power : ℚ) * 10 ^ power ≤ num / den ∧
      (num : ℚ) / den < (gridFloor num den power + 1) * 10 ^ power := by
  have hden' : (0 : ℚ) < den := by exact_mod_cast hden
  rw [gridFloor, le_div_iff₀ hden', div_lt_iff₀ hden']
  by_cases hsign : 0 ≤ power
  · obtain ⟨n, rfl⟩ := Int.eq_ofNat_of_zero_le hsign
    have hpositive : 0 < den * 10 ^ n := Nat.mul_pos hden (Nat.pow_pos (by decide))
    have hlow := Nat.div_mul_le_self num (den * 10 ^ n)
    have hhigh := Nat.lt_mul_div_succ num hpositive
    rw [if_pos hsign, zpow_natCast, mul_assoc, mul_assoc, mul_comm ((10 : ℚ) ^ n)]
    constructor
    · exact_mod_cast hlow
    · rw [mul_comm]
      exact_mod_cast hhigh
  · obtain ⟨n, hn⟩ := Int.eq_ofNat_of_zero_le (a := -power) (by omega)
    obtain rfl : power = -n := by omega
    have hpower : (0 : ℚ) < 10 ^ n := by positivity
    have hlow := Nat.div_mul_le_self (num * 10 ^ n) den
    have hhigh := Nat.lt_mul_div_succ (num * 10 ^ n) hden
    rw [if_neg hsign, hn, zpow_neg, zpow_natCast]
    constructor
    · rw [mul_right_comm, ← div_eq_mul_inv, div_le_iff₀ hpower]
      exact_mod_cast hlow
    · rw [mul_right_comm, ← div_eq_mul_inv, lt_div_iff₀ hpower, mul_comm _ (den : ℚ)]
      exact_mod_cast hhigh

/-- The power of ten from which the search for the first digit starts. -/
def leadingGuess (num den : Nat) : Int :=
  (((num.log2 : Int) - (den.log2 : Int)) * 1233).fdiv 4096 - 2

/-- The guess for each power of two that can be the magnitude of a finite number. -/
theorem tenPowerLe_guess : (List.range 2099).all (fun (n : Nat) =>
    tenPowerLe ((((n : Int) - 1074) * 1233).fdiv 4096 - 2)
      (scaled 1 1 (1075 - (n : Int))).1 (scaled 1 1 (1075 - (n : Int))).2) = true := by
  decide +kernel

/-- The guess of the power of ten is small enough. -/
theorem tenPower_guess_le {power : Int} (hlow : -1074 ≤ power) (hhigh : power ≤ 1024) :
    (10 : ℚ) ^ ((power * 1233).fdiv 4096 - 2) ≤ 2 ^ (power - 1) := by
  obtain ⟨n, hn⟩ := Int.eq_ofNat_of_zero_le (a := power + 1074) (by omega)
  obtain rfl : power = n - 1074 := by omega
  have hguess := List.all_eq_true.1 tenPowerLe_guess n (List.mem_range.2 (by omega))
  obtain ⟨hpositive, hratio⟩ := scaled_spec 1 Nat.one_pos (1075 - (n : Int))
  rw [tenPowerLe_iff _ _ hpositive, hratio, Nat.cast_one, div_one, one_div, ← zpow_neg] at hguess
  refine hguess.trans_eq ?_
  congr 1
  ring

/-- The search for the first digit never passes the ratio. -/
theorem tenPower_leadingPower_le {num : Nat} (hden : 0 < den)
    (hguess : (10 : ℚ) ^ leadingGuess num den ≤ num / den) :
    (10 : ℚ) ^ leadingPower num den ≤ num / den := by
  have hleading : leadingPower num den = leadingGuess num den +
      ((List.range 5).takeWhile fun (step : Nat) =>
        tenPowerLe (leadingGuess num den + (step : Int) + 1) num den).length := rfl
  rw [hleading]
  generalize hreached : (List.range 5).takeWhile (fun (step : Nat) =>
    tenPowerLe (leadingGuess num den + (step : Int) + 1) num den) = reached
  cases hlength : reached.length with
  | zero => simpa using hguess
  | succ last =>
    have hfront : reached <+: List.range 5 := hreached ▸ List.takeWhile_prefix _
    have hlast : last < reached.length := by omega
    have helement : reached[last] = last := by
      rw [hfront.getElem hlast, List.getElem_range]
    have hmem : reached[last] ∈ reached := List.getElem_mem hlast
    rw [helement, ← hreached] at hmem
    have hholds := List.mem_takeWhile_imp hmem
    rw [tenPowerLe_iff _ _ hden] at hholds
    rw [Nat.cast_succ, ← add_assoc]
    exact hholds

section Canonical

variable (hx : x.IsCanonical) (hpositive : 0 < x.significand)

include hx hpositive

/-- The value is one that a finite number can have, neither below the least nor above the greatest.
-/
theorem Interval.value_bounds :
    (2 : ℚ) ^ (-1074 : Int) ≤ (Interval.of x).value / (Interval.of x).den ∧
      ((Interval.of x).value : ℚ) / (Interval.of x).den < 2 ^ (1024 : Int) := by
  have hone : (1 : ℚ) ≤ x.significand := by exact_mod_cast hpositive
  have hsignificand := hx.significand_succ_le
  have hvalue : ((Interval.of x).value : ℚ) / (Interval.of x).den =
      x.significand * 2 ^ x.exponent := by
    rw [← Interval.value_eq, div_mul_cancel₀ _ (by positivity)]
  have hleast : (2 : ℚ) ^ (-1074 : Int) ≤ 2 ^ x.exponent :=
    zpow_le_zpow_right₀ (by norm_num) hx.least_le
  have hgreatest : (2 : ℚ) ^ x.exponent ≤ 2 ^ (971 : Int) :=
    zpow_le_zpow_right₀ (by norm_num) hx.le_greatest
  rw [hvalue]
  constructor
  · calc (2 : ℚ) ^ (-1074 : Int)
      _ ≤ 2 ^ x.exponent := hleast
      _ = 1 * 2 ^ x.exponent := (one_mul _).symm
      _ ≤ x.significand * 2 ^ x.exponent := by gcongr
  · calc (x.significand : ℚ) * 2 ^ x.exponent
      _ < 2 ^ 53 * 2 ^ x.exponent := by gcongr; linarith
      _ ≤ 2 ^ 53 * 2 ^ (971 : Int) := by gcongr
      _ = 2 ^ (1024 : Int) := by rw [← zpow_natCast, ← zpow_add₀ (by norm_num)]; norm_num

/-- The first digit of a number is at its leading power of ten or after it. -/
theorem tenPower_leading_le :
    (10 : ℚ) ^ leadingPower (Interval.of x).value (Interval.of x).den ≤
      (Interval.of x).value / (Interval.of x).den := by
  have hden := Interval.den_pos x
  obtain ⟨hleast, hgreatest⟩ := Interval.value_bounds hx hpositive
  have hnum : 0 < (Interval.of x).value := by
    rw [Nat.pos_iff_ne_zero]
    intro hzero
    rw [hzero, Nat.cast_zero, zero_div] at hleast
    exact absurd hleast (not_le.2 (by positivity))
  obtain ⟨hlow, hhigh⟩ := ratio_bounds hnum hden
  have hupper := (zpow_lt_zpow_iff_right₀ (by norm_num : (1 : ℚ) < 2)).1 (hlow.trans hgreatest)
  have hlower := (zpow_lt_zpow_iff_right₀ (by norm_num : (1 : ℚ) < 2)).1 (hleast.trans_lt hhigh)
  exact tenPower_leadingPower_le hden
    ((tenPower_guess_le (by omega) (by omega)).trans hlow.le)

end Canonical

/-! ## The digits -/

/-- The decimal is in the interval of the number. -/
def Denotes (x : Binary64) (d : Decimal) : Prop :=
  (d.digits != 0 && (Interval.of x).contains d.ratio.1 d.ratio.2) = true

instance (x : Binary64) (d : Decimal) : Decidable (Denotes x d) :=
  inferInstanceAs (Decidable (_ = true))

/-- What is found on a grid denotes the number. -/
theorem denotes_of_onGrid {power : Int} {d : Decimal}
    (hgrid : onGrid (Interval.of x) power = some d) : Denotes x d := by
  dsimp only [onGrid] at hgrid
  split at hgrid
  · next hbelow habove =>
    split_ifs at hgrid <;> cases hgrid
    · exact hbelow
    · exact habove
    · exact hbelow
    · exact habove
  · next hbelow _ =>
    cases hgrid
    exact hbelow
  · next _ habove =>
    cases hgrid
    exact habove
  · cases hgrid

/-- Where nothing is found, neither neighbour of the number denotes it. -/
theorem not_denotes_of_onGrid {power : Int} (hgrid : onGrid (Interval.of x) power = none) :
    ¬ Denotes x ⟨gridFloor (Interval.of x).value (Interval.of x).den power, power⟩ ∧
      ¬ Denotes x ⟨gridFloor (Interval.of x).value (Interval.of x).den power + 1, power⟩ := by
  dsimp only [onGrid] at hgrid
  split at hgrid
  · split_ifs at hgrid
  · cases hgrid
  · cases hgrid
  · next hbelow habove =>
    rw [Denotes, Denotes, hbelow, habove]
    exact ⟨Bool.false_ne_true, Bool.false_ne_true⟩

/-- A decimal closer to the number than half the gap on its side denotes it. -/
theorem denotes_of_near (hpositive : 0 < x.significand) {d : Decimal} (hdigits : d.digits ≠ 0)
    (hlow : x.significand - gapBelow x < d.digits * 10 ^ d.power / 2 ^ x.exponent)
    (hhigh : (d.digits : ℚ) * 10 ^ d.power / 2 ^ x.exponent < x.significand + 1 / 2) :
    Denotes x d := by
  obtain ⟨hden, hratio⟩ := d.ratio_spec
  rw [Denotes, Bool.and_eq_true, bne_iff_ne, Interval.contains_iff hden hpositive, hratio]
  refine ⟨hdigits, ?_⟩
  split_ifs
  · exact ⟨hlow.le, hhigh.le⟩
  · exact ⟨hlow, hhigh⟩

/-- A grid that is finer than the interval is wide has a point that denotes the number. -/
theorem onGrid_ne_none_of_fine (hpositive : 0 < x.significand) {power : Int}
    (hreached : (10 : ℚ) ^ power ≤ (Interval.of x).value / (Interval.of x).den)
    (hfine : (10 : ℚ) ^ power / 2 ^ x.exponent < gapBelow x + 1 / 2) :
    onGrid (Interval.of x) power ≠ none := by
  intro hgrid
  obtain ⟨hbelow, habove⟩ := not_denotes_of_onGrid hgrid
  have hpower : (0 : ℚ) < 2 ^ x.exponent := by positivity
  obtain ⟨hlow, hhigh⟩ := gridFloor_bounds (Interval.of x).value power
    (Interval.den_pos x)
  generalize gridFloor (Interval.of x).value (Interval.of x).den power = floor at *
  have hfloor : floor ≠ 0 := by
    rintro rfl
    rw [Nat.cast_zero, zero_add, one_mul] at hhigh
    linarith
  rw [← div_le_div_iff_of_pos_right hpower, Interval.value_eq, mul_div_assoc] at hlow
  rw [← div_lt_div_iff_of_pos_right hpower, Interval.value_eq, mul_div_assoc] at hhigh
  have hgap := gapBelow_pos x
  by_cases hnear : x.significand - gapBelow x < floor * (10 ^ power / 2 ^ x.exponent)
  · refine hbelow (denotes_of_near hpositive hfloor ?_ ?_)
    · rwa [mul_div_assoc]
    · rw [mul_div_assoc]
      linarith
  · refine habove (denotes_of_near hpositive (Nat.succ_ne_zero floor) ?_ ?_)
    · rw [Nat.cast_succ, mul_div_assoc]
      linarith
    · rw [Nat.cast_succ, mul_div_assoc]
      linarith

/-- Seventeen digits from the first one on make a grid that is fine enough. -/
theorem seventeen_fine (hx : x.IsCanonical) {leading : Int}
    (hleading : (10 : ℚ) ^ leading ≤ (Interval.of x).value / (Interval.of x).den) :
    (10 : ℚ) ^ (leading - 16) / 2 ^ x.exponent < gapBelow x + 1 / 2 := by
  have hpower : (0 : ℚ) < 2 ^ x.exponent := by positivity
  have hgrid : (10 : ℚ) ^ (leading - 16) = 10 ^ leading / 10 ^ 16 := by
    rw [zpow_sub₀ (by norm_num)]
    norm_num
  rw [← div_le_div_iff_of_pos_right hpower, Interval.value_eq] at hleading
  have hsignificand := hx.significand_succ_le
  rw [hgrid, div_right_comm, div_lt_iff₀ (by norm_num)]
  rw [gapBelow]
  split_ifs with hnarrow
  · rw [hnarrow.1, leastSignificand_eq] at hleading
    linarith
  · linarith

/-- The shortest digits denote their number. -/
theorem denotes_shortest (hx : x.IsCanonical) (hpositive : 0 < x.significand) :
    Denotes x (shortest x) := by
  have hleading := tenPower_leading_le hx hpositive
  rw [shortest]
  cases hfound : (List.range 18).findSome? fun (count : Nat) => onGrid (Interval.of x)
      (leadingPower (Interval.of x).value (Interval.of x).den + 1 - (count : Int)) with
  | some d =>
    obtain ⟨count, -, hgrid⟩ := List.exists_of_findSome?_eq_some hfound
    exact denotes_of_onGrid hgrid
  | none =>
    have hgrid := List.findSome?_eq_none_iff.1 hfound 17 (List.mem_range.2 (by decide))
    have hcoarser : (10 : ℚ) ^ (leadingPower (Interval.of x).value (Interval.of x).den + 1 -
        ((17 : Nat) : Int)) ≤ (Interval.of x).value / (Interval.of x).den :=
      (zpow_le_zpow_right₀ (by norm_num) (by omega)).trans hleading
    have hfine := seventeen_fine hx hleading
    refine absurd hgrid (onGrid_ne_none_of_fine hpositive hcoarser ?_)
    convert hfine using 3
    push_cast
    ring

end SchemaEvolution.Numeral
