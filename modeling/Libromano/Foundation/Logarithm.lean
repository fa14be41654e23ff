/- The decimal logarithm of a rational, rounded to the nearest number with `p` significant bits,
   as far as its integral part: just below an integer `k` the rounded logarithm is `k`. -/

import Mathlib.Analysis.SpecialFunctions.Log.Base
import Mathlib.Data.Int.Log

set_option autoImplicit false
set_option relaxedAutoImplicit false

namespace Libromano.Foundation.Logarithm

/-- The number with `p` significant bits below `k` is at the distance `2 * 2 ^ -halfGap p k`. -/
def halfGap (p k : ℕ) : ℕ := p + 1 - Nat.clog 2 k

/-- The logarithm of `x` is above the middle between `k` and the number below it. -/
def Reaches (p k : ℕ) (x : ℚ) : Prop :=
  -- the first part holds with the second one, and keeps its powers from being computed elsewhere
  10 ^ k * 2 ^ halfGap p k < (2 ^ halfGap p k + 9) * x ∧
    10 ^ (k * 2 ^ halfGap p k - 1) < x ^ 2 ^ halfGap p k

instance (p k : ℕ) (x : ℚ) : Decidable (Reaches p k x) := inferInstanceAs (Decidable (_ ∧ _))

/-- The integral part of the rounded logarithm, for `1 ≤ x`. -/
def nearestLog (p : ℕ) (x : ℚ) : ℤ :=
  if Reaches p (Int.log 10 x + 1).toNat x then Int.log 10 x + 1 else Int.log 10 x

variable {p k : ℕ} {x : ℚ}

private theorem reaches_iff (hk : 1 ≤ k) (hx : 0 < x) :
    Reaches p k x ↔ 10 ^ (k * 2 ^ halfGap p k - 1) < x ^ 2 ^ halfGap p k := by
  refine and_iff_right_of_imp fun hpow => ?_
  generalize hn : 2 ^ halfGap p k = n at hpow
  have hpos : 0 < n := hn ▸ Nat.two_pow_pos _
  have hbernoulli : (10 : ℚ) ≤ (1 + 9 / n) ^ n := by
    have hnonneg : (0 : ℚ) ≤ 9 / n := by positivity
    have hle := one_add_mul_le_pow ((show (-2 : ℚ) ≤ 0 by norm_num).trans hnonneg) n
    rwa [mul_div_cancel₀ _ (by positivity), show (1 : ℚ) + 9 = 10 by norm_num] at hle
  have hsplit : (10 : ℚ) ^ (k * n) = 10 * 10 ^ (k * n - 1) := by
    rw [← pow_succ', Nat.sub_add_cancel (Nat.mul_pos hk hpos)]
  have hlt : ((10 : ℚ) ^ k) ^ n < ((1 + 9 / n) * x) ^ n := by
    calc ((10 : ℚ) ^ k) ^ n = 10 * 10 ^ (k * n - 1) := by rw [← pow_mul, hsplit]
      _ < 10 * x ^ n := by linarith
      _ ≤ (1 + 9 / n) ^ n * x ^ n := mul_le_mul_of_nonneg_right hbernoulli (by positivity)
      _ = ((1 + 9 / n) * x) ^ n := (mul_pow _ _ _).symm
  have hbase : (10 : ℚ) ^ k < (1 + 9 / n) * x := lt_of_pow_lt_pow_left₀ n (by positivity) hlt
  have hcast : ((2 : ℚ) ^ halfGap p k) = n := by exact_mod_cast hn
  have hscale : (1 + 9 / (n : ℚ)) * x * n = (n + 9) * x := by field_simp
  rw [hcast]
  calc (10 : ℚ) ^ k * n < (1 + 9 / n) * x * n := mul_lt_mul_of_pos_right hbase (by positivity)
    _ = (n + 9) * x := hscale

theorem reaches_iff_logb (hk : 1 ≤ k) (hx : 0 < x) :
    Reaches p k x ↔ (k : ℝ) - (2 ^ halfGap p k)⁻¹ < Real.logb 10 x := by
  rw [reaches_iff hk hx]
  generalize hn : 2 ^ halfGap p k = n
  have hpos : 0 < n := hn ▸ Nat.two_pow_pos _
  have hposR : (0 : ℝ) < n := by exact_mod_cast hpos
  have hcast : ((2 : ℝ) ^ halfGap p k) = n := by exact_mod_cast hn
  have hxR : (0 : ℝ) < x := by exact_mod_cast hx
  have hlog : ((10 : ℚ) ^ (k * n - 1) < x ^ n) ↔ ((k * n - 1 : ℕ) : ℝ) < n * Real.logb 10 x := by
    rw [← Real.logb_pow, Real.lt_logb_iff_rpow_lt (by norm_num) (by positivity), Real.rpow_natCast]
    exact_mod_cast Iff.rfl
  have hscale : ((k * n - 1 : ℕ) : ℝ) = n * (k - (n : ℝ)⁻¹) := by
    rw [Nat.cast_sub (Nat.mul_pos hk hpos), Nat.cast_mul, Nat.cast_one, mul_sub,
      mul_inv_cancel₀ hposR.ne', mul_comm]
  rw [hlog, hscale, hcast, mul_lt_mul_iff_right₀ hposR]

end Libromano.Foundation.Logarithm
