/- Rounding of natural numbers to a significand of `b` bits, to nearest with ties to even, as the
   conversion of an unsigned integer to a binary floating-point format does. Exponent range is not
   limited here. -/

import Mathlib.Algebra.Order.Ring.Nat
import Mathlib.Data.Nat.Log
import Mathlib.Tactic.Ring

set_option autoImplicit false
set_option relaxedAutoImplicit false

namespace Libromano.Foundation.Significand

/-- `x / d` rounded to the nearest integer, a tie going to the even one. -/
def nearestEven (d x : ℕ) : ℕ :=
  if 2 * (x % d) < d then x / d
  else if d < 2 * (x % d) then x / d + 1
  else if x / d % 2 = 0 then x / d else x / d + 1

/-- The weight of the last of the `b` significant bits of `x`. -/
def ulp (b x : ℕ) : ℕ := 2 ^ (x.log2 + 1 - b)

/-- The nearest number with at most `b` significant bits. -/
def round (b x : ℕ) : ℕ := nearestEven (ulp b x) x * ulp b x

private theorem ulp_pos (b x : ℕ) : 0 < ulp b x := Nat.two_pow_pos _

private theorem nearestEven_mul {d : ℕ} (hd : 0 < d) (q : ℕ) : nearestEven d (q * d) = q := by
  simp [nearestEven, hd]

private theorem nearestEven_le_succ (d x : ℕ) : nearestEven d x ≤ x / d + 1 := by
  unfold nearestEven
  split_ifs <;> omega

private theorem div_le_nearestEven (d x : ℕ) : x / d ≤ nearestEven d x := by
  unfold nearestEven
  split_ifs <;> omega

private theorem nearestEven_mono (d : ℕ) {x y : ℕ} (h : x ≤ y) :
    nearestEven d x ≤ nearestEven d y := by
  rcases Nat.eq_or_lt_of_le (Nat.div_le_div_right (c := d) h) with hq | hq
  · have hr : x % d ≤ y % d := by
      have hx := Nat.div_add_mod x d
      have hy := Nat.div_add_mod y d
      rw [hq] at hx
      omega
    unfold nearestEven
    rw [hq]
    split_ifs <;> omega
  · exact (nearestEven_le_succ d x).trans (Nat.succ_le_of_lt hq |>.trans (div_le_nearestEven d y))

private theorem round_of_dvd {b x : ℕ} (h : ulp b x ∣ x) : round b x = x := by
  obtain ⟨q, hq⟩ := h
  have : nearestEven (ulp b x) x = q := by
    calc nearestEven (ulp b x) x = nearestEven (ulp b x) (q * ulp b x) := by
          rw [Nat.mul_comm, ← hq]
      _ = q := nearestEven_mul (ulp_pos b x) q
  rw [round, this, Nat.mul_comm]
  exact hq.symm

theorem round_shifted {b c : ℕ} (k : ℕ) (hc : c < 2 ^ b) : round b (2 ^ k * c) = 2 ^ k * c := by
  rcases Nat.eq_zero_or_pos c with rfl | hpos
  · simp [round, nearestEven]
  apply round_of_dvd
  have hne : 2 ^ k * c ≠ 0 := (Nat.mul_pos (Nat.two_pow_pos k) hpos).ne'
  have hlog : (2 ^ k * c).log2 < k + b := by
    rw [Nat.log2_lt hne, Nat.pow_add]
    exact Nat.mul_lt_mul_of_pos_left hc (Nat.two_pow_pos k)
  exact Dvd.dvd.mul_right (Nat.pow_dvd_pow 2 (by omega)) c

theorem round_two_pow {b : ℕ} (hb : 0 < b) (k : ℕ) : round b (2 ^ k) = 2 ^ k := by
  have := round_shifted (b := b) (c := 1) k (Nat.one_lt_two_pow (by omega))
  simpa using this

private theorem ulp_dvd_two_pow {b x : ℕ} (hb : 0 < b) {k : ℕ} (hk : x.log2 ≤ k) :
    ulp b x ∣ 2 ^ k :=
  Nat.pow_dvd_pow 2 (by omega)

private theorem round_le_two_pow {b x : ℕ} (hb : 0 < b) {k : ℕ} (hlog : x.log2 ≤ k)
    (hx : x ≤ 2 ^ k) : round b x ≤ 2 ^ k := by
  obtain ⟨q, hq⟩ := ulp_dvd_two_pow (x := x) hb hlog
  have hle : nearestEven (ulp b x) x ≤ q := by
    calc nearestEven (ulp b x) x ≤ nearestEven (ulp b x) (2 ^ k) := nearestEven_mono _ hx
      _ = q := by rw [hq, Nat.mul_comm]; exact nearestEven_mul (ulp_pos b x) q
  rw [hq, Nat.mul_comm]
  exact Nat.mul_le_mul_right _ hle

private theorem two_pow_log2_le_round {b x : ℕ} (hb : 0 < b) (hx : x ≠ 0) :
    2 ^ x.log2 ≤ round b x := by
  obtain ⟨q, hq⟩ := ulp_dvd_two_pow (x := x) hb le_rfl
  have hle : q ≤ nearestEven (ulp b x) x := by
    calc q = nearestEven (ulp b x) (2 ^ x.log2) := by
          rw [hq, Nat.mul_comm]; exact (nearestEven_mul (ulp_pos b x) q).symm
      _ ≤ nearestEven (ulp b x) x := nearestEven_mono _ (Nat.log2_self_le hx)
  rw [hq, Nat.mul_comm]
  exact Nat.mul_le_mul_right _ hle

theorem round_mono {b : ℕ} (hb : 0 < b) {x y : ℕ} (h : x ≤ y) : round b x ≤ round b y := by
  rcases Nat.eq_zero_or_pos x with rfl | hx
  · simp [round, nearestEven]
  have hlog : x.log2 ≤ y.log2 := by
    rw [Nat.log2_eq_log_two, Nat.log2_eq_log_two]
    exact Nat.log_mono_right h
  rcases Nat.eq_or_lt_of_le hlog with heq | hlt
  · have hulp : ulp b x = ulp b y := by rw [ulp, ulp, heq]
    rw [round, round, hulp]
    exact Nat.mul_le_mul_right _ (nearestEven_mono _ h)
  · calc round b x ≤ 2 ^ (x.log2 + 1) :=
          round_le_two_pow hb (by omega) (Nat.lt_log2_self.le)
      _ ≤ 2 ^ y.log2 := Nat.pow_le_pow_right (by decide) hlt
      _ ≤ round b y := two_pow_log2_le_round hb (by omega)

private theorem nearestEven_error {d : ℕ} (hd : 0 < d) (x : ℕ) :
    2 * (nearestEven d x * d) ≤ 2 * x + d ∧ 2 * x ≤ 2 * (nearestEven d x * d) + d := by
  have hx := Nat.div_add_mod' x d
  have hlt := Nat.mod_lt x hd
  have hround : nearestEven d x = x / d ∧ 2 * (x % d) ≤ d ∨
      nearestEven d x = x / d + 1 ∧ d ≤ 2 * (x % d) := by
    unfold nearestEven
    split_ifs <;> omega
  generalize nearestEven d x = n at *
  generalize x / d = q at *
  generalize x % d = r at *
  rcases hround with ⟨rfl, hr⟩ | ⟨rfl, hr⟩
  · omega
  · rw [Nat.succ_mul q d]
    omega

theorem round_error (b x : ℕ) :
    round b x * 2 ^ b ≤ x * 2 ^ b + x ∧ x * 2 ^ b ≤ round b x * 2 ^ b + x := by
  obtain ⟨hle, hge⟩ := nearestEven_error (ulp_pos b x) x
  rcases Nat.lt_or_ge x (2 ^ b) with hsmall | hlarge
  · have hexact : round b x = x := by simpa using round_shifted 0 hsmall
    rw [hexact]
    omega
  · have hx : x ≠ 0 := by
      have := Nat.two_pow_pos b
      omega
    have hlog : b ≤ x.log2 := (Nat.le_log2 hx).mpr hlarge
    have hulp : ulp b x * 2 ^ b ≤ 2 * x := by
      rw [ulp, ← Nat.pow_add, Nat.sub_add_cancel (by omega), Nat.pow_succ, Nat.mul_comm]
      exact Nat.mul_le_mul_left 2 (Nat.log2_self_le hx)
    have hle' := Nat.mul_le_mul_right (2 ^ b) hle
    have hge' := Nat.mul_le_mul_right (2 ^ b) hge
    simp only [Nat.add_mul, Nat.mul_assoc 2] at hle' hge'
    rw [round]
    omega

end Libromano.Foundation.Significand
