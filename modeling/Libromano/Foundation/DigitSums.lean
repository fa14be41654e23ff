/- Sums of the digits of a word, by adding neighbouring digits: each round halves their number and
   doubles the bits that each has, until a multiplication adds up what is left. -/

import Mathlib.Algebra.Order.Ring.Nat
import Mathlib.Data.List.Count
import Mathlib.Tactic.Ring

set_option autoImplicit false
set_option relaxedAutoImplicit false

namespace Libromano.Foundation

variable {w k n m : ℕ}

/-- The sum of the lowest `k` digits to base `b`. -/
def digitSum (b : ℕ) : ℕ → ℕ → ℕ
  | 0, _ => 0
  | k + 1, n => n % b + digitSum b k (n / b)

/-- The digits of `w` bits at the even places, in `k` lanes of twice that width. -/
def evenMask (w : ℕ) : ℕ → ℕ
  | 0 => 0
  | k + 1 => 2 ^ w - 1 + 2 ^ (2 * w) * evenMask w k

/-- The sums of the two digits of `w` bits in each of `k` lanes. -/
def addPairs (w : ℕ) : ℕ → ℕ → ℕ
  | 0, _ => 0
  | k + 1, n => n % 2 ^ w + n / 2 ^ w % 2 ^ w + 2 ^ (2 * w) * addPairs w k (n / 2 ^ (2 * w))

/-- A word of `k` bytes with a one in each. -/
def onesMask : ℕ → ℕ
  | 0 => 0
  | k + 1 => 1 + 256 * onesMask k

private theorem countP_testBit (k n : ℕ) : (List.range k).countP n.testBit = digitSum 2 k n := by
  induction k generalizing n with
  | zero => rfl
  | succ k ih =>
    rw [List.range_succ_eq_map, List.countP_cons, List.countP_map, digitSum, ← ih]
    have htail : n.testBit ∘ Nat.succ = (n / 2).testBit := by
      funext i
      exact Nat.testBit_succ n i
    rw [htail, Nat.add_comm, Nat.testBit_zero]
    congr 1
    rcases Nat.mod_two_eq_zero_or_one n with hbit | hbit <;> simp [hbit]

private theorem cpopNatRec_eq_countP {x : BitVec w} (k acc : ℕ) :
    x.cpopNatRec k acc = acc + (List.range k).countP x.toNat.testBit := by
  induction k generalizing acc with
  | zero => rfl
  | succ k ih =>
    rw [BitVec.cpopNatRec_succ, ih, List.range_succ, List.countP_append, List.countP_singleton,
      ← BitVec.testBit_toNat]
    cases x.toNat.testBit k with
    | false => rfl
    | true => exact Nat.add_right_comm acc 1 _

theorem toNat_cpop_eq (x : BitVec w) : x.cpop.toNat = digitSum 2 w x.toNat := by
  rw [BitVec.toNat_cpop, cpopNatRec_eq_countP, Nat.zero_add, countP_testBit]

private theorem and_evenMask_succ (n k : ℕ) : n &&& evenMask w (k + 1) =
    n % 2 ^ w + 2 ^ (2 * w) * (n / 2 ^ (2 * w) &&& evenMask w k) := by
  have hlow : 2 ^ w - 1 < 2 ^ (2 * w) :=
    (Nat.sub_lt (Nat.two_pow_pos w) Nat.one_pos).trans_le
      (Nat.pow_le_pow_right (by decide) (by omega))
  have hmod : evenMask w (k + 1) % 2 ^ (2 * w) = 2 ^ w - 1 := by
    rw [evenMask, Nat.add_mul_mod_self_left, Nat.mod_eq_of_lt hlow]
  have hdiv : evenMask w (k + 1) / 2 ^ (2 * w) = evenMask w k := by
    rw [evenMask, Nat.add_mul_div_left _ _ (Nat.two_pow_pos _), Nat.div_eq_of_lt hlow, Nat.zero_add]
  rw [← Nat.mod_add_div (n &&& evenMask w (k + 1)) (2 ^ (2 * w)), Nat.and_mod_two_pow,
    Nat.and_div_two_pow, hmod, hdiv, Nat.and_two_pow_sub_one_eq_mod,
    Nat.mod_mod_of_dvd _ (Nat.pow_dvd_pow 2 (by omega))]

private theorem sq_sub_one (w : ℕ) : (2 ^ w + 1) * (2 ^ w - 1) + 1 = 2 ^ (2 * w) := by
  obtain ⟨m, hm⟩ := Nat.exists_eq_succ_of_ne_zero (Nat.two_pow_pos w).ne'
  rw [Nat.two_mul, Nat.pow_add, hm, Nat.succ_sub_one, Nat.succ_eq_add_one]
  ring

theorem mul_evenMask (w k : ℕ) : (2 ^ w + 1) * evenMask w k + 1 = 2 ^ (2 * w * k) := by
  induction k with
  | zero => rfl
  | succ k ih =>
    calc (2 ^ w + 1) * evenMask w (k + 1) + 1
        = (2 ^ w + 1) * (2 ^ w - 1) + 1 + 2 ^ (2 * w) * ((2 ^ w + 1) * evenMask w k) := by
          rw [evenMask]
          ring
      _ = 2 ^ (2 * w) * ((2 ^ w + 1) * evenMask w k + 1) := by
          rw [sq_sub_one]
          ring
      _ = 2 ^ (2 * w * (k + 1)) := by rw [ih, ← Nat.pow_add, Nat.mul_succ, Nat.add_comm]

private theorem dvd_evenMask (w k : ℕ) : 2 ^ w - 1 ∣ evenMask w k := by
  induction k with
  | zero => exact Nat.dvd_zero _
  | succ k ih => exact Nat.dvd_add (Nat.dvd_refl _) (Nat.dvd_mul_left_of_dvd ih _)

theorem evenMask_eq (hw : 0 < w) (k : ℕ) :
    (2 ^ (2 * w * k) - 1) / (2 ^ (2 * w) - 1) * (2 ^ w - 1) = evenMask w k := by
  obtain ⟨r, hr⟩ := dvd_evenMask w k
  have hall := mul_evenMask w k
  have hsq := sq_sub_one w
  have hpos : 0 < 2 ^ (2 * w) - 1 :=
    Nat.sub_pos_of_lt (Nat.one_lt_two_pow (by omega))
  have hword : 2 ^ (2 * w * k) - 1 = (2 ^ (2 * w) - 1) * r := by
    rw [← hall, ← hsq, hr, Nat.add_sub_cancel, Nat.add_sub_cancel, Nat.mul_assoc]
  rw [hword, Nat.mul_div_cancel_left _ hpos, hr, Nat.mul_comm]

private theorem mul_onesMask (k : ℕ) : 255 * onesMask k + 1 = 256 ^ k := by
  induction k with
  | zero => rfl
  | succ k ih =>
    rw [onesMask, Nat.pow_succ]
    omega

theorem onesMask_eq (k : ℕ) : (256 ^ k - 1) / 255 = onesMask k := by
  have hall := mul_onesMask k
  omega

private theorem shiftRight_div (n m : ℕ) : (n >>> w) / 2 ^ m = (n / 2 ^ m) >>> w := by
  rw [Nat.shiftRight_eq_div_pow, Nat.shiftRight_eq_div_pow, Nat.div_div_eq_div_mul,
    Nat.div_div_eq_div_mul, Nat.mul_comm]

theorem and_add_and_shift (k n : ℕ) :
    (n &&& evenMask w k) + (n >>> w &&& evenMask w k) = addPairs w k n := by
  induction k generalizing n with
  | zero => simp [evenMask, addPairs]
  | succ k ih =>
    rw [and_evenMask_succ, and_evenMask_succ, shiftRight_div, addPairs, ← ih,
      Nat.shiftRight_eq_div_pow n]
    ring

private theorem and_add_mul_and_shift (k : ℕ) (hn : n < 2 ^ (2 * w * k)) :
    (n &&& evenMask w k) + 2 ^ w * (n >>> w &&& evenMask w k) = n := by
  induction k generalizing n with
  | zero =>
    obtain rfl : n = 0 := by simpa using hn
    simp
  | succ k ih =>
    have hrest : n / 2 ^ (2 * w) < 2 ^ (2 * w * k) := by
      rw [Nat.div_lt_iff_lt_mul (Nat.two_pow_pos _), ← Nat.pow_add]
      exact hn
    have hpair : n % 2 ^ w + 2 ^ w * (n / 2 ^ w % 2 ^ w) = n % 2 ^ (2 * w) := by
      rw [Nat.two_mul, Nat.pow_add, Nat.mod_mul]
    rw [and_evenMask_succ, and_evenMask_succ, shiftRight_div, Nat.shiftRight_eq_div_pow n]
    calc _ = n % 2 ^ w + 2 ^ w * (n / 2 ^ w % 2 ^ w) + 2 ^ (2 * w) *
          ((n / 2 ^ (2 * w) &&& evenMask w k) +
            2 ^ w * ((n / 2 ^ (2 * w)) >>> w &&& evenMask w k)) := by ring
      _ = n % 2 ^ (2 * w) + 2 ^ (2 * w) * (n / 2 ^ (2 * w)) := by rw [hpair, ih hrest]
      _ = n := Nat.mod_add_div n _

theorem sub_and_shift (hn : n < 2 ^ (2 * 1 * k)) :
    n - (n >>> 1 &&& evenMask 1 k) = addPairs 1 k n := by
  have hsplit := and_add_mul_and_shift k hn
  rw [← and_add_and_shift]
  omega

theorem digitSum_addPairs (hw : 0 < w) (k n : ℕ) :
    digitSum (2 ^ (2 * w)) k (addPairs w k n) = digitSum (2 ^ w) (2 * k) n := by
  induction k generalizing n with
  | zero => rfl
  | succ k ih =>
    have hlt := Nat.mod_lt n (Nat.two_pow_pos w)
    have hlt' := Nat.mod_lt (n / 2 ^ w) (Nat.two_pow_pos w)
    have hroom : 2 * 2 ^ w ≤ 2 ^ (2 * w) := by
      rw [← Nat.pow_succ']
      exact Nat.pow_le_pow_right (by decide) (by omega)
    have hsum : n % 2 ^ w + n / 2 ^ w % 2 ^ w < 2 ^ (2 * w) := by omega
    rw [digitSum, addPairs, Nat.add_mul_mod_self_left, Nat.mod_eq_of_lt hsum,
      Nat.add_mul_div_left _ _ (Nat.two_pow_pos _), Nat.div_eq_of_lt hsum, Nat.zero_add, ih,
      show 2 * (k + 1) = 2 * k + 1 + 1 by omega, digitSum, digitSum, Nat.div_div_eq_div_mul,
      ← Nat.pow_add, ← Nat.two_mul, Nat.add_assoc]

theorem addPairs_lt (hw : 0 < w) (k n : ℕ) : addPairs w k n < 2 ^ (2 * w * k) := by
  induction k generalizing n with
  | zero => exact Nat.one_pos
  | succ k ih =>
    have hlt := Nat.mod_lt n (Nat.two_pow_pos w)
    have hlt' := Nat.mod_lt (n / 2 ^ w) (Nat.two_pow_pos w)
    have hroom : 2 * 2 ^ w ≤ 2 ^ (2 * w) := by
      rw [← Nat.pow_succ']
      exact Nat.pow_le_pow_right (by decide) (by omega)
    have hrest := ih (n / 2 ^ (2 * w))
    calc addPairs w (k + 1) n < 2 ^ (2 * w) + 2 ^ (2 * w) * addPairs w k (n / 2 ^ (2 * w)) := by
          rw [addPairs]
          omega
      _ = 2 ^ (2 * w) * (addPairs w k (n / 2 ^ (2 * w)) + 1) := by ring
      _ ≤ 2 ^ (2 * w) * 2 ^ (2 * w * k) := Nat.mul_le_mul_left _ hrest
      _ = 2 ^ (2 * w * (k + 1)) := by rw [← Nat.pow_add]; ring_nf

theorem addPairs_two_mod (k n i : ℕ) : addPairs 2 k n / 16 ^ i % 16 ≤ 6 := by
  induction k generalizing n i with
  | zero => simp [addPairs]
  | succ k ih =>
    have hsum : n % 4 + n / 4 % 4 ≤ 6 := by omega
    have hdef : addPairs 2 (k + 1) n = n % 4 + n / 4 % 4 + 16 * addPairs 2 k (n / 16) := rfl
    cases i with
    | zero =>
      rw [hdef, Nat.pow_zero, Nat.div_one]
      omega
    | succ i =>
      rw [hdef, Nat.pow_succ', ← Nat.div_div_eq_div_mul, Nat.add_mul_div_left _ _ (by decide),
        Nat.div_eq_of_lt (show n % 4 + n / 4 % 4 < 16 by omega), Nat.zero_add]
      exact ih (n / 16) i

private theorem addPairs_two_le (k n : ℕ) : 15 * addPairs 2 k n + 6 ≤ 6 * 16 ^ k := by
  induction k generalizing n with
  | zero => rfl
  | succ k ih =>
    have hrest := ih (n / 16)
    have hdef : addPairs 2 (k + 1) n = n % 4 + n / 4 % 4 + 16 * addPairs 2 k (n / 16) := rfl
    rw [hdef, Nat.pow_succ]
    omega

theorem addPairs_add_shift_lt (k n : ℕ) : addPairs 2 k n + addPairs 2 k n >>> 4 < 16 ^ k := by
  have hle := addPairs_two_le k n
  rw [Nat.shiftRight_eq_div_pow]
  omega

theorem add_shift_and (k : ℕ) (hsmall : ∀ i, n / 16 ^ i % 16 < 8) :
    n + n >>> 4 &&& evenMask 4 k = addPairs 4 k n := by
  induction k generalizing n with
  | zero => simp [evenMask, addPairs]
  | succ k ih =>
    have h₀ := hsmall 0
    have h₁ := hsmall 1
    have h₂ := hsmall 2
    rw [Nat.pow_zero, Nat.div_one] at h₀
    rw [Nat.pow_one] at h₁
    rw [show (16 : ℕ) ^ 2 = 256 from rfl] at h₂
    have hrest : ∀ i, n / 256 / 16 ^ i % 16 < 8 := by
      intro i
      have hi := hsmall (i + 2)
      rwa [Nat.pow_add, Nat.mul_comm, ← Nat.div_div_eq_div_mul] at hi
    have hnext := ih hrest
    have hdef : addPairs 4 (k + 1) n = n % 16 + n / 16 % 16 + 256 * addPairs 4 k (n / 256) := rfl
    have hlow : (n + n >>> 4) % 16 = n % 16 + n / 16 % 16 := by
      rw [Nat.shiftRight_eq_div_pow, show (2 : ℕ) ^ 4 = 16 from rfl]
      omega
    have hhigh : (n + n >>> 4) / 256 = n / 256 + (n / 256) >>> 4 := by
      have hlane : n / 16 / 16 = n / 256 := Nat.div_div_eq_div_mul n 16 16
      have hword : n = n % 16 + 16 * (n / 16 % 16) + 256 * (n / 256) := by omega
      have hshift : n / 16 = n / 16 % 16 + 16 * (n / 256) := by omega
      rw [Nat.shiftRight_eq_div_pow, Nat.shiftRight_eq_div_pow, show (2 : ℕ) ^ 4 = 16 from rfl]
      -- no carry goes from one nibble to the next
      generalize n / 256 = r at *
      generalize n / 16 % 16 = u at *
      generalize n % 16 = v at *
      omega
    have hmask := and_evenMask_succ (w := 4) (n + n >>> 4) k
    rw [show (2 : ℕ) ^ 4 = 16 from rfl, show (2 : ℕ) ^ (2 * 4) = 256 from rfl, hlow, hhigh, hnext]
      at hmask
    rw [hmask, hdef]

private theorem onesMask_succ (k : ℕ) : onesMask (k + 1) = onesMask k + 256 ^ k := by
  induction k with
  | zero => rfl
  | succ k ih =>
    calc onesMask (k + 1 + 1) = 1 + 256 * onesMask (k + 1) := rfl
      _ = 1 + 256 * onesMask k + 256 ^ (k + 1) := by
        rw [ih, Nat.pow_succ]
        ring
      _ = onesMask (k + 1) + 256 ^ (k + 1) := rfl

/-- The sums of the bytes up to each place, on top of `carry`. -/
def prefixSums : ℕ → ℕ → ℕ → ℕ
  | 0, _, _ => 0
  | k + 1, n, carry => carry + n % 256 + 256 * prefixSums k (n / 256) (carry + n % 256)

private theorem mul_onesMask_mod (k n carry : ℕ) :
    (n + carry) * onesMask k % 256 ^ k = prefixSums k n carry % 256 ^ k := by
  induction k generalizing n carry with
  | zero => simp [Nat.mod_one]
  | succ k ih =>
    have hn := Nat.mod_add_div n 256
    have hsplit : (n + carry) * onesMask (k + 1) = carry + n % 256 +
        256 * ((n / 256 + (carry + n % 256)) * onesMask k + 256 ^ k * (n / 256)) := by
      calc (n + carry) * onesMask (k + 1)
          = (n % 256 + carry) * (1 + 256 * onesMask k) +
              256 * (n / 256) * onesMask (k + 1) := by
            nth_rewrite 1 [← hn]
            rw [onesMask]
            ring
        _ = _ := by
            rw [onesMask_succ]
            ring
    rw [hsplit, prefixSums, Nat.pow_succ', Nat.mod_mul, Nat.mod_mul,
      Nat.add_mul_mod_self_left, Nat.add_mul_mod_self_left, Nat.add_mul_div_left _ _ (by decide),
      Nat.add_mul_div_left _ _ (by decide)]
    congr 2
    rw [Nat.add_mod, Nat.add_mod (_ / 256)]
    congr 2
    rw [Nat.add_mul_mod_self_left, ih]

private theorem prefixSums_eq (k n carry : ℕ) (hsum : carry + digitSum 256 (k + 1) n < 256) :
    prefixSums (k + 1) n carry < 256 ^ (k + 1) ∧
      prefixSums (k + 1) n carry / 256 ^ k = carry + digitSum 256 (k + 1) n := by
  induction k generalizing n carry with
  | zero =>
    simp only [prefixSums, digitSum] at hsum ⊢
    constructor <;> omega
  | succ k ih =>
    rw [digitSum, ← Nat.add_assoc] at hsum ⊢
    obtain ⟨hlt, htop⟩ := ih (n / 256) (carry + n % 256) hsum
    rw [prefixSums]
    have hbyte : carry + n % 256 < 256 := by omega
    refine ⟨?_, ?_⟩
    · rw [Nat.pow_succ']
      omega
    · rw [Nat.pow_succ', ← Nat.div_div_eq_div_mul, Nat.add_mul_div_left _ _ (by decide),
        Nat.div_eq_of_lt hbyte, Nat.zero_add, htop]

theorem mul_onesMask_top (k n : ℕ) (hsum : digitSum 256 (k + 1) n < 256) :
    n * onesMask (k + 1) % 256 ^ (k + 1) / 256 ^ k = digitSum 256 (k + 1) n := by
  rw [← Nat.zero_add (digitSum 256 (k + 1) n)] at hsum
  obtain ⟨hlt, htop⟩ := prefixSums_eq k n 0 hsum
  have hmod := mul_onesMask_mod (k + 1) n 0
  rw [Nat.add_zero] at hmod
  rw [hmod, Nat.mod_eq_of_lt hlt, htop, Nat.zero_add]

end Libromano.Foundation
