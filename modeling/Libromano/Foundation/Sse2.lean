/- The 128-bit register of SSE2, its two 64-bit lanes, and the intrinsics on it. The counts of the
   shifts are bytes, of which the lowest one is used. -/

import Mathlib.Algebra.Order.Ring.Nat
import Mathlib.Algebra.Order.Ring.Int

set_option autoImplicit false
set_option relaxedAutoImplicit false

namespace Libromano.Foundation.Sse2

abbrev M128i := BitVec 128

def M128i.high (a : M128i) : BitVec 64 := a.extractLsb' 64 64

def M128i.low (a : M128i) : BitVec 64 := a.extractLsb' 0 64

def lanewise (f : BitVec 64 → BitVec 64 → BitVec 64) (a b : M128i) : M128i :=
  f a.high b.high ++ f a.low b.low

def mmSetEpi64x (e1 e0 : BitVec 64) : M128i := e1 ++ e0

def mmSet1Epi8 (a : BitVec 8) : M128i := a.replicate 16

def mmSetzeroSi128 : M128i := 0

def mmAddEpi64 (a b : M128i) : M128i := lanewise (· + ·) a b

def mmSubEpi64 (a b : M128i) : M128i := lanewise (· - ·) a b

def mmCmpeqEpi64 (a b : M128i) : M128i :=
  lanewise (fun x y => if x = y then BitVec.allOnes 64 else 0) a b

def mmMovemaskEpi8 (a : M128i) : ℤ :=
  ((List.range 16).map fun i => if a.getLsbD (8 * i + 7) then 2 ^ i else 0).sum

def mmAndSi128 (a b : M128i) : M128i := a &&& b

def mmOrSi128 (a b : M128i) : M128i := a ||| b

def mmXorSi128 (a b : M128i) : M128i := a ^^^ b

/-- The lowest byte of an `int`. -/
def imm8 (count : ℤ) : ℕ := (count % 256).toNat

def mmSlliEpi64 (a : M128i) (count : ℤ) : M128i :=
  a.high <<< imm8 count ++ a.low <<< imm8 count

def mmSrliEpi64 (a : M128i) (count : ℤ) : M128i :=
  a.high >>> imm8 count ++ a.low >>> imm8 count

def mmSlliSi128 (a : M128i) (count : ℤ) : M128i := a <<< (8 * imm8 count)

def mmSrliSi128 (a : M128i) (count : ℤ) : M128i := a >>> (8 * imm8 count)

variable {a b : M128i} {x y : BitVec 64}

theorem toNat_high : a.high.toNat = a.toNat / 2 ^ 64 := by
  have hlt := a.isLt
  unfold M128i.high
  rw [BitVec.extractLsb'_toNat, Nat.shiftRight_eq_div_pow, Nat.mod_eq_of_lt (by omega)]

theorem toNat_low : a.low.toNat = a.toNat % 2 ^ 64 := by
  unfold M128i.low
  rw [BitVec.extractLsb'_toNat, Nat.shiftRight_zero]

@[simp] theorem high_append : M128i.high (x ++ y) = x := BitVec.extractLsb'_append_eq_left

@[simp] theorem low_append : M128i.low (x ++ y) = y := BitVec.extractLsb'_append_eq_right

@[simp] theorem high_lanewise {f : BitVec 64 → BitVec 64 → BitVec 64} :
    M128i.high (lanewise f a b) = f a.high b.high := high_append

@[simp] theorem low_lanewise {f : BitVec 64 → BitVec 64 → BitVec 64} :
    M128i.low (lanewise f a b) = f a.low b.low := low_append

theorem ext_lanes (hhigh : a.high = b.high) (hlow : a.low = b.low) : a = b := by
  have hhigh := congrArg BitVec.toNat hhigh
  have hlow := congrArg BitVec.toNat hlow
  rw [toNat_high, toNat_high] at hhigh
  rw [toNat_low, toNat_low] at hlow
  apply BitVec.eq_of_toNat_eq
  omega

private theorem eq_iff_lanes : a = b ↔ a.high = b.high ∧ a.low = b.low :=
  ⟨fun h => h ▸ ⟨rfl, rfl⟩, fun h => ext_lanes h.1 h.2⟩

theorem lt_iff_lanes :
    a < b ↔ a.high < b.high ∨ a.high = b.high ∧ a.low < b.low := by
  rw [BitVec.lt_def, BitVec.lt_def, BitVec.lt_def, ← BitVec.toNat_inj, toNat_high, toNat_high,
    toNat_low, toNat_low]
  omega

theorem getLsbD_high {i : ℕ} : a.high.getLsbD i = (decide (i < 64) && a.getLsbD (64 + i)) := by
  unfold M128i.high
  rw [BitVec.getLsbD_extractLsb']

theorem getLsbD_low {i : ℕ} : a.low.getLsbD i = (decide (i < 64) && a.getLsbD i) := by
  unfold M128i.low
  rw [BitVec.getLsbD_extractLsb', zero_add]

theorem movemask_cmpeq : mmMovemaskEpi8 (mmCmpeqEpi64 a b) = 0xFFFF ↔ a = b := by
  rw [eq_iff_lanes]
  simp only [mmCmpeqEpi64, lanewise]
  by_cases hhigh : a.high = b.high <;> by_cases hlow : a.low = b.low
  · rw [if_pos hhigh, if_pos hlow]
    exact iff_of_true (by decide) ⟨hhigh, hlow⟩
  · rw [if_pos hhigh, if_neg hlow]
    exact iff_of_false (by decide) fun h => hlow h.2
  · rw [if_neg hhigh, if_pos hlow]
    exact iff_of_false (by decide) fun h => hhigh h.1
  · rw [if_neg hhigh, if_neg hlow]
    exact iff_of_false (by decide) fun h => hhigh h.1

theorem set1_allOnes : mmSet1Epi8 0xFF = BitVec.allOnes 128 := by decide

theorem imm8_of_lt {n : ℕ} (hn : n < 256) : imm8 n = n := by
  unfold imm8
  omega

end Libromano.Foundation.Sse2
