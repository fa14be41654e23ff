/- `popcount_u32` and `popcount_u64` of `bit.h`, as they are built where the compiler has no
   function of its own for them. -/

import Libromano.Foundation.DigitSums

set_option autoImplicit false
set_option relaxedAutoImplicit false

namespace Libromano.Bit

open Libromano.Foundation

variable {w k n : ℕ}

/-- The sum that both functions take, in a word of their own width. -/
def popcount (x : BitVec w) : BitVec w :=
  let v := x
  let v := v - ((v >>> 1) &&& (~~~0#w / 3#w))
  let v := (v &&& (~~~0#w / 15#w * 3#w)) + ((v >>> 2) &&& (~~~0#w / 15#w * 3#w))
  let v := (v + (v >>> 4)) &&& (~~~0#w / 255#w * 15#w)
  (v * (~~~0#w / 255#w)) >>> ((w / 8 - 1) * 8)

def popcountU32 (x : UInt32) : UInt64 := (UInt32.ofBitVec (popcount x.toBitVec)).toUInt64

def popcountU64 (x : UInt64) : UInt64 := UInt64.ofBitVec (popcount x.toBitVec)

/-- The pairs, the nibbles and the bytes of a word of `k` bytes. -/
def pairRound (k n : ℕ) : ℕ := n - (n >>> 1 &&& evenMask 1 (4 * k))

def nibbleRound (k n : ℕ) : ℕ := (n &&& evenMask 2 (2 * k)) + (n >>> 2 &&& evenMask 2 (2 * k))

def byteRound (k n : ℕ) : ℕ := n + n >>> 4 &&& evenMask 4 k

private theorem pairRound_eq (hn : n < 2 ^ (8 * k)) : pairRound k n = addPairs 1 (4 * k) n := by
  rw [show 8 * k = 2 * 1 * (4 * k) by omega] at hn
  exact sub_and_shift hn

private theorem nibbleRound_eq (k n : ℕ) : nibbleRound k n = addPairs 2 (2 * k) n :=
  and_add_and_shift _ n

private theorem nibbleRound_lt (k n : ℕ) : nibbleRound k n < 2 ^ (8 * k) := by
  have hlt := addPairs_lt (w := 2) (by decide) (2 * k) n
  rwa [← nibbleRound_eq, ← Nat.mul_assoc] at hlt

private theorem nibbleRound_add_shift_lt (k n : ℕ) :
    nibbleRound k n + nibbleRound k n >>> 4 < 2 ^ (8 * k) := by
  have hlt := addPairs_add_shift_lt (2 * k) n
  rwa [← nibbleRound_eq, show 16 = 2 ^ 4 from rfl, ← Nat.pow_mul, ← Nat.mul_assoc] at hlt

private theorem byteRound_eq (k n : ℕ) :
    byteRound k (addPairs 2 (2 * k) n) = addPairs 4 k (addPairs 2 (2 * k) n) :=
  add_shift_and k fun i => (addPairs_two_mod (2 * k) n i).trans_lt (by decide)

private theorem digitSum_rounds (k n : ℕ) :
    digitSum 256 k (addPairs 4 k (addPairs 2 (2 * k) (addPairs 1 (4 * k) n))) =
      digitSum 2 (8 * k) n := by
  calc digitSum 256 k (addPairs 4 k (addPairs 2 (2 * k) (addPairs 1 (4 * k) n)))
      = digitSum 16 (2 * k) (addPairs 2 (2 * k) (addPairs 1 (4 * k) n)) :=
        digitSum_addPairs (w := 4) (by decide) k _
    _ = digitSum 4 (2 * (2 * k)) (addPairs 1 (4 * k) n) :=
        digitSum_addPairs (w := 2) (by decide) (2 * k) _
    _ = digitSum 4 (4 * k) (addPairs 1 (4 * k) n) := by rw [← Nat.mul_assoc]
    _ = digitSum 2 (2 * (4 * k)) n := digitSum_addPairs (w := 1) (by decide) (4 * k) n
    _ = digitSum 2 (8 * k) n := by rw [← Nat.mul_assoc]

private theorem rounds_eq (x : BitVec (8 * (k + 1))) (hk : k < 31) :
    byteRound (k + 1) (nibbleRound (k + 1) (pairRound (k + 1) x.toNat)) * onesMask (k + 1) %
      256 ^ (k + 1) / 256 ^ k = x.cpop.toNat := by
  have hle := x.toNat_cpop_le
  rw [toNat_cpop_eq, ← digitSum_rounds] at hle ⊢
  rw [pairRound_eq x.isLt, nibbleRound_eq, byteRound_eq]
  exact mul_onesMask_top k _ (by omega)

private theorem toNat_small {c : ℕ} (hc : c < 256) (k : ℕ) :
    (BitVec.ofNat (8 * (k + 1)) c).toNat = c := by
  have hword : 2 ^ 8 ≤ 2 ^ (8 * (k + 1)) := Nat.pow_le_pow_right (by decide) (by omega)
  exact Nat.mod_eq_of_lt (hc.trans_le hword)

private theorem toNat_mask {c d : ℕ} (hn : 0 < n) (hc : 2 ^ (2 * n) - 1 = c) (hd : 2 ^ n - 1 = d)
    (hsmall : c < 256) (hk : 2 * n * w = 8 * (k + 1)) :
    (~~~0#(8 * (k + 1)) / BitVec.ofNat _ c * BitVec.ofNat _ d).toNat = evenMask n w := by
  have hle : 2 ^ n - 1 ≤ 2 ^ (2 * n) - 1 :=
    Nat.sub_le_sub_right (Nat.pow_le_pow_right (by decide) (by omega)) 1
  have hlt : evenMask n w < 2 ^ (8 * (k + 1)) := by
    rw [← hk, ← mul_evenMask]
    exact Nat.lt_succ_of_le (Nat.le_mul_of_pos_left _ (Nat.succ_pos _))
  rw [BitVec.toNat_mul, BitVec.toNat_udiv, BitVec.not_zero, BitVec.toNat_allOnes,
    toNat_small hsmall, toNat_small (by omega), ← hk, ← hc, ← hd, evenMask_eq hn, hk]
  exact Nat.mod_eq_of_lt hlt

private theorem toNat_ones (k : ℕ) : (~~~0#(8 * (k + 1)) / 255#_).toNat = onesMask (k + 1) := by
  rw [BitVec.toNat_udiv, BitVec.not_zero, BitVec.toNat_allOnes, toNat_small (by decide),
    Nat.pow_mul]
  exact onesMask_eq (k + 1)

private theorem popcount_eq_cpop (x : BitVec (8 * (k + 1))) (hk : k < 31) :
    popcount x = x.cpop := by
  apply BitVec.eq_of_toNat_eq
  have hmask₁ : (~~~0#(8 * (k + 1)) / 3#_).toNat = evenMask 1 (4 * (k + 1)) := by
    rw [← BitVec.mul_one (_ / _)]
    exact toNat_mask (by decide) rfl rfl (by decide) (by omega)
  have hmask₂ : (~~~0#(8 * (k + 1)) / 15#_ * 3#_).toNat = evenMask 2 (2 * (k + 1)) :=
    toNat_mask (by decide) rfl rfl (by decide) (by omega)
  have hmask₄ : (~~~0#(8 * (k + 1)) / 255#_ * 15#_).toNat = evenMask 4 (k + 1) :=
    toNat_mask (by decide) rfl rfl (by decide) (by omega)
  have hodd : (x >>> 1 &&& ~~~0#(8 * (k + 1)) / 3#_).toNat =
      x.toNat >>> 1 &&& evenMask 1 (4 * (k + 1)) := by
    rw [BitVec.toNat_and, BitVec.toNat_ushiftRight, hmask₁]
  have hle : x >>> 1 &&& ~~~0#(8 * (k + 1)) / 3#_ ≤ x := by
    rw [BitVec.le_def, hodd]
    exact Nat.and_le_left.trans (Nat.shiftRight_le _ _)
  have hpairs : (x - (x >>> 1 &&& ~~~0#(8 * (k + 1)) / 3#_)).toNat = pairRound (k + 1) x.toNat := by
    rw [BitVec.toNat_sub_of_le hle, hodd, pairRound]
  have hnibbles : ∀ v : BitVec (8 * (k + 1)),
      ((v &&& ~~~0#(8 * (k + 1)) / 15#_ * 3#_) +
        (v >>> 2 &&& ~~~0#(8 * (k + 1)) / 15#_ * 3#_)).toNat = nibbleRound (k + 1) v.toNat := by
    intro v
    rw [BitVec.toNat_add, BitVec.toNat_and, BitVec.toNat_and, BitVec.toNat_ushiftRight, hmask₂]
    exact Nat.mod_eq_of_lt (nibbleRound_lt (k + 1) v.toNat)
  have hbytes : ∀ v : BitVec (8 * (k + 1)), v.toNat + v.toNat >>> 4 < 2 ^ (8 * (k + 1)) →
      ((v + v >>> 4) &&& ~~~0#(8 * (k + 1)) / 255#_ * 15#_).toNat = byteRound (k + 1) v.toNat := by
    intro v hlt
    rw [BitVec.toNat_and, BitVec.toNat_add, BitVec.toNat_ushiftRight, hmask₄,
      Nat.mod_eq_of_lt hlt, byteRound]
  have htop : (8 * (k + 1) / 8 - 1) * 8 = 8 * k := by omega
  rw [popcount, htop, BitVec.toNat_ushiftRight, BitVec.toNat_mul, toNat_ones, hbytes, hnibbles,
    hpairs, Nat.shiftRight_eq_div_pow, Nat.pow_mul, Nat.pow_mul]
  · exact rounds_eq x hk
  · rw [hnibbles]
    exact nibbleRound_add_shift_lt (k + 1) _

/-- Both count the bits that are set. -/
theorem popcount_eq (x : UInt32) (y : UInt64) :
    (popcountU32 x).toNat = x.toBitVec.cpop.toNat ∧
      (popcountU64 y).toNat = y.toBitVec.cpop.toNat := by
  refine ⟨?_, congrArg BitVec.toNat (popcount_eq_cpop (k := 7) y.toBitVec (by decide))⟩
  rw [popcountU32, UInt32.toNat_toUInt64]
  exact congrArg BitVec.toNat (popcount_eq_cpop (k := 3) x.toBitVec (by decide))

end Libromano.Bit
