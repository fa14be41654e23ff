/- The power-of-two roundings of `bit.h`. -/

import Libromano.Foundation.BitSmear

set_option autoImplicit false
set_option relaxedAutoImplicit false

namespace Libromano.Bit

open Libromano.Foundation.BitSmear

/-- `round_u32_to_next_pow2`. The increment in `return x++` comes after the
value has been taken, so the result is a power of two minus one. -/
def roundU32ToNextPow2 (x : UInt32) : UInt32 :=
  let x := x - 1
  let x := x ||| (x >>> 1)
  let x := x ||| (x >>> 2)
  let x := x ||| (x >>> 4)
  let x := x ||| (x >>> 8)
  x ||| (x >>> 16)

/-- `round_u64_to_next_pow2`. The increment in `return x++` comes after the
value has been taken, so the result is a power of two minus one. -/
def roundU64ToNextPow2 (x : UInt64) : UInt64 :=
  let x := x - 1
  let x := x ||| (x >>> 1)
  let x := x ||| (x >>> 2)
  let x := x ||| (x >>> 4)
  let x := x ||| (x >>> 8)
  let x := x ||| (x >>> 16)
  x ||| (x >>> 32)

private theorem covers_shift32 {x r : ℕ} {y s : UInt32} (h : Covers x r y.toNat)
    (hs : s.toNat % 32 = r) : Covers x (2 * r) (y ||| (y >>> s)).toNat := by
  rw [UInt32.toNat_or, UInt32.toNat_shiftRight, hs]
  exact h.smear

private theorem covers_roundU32ToNextPow2 (x : UInt32) :
    Covers (x - 1).toNat 32 (roundU32ToNextPow2 x).toNat := by
  have h1 := covers_shift32 (s := 1) (covers_self (x - 1).toNat) rfl
  have h2 := covers_shift32 (s := 2) h1 rfl
  have h4 := covers_shift32 (s := 4) h2 rfl
  have h8 := covers_shift32 (s := 8) h4 rfl
  exact covers_shift32 (s := 16) h8 rfl

private theorem covers_shift {x r : ℕ} {y s : UInt64} (h : Covers x r y.toNat)
    (hs : s.toNat % 64 = r) : Covers x (2 * r) (y ||| (y >>> s)).toNat := by
  rw [UInt64.toNat_or, UInt64.toNat_shiftRight, hs]
  exact h.smear

private theorem covers_roundU64ToNextPow2 (x : UInt64) :
    Covers (x - 1).toNat 64 (roundU64ToNextPow2 x).toNat := by
  have h1 := covers_shift (s := 1) (covers_self (x - 1).toNat) rfl
  have h2 := covers_shift (s := 2) h1 rfl
  have h4 := covers_shift (s := 4) h2 rfl
  have h8 := covers_shift (s := 8) h4 rfl
  have h16 := covers_shift (s := 16) h8 rfl
  exact covers_shift (s := 32) h16 rfl

/-- Off the argument one, the result is one less than the power of two above
`x - 1`. -/
theorem roundU64ToNextPow2_toNat {x : UInt64} (hx : (x - 1).toNat ≠ 0) :
    (roundU64ToNextPow2 x).toNat = 2 ^ ((x - 1).toNat.log2 + 1) - 1 :=
  (covers_roundU64ToNextPow2 x).eq_two_pow_sub_one hx (UInt64.toNat_lt _)

example : roundU64ToNextPow2 6 = 7 := by decide

private theorem roundU32ToNextPow2_add_one {x : UInt32} (hx : 1 ≤ x) :
    IsNextPow2 x.toNat ((roundU32ToNextPow2 x).toNat + 1) := by
  have hcovers := covers_roundU32ToNextPow2 x
  rw [UInt32.toNat_sub_of_le x 1 hx] at hcovers
  exact hcovers.isNextPow2 (UInt32.le_iff_toNat_le.mp hx) x.toNat_lt.le

private theorem roundU64ToNextPow2_add_one {x : UInt64} (hx : 1 ≤ x) :
    IsNextPow2 x.toNat ((roundU64ToNextPow2 x).toNat + 1) := by
  have hcovers := covers_roundU64ToNextPow2 x
  rw [UInt64.toNat_sub_of_le x 1 hx] at hcovers
  exact hcovers.isNextPow2 (UInt64.le_iff_toNat_le.mp hx) x.toNat_lt.le

/-- The value that is returned instead never is the next power of two. -/
theorem roundToNextPow2_never (x : UInt32) (y : UInt64) (hx : 1 ≤ x) (hy : 1 ≤ y) :
    ¬IsNextPow2 x.toNat (roundU32ToNextPow2 x).toNat ∧
      ¬IsNextPow2 y.toNat (roundU64ToNextPow2 y).toNat := by
  constructor
  · intro hnext
    exact Nat.succ_ne_self _ ((roundU32ToNextPow2_add_one hx).unique hnext)
  · intro hnext
    exact Nat.succ_ne_self _ ((roundU64ToNextPow2_add_one hy).unique hnext)

theorem roundToNextPow2_never_five :
    ¬IsNextPow2 5 (roundU32ToNextPow2 5).toNat ∧ ¬IsNextPow2 5 (roundU64ToNextPow2 5).toNat :=
  roundToNextPow2_never 5 5 (by decide) (by decide)

/-- Five is rounded to seven. -/
theorem roundToNextPow2_seven : roundU32ToNextPow2 5 = 7 ∧ roundU64ToNextPow2 5 = 7 ∧
    ¬(∀ x : UInt32, 1 ≤ x → x.toNat ≤ 2 ^ 31 → IsNextPow2 x.toNat (roundU32ToNextPow2 x).toNat) ∧
    ¬∀ x : UInt64, 1 ≤ x → x.toNat ≤ 2 ^ 63 → IsNextPow2 x.toNat (roundU64ToNextPow2 x).toNat := by
  have hfive32 : roundU32ToNextPow2 5 = 7 := by decide
  have hfive64 : roundU64ToNextPow2 5 = 7 := by decide
  have height : ¬IsNextPow2 5 7 := by
    rintro ⟨⟨⟨k, hk⟩, -⟩, -⟩
    cases k with
    | zero => exact absurd hk (by decide)
    | succ k =>
      rw [Nat.pow_succ] at hk
      omega
  refine ⟨hfive32, hfive64, ?_, ?_⟩
  · intro hall
    have hnext := hall 5 (by decide) (by decide)
    rw [hfive32] at hnext
    exact height hnext
  · intro hall
    have hnext := hall 5 (by decide) (by decide)
    rw [hfive64] at hnext
    exact height hnext

end Libromano.Bit
