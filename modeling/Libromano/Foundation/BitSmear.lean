/- Smearing the bits of a number to the right. After shifts by 1, 2, 4, ... every bit below the
   leading one is set, which leaves a power of two minus one. -/

import Mathlib.Data.Nat.Bitwise
import Mathlib.Data.Nat.Log
import Mathlib.Order.Bounds.Defs

set_option autoImplicit false
set_option relaxedAutoImplicit false

namespace Libromano.Foundation.BitSmear

/-- Each bit of `y` tells whether one of `r` consecutive bits of `x` is set. -/
def Covers (x r y : ℕ) : Prop := ∀ i, y.testBit i = true ↔ ∃ j < r, x.testBit (i + j) = true

theorem covers_self (x : ℕ) : Covers x 1 x := by
  intro i
  simp

theorem Covers.smear {x r y : ℕ} (h : Covers x r y) : Covers x (2 * r) (y ||| (y >>> r)) := by
  intro i
  rw [Nat.testBit_or, Nat.testBit_shiftRight, Bool.or_eq_true, h i, h (r + i)]
  constructor
  · rintro (⟨j, hj, hx⟩ | ⟨j, hj, hx⟩)
    · exact ⟨j, by omega, hx⟩
    · exact ⟨r + j, by omega, by rwa [show i + (r + j) = r + i + j by omega]⟩
  · rintro ⟨j, hj, hx⟩
    by_cases hjr : j < r
    · exact Or.inl ⟨j, hjr, hx⟩
    · exact Or.inr ⟨j - r, by omega, by rwa [show r + i + (j - r) = i + j by omega]⟩

/-- When the window is as wide as the word, the smeared word is all ones up to
the leading bit. -/
theorem Covers.eq_two_pow_sub_one {x w y : ℕ} (h : Covers x w y) (hx : x ≠ 0) (hw : x < 2 ^ w) :
    y = 2 ^ (x.log2 + 1) - 1 := by
  apply Nat.eq_of_testBit_eq
  intro i
  rw [Nat.testBit_two_pow_sub_one, Bool.eq_iff_iff, h i, decide_eq_true_iff]
  constructor
  · rintro ⟨j, -, hbit⟩
    have hle : 2 ^ (i + j) ≤ x := Nat.ge_two_pow_of_testBit hbit
    have := (Nat.le_log2 hx).mpr hle
    omega
  · intro hi
    have hlog : x.log2 < w := (Nat.log2_lt hx).mpr hw
    refine ⟨x.log2 - i, by omega, ?_⟩
    rw [show i + (x.log2 - i) = x.log2 by omega]
    exact Nat.testBit_log2 hx

/-- `p` is the least power of two that is at least `x`. -/
def IsNextPow2 (x p : ℕ) : Prop := IsLeast {q | (∃ k, q = 2 ^ k) ∧ x ≤ q} p

theorem IsNextPow2.unique {x p q : ℕ} (hp : IsNextPow2 x p) (hq : IsNextPow2 x q) : p = q :=
  Nat.le_antisymm (hp.2 hq.1) (hq.2 hp.1)

theorem Covers.isNextPow2 {x w y : ℕ} (h : Covers (x - 1) w y) (hpos : 1 ≤ x) (hw : x ≤ 2 ^ w) :
    IsNextPow2 x (y + 1) := by
  by_cases hone : x = 1
  · subst hone
    have hzero : y = 0 := by
      apply Nat.eq_of_testBit_eq
      intro i
      rw [Bool.eq_iff_iff, h i]
      simp
    subst hzero
    refine ⟨⟨⟨0, rfl⟩, le_rfl⟩, ?_⟩
    rintro q ⟨-, hq⟩
    exact hq
  · have hne : x - 1 ≠ 0 := by omega
    rw [h.eq_two_pow_sub_one hne (by omega), Nat.sub_add_cancel Nat.one_le_two_pow]
    constructor
    · refine ⟨⟨_, rfl⟩, ?_⟩
      have hlt : x - 1 < 2 ^ ((x - 1).log2 + 1) := Nat.lt_log2_self
      omega
    · rintro q ⟨⟨k, rfl⟩, hq⟩
      have hlog : (x - 1).log2 < k := (Nat.log2_lt hne).mpr (by omega)
      exact Nat.pow_le_pow_right (by decide) hlog

end Libromano.Foundation.BitSmear
