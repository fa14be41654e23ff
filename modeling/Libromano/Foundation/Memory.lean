/- The bytes that have been written, by their addresses. -/

import Mathlib.Algebra.Order.Ring.Int
import Mathlib.Logic.Function.Basic

set_option autoImplicit false
set_option relaxedAutoImplicit false

namespace Libromano.Foundation

/-- Nothing is known of a byte that has not been written. -/
abbrev Memory := ℤ → Option UInt8

namespace Memory

variable {mem mem₁ mem₂ : Memory} {p : ℤ} {bytes bytes' : List UInt8}

def write (mem : Memory) (p : ℤ) (c : UInt8) : Memory := Function.update mem p (some c)

/-- The bytes lie at the address and behind it, and nothing else has been written. -/
def Stored (mem : Memory) (p : ℤ) (bytes : List UInt8) (mem₁ : Memory) : Prop :=
  ∀ q, mem₁ q = if p ≤ q ∧ q < p + bytes.length then bytes[(q - p).toNat]? else mem q

theorem stored_write (mem : Memory) (p : ℤ) (c : UInt8) : Stored mem p [c] (mem.write p c) := by
  intro q
  unfold write
  by_cases hq : q = p
  · subst hq
    simp
  · rw [Function.update_of_ne hq, if_neg]
    rw [List.length_singleton]
    omega

theorem Stored.append (h : Stored mem p bytes mem₁)
    (h' : Stored mem₁ (p + bytes.length) bytes' mem₂) : Stored mem p (bytes ++ bytes') mem₂ := by
  intro q
  rw [h', h, List.length_append]
  by_cases hin : p ≤ q ∧ q < p + bytes.length
  · rw [if_neg (by omega), if_pos hin, if_pos (by omega), List.getElem?_append_left (by omega)]
  · by_cases hin' : p + bytes.length ≤ q ∧ q < p + bytes.length + bytes'.length
    · rw [if_pos hin', if_pos (by omega), List.getElem?_append_right (by omega)]
      congr 1
      omega
    · rw [if_neg hin', if_neg hin, if_neg (by omega)]

theorem Stored.prepend (h : Stored mem (p + bytes.length) bytes' mem₁)
    (h' : Stored mem₁ p bytes mem₂) : Stored mem p (bytes ++ bytes') mem₂ := by
  intro q
  rw [h', h, List.length_append]
  by_cases hin : p ≤ q ∧ q < p + bytes.length
  · rw [if_pos hin, if_pos (by omega), List.getElem?_append_left (by omega)]
  · by_cases hin' : p + bytes.length ≤ q ∧ q < p + bytes.length + bytes'.length
    · rw [if_neg hin, if_pos hin', if_pos (by omega), List.getElem?_append_right (by omega)]
      congr 1
      omega
    · rw [if_neg hin', if_neg hin, if_neg (by omega)]

end Memory

end Libromano.Foundation
