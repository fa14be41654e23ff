/- Gathering the bits of a word that stand under a mask into its low bits. -/

import Mathlib.Data.List.GetD
import Mathlib.Algebra.Order.Ring.Nat

set_option autoImplicit false
set_option relaxedAutoImplicit false

namespace Libromano.Foundation.BitExtract

variable {w : ℕ} {x mask : BitVec w} {bits bits' : List Bool}

def packed (w : ℕ) (bits : List Bool) : BitVec w := (BitVec.ofBoolListLE bits).setWidth w

/-- The positions below `n` that are set in a mask, in order. -/
def setPositions (mask : BitVec w) (n : ℕ) : List ℕ := (List.range n).filter mask.getLsbD

/-- The bits of `x` at the positions set in `mask`, packed in order into the low bits. -/
def extract (x mask : BitVec w) : BitVec w := packed w ((setPositions mask w).map x.getLsbD)

private theorem getLsbD_packed (hlength : bits.length ≤ w) (i : ℕ) :
    (packed w bits).getLsbD i = bits.getD i false := by
  rw [packed, BitVec.getLsbD_setWidth, BitVec.getLsbD_ofBoolListLE]
  by_cases hi : i < w
  · simp [hi]
  · rw [List.getD_eq_default _ _ (by omega), Bool.and_false]

private theorem packed_inj (hlength : bits.length ≤ w) (hsame : bits.length = bits'.length) :
    packed w bits = packed w bits' ↔ bits = bits' := by
  constructor
  · intro h
    apply List.ext_getElem hsame
    intro i hi hi'
    have hbit : (packed w bits).getLsbD i = (packed w bits').getLsbD i := by rw [h]
    rw [getLsbD_packed hlength, getLsbD_packed (hsame ▸ hlength)] at hbit
    rwa [List.getD_eq_getElem _ _ hi, List.getD_eq_getElem _ _ hi'] at hbit
  · intro h
    rw [h]

theorem packed_snoc (bits : List Bool) (hlength : bits.length < w) :
    packed w bits ||| BitVec.twoPow w bits.length = packed w (bits ++ [true]) := by
  apply BitVec.eq_of_getLsbD_eq
  intro i hi
  have hlength' : (bits ++ [true]).length ≤ w := by
    rw [List.length_append]
    exact hlength
  rw [BitVec.getLsbD_or, getLsbD_packed hlength.le, getLsbD_packed hlength', BitVec.getLsbD_twoPow]
  by_cases hless : i < bits.length
  · rw [List.getD_append _ _ _ _ hless]
    simp [hlength, Nat.ne_of_gt hless]
  · rw [List.getD_eq_default _ _ (by omega), List.getD_append_right _ _ _ _ (by omega)]
    by_cases heq : bits.length = i
    · simp [heq, hi]
    · rw [List.getD_eq_default [true] _ (by simp; omega)]
      simp [heq]

theorem setPositions_succ (mask : BitVec w) (n : ℕ) :
    setPositions mask (n + 1) = setPositions mask n ++ if mask.getLsbD n then [n] else [] := by
  rw [setPositions, List.range_succ, List.filter_append, ← setPositions]
  by_cases hn : mask.getLsbD n
  · simp [hn]
  · simp [hn]

theorem length_setPositions_le (mask : BitVec w) (n : ℕ) : (setPositions mask n).length ≤ n :=
  (List.length_filter_le _ _).trans_eq List.length_range

theorem extract_eq_ones_iff :
    extract x mask = packed w (List.replicate (setPositions mask w).length true) ↔
      x &&& mask = mask := by
  have hlength : ((setPositions mask w).map x.getLsbD).length ≤ w := by
    rw [List.length_map]
    exact length_setPositions_le mask w
  rw [extract, packed_inj hlength (by simp), List.eq_replicate_iff]
  simp only [List.length_map, true_and, List.forall_mem_map, and_imp, setPositions,
    List.mem_filter, List.mem_range]
  constructor
  · intro hones
    apply BitVec.eq_of_getLsbD_eq
    intro i hi
    rw [BitVec.getLsbD_and]
    by_cases hmask : mask.getLsbD i
    · rw [hones i hi hmask, hmask, Bool.true_and]
    · simp [hmask]
  · intro hand i hi hmask
    have hbit : (x &&& mask).getLsbD i = mask.getLsbD i := by rw [hand]
    rwa [BitVec.getLsbD_and, hmask, Bool.and_true] at hbit

end Libromano.Foundation.BitExtract
