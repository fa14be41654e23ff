/- `pext_u32` and `pext_u64` of `bit.h`, as they are built for `ROMANO_AARCH64`. -/

import Libromano.Foundation.BitExtract

set_option autoImplicit false
set_option relaxedAutoImplicit false

namespace Libromano.Bit

open Foundation.BitExtract

variable {w : ℕ}

/-- `1 << n`, of the `int` that `1` is. The compilers shift into the sign bit; a shift by 32
or more is undefined. -/
def intShift (n : ℕ) : Option (BitVec 32) := if n < 32 then some (BitVec.twoPow 32 n) else none

/-- A round of the loop, over `dest` and `k`. The `int` is widened to the word. -/
def pextRound (mask : BitVec w) (state : BitVec w × ℕ) (m : ℕ) : Option (BitVec w × ℕ) := do
  let bit ← intShift m
  if mask &&& bit.signExtend w = 0 then some state
  else
    let bit ← intShift state.2
    some (state.1 ||| bit.signExtend w, state.2 + 1)

/-- `pext_u32`. The loop does not read `temp`, the copy of the first argument. `none` stands for
undefined behaviour. -/
def pextU32 (_x y : UInt32) : Option UInt32 := do
  let mask := y.toBitVec
  let (dest, _) ← (List.range 32).foldlM (pextRound mask) (0, 0)
  some ⟨dest⟩

def pextU64 (_x y : UInt64) : Option UInt64 := do
  let mask := y.toBitVec
  let (dest, _) ← (List.range 64).foldlM (pextRound mask) (0, 0)
  some ⟨dest⟩

section Rounds

variable {mask dest : BitVec 32} {k m n : ℕ}

private theorem pextRound_set (dest : BitVec 32) (hm : m < 32) (hk : k < 32)
    (hmask : mask.getLsbD m = true) :
    pextRound mask (dest, k) m = some (dest ||| BitVec.twoPow 32 k, k + 1) := by
  have hbit : mask &&& BitVec.twoPow 32 m ≠ 0#32 := by
    intro hzero
    have hat : (mask &&& BitVec.twoPow 32 m).getLsbD m = (0#32).getLsbD m := by rw [hzero]
    rw [BitVec.getLsbD_and, hmask, BitVec.getLsbD_twoPow, BitVec.getLsbD_zero] at hat
    simp [hm] at hat
  simp [pextRound, intShift, hm, hk, hbit]

private theorem pextRound_unset (hm : m < 32) (hmask : mask.getLsbD m = false) :
    pextRound mask (dest, k) m = some (dest, k) := by
  have hbit : mask &&& BitVec.twoPow 32 m = 0#32 := by
    rw [BitVec.and_twoPow, hmask]
    rfl
  simp [pextRound, intShift, hm, hbit]

private theorem pextRounds (mask : BitVec 32) (hn : n ≤ 32) :
    (List.range n).foldlM (pextRound mask) (0, 0) =
      some (packed 32 (List.replicate (setPositions mask n).length true),
        (setPositions mask n).length) := by
  induction n with
  | zero => rfl
  | succ n ih =>
    have hlength := length_setPositions_le mask n
    rw [List.range_succ, List.foldlM_append, ih (by omega), setPositions_succ]
    by_cases hmask : mask.getLsbD n
    · have hless : (List.replicate (setPositions mask n).length true).length < 32 := by
        rw [List.length_replicate]
        omega
      have hsnoc := packed_snoc _ hless
      rw [List.length_replicate, ← List.replicate_succ'] at hsnoc
      rw [List.length_replicate] at hless
      have hround := pextRound_set
        (packed 32 (List.replicate (setPositions mask n).length true)) (by omega) hless hmask
      simp [hround, hmask, hsnoc]
    · rw [Bool.not_eq_true] at hmask
      simp [pextRound_unset (by omega : n < 32) hmask, hmask]

end Rounds

private theorem pextU32_eq (x y : UInt32) : pextU32 x y =
    some ⟨packed 32 (List.replicate (setPositions y.toBitVec 32).length true)⟩ := by
  rw [pextU32, pextRounds y.toBitVec le_rfl]
  rfl

private theorem pextU64_undefined (x y : UInt64) : pextU64 x y = none := by
  have hround : ∀ state, pextRound y.toBitVec state 32 = none := by
    intro state
    rfl
  have hsplit : List.range 64 = List.range 32 ++ 32 :: (List.range' 33 31) := by decide
  rw [pextU64, hsplit, List.foldlM_append]
  cases (List.range 32).foldlM (pextRound y.toBitVec) (0, 0) with
  | none => rfl
  | some state => simp [hround]

/-- The loop of `pext_u32` extracts what the instruction does just when `x` has a one at every
position of the mask, and that of `pext_u64` never does. -/
theorem pext_correct_iff (x y : UInt32) (x' y' : UInt64) :
    (pextU32 x y = some ⟨extract x.toBitVec y.toBitVec⟩ ↔ x &&& y = y) ∧
      pextU64 x' y' ≠ some ⟨extract x'.toBitVec y'.toBitVec⟩ := by
  constructor
  · rw [pextU32_eq, Option.some_inj, UInt32.ofBitVec.injEq, eq_comm, extract_eq_ones_iff,
      ← UInt32.toBitVec_and, UInt32.toBitVec_inj]
  · intro h
    rw [pextU64_undefined] at h
    cases h

/-- The low bit of nothing comes out as a one. -/
theorem pextU32_zero_one : pextU32 0 1 = some 1 ∧ extract (0 : BitVec 32) 1 = 0 ∧
    ¬∀ x y : UInt32, pextU32 x y = some ⟨extract x.toBitVec y.toBitVec⟩ := by
  have hrun : pextU32 0 1 = some 1 := by decide
  have hextract : extract (0 : BitVec 32) 1 = 0 := by decide
  refine ⟨hrun, hextract, ?_⟩
  intro hall
  have h := hall 0 1
  rw [hrun] at h
  exact absurd h (by decide)

end Libromano.Bit
