/- The shuffle of a vector: each element changes places with one that is picked from it on. The
   number of turns is computed as `size - 1`, so that an empty vector has `2 ^ 64 - 1` of them,
   and divides by zero in the first. -/

import Libromano.Foundation.Exchange
import Libromano.Foundation.Loops
import Libromano.Random
import Libromano.Vectors.Refinement

set_option autoImplicit false
set_option relaxedAutoImplicit false

namespace Libromano.Vectors

open Foundation
open Foundation.Loops
open Libromano.Random (murmur64)

section Functions

inductive Trap
  | divisionByZero

/-- `a / b`. -/
def divide (a b : ℕ) : Except Trap ℕ := if b = 0 then .error .divisionByZero else .ok (a / b)

/-- `i + rnd / (UINT64_MAX / (size - i) + 1)`, for an `i` up to `size`. -/
def pick (size i rnd : ℕ) : Except Trap ℕ := do
  let quotient ← divide (2 ^ 64 - 1) (size - i)
  let offset ← divide rnd ((quotient + 1) % 2 ^ 64)
  .ok ((i + offset) % 2 ^ 64)

def memSwap (bytes : ℕ → UInt8) (m1 m2 n : ℕ) : ℕ → UInt8 :=
  (List.range n).foldl (fun bytes k => Slots.swapCells bytes (m1 + k) (m2 + k)) bytes

/-- The vector so far, with the indices of the elements that were swapped, and the accesses. -/
structure Shuffled where
  vector : Vector
  picks : List (ℕ × ℕ)
  accesses : List Access

def shuffleStep (seed : UInt64) (s : Shuffled) (i : ℕ) : Except Trap Shuffled := do
  let v := s.vector
  let rnd := murmur64 (seed + UInt64.ofNat i)
  let j ← pick v.size i rnd.toNat
  .ok {
    vector := { v with bytes := memSwap v.bytes (vectorAt v i) (vectorAt v j) v.elementSize }
    picks := s.picks ++ [(i, j)]
    accesses := s.accesses ++ [v.elementSizeWord, v.access (vectorAt v i) v.elementSize,
      v.access (vectorAt v j) v.elementSize] }

def vectorShuffle (v : Vector) (seed : UInt64) : Except Trap Shuffled :=
  (counters 0 (sizePred v.size) 1).foldlM (shuffleStep seed)
    { vector := v, picks := [], accesses := [v.sizeWord, v.elementSizeWord] }

end Functions

section Picks

variable {size i rnd : ℕ}

private theorem divide_of_pos {a b : ℕ} (h : 0 < b) : divide a b = .ok (a / b) := if_neg h.ne'

private theorem exists_pick (hi : i + 1 < size) (hsize : size < 2 ^ 64) (hrnd : rnd < 2 ^ 64) :
    ∃ j, pick size i rnd = .ok j ∧ i ≤ j ∧ j < size := by
  have hquotient : (2 ^ 64 - 1) / (size - i) ≤ (2 ^ 64 - 1) / 2 :=
    Nat.div_le_div_left (by omega) (by decide)
  have hdivisor : ((2 ^ 64 - 1) / (size - i) + 1) % 2 ^ 64 = (2 ^ 64 - 1) / (size - i) + 1 :=
    Nat.mod_eq_of_lt (by omega)
  have hoffset : rnd / ((2 ^ 64 - 1) / (size - i) + 1) < size - i := by
    refine Nat.div_lt_of_lt_mul ?_
    rw [Nat.mul_comm]
    exact Nat.lt_of_le_of_lt (Nat.le_sub_one_of_lt hrnd) (Nat.lt_mul_div_succ _ (by omega))
  refine ⟨i + rnd / ((2 ^ 64 - 1) / (size - i) + 1), ?_, Nat.le_add_right _ _, by omega⟩
  rw [pick, divide_of_pos (by omega), bind_ok, hdivisor,
    divide_of_pos (Nat.add_pos_right _ Nat.one_pos), bind_ok, Nat.mod_eq_of_lt (by omega)]

private theorem memSwap_eq {bytes : ℕ → UInt8} {p q n : ℕ}
    (hapart : p = q ∨ p + n ≤ q ∨ q + n ≤ p) :
    memSwap bytes p q n = Slots.exchange bytes p q n := by
  induction n with
  | zero => exact Slots.exchange_zero.symm
  | succ n ih =>
    rw [memSwap, List.range_succ, List.foldl_append, ← memSwap, ih (by omega)]
    exact Slots.exchange_succ hapart

end Picks

section Runs

/-- The allocation has room for the elements. -/
structure Room (v : Vector) : Prop where
  size : v.size < 2 ^ 64
  room : headerSize + v.size * v.elementSize ≤ v.allocated
  bounded : v.allocated < 2 ^ 63

variable {v : Vector} {seed : UInt64}

private theorem Room.vectorAt_eq (h : Room v) {i : ℕ} (hi : i < v.size) :
    vectorAt v i = headerSize + i * v.elementSize := by
  have hmul : i * v.elementSize ≤ v.size * v.elementSize := Nat.mul_le_mul_right _ hi.le
  have hroom := h.room
  have hbounded := h.bounded
  rw [vectorAt, Nat.mod_eq_of_lt (by omega)]

private theorem Room.access_inside (h : Room v) {i : ℕ} (hi : i < v.size) :
    (v.access (vectorAt v i) v.elementSize).Inside := by
  have hmul : (i + 1) * v.elementSize ≤ v.size * v.elementSize := Nat.mul_le_mul_right _ hi
  have hroom := h.room
  rw [Nat.succ_mul] at hmul
  rw [h.vectorAt_eq hi, Access.Inside, Vector.access]
  dsimp only
  omega

/-- What the first `t` turns leave. -/
structure Turned (v : Vector) (t : ℕ) (s : Shuffled) : Prop where
  vector : ∃ bytes, s.vector = { v with bytes }
  records : s.vector.records.Perm v.records
  steps : s.picks.map Prod.fst = List.range t
  picks : ∀ p ∈ s.picks, p.1 ≤ p.2 ∧ p.2 < v.size
  accesses : AllInside s.accesses

private theorem Room.memSwap_records (h : Room v) {i j : ℕ} (hij : i ≤ j) (hj : j < v.size)
    {bytes : ℕ → UInt8} :
    (Vector.records { v with
      bytes := memSwap bytes (vectorAt v i) (vectorAt v j) v.elementSize }).Perm
      (Vector.records { v with bytes }) := by
  have hapart : headerSize + i * v.elementSize = headerSize + j * v.elementSize ∨
      headerSize + i * v.elementSize + v.elementSize ≤ headerSize + j * v.elementSize ∨
      headerSize + j * v.elementSize + v.elementSize ≤ headerSize + i * v.elementSize := by
    rcases Nat.lt_or_eq_of_le hij with hlt | rfl
    · have hmul : (i + 1) * v.elementSize ≤ j * v.elementSize := Nat.mul_le_mul_right _ hlt
      rw [Nat.succ_mul] at hmul
      omega
    · exact .inl rfl
  rw [h.vectorAt_eq (Nat.lt_of_le_of_lt hij hj), h.vectorAt_eq hj, memSwap_eq hapart]
  exact Slots.slots_exchange_perm (Nat.lt_of_le_of_lt hij hj) hj

private theorem Room.shuffleStep (h : Room v) {i : ℕ} (hi : i + 1 < v.size) {s : Shuffled}
    (hs : Turned v i s) : ∃ s', shuffleStep seed s i = .ok s' ∧ Turned v (i + 1) s' := by
  obtain ⟨vector, picks, accesses⟩ := s
  obtain ⟨⟨bytes, hvector⟩, hrecords, hsteps, hpicks, haccesses⟩ := hs
  dsimp only at hvector hrecords hsteps hpicks haccesses
  subst hvector
  obtain ⟨j, hpick, hij, hj⟩ := exists_pick hi h.size (murmur64 (seed + UInt64.ofNat i)).toNat_lt
  have hword : v.elementSizeWord.Inside := by
    have hroom := h.room
    rw [headerSize] at hroom
    rw [Vector.elementSizeWord, Vector.access, Access.Inside]
    dsimp only
    omega
  refine ⟨⟨{ v with bytes := memSwap bytes (vectorAt v i) (vectorAt v j) v.elementSize },
    picks ++ [(i, j)], accesses ++ [v.elementSizeWord, v.access (vectorAt v i) v.elementSize,
      v.access (vectorAt v j) v.elementSize]⟩, ?_,
    ⟨⟨_, rfl⟩, (h.memSwap_records hij hj).trans hrecords, ?_, ?_, ?_⟩⟩
  · rw [Vectors.shuffleStep]
    dsimp only
    rw [hpick, bind_ok]
    rfl
  · rw [List.map_append, hsteps, List.range_succ]
    rfl
  · intro p hp
    rcases List.mem_append.mp hp with hold | hnew
    · exact hpicks p hold
    · rw [List.mem_singleton.mp hnew]
      exact ⟨hij, hj⟩
  · apply haccesses.append
    intro a ha
    simp only [List.mem_cons, List.not_mem_nil, or_false] at ha
    rcases ha with rfl | rfl | rfl
    · exact hword
    · exact h.access_inside (Nat.lt_of_succ_lt hi)
    · exact h.access_inside hj

/-- Every turn picks an element that is left, no byte outside the allocation is touched, and the
elements are only put in another order. -/
def Shuffles (v : Vector) (seed : UInt64) : Prop :=
  ∃ s, vectorShuffle v seed = .ok s ∧ s.picks.map Prod.fst = List.range (v.size - 1) ∧
    (∀ p ∈ s.picks, p.1 ≤ p.2 ∧ p.2 < v.size) ∧ AllInside s.accesses ∧
    s.vector.records.Perm v.records

private theorem vectorShuffle_empty (hsize : v.size = 0) :
    vectorShuffle v seed = .error .divisionByZero := by
  have hcounters : counters 0 (sizePred v.size) 1 = 0 :: List.range' 1 (2 ^ 64 - 2) := by
    rw [counters, turns_one, hsize]
    rfl
  have hstep (s : Shuffled) (hsize : s.vector.size = 0) :
      Vectors.shuffleStep seed s 0 = .error .divisionByZero := by
    rw [Vectors.shuffleStep, hsize]
    rfl
  rw [vectorShuffle, hcounters, List.foldlM_cons, hstep _ hsize]
  rfl

/-- A vector is shuffled unless it is empty. -/
theorem shuffles_iff (h : Room v) : Shuffles v seed ↔ 0 < v.size := by
  constructor
  · rintro ⟨s, hs, -⟩
    by_contra hzero
    rw [vectorShuffle_empty (Nat.eq_zero_of_not_pos hzero)] at hs
    cases hs
  · intro hpos
    have hturns : counters 0 (sizePred v.size) 1 = List.range' 0 (v.size - 1) := by
      rw [counters, turns_one, sizePred, if_neg hpos.ne', Nat.sub_zero]
    have hwords : AllInside [v.sizeWord, v.elementSizeWord] := by
      have hroom := h.room
      rw [headerSize] at hroom
      intro a ha
      simp only [List.mem_cons, List.not_mem_nil, or_false] at ha
      rcases ha with rfl | rfl <;>
        simp only [Vector.sizeWord, Vector.elementSizeWord, Vector.access, Access.Inside] <;> omega
    obtain ⟨s, hs, hturned⟩ : ∃ s, (List.range' 0 (v.size - 1)).foldlM (Vectors.shuffleStep seed)
        { vector := v, picks := [], accesses := [v.sizeWord, v.elementSizeWord] } = .ok s ∧
        Turned v (v.size - 1) s := by
      refine exists_foldlM (Turned v) (fun t s ht hs => ?_)
        ⟨⟨v.bytes, rfl⟩, List.Perm.refl _, rfl, fun p hp => absurd hp List.not_mem_nil, hwords⟩
      rw [Nat.zero_add, Nat.one_mul]
      exact h.shuffleStep (by omega) hs
    refine ⟨s, ?_, hturned.steps, hturned.picks, hturned.accesses, hturned.records⟩
    rw [vectorShuffle, hturns]
    exact hs

/-- A vector of two elements of one byte. -/
theorem shuffles_two : Shuffles ⟨2, 2, 1, 26, fun i => UInt8.ofNat i⟩ 7 :=
  (shuffles_iff ⟨by decide, by decide, by decide⟩).mpr (by decide)

/-- A vector is empty when it has been made. -/
theorem shuffle_empty_divides :
    ¬ ∀ (v : Vector) (seed : UInt64), Room v → Shuffles v seed := by
  intro h
  obtain ⟨s, hs, -⟩ := h ⟨0, 128, 4, 536, fun _ => 0⟩ 0 ⟨by decide, by decide, by decide⟩
  rw [vectorShuffle_empty rfl] at hs
  cases hs

end Runs

end Libromano.Vectors
