/- Records of one width, one after the other in a flat memory, and what copying of whole records
   does to the list of them. -/

import Mathlib.Data.List.Basic
import Mathlib.Algebra.Order.Ring.Nat

set_option autoImplicit false
set_option relaxedAutoImplicit false

namespace Libromano.Foundation.Slots

variable {α : Type} {mem source : ℕ → α} {base width : ℕ}

def put (mem : ℕ → α) (start : ℕ) (data : List α) : ℕ → α := fun i =>
  if h : start ≤ i ∧ i < start + data.length then
    data.get ⟨i - start, by omega⟩
  else mem i

/-- The memory after `n` cells of a source were copied to an address. -/
def move (mem source : ℕ → α) (dst src n : ℕ) : ℕ → α := fun i =>
  if dst ≤ i ∧ i < dst + n then source (src + (i - dst)) else mem i

def slot (mem : ℕ → α) (base width i : ℕ) : List α :=
  (List.range width).map fun k => mem (base + i * width + k)

/-- The first `n` records. -/
def slots (mem : ℕ → α) (base width n : ℕ) : List (List α) :=
  (List.range n).map (slot mem base width)

@[simp] theorem length_slot (i : ℕ) : (slot mem base width i).length = width := by
  simp [slot]

@[simp] theorem length_slots (n : ℕ) : (slots mem base width n).length = n := by
  simp [slots]

private theorem getElem_slots {n i : ℕ} (h : i < (slots mem base width n).length) :
    (slots mem base width n)[i] = slot mem base width i := by
  simp [slots]

theorem slot_congr {i j : ℕ} {mem' : ℕ → α}
    (h : ∀ k < width, mem (base + i * width + k) = mem' (base + j * width + k)) :
    slot mem base width i = slot mem' base width j :=
  List.map_congr_left fun k hk => h k (List.mem_range.mp hk)

theorem cell_lt_iff {i j k : ℕ} (hk : k < width) : i * width + k < j * width ↔ i < j := by
  constructor
  · intro h
    by_contra hle
    have := Nat.mul_le_mul_right width (Nat.not_lt.mp hle)
    omega
  · intro h
    have := Nat.mul_le_mul_right width (Nat.succ_le_of_lt h)
    rw [Nat.succ_mul] at this
    omega

theorem le_cell_iff {i j k : ℕ} (hk : k < width) : j * width ≤ i * width + k ↔ j ≤ i := by
  rw [← not_lt, ← not_lt, not_iff_not]
  exact cell_lt_iff hk

private theorem slot_put {data : List α} (hdata : data.length = width) (p i : ℕ) :
    slot (put mem (base + p * width) data) base width i =
      if i = p then data else slot mem base width i := by
  split_ifs with hi
  · subst hi
    apply List.ext_getElem
    · simp [hdata]
    · intro k hk hk'
      simp only [slot, List.getElem_map, List.getElem_range, put]
      rw [dif_pos (by omega)]
      simp
  · apply slot_congr
    intro k hk
    apply dif_neg
    rintro ⟨hle, hlt⟩
    have hle' : p ≤ i := (le_cell_iff hk).mp (by omega)
    have hlt' : i < p + 1 := (cell_lt_iff hk).mp (by rw [Nat.succ_mul]; omega)
    omega

private theorem slot_move (d s n i : ℕ) :
    slot (move mem source (base + d * width) (base + s * width) (n * width)) base width i =
      if d ≤ i ∧ i < d + n then slot source base width (s + (i - d))
      else slot mem base width i := by
  have hcell {k : ℕ} (hk : k < width) : (base + d * width ≤ base + i * width + k ∧
      base + i * width + k < base + d * width + n * width) ↔ d ≤ i ∧ i < d + n := by
    rw [Nat.add_assoc, Nat.add_assoc, Nat.add_le_add_iff_left, Nat.add_lt_add_iff_left,
      ← Nat.add_mul, le_cell_iff hk, cell_lt_iff hk]
  split_ifs with hi
  · apply slot_congr
    intro k hk
    simp only [move]
    rw [if_pos ((hcell hk).mpr hi)]
    congr 1
    have hmul : (s + (i - d)) * width + d * width = s * width + i * width := by
      rw [← Nat.add_mul, ← Nat.add_mul]
      congr 1
      omega
    have hle : d * width ≤ i * width := Nat.mul_le_mul_right _ hi.1
    omega
  · apply slot_congr
    intro k hk
    exact if_neg (mt (hcell hk).mp hi)

theorem slots_congr {mem' : ℕ → α} {n : ℕ}
    (h : ∀ i < n, slot mem base width i = slot mem' base width i) :
    slots mem base width n = slots mem' base width n :=
  List.map_congr_left fun i hi => h i (List.mem_range.mp hi)

theorem slots_dropLast (n : ℕ) :
    slots mem base width (n - 1) = (slots mem base width n).dropLast := by
  apply List.ext_getElem
  · simp
  · intro i hi hi'
    rw [List.getElem_dropLast, getElem_slots, getElem_slots]

theorem slots_push {data : List α} (hdata : data.length = width) (n : ℕ) :
    slots (put mem (base + n * width) data) base width (n + 1) =
      slots mem base width n ++ [data] := by
  rw [slots, List.range_succ, List.map_append, List.map_singleton, slot_put hdata, if_pos rfl]
  congr 1
  exact slots_congr fun i hi => (slot_put hdata n i).trans (if_neg hi.ne)

theorem slots_insert {data : List α} (hdata : data.length = width) {n p : ℕ} (hp : p ≤ n)
    (h : ∀ i < n, slot source base width i = slot mem base width i) :
    slots (put (move mem source (base + (p + 1) * width) (base + p * width) ((n - p) * width))
        (base + p * width) data) base width (n + 1) =
      (slots mem base width n).insertIdx p data := by
  apply List.ext_getElem
  · rw [List.length_insertIdx_of_le_length (by simpa using hp)]
    simp
  · intro i hi hi'
    rw [length_slots] at hi
    rw [getElem_slots, slot_put hdata, slot_move, List.getElem_insertIdx]
    rcases Nat.lt_trichotomy i p with hlt | rfl | hgt
    · rw [if_neg hlt.ne, if_neg (by omega), dif_pos hlt, getElem_slots]
    · simp
    · rw [if_neg hgt.ne', if_pos (by omega), dif_neg (by omega), dif_neg hgt.ne', getElem_slots,
        h _ (by omega)]
      congr 1
      omega

/-- The records behind one are moved down by one, over it. The last one that is
moved may be anything. -/
theorem slots_erase {n p : ℕ} (hp : p < n)
    (h : ∀ i < n, slot source base width i = slot mem base width i) :
    slots (move mem source (base + p * width) (base + (p + 1) * width) ((n - p) * width))
        base width (n - 1) =
      (slots mem base width n).eraseIdx p := by
  apply List.ext_getElem
  · rw [List.length_eraseIdx_of_lt (by simpa using hp)]
    simp
  · intro i hi hi'
    rw [length_slots] at hi
    rw [getElem_slots, slot_move, List.getElem_eraseIdx]
    by_cases hlt : i < p
    · rw [if_neg (by omega), dif_pos hlt, getElem_slots]
    · rw [if_pos (by omega), dif_neg hlt, getElem_slots, h _ (by omega)]
      congr 1
      omega

end Libromano.Foundation.Slots
