/- Two records of one width that change places, cell by cell. -/

import Libromano.Foundation.Slots
import Mathlib.Data.List.Nodup
import Mathlib.Logic.Equiv.Basic

set_option autoImplicit false
set_option relaxedAutoImplicit false

namespace Libromano.Foundation.Slots

variable {α : Type} {mem : ℕ → α} {p q n base width : ℕ}

def swapCells (mem : ℕ → α) (p q : ℕ) : ℕ → α := fun a =>
  if a = q then mem p else if a = p then mem q else mem a

/-- The memory after the `n` cells from two addresses on changed places. -/
def exchange (mem : ℕ → α) (p q n : ℕ) : ℕ → α := fun a =>
  if p ≤ a ∧ a < p + n then mem (q + (a - p))
  else if q ≤ a ∧ a < q + n then mem (p + (a - q))
  else mem a

theorem exchange_zero : exchange mem p q 0 = mem := by
  ext a
  rw [exchange, if_neg (by omega), if_neg (by omega)]

theorem exchange_succ (hapart : p = q ∨ p + (n + 1) ≤ q ∨ q + (n + 1) ≤ p) :
    swapCells (exchange mem p q n) (p + n) (q + n) = exchange mem p q (n + 1) := by
  ext a
  have hp : exchange mem p q n (p + n) = mem (p + n) := by
    rw [exchange, if_neg (by omega), if_neg (by omega)]
  have hq : exchange mem p q n (q + n) = mem (q + n) := by
    rw [exchange, if_neg (by omega), if_neg (by omega)]
  rw [swapCells, hp, hq]
  by_cases haq : a = q + n
  · subst haq
    rw [if_pos rfl, exchange]
    rcases hapart with rfl | hlt | hlt
    · rw [if_pos (by omega), Nat.add_sub_cancel_left]
    · rw [if_neg (by omega), if_pos (by omega), Nat.add_sub_cancel_left]
    · rw [if_neg (by omega), if_pos (by omega), Nat.add_sub_cancel_left]
  · rw [if_neg haq]
    by_cases hap : a = p + n
    · subst hap
      rw [if_pos rfl, exchange, if_pos (by omega), Nat.add_sub_cancel_left]
    · have hin {s : ℕ} (hne : a ≠ s + n) : (s ≤ a ∧ a < s + (n + 1)) ↔ s ≤ a ∧ a < s + n := by
        omega
      rw [if_neg hap, exchange, exchange]
      simp only [hin hap, hin haq]

private theorem slot_exchange (i j k : ℕ) :
    slot (exchange mem (base + i * width) (base + j * width) width) base width k =
      slot mem base width (Equiv.swap i j k) := by
  have hcell {r c : ℕ} (hc : c < width) : (base + r * width ≤ base + k * width + c ∧
      base + k * width + c < base + r * width + width) ↔ k = r := by
    rw [Nat.add_assoc, Nat.add_assoc, Nat.add_le_add_iff_left, Nat.add_lt_add_iff_left,
      ← Nat.succ_mul, le_cell_iff hc, cell_lt_iff hc]
    omega
  apply slot_congr
  intro c hc
  simp only [exchange, hcell hc, Equiv.swap_apply_def]
  split_ifs with hi hj
  · subst hi
    congr 1
    omega
  · subst hj
    congr 1
    omega
  · rfl

theorem slots_exchange_perm {i j : ℕ} (hi : i < n) (hj : j < n) :
    (slots (exchange mem (base + i * width) (base + j * width) width) base width n).Perm
      (slots mem base width n) := by
  have hswap (k : ℕ) : Equiv.swap i j k < n ↔ k < n := by
    rw [Equiv.swap_apply_def]
    split_ifs <;> omega
  have hperm : ((List.range n).map (Equiv.swap i j)).Perm (List.range n) := by
    refine (List.perm_ext_iff_of_nodup (List.nodup_range.map (Equiv.swap i j).injective)
      List.nodup_range).mpr fun a => ?_
    rw [List.mem_map, List.mem_range]
    refine ⟨?_, fun ha => ⟨Equiv.swap i j a, ?_, Equiv.swap_apply_self i j a⟩⟩
    · rintro ⟨k, hk, rfl⟩
      exact (hswap k).mpr (List.mem_range.mp hk)
    · exact List.mem_range.mpr ((hswap a).mpr ha)
  have hslots : slots (exchange mem (base + i * width) (base + j * width) width) base width n =
      ((List.range n).map (Equiv.swap i j)).map (slot mem base width) := by
    rw [List.map_map]
    exact List.map_congr_left fun k _ => slot_exchange i j k
  rw [hslots]
  exact hperm.map _

end Libromano.Foundation.Slots
