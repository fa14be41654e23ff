/- Blocks of memory as tables of what their cells hold, matrices that are stored in them row by
   row, and the loops that fill them. -/

import Libromano.Foundation.Loops
import Mathlib.Algebra.Order.Ring.Nat
import Mathlib.Logic.Function.Basic

set_option autoImplicit false
set_option relaxedAutoImplicit false

namespace Libromano.Foundation.RowMajor

open Loops

variable {ε R : Type}

section Index

variable {m n i j : ℕ}

theorem index_lt (hi : i < m) (hj : j < n) : i * n + j < m * n :=
  calc i * n + j < i * n + n := Nat.add_lt_add_left hj _
    _ = (i + 1) * n := (Nat.succ_mul i n).symm
    _ ≤ m * n := Nat.mul_le_mul_right n hi

theorem index_div (hj : j < n) : (i * n + j) / n = i := by
  rw [Nat.mul_comm, Nat.mul_add_div (Nat.zero_lt_of_lt hj), Nat.div_eq_of_lt hj, Nat.add_zero]

theorem index_mod (hj : j < n) : (i * n + j) % n = j := by
  rw [Nat.mul_comm, Nat.mul_add_mod, Nat.mod_eq_of_lt hj]

theorem index_inj {i' j' : ℕ} (hj : j < n) (hj' : j' < n) :
    i * n + j = i' * n + j' ↔ i = i' ∧ j = j' := by
  refine ⟨fun heq => ⟨?_, ?_⟩, fun heq => by rw [heq.1, heq.2]⟩
  · exact (index_div hj).symm.trans ((congrArg (· / n) heq).trans (index_div hj'))
  · exact (index_mod hj).symm.trans ((congrArg (· % n) heq).trans (index_mod hj'))

theorem exists_index {t : ℕ} (h : t < m * n) : ∃ i < m, ∃ j < n, i * n + j = t := by
  have hn : 0 < n := Nat.pos_of_ne_zero fun hzero => by simp [hzero] at h
  refine ⟨t / n, Nat.div_lt_of_lt_mul (Nat.mul_comm m n ▸ h), t % n, Nat.mod_lt t hn, ?_⟩
  rw [Nat.mul_comm, Nat.div_add_mod]

end Index

section Tables

/-- A block of `count` cells that hold what `h` says. -/
def tabulate (count : ℕ) (h : ℕ → R) : List R := (List.range count).map h

variable {count t : ℕ} {g h : ℕ → R}

@[simp] theorem length_tabulate : (tabulate count h).length = count := by
  rw [tabulate, List.length_map, List.length_range]

@[simp] theorem getElem_tabulate (ht : t < (tabulate count h).length) :
    (tabulate count h)[t] = h t := by
  simp only [tabulate, List.getElem_map, List.getElem_range]

theorem tabulate_congr (heq : ∀ t < count, g t = h t) : tabulate count g = tabulate count h :=
  List.map_congr_left fun t ht => heq t (List.mem_range.mp ht)

theorem tabulate_inj : tabulate count g = tabulate count h ↔ ∀ t < count, g t = h t := by
  refine ⟨fun heq t ht => ?_, tabulate_congr⟩
  have hcells := congrArg (·[t]?) heq
  simpa [tabulate, ht] using hcells

theorem set_tabulate {v : R} :
    (tabulate count h).set t v = tabulate count (Function.update h t v) := by
  apply List.ext_getElem
  · rw [List.length_set, length_tabulate, length_tabulate]
  · intro k hk hk'
    rw [List.getElem_set, getElem_tabulate, getElem_tabulate]
    split_ifs with heq
    · rw [heq, Function.update_self]
    · rw [Function.update_of_ne (Ne.symm heq)]

theorem tabulate_getD [Zero R] (data : List R) :
    tabulate data.length (fun t => data.getD t 0) = data := by
  apply List.ext_getElem
  · exact length_tabulate
  · intro t ht ht'
    rw [getElem_tabulate, List.getD_eq_getElem?_getD, List.getElem?_eq_getElem ht',
      Option.getD_some]

end Tables

section Filling

variable {m n count i j : ℕ} {f : List R → ℕ → ℕ → Except ε (List R)} {cell : ℕ → ℕ → ℕ}
  {v h : ℕ → R} {data : List R}

/-- The cells of the first `i` rows, and of `j` columns of the next row, have their values. -/
def Filled (count : ℕ) (cell : ℕ → ℕ → ℕ) (v : ℕ → R) (n i j : ℕ) (data : List R) : Prop :=
  ∃ h, data = tabulate count h ∧ (∀ i' < i, ∀ j' < n, h (cell i' j') = v (cell i' j')) ∧
    ∀ j' < j, h (cell i j') = v (cell i j')

private theorem Filled.start : Filled count cell v n 0 0 (tabulate count h) :=
  ⟨h, rfl, fun i' hi' => absurd hi' (Nat.not_lt_zero i'),
    fun j' hj' => absurd hj' (Nat.not_lt_zero j')⟩

private theorem Filled.set (hdata : Filled count cell v n i j data) :
    Filled count cell v n i (j + 1) (data.set (cell i j) (v (cell i j))) := by
  obtain ⟨h, rfl, hrows, hrow⟩ := hdata
  have hkept (i' j' : ℕ) (hdone : h (cell i' j') = v (cell i' j')) :
      Function.update h (cell i j) (v (cell i j)) (cell i' j') = v (cell i' j') := by
    by_cases heq : cell i' j' = cell i j
    · rw [heq, Function.update_self]
    · rw [Function.update_of_ne heq, hdone]
  refine ⟨Function.update h (cell i j) (v (cell i j)), set_tabulate,
    fun i' hi' j' hj' => hkept i' j' (hrows i' hi' j' hj'), fun j' hj' => ?_⟩
  rcases Nat.lt_succ_iff_lt_or_eq.mp hj' with hlt | rfl
  · exact hkept i j' (hrow j' hlt)
  · exact Function.update_self _ _ _

private theorem Filled.row (hdata : Filled count cell v n i n data) :
    Filled count cell v n (i + 1) 0 data := by
  obtain ⟨h, rfl, hrows, hrow⟩ := hdata
  refine ⟨h, rfl, fun i' hi' => ?_, fun j' hj' => absurd hj' (Nat.not_lt_zero j')⟩
  rcases Nat.lt_succ_iff_lt_or_eq.mp hi' with hlt | rfl
  · exact hrows i' hlt
  · exact hrow

theorem foldlM_fill (cell : ℕ → ℕ → ℕ)
    (hstep : ∀ i < m, ∀ j < n, ∀ h, (∀ i' < i, ∀ j' < n, h (cell i' j') = v (cell i' j')) →
      (∀ j' < j, h (cell i j') = v (cell i j')) → f (tabulate count h) i j =
        .ok ((tabulate count h).set (cell i j) (v (cell i j))))
    (hcells : ∀ t < count, ∃ i < m, ∃ j < n, cell i j = t) :
    (List.range m).foldlM (fun data i => (List.range n).foldlM (fun data j => f data i j) data)
      (tabulate count h) = .ok (tabulate count v) := by
  have hrow (i : ℕ) (hi : i < m) (data : List R) (hdata : Filled count cell v n i 0 data) :
      ∃ data', (List.range n).foldlM (fun data j => f data i j) data = .ok data' ∧
        Filled count cell v n i n data' := by
    refine exists_foldlM_range (Filled count cell v n i) (fun j data hj hdata => ?_) hdata
    have hset := hdata.set
    obtain ⟨h, rfl, hrows, hrow⟩ := hdata
    exact ⟨_, hstep i hi j hj h hrows hrow, hset⟩
  obtain ⟨out, hout, hfilled⟩ := exists_foldlM_range (fun i => Filled count cell v n i 0)
    (fun i data hi hdata => by
      obtain ⟨data', hdata', hfilled⟩ := hrow i hi data hdata
      exact ⟨data', hdata', hfilled.row⟩) (Filled.start (h := h))
  obtain ⟨h', rfl, hrows, -⟩ := hfilled
  rw [hout]
  congr 1
  apply tabulate_congr
  intro t ht
  obtain ⟨i, hi, j, hj, rfl⟩ := hcells t ht
  exact hrows i hi j hj

end Filling

end Libromano.Foundation.RowMajor
