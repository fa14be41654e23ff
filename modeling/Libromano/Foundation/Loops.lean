/- Loops that count, as folds over the values of their counter, and the rules for them. -/

import Mathlib.Algebra.BigOperators.Fin
import Mathlib.Algebra.Order.Ring.Nat
import Mathlib.Data.List.Range

set_option autoImplicit false
set_option relaxedAutoImplicit false

namespace Libromano.Foundation.Loops

open Finset (range)

variable {ε S R : Type}

/-- How often `for(i = start; i < stop; i += stride)` is taken. -/
def turns (start stop stride : ℕ) : ℕ := (stop - start + stride - 1) / stride

def counters (start stop stride : ℕ) : List ℕ := List.range' start (turns start stop stride) stride

def counted (start stop stride : ℕ) : ℕ := start + stride * turns start stop stride

/-- The values of a counter that goes down from `count - 1` to zero. -/
def countdown (count : ℕ) : List ℕ := (List.range count).map fun t => count - 1 - t

theorem turns_one (start stop : ℕ) : turns start stop 1 = stop - start := by
  rw [turns, Nat.div_one, Nat.add_sub_cancel]

theorem turns_mul {q stride : ℕ} (h : 0 < stride) : turns 0 (q * stride) stride = q := by
  rw [turns, Nat.sub_zero, Nat.add_sub_assoc h, Nat.mul_comm, Nat.mul_add_div h,
    Nat.div_eq_of_lt (Nat.sub_lt h Nat.one_pos), Nat.add_zero]

theorem sub_mod_eq (n w : ℕ) : n - n % w = n / w * w := by
  have hdiv := Nat.div_add_mod' n w
  omega

theorem turns_of_lt {stop stride : ℕ} (h : stop < stride) :
    turns 0 stop stride = if stop = 0 then 0 else 1 := by
  rw [turns, Nat.sub_zero]
  split_ifs with hzero
  · exact Nat.div_eq_of_lt (by omega)
  · exact Nat.div_eq_of_lt_le (by omega) (by omega)

/-- A loop that keeps its invariant returns. -/
theorem exists_foldlM {f : S → ℕ → Except ε S} {start count stride : ℕ} {s : S}
    (I : ℕ → S → Prop)
    (hstep : ∀ t s, t < count → I t s → ∃ s', f s (start + stride * t) = .ok s' ∧ I (t + 1) s')
    (h : I 0 s) : ∃ s', (List.range' start count stride).foldlM f s = .ok s' ∧ I count s' := by
  induction count with
  | zero => exact ⟨s, rfl, h⟩
  | succ count ih =>
    obtain ⟨s', hs', hI⟩ := ih fun t s ht => hstep t s (Nat.lt_succ_of_lt ht)
    obtain ⟨s'', hs'', hI'⟩ := hstep count s' (Nat.lt_succ_self count) hI
    refine ⟨s'', ?_, hI'⟩
    rw [List.range'_concat, List.foldlM_append, hs']
    change ([start + stride * count].foldlM f s') = _
    rw [List.foldlM_cons, hs'']
    rfl

theorem exists_foldlM_range {f : S → ℕ → Except ε S} {count : ℕ} {s : S} (I : ℕ → S → Prop)
    (hstep : ∀ t s, t < count → I t s → ∃ s', f s t = .ok s' ∧ I (t + 1) s') (h : I 0 s) :
    ∃ s', (List.range count).foldlM f s = .ok s' ∧ I count s' := by
  rw [List.range_eq_range']
  refine exists_foldlM I (fun t s ht hI => ?_) h
  rw [Nat.zero_add, Nat.one_mul]
  exact hstep t s ht hI

theorem foldlM_eq {f : S → ℕ → Except ε S} {start count stride : ℕ} (g : ℕ → S)
    (hstep : ∀ t < count, f (g t) (start + stride * t) = .ok (g (t + 1))) :
    (List.range' start count stride).foldlM f (g 0) = .ok (g count) := by
  obtain ⟨s', hs', hI⟩ := exists_foldlM (fun t s => s = g t) (s := g 0)
    (fun t s ht hI => ⟨g (t + 1), hI ▸ hstep t ht, rfl⟩) rfl
  rw [hs', hI]

theorem foldlM_range_eq {f : S → ℕ → Except ε S} {count : ℕ} (g : ℕ → S)
    (hstep : ∀ t < count, f (g t) t = .ok (g (t + 1))) :
    (List.range count).foldlM f (g 0) = .ok (g count) := by
  rw [List.range_eq_range']
  apply foldlM_eq g
  intro t ht
  rw [Nat.zero_add, Nat.one_mul]
  exact hstep t ht

section Sums

variable [AddCommMonoid R] {f : R → ℕ → Except ε R} {v : ℕ → R} {count : ℕ}

theorem foldlM_sum {start : ℕ}
    (hstep : ∀ k < count, ∀ sum, f sum (start + k) = .ok (sum + v (start + k))) (sum : R) :
    (List.range' start count).foldlM f sum = .ok (sum + ∑ k ∈ range count, v (start + k)) := by
  have hsums : (List.range' start count).foldlM f (sum + ∑ k ∈ range 0, v (start + k)) = _ :=
    foldlM_eq (fun t => sum + ∑ k ∈ range t, v (start + k)) fun t ht => by
      rw [Nat.one_mul, hstep t ht, Finset.sum_range_succ, ← add_assoc]
  rwa [Finset.sum_range_zero, add_zero] at hsums

theorem foldlM_range_sum (hstep : ∀ k < count, ∀ sum, f sum k = .ok (sum + v k)) (sum : R) :
    (List.range count).foldlM f sum = .ok (sum + ∑ k ∈ range count, v k) := by
  have hsum : (List.range' 0 count).foldlM f sum = .ok (sum + ∑ k ∈ range count, v (0 + k)) :=
    foldlM_sum (fun k hk sum => by rw [Nat.zero_add]; exact hstep k hk sum) sum
  rw [List.range_eq_range', hsum]
  simp only [Nat.zero_add]

theorem sum_lanes (v : ℕ → R) (w t : ℕ) :
    ∑ l : Fin w, ∑ q ∈ range t, v (w * q + l) = ∑ k ∈ range (w * t), v k := by
  induction t with
  | zero => simp
  | succ t ih =>
    simp only [Finset.sum_range_succ, Finset.sum_add_distrib]
    rw [ih, Nat.mul_succ, Finset.sum_range_add, Finset.sum_range (fun l => v (w * t + l))]

end Sums

end Libromano.Foundation.Loops
