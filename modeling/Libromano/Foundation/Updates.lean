/- Sums of natural numbers over the values of a function, and what an update of the function makes
   of them. -/

import Mathlib.Algebra.BigOperators.Group.Finset.Basic
import Mathlib.Algebra.Order.BigOperators.Group.Finset
import Mathlib.Logic.Function.Basic

set_option autoImplicit false
set_option relaxedAutoImplicit false

namespace Libromano.Foundation

open Finset

variable {ι α : Type} [DecidableEq ι] {s : Finset ι} {i : ι}

theorem sum_update_balance (f : α → ℕ) (g : ι → α) (hi : i ∈ s) (a : α) :
    ∑ j ∈ s, f (Function.update g i a j) + f (g i) = ∑ j ∈ s, f (g j) + f a := by
  have hothers : ∑ j ∈ s.erase i, f (Function.update g i a j) = ∑ j ∈ s.erase i, f (g j) := by
    apply sum_congr rfl
    intro j hj
    rw [Function.update_of_ne (ne_of_mem_erase hj)]
  rw [← add_sum_erase s _ hi, ← add_sum_erase s (fun j => f (g j)) hi, hothers,
    Function.update_self]
  omega

theorem sum_update_of_notMem (f : α → ℕ) (g : ι → α) (hi : i ∉ s) (a : α) :
    ∑ j ∈ s, f (Function.update g i a j) = ∑ j ∈ s, f (g j) := by
  apply sum_congr rfl
  intro j hj
  rw [Function.update_of_ne]
  rintro rfl
  exact hi hj

theorem sum_balance_of_eq {f g : ι → ℕ} (hi : i ∈ s) (h : ∀ j, j ≠ i → g j = f j) :
    ∑ j ∈ s, g j + f i = ∑ j ∈ s, f j + g i := by
  have hothers : ∑ j ∈ s.erase i, g j = ∑ j ∈ s.erase i, f j :=
    sum_congr rfl fun j hj => h j (ne_of_mem_erase hj)
  rw [← add_sum_erase s g hi, ← add_sum_erase s f hi, hothers]
  omega

theorem apply_update_of_eq {β : Type} (f : α → β) (g : ι → α) {a : α} (h : f a = f (g i)) (j : ι) :
    f (Function.update g i a j) = f (g j) := by
  rcases eq_or_ne j i with rfl | hne
  · rw [Function.update_self, h]
  · rw [Function.update_of_ne hne]

omit [DecidableEq ι] in
theorem le_sum_of_mem (f : ι → ℕ) (hi : i ∈ s) : f i ≤ ∑ j ∈ s, f j :=
  single_le_sum (fun _ _ => Nat.zero_le _) hi

end Libromano.Foundation
