/- The triangular factor of a symmetric matrix, entry by entry, and what it has to do with the
   matrix being positive definite. Matrices are given by their elements, of which only those in
   the first `n` rows and columns count. -/

import Mathlib.Algebra.BigOperators.Fin
import Mathlib.Algebra.BigOperators.Ring.Finset
import Mathlib.Algebra.Field.Basic
import Mathlib.Algebra.Order.Field.Basic
import Mathlib.Tactic.FieldSimp
import Mathlib.Tactic.Ring

set_option autoImplicit false
set_option relaxedAutoImplicit false

namespace Libromano.Foundation.Cholesky

open Finset (range)

variable {K : Type} [Field K] {root : K → K} {A : ℕ → ℕ → K} {n i j : ℕ}

section Factor

/-- The entry in row `i` and column `j` of the factor, from those to the left of it, and from
those of the row `j`. -/
def factor (root : K → K) (A : ℕ → ℕ → K) (i j : ℕ) : K :=
  if j < i then
    1 / factor root A j j * (A i j - ∑ k : Fin j, factor root A i k * factor root A j k)
  else if i = j then root (A i i - ∑ k : Fin j, factor root A i k * factor root A i k)
  else 0
termination_by (j, i)
decreasing_by all_goals omega

def pivot (root : K → K) (A : ℕ → ℕ → K) (i : ℕ) : K :=
  A i i - ∑ k ∈ range i, factor root A i k * factor root A i k

theorem factor_of_lt (h : j < i) :
    factor root A i j = 1 / factor root A j j *
      (A i j - ∑ k ∈ range j, factor root A i k * factor root A j k) := by
  rw [factor, if_pos h, Finset.sum_range]

theorem factor_self : factor root A i i = root (pivot root A i) := by
  rw [factor, if_neg (Nat.lt_irrefl i), if_pos rfl, pivot, Finset.sum_range]

theorem factor_of_gt (h : i < j) : factor root A i j = 0 := by
  rw [factor, if_neg (Nat.not_lt.mpr h.le), if_neg h.ne]

end Factor

section Product

variable [LinearOrder K]

/-- A square root of positive numbers. -/
def IsRoot (root : K → K) : Prop := ∀ t, 0 < t → root t * root t = t ∧ 0 < root t

variable (hroot : IsRoot root) (hpivot : ∀ i < n, 0 < pivot root A i)

include hroot hpivot

theorem factor_self_pos (hi : i < n) : 0 < factor root A i i := by
  rw [factor_self]
  exact (hroot _ (hpivot i hi)).2

private theorem sum_factor_succ (hji : j ≤ i) (hj : j < n) :
    ∑ k ∈ range (j + 1), factor root A i k * factor root A j k = A i j := by
  rw [Finset.sum_range_succ]
  rcases Nat.lt_or_eq_of_le hji with hlt | rfl
  · have hne : factor root A j j ≠ 0 := (factor_self_pos hroot hpivot hj).ne'
    rw [factor_of_lt hlt]
    field_simp
    ring
  · rw [factor_self, (hroot _ (hpivot j hj)).1, pivot]
    ring

theorem sum_factor (hji : j ≤ i) (hj : j < n) :
    ∑ k ∈ range n, factor root A i k * factor root A j k = A i j := by
  rw [← sum_factor_succ hroot hpivot hji hj]
  symm
  apply Finset.sum_subset (Finset.range_mono (by omega))
  intro k _ hk
  rw [factor_of_gt (i := j) (by rw [Finset.mem_range] at hk; omega), mul_zero]

private theorem sum_factor_eq (hsymm : A i j = A j i) (hlt : i < n ∨ j < n) :
    ∑ k ∈ range n, factor root A i k * factor root A j k = A i j := by
  rcases Nat.le_total j i with hji | hij
  · exact sum_factor hroot hpivot hji (by omega)
  · rw [hsymm, ← sum_factor hroot hpivot hij (by omega)]
    exact Finset.sum_congr rfl fun k _ => mul_comm _ _

end Product

section Definite

def form (n : ℕ) (A : ℕ → ℕ → K) (v : ℕ → K) : K :=
  ∑ i ∈ range n, v i * ∑ j ∈ range n, A i j * v j

def Symmetric (n : ℕ) (A : ℕ → ℕ → K) : Prop := ∀ i < n, ∀ j < n, A i j = A j i

def PositiveDefinite [LinearOrder K] (n : ℕ) (A : ℕ → ℕ → K) : Prop :=
  ∀ v : ℕ → K, (∃ i < n, v i ≠ 0) → 0 < form n A v

private theorem exists_solution {L : ℕ → ℕ → K} (hdiag : ∀ k < n, L k k ≠ 0)
    (hlower : ∀ i j, i < j → L i j = 0) (r : ℕ → K) :
    ∃ v : ℕ → K, ∀ k < n, ∑ a ∈ range n, L a k * v a = r k := by
  induction n generalizing r with
  | zero => exact ⟨0, fun k hk => absurd hk (Nat.not_lt_zero k)⟩
  | succ n ih =>
    obtain ⟨v, hv⟩ := ih (fun k hk => hdiag k (Nat.lt_succ_of_lt hk))
      (fun k => r k - L n k * (r n / L n n))
    refine ⟨Function.update v n (r n / L n n), fun k hk => ?_⟩
    have hrest : ∑ a ∈ range n, L a k * Function.update v n (r n / L n n) a =
        ∑ a ∈ range n, L a k * v a :=
      Finset.sum_congr rfl fun a ha => by
        rw [Function.update_of_ne (Finset.mem_range.mp ha).ne]
    rw [Finset.sum_range_succ, Function.update_self, hrest]
    rcases Nat.lt_succ_iff_lt_or_eq.mp hk with hlt | rfl
    · rw [hv k hlt, sub_add_cancel]
    · have hzero : ∑ a ∈ range k, L a k * v a = 0 :=
        Finset.sum_eq_zero fun a ha => by rw [hlower a k (Finset.mem_range.mp ha), zero_mul]
      rw [hzero, zero_add, mul_div_cancel₀ _ (hdiag k (Nat.lt_succ_self k))]

section Forms

variable {L : ℕ → ℕ → K}

private theorem form_product (m : ℕ) (v : ℕ → K) :
    form n (fun i j => ∑ k ∈ range m, L i k * L j k) v =
      ∑ k ∈ range m, (∑ a ∈ range n, L a k * v a) * ∑ b ∈ range n, L b k * v b := by
  calc form n (fun i j => ∑ k ∈ range m, L i k * L j k) v
      = ∑ a ∈ range n, ∑ b ∈ range n, ∑ k ∈ range m, L a k * v a * (L b k * v b) := by
        simp only [form, Finset.mul_sum, Finset.sum_mul]
        refine Finset.sum_congr rfl fun a _ => Finset.sum_congr rfl fun b _ =>
          Finset.sum_congr rfl fun k _ => ?_
        ring
    _ = ∑ a ∈ range n, ∑ k ∈ range m, ∑ b ∈ range n, L a k * v a * (L b k * v b) :=
        Finset.sum_congr rfl fun a _ => Finset.sum_comm
    _ = ∑ k ∈ range m, ∑ a ∈ range n, ∑ b ∈ range n, L a k * v a * (L b k * v b) :=
        Finset.sum_comm
    _ = _ := Finset.sum_congr rfl fun k _ => (Finset.sum_mul_sum _ _ _ _).symm

private theorem form_succ {B : ℕ → ℕ → K} {v : ℕ → K} {p : K}
    (heq : ∀ a ≤ i, ∀ b ≤ i, a < i ∨ b < i → A a b = B a b) (hlast : A i i = B i i + p)
    (hv : v i = 1) : form (i + 1) A v = form (i + 1) B v + p := by
  have hrow (a : ℕ) (ha : a < i) :
      ∑ b ∈ range (i + 1), A a b * v b = ∑ b ∈ range (i + 1), B a b * v b :=
    Finset.sum_congr rfl fun b hb => by
      rw [heq a ha.le b (Nat.le_of_lt_succ (Finset.mem_range.mp hb)) (.inl ha)]
  have hlastrow : ∑ b ∈ range (i + 1), A i b * v b = ∑ b ∈ range (i + 1), B i b * v b + p := by
    have hcolumns : ∑ b ∈ range i, A i b * v b = ∑ b ∈ range i, B i b * v b :=
      Finset.sum_congr rfl fun b hb => by
        rw [heq i le_rfl b (Finset.mem_range.mp hb).le (.inr (Finset.mem_range.mp hb))]
    rw [Finset.sum_range_succ, Finset.sum_range_succ, hcolumns, hlast, hv]
    ring
  have hrows : ∑ a ∈ range i, v a * ∑ b ∈ range (i + 1), A a b * v b =
      ∑ a ∈ range i, v a * ∑ b ∈ range (i + 1), B a b * v b :=
    Finset.sum_congr rfl fun a ha => by rw [hrow a (Finset.mem_range.mp ha)]
  have hform : form (i + 1) B v = ∑ a ∈ range i, v a * ∑ b ∈ range (i + 1), B a b * v b +
      ∑ b ∈ range (i + 1), B i b * v b := by
    rw [form, Finset.sum_range_succ, hv, one_mul]
  rw [hform, form, Finset.sum_range_succ, hrows, hlastrow, hv, one_mul, add_assoc]

end Forms

variable [LinearOrder K]

theorem PositiveDefinite.mono {m : ℕ} (h : PositiveDefinite n A) (hmn : m ≤ n) :
    PositiveDefinite m A := by
  rintro v ⟨i, hi, hvi⟩
  let u (a : ℕ) : K := if a < m then v a else 0
  have hu (c : ℕ → K) : ∑ a ∈ range m, u a * c a = ∑ a ∈ range m, v a * c a :=
    Finset.sum_congr rfl fun a ha => by simp only [u, if_pos (Finset.mem_range.mp ha)]
  have hrest (c : ℕ → K) : ∑ a ∈ range m, u a * c a = ∑ a ∈ range n, u a * c a :=
    Finset.sum_subset (Finset.range_mono hmn) fun a _ ha => by
      simp only [u, if_neg (Finset.mem_range.not.mp ha), zero_mul]
  have hform : form n A u = form m A v := by
    simp only [form, mul_comm (A _ _)]
    rw [← hrest, hu]
    apply Finset.sum_congr rfl
    intro a _
    rw [← hrest, hu]
  have hpos := h u ⟨i, Nat.lt_of_lt_of_le hi hmn, by simpa only [u, if_pos hi] using hvi⟩
  rwa [hform] at hpos

section Pivots

variable (hroot : IsRoot root) (hsymm : Symmetric n A)

include hroot hsymm

/-- Where the pivots before it are positive, there is a vector for which the form is the pivot
of the row `i`. -/
private theorem exists_form_eq_pivot (hi : i < n) (hpivots : ∀ k < i, 0 < pivot root A k) :
    ∃ v, v i = 1 ∧ form (i + 1) A v = pivot root A i := by
  obtain ⟨w, hw⟩ := exists_solution (L := factor root A)
    (fun k hk => (factor_self_pos hroot hpivots hk).ne') (fun _ _ => factor_of_gt)
    (fun k => -factor root A i k)
  let v : ℕ → K := Function.update w i 1
  have hvi : v i = 1 := Function.update_self i 1 w
  have hva (a : ℕ) (ha : a < i) : v a = w a := Function.update_of_ne ha.ne 1 w
  have hcolumn (k : ℕ) (hk : k < i) : ∑ a ∈ range (i + 1), factor root A a k * v a = 0 := by
    have hrest : ∑ a ∈ range i, factor root A a k * v a = -factor root A i k := by
      rw [← hw k hk]
      apply Finset.sum_congr rfl
      intro a ha
      rw [hva a (Finset.mem_range.mp ha)]
    rw [Finset.sum_range_succ, hrest, hvi, mul_one, neg_add_cancel]
  have hentry (a : ℕ) (ha : a ≤ i) (b : ℕ) (hb : b ≤ i) (hlt : a < i ∨ b < i) :
      A a b = ∑ k ∈ range i, factor root A a k * factor root A b k :=
    (sum_factor_eq hroot hpivots (hsymm a (by omega) b (by omega)) hlt).symm
  have hsquares : form (i + 1)
      (fun a b => ∑ k ∈ range i, factor root A a k * factor root A b k) v = 0 := by
    rw [form_product]
    exact Finset.sum_eq_zero fun k hk => by rw [hcolumn k (Finset.mem_range.mp hk), zero_mul]
  refine ⟨v, hvi, ?_⟩
  rw [form_succ hentry (p := pivot root A i) (by rw [pivot]; ring) hvi, hsquares, zero_add]

theorem pivot_pos (hdef : PositiveDefinite n A) : ∀ i < n, 0 < pivot root A i := by
  intro i
  induction i using Nat.strong_induction_on with
  | _ i ih =>
    intro hi
    obtain ⟨v, hvi, hform⟩ := exists_form_eq_pivot hroot hsymm hi
      fun k hk => ih k hk (Nat.lt_trans hk hi)
    rw [← hform]
    exact hdef.mono hi v ⟨i, Nat.lt_succ_self i, by rw [hvi]; exact one_ne_zero⟩

end Pivots

end Definite

section Triangular

variable {L : ℕ → ℕ → K} {b : ℕ → K}

def forward (L : ℕ → ℕ → K) (b : ℕ → K) (j : ℕ) : K :=
  (b j - ∑ k : Fin j, L j k * forward L b k) / L j j

theorem forward_eq (L : ℕ → ℕ → K) (b : ℕ → K) (j : ℕ) :
    forward L b j = (b j - ∑ k ∈ range j, L j k * forward L b k) / L j j := by
  rw [forward, Finset.sum_range]

private theorem sum_forward (hdiag : L j j ≠ 0) :
    ∑ k ∈ range (j + 1), L j k * forward L b k = b j := by
  rw [Finset.sum_range_succ, forward_eq L b j, mul_div_cancel₀ _ hdiag, add_sub_cancel]

/-- The first `n` equations in the first `n` unknowns. -/
def IsSolution (n : ℕ) (A : ℕ → ℕ → K) (b v : ℕ → K) : Prop :=
  ∀ i < n, ∑ k ∈ range n, A i k * v k = b i

/-- Every unknown is what the equations up to its own give, without the unknowns behind it. -/
def Sequential (n : ℕ) (A : ℕ → ℕ → K) (b : ℕ → K) : Prop :=
  ∃ v, IsSolution n A b v ∧ ∀ i < n, ∃ w, IsSolution (i + 1) A b w ∧ w i = v i

theorem PositiveDefinite.unique [LinearOrder K] (hdef : PositiveDefinite n A) {u v : ℕ → K}
    (hu : IsSolution n A b u) (hv : IsSolution n A b v) : ∀ i < n, u i = v i := by
  by_contra! hne
  obtain ⟨i, hi, hui⟩ := hne
  have hpos := hdef (fun j => u j - v j) ⟨i, hi, sub_ne_zero.mpr hui⟩
  have hzero : form n A (fun j => u j - v j) = 0 := by
    apply Finset.sum_eq_zero
    intro a ha
    have hrow : ∑ j ∈ range n, A a j * (u j - v j) = 0 := by
      simp only [mul_sub, Finset.sum_sub_distrib]
      rw [hu a (Finset.mem_range.mp ha), hv a (Finset.mem_range.mp ha), sub_self]
    change (u a - v a) * ∑ j ∈ range n, A a j * (u j - v j) = 0
    rw [hrow, mul_zero]
  exact absurd hpos (hzero ▸ lt_irrefl _)

theorem exists_isSolution [LinearOrder K] (hroot : IsRoot root) (hsymm : Symmetric n A)
    (hpivots : ∀ k < n, 0 < pivot root A k) (hi : i < n) :
    ∃ w, IsSolution (i + 1) A b w ∧
      w i = forward (factor root A) b i / factor root A i i := by
  have hdiag (k : ℕ) (hk : k < n) : factor root A k k ≠ 0 :=
    (factor_self_pos hroot hpivots hk).ne'
  obtain ⟨w, hw⟩ := exists_solution (L := factor root A) (n := i + 1)
    (fun k hk => hdiag k (by omega)) (fun _ _ => factor_of_gt) (forward (factor root A) b)
  have hentry (a : ℕ) (ha : a < i + 1) (k : ℕ) (hk : k < i + 1) :
      A a k = ∑ l ∈ range (i + 1), factor root A a l * factor root A k l :=
    (sum_factor_eq hroot (fun a ha => hpivots a (by omega)) (hsymm a (by omega) k (by omega))
      (.inl ha)).symm
  refine ⟨w, fun a ha => ?_, ?_⟩
  · calc ∑ k ∈ range (i + 1), A a k * w k
        = ∑ k ∈ range (i + 1), ∑ l ∈ range (i + 1),
            factor root A a l * (factor root A k l * w k) := by
          apply Finset.sum_congr rfl
          intro k hk
          rw [hentry a ha k (Finset.mem_range.mp hk), Finset.sum_mul]
          exact Finset.sum_congr rfl fun l _ => mul_assoc _ _ _
      _ = ∑ l ∈ range (i + 1), factor root A a l *
            ∑ k ∈ range (i + 1), factor root A k l * w k := by
          rw [Finset.sum_comm]
          exact Finset.sum_congr rfl fun l _ => (Finset.mul_sum _ _ _).symm
      _ = ∑ l ∈ range (i + 1), factor root A a l * forward (factor root A) b l :=
          Finset.sum_congr rfl fun l hl => by rw [hw l (Finset.mem_range.mp hl)]
      _ = ∑ l ∈ range (a + 1), factor root A a l * forward (factor root A) b l := by
          symm
          apply Finset.sum_subset (Finset.range_mono ha)
          intro l _ hl
          rw [factor_of_gt (by rw [Finset.mem_range] at hl; omega), zero_mul]
      _ = b a := sum_forward (hdiag a (by omega))
  · have hlast : ∑ a ∈ range i, factor root A a i * w a = 0 :=
      Finset.sum_eq_zero fun a ha => by rw [factor_of_gt (Finset.mem_range.mp ha), zero_mul]
    have hrow := hw i (Nat.lt_succ_self i)
    rw [Finset.sum_range_succ, hlast, zero_add] at hrow
    rw [← hrow, mul_div_cancel_left₀ _ (hdiag i hi)]

end Triangular

section Sequences

variable {b : ℕ → K}

private theorem isSolution_of_diagonal {m : ℕ} (hdiag : ∀ i < n, ∀ j < n, i ≠ j → A i j = 0)
    (hne : ∀ i < n, A i i ≠ 0) (hmn : m ≤ n) : IsSolution m A b fun k => b k / A k k := by
  intro i hi
  have hothers : ∑ k ∈ range m, A i k * (b k / A k k) = A i i * (b i / A i i) :=
    Finset.sum_eq_single_of_mem i (Finset.mem_range.mpr hi) fun k hk hki => by
      rw [hdiag i (by omega) k (Nat.lt_of_lt_of_le (Finset.mem_range.mp hk) hmn) hki.symm, zero_mul]
  rw [hothers, mul_div_cancel₀ _ (hne i (by omega))]

variable [LinearOrder K] (hdef : PositiveDefinite n A)

include hdef

private theorem PositiveDefinite.diagonal_pos (hi : i < n) : 0 < A i i := by
  have hpos := hdef (fun k => if k = i then 1 else 0)
    ⟨i, hi, by rw [if_pos rfl]; exact one_ne_zero⟩
  simpa [form, hi] using hpos

private theorem zero_of_leading {w : ℕ → K} (hi : i < n) (hbefore : ∀ k < i, b k = 0)
    (hw : IsSolution (i + 1) A b w) (hzero : w i = 0) : b i = 0 := by
  have hrow (a : ℕ) : ∑ k ∈ range (i + 1), A a k * w k = ∑ k ∈ range i, A a k * w k := by
    rw [Finset.sum_range_succ, hzero, mul_zero, add_zero]
  have hbelow : ∀ k < i, w k = 0 :=
    (hdef.mono hi.le).unique (b := fun _ => 0) (v := fun _ => 0)
      (fun a ha => by rw [← hrow, hw a (by omega), hbefore a ha])
      fun a _ => Finset.sum_eq_zero fun k _ => mul_zero _
  rw [← hw i (Nat.lt_succ_self i), hrow]
  exact Finset.sum_eq_zero fun k hk => by rw [hbelow k (Finset.mem_range.mp hk), mul_zero]

theorem forall_sequential_iff (hsymm : Symmetric n A) :
    (∀ b, Sequential n A b) ↔ ∀ i < n, ∀ j < n, i ≠ j → A i j = 0 := by
  constructor
  · intro h
    have hupper (p : ℕ) (hp : p < n) (j : ℕ) : j < p → A j p = 0 := by
      induction j using Nat.strong_induction_on with
      | _ j ih =>
        intro hj
        have hunit : IsSolution n A (fun i => A i p) fun k => if k = p then 1 else 0 := by
          intro i _
          simp [hp]
        -- the solution for the column `p` is the unit vector
        obtain ⟨v, hv, hleading⟩ := h fun i => A i p
        obtain ⟨w, hw, hwj⟩ := hleading j (Nat.lt_trans hj hp)
        rw [hdef.unique hv hunit j (Nat.lt_trans hj hp), if_neg hj.ne] at hwj
        exact zero_of_leading (b := fun i => A i p) hdef (Nat.lt_trans hj hp)
          (fun k hk => ih k hk (Nat.lt_trans hk hj)) hw hwj
    intro i hi j hj hne
    rcases Nat.lt_or_gt_of_ne hne with hlt | hgt
    · exact hupper j hj i hlt
    · rw [hsymm i hi j hj]
      exact hupper i hi j hgt
  · intro hdiag b
    have hne (i : ℕ) (hi : i < n) : A i i ≠ 0 := (hdef.diagonal_pos hi).ne'
    exact ⟨_, isSolution_of_diagonal hdiag hne le_rfl,
      fun i hi => ⟨_, isSolution_of_diagonal hdiag hne hi, rfl⟩⟩

end Sequences

end Libromano.Foundation.Cholesky
