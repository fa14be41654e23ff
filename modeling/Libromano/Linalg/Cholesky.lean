/- The Cholesky decomposition, over exact numbers with a square root. Its loops fill the factor
   row by row, and they are left where a pivot is not positive. -/

import Libromano.Foundation.Cholesky
import Libromano.Linalg.Matrix
import Mathlib.Analysis.Real.Sqrt

set_option autoImplicit false
set_option relaxedAutoImplicit false

namespace Libromano.Linalg

open Foundation.Cholesky
open Foundation.Loops
open Foundation.RowMajor
open Finset (range)

variable {K : Type} [Field K]

section Functions

variable [LinearOrder K]

/-- The elements of `L`, and whether the function has returned `false`. -/
structure Progress (K : Type) where
  data : List K
  failed : Bool

def choleskyEntry (mathfSqrt : K → K) (A : List K) (N i j : ℕ) (s : Progress K) :
    Except Fault (Progress K) :=
  if s.failed then .ok s
  else do
    let sum ← (List.range j).foldlM (fun sum k => do
      let x ← getAtWithN s.data N i k
      let y ← getAtWithN s.data N j k
      .ok (sum + x * y)) 0
    if i = j then
      let aii ← getAtWithN A N i i
      let tmp := aii - sum
      if tmp ≤ 0 then .ok { s with failed := true }
      else
        let data ← setAtWithN s.data N (mathfSqrt tmp) i j
        .ok { s with data }
    else
      let _tmp ← getAtWithN A N j j
      let ljj ← getAtWithN s.data N j j
      let aij ← getAtWithN A N i j
      let data ← setAtWithN s.data N (1 / ljj * (aij - sum)) i j
      .ok { s with data }

/-- What is logged is left out. -/
def matrixfCholeskyDecomposition (fresh : ℕ → K) (mathfSqrt : K → K) (A L : MatrixF K) :
    Except Fault (Bool × MatrixF K) := do
  let N := A.N
  if A.M ≠ A.N then .ok (false, L)
  else
    let L ← matrixfResize fresh L N N
    let L ← matrixfZero L
    let s ← (List.range N).foldlM (fun s i => (List.range (i + 1)).foldlM (fun s j =>
      choleskyEntry mathfSqrt A.data N i j s) s) { data := L.data, failed := false }
    .ok (!s.failed, { L with data := s.data })

end Functions

section Cells

variable {mathfSqrt : K → K} {n i j : ℕ} {A : ℕ → ℕ → K}

/-- The cells of `L`, of which those before row `i` and column `j` are filled. -/
def filled (mathfSqrt : K → K) (A : ℕ → ℕ → K) (n i j t : ℕ) : K :=
  if t < i * n + j then factor mathfSqrt A (t / n) (t % n) else 0

private theorem filled_index {a b : ℕ} (hb : b < n) (h : a * n + b < i * n + j) :
    filled mathfSqrt A n i j (a * n + b) = factor mathfSqrt A a b := by
  rw [filled, if_pos h, index_div hb, index_mod hb]

private theorem index_lt_index {a b : ℕ} (ha : a < i) (hb : b < n) : a * n + b < i * n + j :=
  Nat.lt_of_lt_of_le (index_lt ha hb) (Nat.le_add_right _ j)

private theorem set_filled (hj : j < n) :
    (tabulate (n * n) (filled mathfSqrt A n i j)).set (i * n + j) (factor mathfSqrt A i j) =
      tabulate (n * n) (filled mathfSqrt A n i (j + 1)) := by
  rw [set_tabulate]
  apply tabulate_congr
  intro t _
  rw [Function.update_apply]
  split_ifs with heq
  · rw [heq, filled_index hj (by omega)]
  · have hlt : t < i * n + j ↔ t < i * n + (j + 1) := by omega
    simp only [filled, hlt]

private theorem filled_row : tabulate (n * n) (filled mathfSqrt A n i (i + 1)) =
    tabulate (n * n) (filled mathfSqrt A n (i + 1) 0) := by
  apply tabulate_congr
  intro t ht
  obtain ⟨a, ha, b, hb, rfl⟩ := exists_index ht
  rw [filled, filled, index_div hb, index_mod hb, Nat.add_zero ((i + 1) * n)]
  rcases Nat.lt_trichotomy a i with hlt | rfl | hgt
  · rw [if_pos (index_lt_index hlt hb),
      if_pos (show a * n + b < (i + 1) * n from index_lt (by omega) hb)]
  · rw [if_pos (show a * n + b < (a + 1) * n from index_lt (by omega) hb)]
    split_ifs with hfilled
    · rfl
    · exact (factor_of_gt (by omega)).symm
  · have hrow : i * n + (i + 1) ≤ (i + 1) * n := by
      rw [Nat.succ_mul]
      omega
    have hge : (i + 1) * n ≤ a * n + b :=
      Nat.le_trans (Nat.mul_le_mul_right n hgt) (Nat.le_add_right _ b)
    rw [if_neg (Nat.not_lt.mpr (Nat.le_trans hrow hge)), if_neg (Nat.not_lt.mpr hge)]

variable (hsize : n * n < 2 ^ 31)

include hsize

private theorem getAtWithN_filled {a b : ℕ} (ha : a < n) (hb : b < n) (h : a * n + b < i * n + j) :
    getAtWithN (tabulate (n * n) (filled mathfSqrt A n i j)) n a b =
      .ok (factor mathfSqrt A a b) := by
  rw [getAtWithN_tabulate ha hb hsize, filled_index hb h]

private theorem sum_filled (hi : i < n) (hji : j ≤ i) :
    (List.range j).foldlM (fun sum k => do
      let x ← getAtWithN (tabulate (n * n) (filled mathfSqrt A n i j)) n i k
      let y ← getAtWithN (tabulate (n * n) (filled mathfSqrt A n i j)) n j k
      .ok (sum + x * y)) 0 =
      (.ok (∑ k ∈ range j, factor mathfSqrt A i k * factor mathfSqrt A j k) : Except Fault K) := by
  rw [← zero_add (∑ k ∈ range j, factor mathfSqrt A i k * factor mathfSqrt A j k)]
  refine foldlM_range_sum (fun k hk sum => ?_) 0
  have hkn : k < n := by omega
  have hrow : i * n + k < i * n + j := Nat.add_lt_add_left hk _
  have hcolumn : j * n + k < i * n + j := by
    rcases Nat.lt_or_eq_of_le hji with hlt | rfl
    · exact index_lt_index hlt hkn
    · exact Nat.add_lt_add_left hk _
  rw [getAtWithN_filled hsize hi hkn hrow, bind_ok,
    getAtWithN_filled hsize (Nat.lt_of_le_of_lt hji hi) hkn hcolumn, bind_ok]

end Cells

section Run

variable [LinearOrder K] {fresh : ℕ → K} {mathfSqrt : K → K} {n i j : ℕ} {A : ℕ → ℕ → K}
  {L : MatrixF K} {s : Progress K}

/-- Either the cells so far are filled, and the pivots among them were positive, or a pivot was
not positive. -/
def Reached (mathfSqrt : K → K) (A : ℕ → ℕ → K) (n i j : ℕ) (s : Progress K) : Prop :=
  s.failed = false ∧ s.data = tabulate (n * n) (filled mathfSqrt A n i j) ∧
      (∀ a < i, 0 < pivot mathfSqrt A a) ∧ (i < j → 0 < pivot mathfSqrt A i) ∨
    s.failed = true ∧ ∃ a < n, ¬ 0 < pivot mathfSqrt A a

variable (hsize : n * n < 2 ^ 31)

include hsize

private theorem exists_choleskyEntry (hi : i < n) (hji : j ≤ i) (hs : Reached mathfSqrt A n i j s) :
    ∃ s', choleskyEntry mathfSqrt (MatrixF.of n n A).data n i j s = .ok s' ∧
      Reached mathfSqrt A n i (j + 1) s' := by
  have hjn : j < n := Nat.lt_of_le_of_lt hji hi
  rcases hs with ⟨hrunning, hdata, hrows, hrow⟩ | ⟨hfailed, hpivot⟩
  · obtain ⟨data, failed⟩ := s
    dsimp only at hrunning hdata
    subst hrunning hdata
    rw [choleskyEntry, if_neg Bool.false_ne_true]
    dsimp only
    rw [sum_filled hsize hi hji, bind_ok]
    by_cases heq : i = j
    · subst heq
      rw [if_pos rfl, getAtWithN_of hi hi hsize, bind_ok]
      change ∃ s', (if pivot mathfSqrt A i ≤ 0 then _ else _) = _ ∧ _
      by_cases hle : pivot mathfSqrt A i ≤ 0
      · rw [if_pos hle]
        exact ⟨_, rfl, .inr ⟨rfl, i, hi, not_lt.mpr hle⟩⟩
      · rw [if_neg hle, setAtWithN_tabulate hi hi hsize, bind_ok]
        change ∃ s', Except.ok (Progress.mk ((tabulate _ _).set _ (mathfSqrt (pivot mathfSqrt A i)))
          false) = _ ∧ _
        rw [show mathfSqrt (pivot mathfSqrt A i) = factor mathfSqrt A i i from factor_self.symm,
          set_filled hi]
        exact ⟨_, rfl, .inl ⟨rfl, rfl, hrows, fun _ => not_le.mp hle⟩⟩
    · have hlt : j < i := Nat.lt_of_le_of_ne hji (Ne.symm heq)
      rw [if_neg heq, getAtWithN_of hjn hjn hsize, bind_ok,
        getAtWithN_filled hsize hjn hjn (index_lt_index hlt hjn), bind_ok,
        getAtWithN_of hi hjn hsize, bind_ok, ← factor_of_lt hlt, setAtWithN_tabulate hi hjn hsize,
        bind_ok, set_filled hjn]
      exact ⟨_, rfl, .inl ⟨rfl, rfl, hrows, fun hij => absurd hij (by omega)⟩⟩
  · refine ⟨s, ?_, .inr ⟨hfailed, hpivot⟩⟩
    rw [choleskyEntry, if_pos hfailed]

private theorem exists_choleskyRow (hi : i < n) (hs : Reached mathfSqrt A n i 0 s) :
    ∃ s', (List.range (i + 1)).foldlM (fun s j =>
        choleskyEntry mathfSqrt (MatrixF.of n n A).data n i j s) s = .ok s' ∧
      Reached mathfSqrt A n (i + 1) 0 s' := by
  obtain ⟨s', hs', hreached⟩ : ∃ s', (List.range (i + 1)).foldlM (fun s j =>
        choleskyEntry mathfSqrt (MatrixF.of n n A).data n i j s) s = .ok s' ∧
      Reached mathfSqrt A n i (i + 1) s' :=
    exists_foldlM_range (Reached mathfSqrt A n i)
      (fun j s hj hs => exists_choleskyEntry hsize hi (Nat.le_of_lt_succ hj) hs) hs
  refine ⟨s', hs', ?_⟩
  rcases hreached with ⟨hrunning, hdata, hrows, hrow⟩ | hfailed
  · refine .inl ⟨hrunning, hdata.trans filled_row, fun a ha => ?_,
      fun hlt => absurd hlt (Nat.not_lt_zero _)⟩
    rcases Nat.lt_succ_iff_lt_or_eq.mp ha with hlt | rfl
    · exact hrows a hlt
    · exact hrow (Nat.lt_succ_self a)
  · exact .inr hfailed

private theorem exists_decomposition :
    ∃ r L', matrixfCholeskyDecomposition fresh mathfSqrt (MatrixF.of n n A) L = .ok (r, L') ∧
      (r = true ∧ L' = MatrixF.of n n (factor mathfSqrt A) ∧ (∀ a < n, 0 < pivot mathfSqrt A a) ∨
        r = false ∧ ∃ a < n, ¬ 0 < pivot mathfSqrt A a) := by
  have hstart : Reached mathfSqrt A n 0 0
      { data := (MatrixF.of n n fun _ _ => (0 : K)).data, failed := false } := by
    refine .inl ⟨rfl, tabulate_congr fun t _ => ?_, fun a ha => absurd ha (Nat.not_lt_zero a),
      fun hlt => absurd hlt (Nat.lt_irrefl 0)⟩
    rw [filled, if_neg (by omega)]
  obtain ⟨s, hs, hreached⟩ : ∃ s, (List.range n).foldlM (fun s i => (List.range (i + 1)).foldlM
      (fun s j => choleskyEntry mathfSqrt (MatrixF.of n n A).data n i j s) s)
      { data := (MatrixF.of n n fun _ _ => (0 : K)).data, failed := false } = .ok s ∧
      Reached mathfSqrt A n n 0 s :=
    exists_foldlM_range (fun i => Reached mathfSqrt A n i 0)
      (fun i s hi hs => exists_choleskyRow hsize hi hs) hstart
  refine ⟨!s.failed, { data := s.data, N := n, M := n }, ?_, ?_⟩
  · rw [matrixfCholeskyDecomposition]
    change (if n ≠ n then _ else (matrixfResize fresh L n n >>= _)) = _
    rw [if_neg (not_not.mpr rfl), matrixfResize_ok hsize, bind_ok, matrixfZero_tabulate hsize,
      bind_ok]
    exact congrArg (· >>= _) hs
  · rcases hreached with ⟨hrunning, hdata, hrows, -⟩ | ⟨hfailed, hpivot⟩
    · refine .inl ⟨by rw [hrunning]; rfl, ?_, hrows⟩
      rw [hdata, MatrixF.of]
      congr 1
      apply tabulate_congr
      intro t ht
      rw [filled, Nat.add_zero, if_pos ht]
    · exact .inr ⟨by rw [hfailed]; rfl, hpivot⟩

theorem decomposition_of_pivots (hpivots : ∀ a < n, 0 < pivot mathfSqrt A a) :
    matrixfCholeskyDecomposition fresh mathfSqrt (MatrixF.of n n A) L =
      .ok (true, MatrixF.of n n (factor mathfSqrt A)) := by
  obtain ⟨r, L', hrun, ⟨rfl, rfl, -⟩ | ⟨-, a, ha, hpivot⟩⟩ :=
    @exists_decomposition K _ _ fresh mathfSqrt n A L hsize
  · exact hrun
  · exact absurd (hpivots a ha) hpivot

end Run

theorem decomposition_error [LinearOrder K] {fresh : ℕ → K} {mathfSqrt : K → K} {n : ℕ}
    {A : ℕ → ℕ → K} {L : MatrixF K} (hsize : ¬ n * n < 2 ^ 31) :
    matrixfCholeskyDecomposition fresh mathfSqrt (MatrixF.of n n A) L = .error .outOfMemory := by
  rw [matrixfCholeskyDecomposition]
  change (if n ≠ n then _ else (matrixfResize fresh L n n >>= _)) = _
  rw [if_neg (not_not.mpr rfl), matrixfResize_error hsize, bind_error]

section Results

variable [LinearOrder K] {fresh : ℕ → K} {mathfSqrt : K → K} {n : ℕ} {A : ℕ → ℕ → K} {L : MatrixF K}

/-- `L` is the lower triangular factor of `A` with a positive diagonal. -/
structure IsFactor (n : ℕ) (A : ℕ → ℕ → K) (L : ℕ → ℕ → K) : Prop where
  lower : ∀ i < n, ∀ j < n, i < j → L i j = 0
  diagonal : ∀ i < n, 0 < L i i
  product : ∀ i < n, ∀ j ≤ i, ∑ k ∈ range n, L i k * L j k = A i j

/-- The function returns; where it returns `true`, it leaves the factor; and it returns `true`
for a positive definite matrix. -/
theorem matrixfCholeskyDecomposition_correct (hsqrt : IsRoot mathfSqrt) (hsize : n * n < 2 ^ 31) :
    ∃ r L', matrixfCholeskyDecomposition fresh mathfSqrt (MatrixF.of n n A) L = .ok (r, L') ∧
      (r = true → ∃ l, L' = MatrixF.of n n l ∧ IsFactor n A l) ∧
      (Symmetric n A → PositiveDefinite n A → r = true) := by
  obtain ⟨r, L', hrun, ⟨rfl, rfl, hpivots⟩ | ⟨rfl, a, ha, hpivot⟩⟩ :=
    @exists_decomposition K _ _ fresh mathfSqrt n A L hsize
  · refine ⟨true, _, hrun, fun _ => ⟨factor mathfSqrt A, rfl, ?_⟩, fun _ _ => rfl⟩
    exact
      { lower := fun i _ j _ hij => factor_of_gt hij
        diagonal := fun i hi => factor_self_pos hsqrt hpivots hi
        product := fun i hi j hji => sum_factor hsqrt hpivots hji (Nat.lt_of_le_of_lt hji hi) }
  · refine ⟨false, L', hrun, fun htrue => absurd htrue Bool.false_ne_true, fun hsymm hdef => ?_⟩
    exact absurd (pivot_pos hsqrt hsymm hdef a ha) hpivot

theorem isRoot_sqrt : IsRoot Real.sqrt := fun _ ht =>
  ⟨Real.mul_self_sqrt ht.le, Real.sqrt_pos.mpr ht⟩

theorem matrixfCholeskyDecomposition_two :
    ∃ r L', matrixfCholeskyDecomposition (fun _ => 0) Real.sqrt
        (MatrixF.of 2 2 fun i j => if i + j = 0 then (4 : ℝ) else 2) matrixNull = .ok (r, L') ∧
      (r = true → ∃ l, L' = MatrixF.of 2 2 l ∧
        IsFactor 2 (fun i j => if i + j = 0 then (4 : ℝ) else 2) l) ∧
      (Symmetric 2 (fun i j => if i + j = 0 then (4 : ℝ) else 2) →
        PositiveDefinite 2 (fun i j => if i + j = 0 then (4 : ℝ) else 2) → r = true) :=
  matrixfCholeskyDecomposition_correct isRoot_sqrt (by decide)

/-- The product of the two lengths of `L` is an `int`, into which it does not fit. -/
theorem matrixfCholeskyDecomposition_overflow :
    ¬ ∀ (fresh : ℕ → ℝ) (n : ℕ) (A : ℕ → ℕ → ℝ) (L : MatrixF ℝ), 1 ≤ n →
      ∃ r L', matrixfCholeskyDecomposition fresh Real.sqrt (MatrixF.of n n A) L = .ok (r, L') ∧
        (r = true → ∃ l, L' = MatrixF.of n n l ∧ IsFactor n A l) ∧
        (Symmetric n A → PositiveDefinite n A → r = true) := by
  intro h
  obtain ⟨r, L', hrun, -⟩ := h (fun _ => 0) 46341 (fun _ _ => 0) matrixNull (by decide)
  rw [decomposition_error (by decide)] at hrun
  cases hrun

end Results

end Libromano.Linalg
