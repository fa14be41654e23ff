/- The solver that goes by the Cholesky decomposition. Its factor is square, and so the
   transposition in place leaves it as it is: the backward substitution sees zeros above the
   diagonal, and does no more than divide by the diagonal. -/

import Libromano.Linalg.Cholesky
import Libromano.Linalg.Transpose
import Mathlib.Tactic.IntervalCases
import Mathlib.Tactic.Positivity

set_option autoImplicit false
set_option relaxedAutoImplicit false

namespace Libromano.Linalg

open Foundation.Cholesky
open Foundation.Loops
open Foundation.RowMajor
open Finset (range)

variable {K : Type} [Field K]

section Functions

/-- The body of the loops that solve `L y = b`. -/
def forwardEntry (b L : List K) (bN N i j : ℕ) (y : List K) : Except Fault (List K) := do
  let tmp ← getAtWithN b bN j i
  let y ← setAtWithN y bN tmp j i
  let y ← (List.range j).foldlM (fun y k => do
    let yj ← getAtWithN y bN j i
    let ljk ← getAtWithN L N j k
    let yk ← getAtWithN y bN k i
    setAtWithN y bN (yj - ljk * yk) j i) y
  let yj ← getAtWithN y bN j i
  let ljj ← getAtWithN L N j j
  setAtWithN y bN (yj / ljj) j i

/-- The body of the loops that are to solve the transposed system. -/
def backwardEntry (y L : List K) (bN N i j2 : ℕ) (x : List K) : Except Fault (List K) := do
  let sum ← (counters (j2 + 1) N 1).foldlM (fun sum k => do
    let l ← getAtWithN L N j2 k
    let xk ← getAtWithN x bN k i
    .ok (sum + l * xk)) 0
  let yj ← getAtWithN y bN j2 i
  let ljj ← getAtWithN L N j2 j2
  setAtWithN x bN ((yj - sum) / ljj) j2 i

variable [LinearOrder K]

/-- `fresh 0` to `fresh 3` are what the blocks held that are allocated for `L`, for `y`, for `x`
and by the transposition. -/
def matrixfCholeskySolve (fresh : ℕ → ℕ → K) (mathfSqrt : K → K) (A b x : MatrixF K) :
    Except Fault (Bool × MatrixF K) := do
  let N := A.N
  if A.M ≠ A.N then .ok (false, x)
  else
    let decomposed ← matrixfCholeskyDecomposition (fresh 0) mathfSqrt A matrixNull
    if decomposed.1 = false then .ok (false, x)
    else
      let L := decomposed.2
      let bM := b.M
      let bN := b.N
      let y ← matrixfCreate (fresh 1) bM bN
      let y ← (List.range bN).foldlM (fun y i => (List.range N).foldlM (fun y j =>
        forwardEntry b.data L.data bN N i j y) y) y.data
      let x ← matrixfResize (fresh 2) x bM bN
      let L ← matrixfTranspose (fresh 3) L
      let data ← (List.range bN).foldlM (fun x i => (countdown N).foldlM (fun x j2 =>
        backwardEntry y L.data bN N i j2 x) x) x.data
      .ok (true, { x with data })

end Functions

section Substitutions

variable {n m i j : ℕ} {b L y : ℕ → ℕ → K} {h : ℕ → K}

/-- What the column `i` of `y` holds in the end. -/
def forwardCell (L b : ℕ → ℕ → K) (m t : ℕ) : K := forward L (fun j => b j (t % m)) (t / m)

variable (hsize : n * n < 2 ^ 31) (hsize' : n * m < 2 ^ 31)

include hsize hsize'

private theorem forwardSums_tabulate (hi : i < m) (hj : j < n) {v : ℕ → K} {u : K}
    (hbefore : ∀ k < j, h (k * m + i) = v k) :
    (List.range j).foldlM (fun y k => do
      let yj ← getAtWithN y m j i
      let ljk ← getAtWithN (MatrixF.of n n L).data n j k
      let yk ← getAtWithN y m k i
      setAtWithN y m (yj - ljk * yk) j i) (tabulate (n * m) (Function.update h (j * m + i) u)) =
    .ok (tabulate (n * m) (Function.update h (j * m + i) (u - ∑ k ∈ range j, L j k * v k))) := by
  have hloop : (List.range j).foldlM (fun y k => do
      let yj ← getAtWithN y m j i
      let ljk ← getAtWithN (MatrixF.of n n L).data n j k
      let yk ← getAtWithN y m k i
      setAtWithN y m (yj - ljk * yk) j i)
        (tabulate (n * m) (Function.update h (j * m + i) (u - ∑ k ∈ range 0, L j k * v k))) = _ :=
    foldlM_range_eq (fun t => tabulate (n * m) (Function.update h (j * m + i)
      (u - ∑ k ∈ range t, L j k * v k))) fun k hk => by
    have hkn : k < n := Nat.lt_trans hk hj
    have hne : k * m + i ≠ j * m + i := fun heq => hk.ne ((index_inj hi hi).mp heq).1
    rw [getAtWithN_tabulate hj hi hsize', bind_ok, getAtWithN_of hj hkn hsize, bind_ok,
      getAtWithN_tabulate hkn hi hsize', bind_ok, Function.update_self, Function.update_of_ne hne,
      hbefore k hk, setAtWithN_tabulate hj hi hsize', set_tabulate, Function.update_idem,
      Finset.sum_range_succ, sub_sub]
  rwa [Finset.sum_range_zero, sub_zero] at hloop

private theorem forwardEntry_tabulate (hi : i < m) (hj : j < n)
    (hbefore : ∀ k < j, h (k * m + i) = forwardCell L b m (k * m + i)) :
    forwardEntry (MatrixF.of n m b).data (MatrixF.of n n L).data m n i j (tabulate (n * m) h) =
      .ok ((tabulate (n * m) h).set (j * m + i) (forwardCell L b m (j * m + i))) := by
  have hcell (k : ℕ) : forwardCell L b m (k * m + i) = forward L (fun j => b j i) k := by
    rw [forwardCell, index_div hi, index_mod hi]
  simp only [hcell] at hbefore ⊢
  rw [forwardEntry, getAtWithN_of hj hi hsize', bind_ok, setAtWithN_tabulate hj hi hsize', bind_ok,
    set_tabulate, forwardSums_tabulate hsize hsize' hi hj hbefore, bind_ok,
    getAtWithN_tabulate hj hi hsize', bind_ok, Function.update_self, getAtWithN_of hj hj hsize,
    bind_ok, setAtWithN_tabulate hj hi hsize', set_tabulate, Function.update_idem, set_tabulate,
    forward_eq L (fun j => b j i) j]

private theorem backwardEntry_tabulate (hi : i < m) (hj : j < n)
    (hlower : ∀ k < n, j < k → L j k = 0) :
    backwardEntry (MatrixF.of n m y).data (MatrixF.of n n L).data m n i j (tabulate (n * m) h) =
      .ok ((tabulate (n * m) h).set (j * m + i) (y j i / L j j)) := by
  have hsum : (counters (j + 1) n 1).foldlM (fun sum k => do
      let l ← getAtWithN (MatrixF.of n n L).data n j k
      let xk ← getAtWithN (tabulate (n * m) h) m k i
      .ok (sum + l * xk)) 0 = (.ok 0 : Except Fault K) := by
    rw [counters, turns_one]
    apply foldlM_eq (fun _ => (0 : K))
    intro t ht
    have hk : j + 1 + 1 * t < n := by omega
    rw [getAtWithN_of hj hk hsize, bind_ok, getAtWithN_tabulate hk hi hsize', bind_ok,
      hlower _ hk (by omega), zero_mul, add_zero]
  rw [backwardEntry, hsum, bind_ok, getAtWithN_of hj hi hsize', bind_ok, getAtWithN_of hj hj hsize,
    bind_ok, sub_zero, setAtWithN_tabulate hj hi hsize']

private theorem forwardLoops_tabulate :
    (List.range m).foldlM (fun y i => (List.range n).foldlM (fun y j =>
      forwardEntry (MatrixF.of n m b).data (MatrixF.of n n L).data m n i j y) y)
      (tabulate (n * m) h) =
    .ok (tabulate (n * m) (forwardCell L b m)) := by
  refine foldlM_fill (fun i j => j * m + i) (fun i hi j hj h _ hbefore => ?_) fun t ht => ?_
  · exact forwardEntry_tabulate hsize hsize' hi hj hbefore
  · obtain ⟨j, hj, i, hi, hcell⟩ := exists_index ht
    exact ⟨i, hi, j, hj, hcell⟩

private theorem backwardLoops_tabulate (hlower : ∀ i < n, ∀ j < n, i < j → L i j = 0) :
    (List.range m).foldlM (fun x i => (countdown n).foldlM (fun x j2 =>
      backwardEntry (MatrixF.of n m y).data (MatrixF.of n n L).data m n i j2 x) x)
      (tabulate (n * m) h) =
    .ok (MatrixF.of n m fun j i => y j i / L j j).data := by
  simp only [countdown, List.foldlM_map]
  refine foldlM_fill (fun i t => (n - 1 - t) * m + i) (fun i hi t ht h _ _ => ?_) fun t ht => ?_
  · have hj : n - 1 - t < n := by omega
    rw [backwardEntry_tabulate hsize hsize' hi hj (hlower _ hj), index_div hi, index_mod hi]
  · obtain ⟨j, hj, i, hi, hcell⟩ := exists_index ht
    exact ⟨i, hi, n - 1 - j, by omega, by rwa [Nat.sub_sub_self (by omega)]⟩

end Substitutions

section Results

variable [LinearOrder K] {fresh : ℕ → ℕ → K} {mathfSqrt : K → K} {n m : ℕ} {A b : ℕ → ℕ → K}
  {x : MatrixF K}

/-- What the function leaves in row `j` and column `i` of `x`. -/
def quotient (mathfSqrt : K → K) (A b : ℕ → ℕ → K) (j i : ℕ) : K :=
  forward (factor mathfSqrt A) (fun j => b j i) j / factor mathfSqrt A j j

private theorem matrixfCholeskySolve_of (hsize : n * n < 2 ^ 31) (hsize' : n * m < 2 ^ 31)
    (hpivots : ∀ a < n, 0 < pivot mathfSqrt A a) :
    matrixfCholeskySolve fresh mathfSqrt (MatrixF.of n n A) (MatrixF.of n m b) x =
      .ok (true, MatrixF.of n m (quotient mathfSqrt A b)) := by
  have hforward := forwardLoops_tabulate (b := b) (L := factor mathfSqrt A) (h := fresh 1) hsize
    hsize'
  have hbackward := backwardLoops_tabulate (L := factor mathfSqrt A) (h := fresh 2)
    (y := fun j i => forward (factor mathfSqrt A) (fun j => b j i) j) hsize hsize'
    fun i _ j _ hij => factor_of_gt hij
  rw [matrixfCholeskySolve]
  change (if n ≠ n then _ else (matrixfCholeskyDecomposition (fresh 0) mathfSqrt
    (MatrixF.of n n A) matrixNull >>= _)) = _
  rw [if_neg (not_not.mpr rfl), decomposition_of_pivots hsize hpivots, bind_ok]
  change (if true = false then _ else (matrixfCreate (fresh 1) n m >>= _)) = _
  rw [if_neg (by decide), matrixfCreate_ok hsize', bind_ok]
  change ((List.range m).foldlM (fun y i => (List.range n).foldlM (fun y j =>
    forwardEntry (MatrixF.of n m b).data (MatrixF.of n n (factor mathfSqrt A)).data m n i j y) y)
    (tabulate (n * m) (fresh 1)) >>= _) = _
  rw [hforward, bind_ok]
  change (matrixfResize (fresh 2) x n m >>= _) = _
  rw [matrixfResize_ok hsize', bind_ok, matrixfTranspose_of_square hsize, bind_ok]
  exact congrArg (· >>= _) hbackward

/-- The function returns `true`, and leaves what solves the system for every column of the
right-hand side. -/
def Solves (mathfSqrt : K → K) (n m : ℕ) (A b : ℕ → ℕ → K) : Prop :=
  ∀ (fresh : ℕ → ℕ → K) (x : MatrixF K), ∃ X,
    matrixfCholeskySolve fresh mathfSqrt (MatrixF.of n n A) (MatrixF.of n m b) x =
      .ok (true, MatrixF.of n m X) ∧
    ∀ i < n, ∀ c < m, ∑ k ∈ range n, A i k * X k c = b i c

section Definite

variable (hsqrt : IsRoot mathfSqrt) (hsize : n * n < 2 ^ 31) (hsize' : n * m < 2 ^ 31)
  (hsymm : Symmetric n A) (hdef : PositiveDefinite n A)

include hsqrt hsize hsize' hsymm hdef

private theorem solves_iff_quotient : Solves mathfSqrt n m A b ↔ ∀ c < m,
    IsSolution n A (fun i => b i c) fun k => quotient mathfSqrt A b k c := by
  have hpivots := pivot_pos hsqrt hsymm hdef
  constructor
  · intro h c hc i hi
    obtain ⟨X, hrun, hX⟩ := h (fun _ _ => 0) matrixNull
    rw [matrixfCholeskySolve_of hsize hsize' hpivots] at hrun
    have hquotient := MatrixF.of_inj.mp (Prod.mk.inj (Except.ok.inj hrun)).2
    change ∑ k ∈ range n, A i k * quotient mathfSqrt A b k c = b i c
    rw [← hX i hi c hc]
    apply Finset.sum_congr rfl
    intro k hk
    rw [hquotient k (Finset.mem_range.mp hk) c hc]
  · intro h fresh x
    exact ⟨_, matrixfCholeskySolve_of hsize hsize' hpivots, fun i hi c hc => h c hc i hi⟩

omit hsize hsize' in
private theorem exists_quotient {i c : ℕ} (hi : i < n) :
    ∃ w, IsSolution (i + 1) A (fun i => b i c) w ∧ w i = quotient mathfSqrt A b i c :=
  exists_isSolution hsqrt hsymm (pivot_pos hsqrt hsymm hdef) hi

private theorem sequential_of_solves (h : Solves mathfSqrt n m A b) :
    ∀ c < m, Sequential n A fun i => b i c := by
  rw [solves_iff_quotient hsqrt hsize hsize' hsymm hdef] at h
  exact fun c hc => ⟨_, h c hc, fun i hi => exists_quotient hsqrt hsymm hdef hi⟩

private theorem solves_of_sequential (h : ∀ c < m, Sequential n A fun i => b i c) :
    Solves mathfSqrt n m A b := by
  rw [solves_iff_quotient hsqrt hsize hsize' hsymm hdef]
  intro c hc i hi
  obtain ⟨v, hv, hleading⟩ := h c hc
  have hquotient (k : ℕ) (hk : k < n) : quotient mathfSqrt A b k c = v k := by
    obtain ⟨w, hw, hwk⟩ := hleading k hk
    obtain ⟨u, hu, huk⟩ := exists_quotient (b := b) (c := c) hsqrt hsymm hdef hk
    rw [← hwk, ← huk]
    exact (hdef.mono hk).unique hu hw k (Nat.lt_succ_self k)
  change ∑ k ∈ range n, A i k * quotient mathfSqrt A b k c = _
  rw [← hv i hi]
  apply Finset.sum_congr rfl
  intro k hk
  rw [hquotient k (Finset.mem_range.mp hk)]

theorem forall_solves_iff (hm : 1 ≤ m) :
    (∀ b, Solves mathfSqrt n m A b) ↔ ∀ i < n, ∀ j < n, i ≠ j → A i j = 0 := by
  rw [← forall_sequential_iff hdef hsymm]
  constructor
  · intro h b
    exact sequential_of_solves hsqrt hsize hsize' hsymm hdef (h fun i _ => b i) 0 hm
  · intro h b
    exact solves_of_sequential hsqrt hsize hsize' hsymm hdef fun c _ => h fun i => b i c

omit hsize hsize' in
private theorem Solves.sizes (h : Solves mathfSqrt n m A b) : n * n < 2 ^ 31 ∧ n * m < 2 ^ 31 := by
  obtain ⟨X, hrun, -⟩ := h (fun _ _ => 0) matrixNull
  rw [matrixfCholeskySolve] at hrun
  change (if n ≠ n then _ else (matrixfCholeskyDecomposition (fun _ => 0) mathfSqrt
    (MatrixF.of n n A) matrixNull >>= _)) = _ at hrun
  rw [if_neg (not_not.mpr rfl)] at hrun
  have hsize : n * n < 2 ^ 31 := by
    by_contra hnot
    rw [decomposition_error hnot, bind_error] at hrun
    cases hrun
  refine ⟨hsize, ?_⟩
  by_contra hnot
  rw [decomposition_of_pivots hsize (pivot_pos hsqrt hsymm hdef), bind_ok] at hrun
  change (if true = false then _ else (matrixfCreate (fun _ => 0) n m >>= _)) = _ at hrun
  rw [if_neg (by decide), matrixfCreate_error hnot, bind_error] at hrun
  cases hrun

omit hsize hsize' in
/-- The system is solved where every unknown is what the equations up to its own give for it. -/
theorem solves_iff : Solves mathfSqrt n m A b ↔
    (∀ c < m, Sequential n A fun i => b i c) ∧ n * n < 2 ^ 31 ∧ n * m < 2 ^ 31 := by
  constructor
  · intro h
    obtain ⟨hsize, hsize'⟩ := Solves.sizes hsqrt hsymm hdef h
    exact ⟨sequential_of_solves hsqrt hsize hsize' hsymm hdef h, hsize, hsize'⟩
  · rintro ⟨h, hsize, hsize'⟩
    exact solves_of_sequential hsqrt hsize hsize' hsymm hdef h

end Definite

section Two

/-- The matrix with the rows `a`, `b` and `b`, `b`. -/
def two (a b : ℝ) (i j : ℕ) : ℝ := if i + j = 0 then a else b

private theorem symmetric_two (a b : ℝ) : Symmetric 2 (two a b) := by
  intro i _ j _
  rw [two, two, Nat.add_comm]

private theorem positiveDefinite_two : PositiveDefinite 2 (two 4 2) := by
  rintro v ⟨i, hi, hv⟩
  have hform : form 2 (two 4 2) v = 2 * v 0 ^ 2 + 2 * (v 0 + v 1) ^ 2 := by
    simp [form, two, Finset.sum_range_succ]
    ring
  have hform' : form 2 (two 4 2) v = (2 * v 0 + v 1) ^ 2 + v 1 ^ 2 := by
    rw [hform]
    ring
  interval_cases i
  · rw [hform]
    positivity
  · rw [hform']
    positivity

theorem solves_two : Solves Real.sqrt 2 1 (two 4 2) (fun i _ => two 4 2 i 0) := by
  refine (solves_iff isRoot_sqrt (symmetric_two 4 2) positiveDefinite_two).mpr
    ⟨fun c _ => ⟨fun k => if k = 0 then 1 else 0, ?_, ?_⟩, by decide, by decide⟩
  · intro i hi
    interval_cases i <;> simp [two]
  · intro i hi
    refine ⟨fun k => if k = 0 then 1 else 0, fun a ha => ?_, rfl⟩
    interval_cases i <;> interval_cases a <;> simp [two]

/-- The right-hand side is 2 in both rows, and the first of them alone gives a half and not
zero. -/
theorem matrixfCholeskySolve_wrong :
    ¬ ∀ (n m : ℕ) (A b : ℕ → ℕ → ℝ), 1 ≤ n → 1 ≤ m → n * n < 2 ^ 31 → n * m < 2 ^ 31 →
      Symmetric n A → PositiveDefinite n A → Solves Real.sqrt n m A b := by
  intro h
  have hsolves := h 2 1 _ (fun _ _ => 2) (by decide) (by decide) (by decide) (by decide)
    (symmetric_two 4 2) positiveDefinite_two
  obtain ⟨v, hv, hleading⟩ := sequential_of_solves isRoot_sqrt (by decide) (by decide)
    (symmetric_two 4 2) positiveDefinite_two hsolves 0 Nat.one_pos
  obtain ⟨w, hw, hwv⟩ := hleading 0 (by decide)
  have hfirst := hw 0 Nat.one_pos
  have hrow := hv 0 (by decide)
  have hrow' := hv 1 (by decide)
  norm_num [two, Finset.sum_range_succ] at hfirst hrow hrow'
  linarith

end Two

end Results

end Libromano.Linalg
