/- What the two transpositions make of a matrix. The one in place swaps every two elements of a
   square matrix twice, and it leaves the number of rows and columns of any matrix as it was; the
   other one mixes up the lengths of the rows it reads and writes. -/

import Libromano.Linalg.Matrix

set_option autoImplicit false
set_option relaxedAutoImplicit false

namespace Libromano.Linalg

open Floats
open Foundation.Loops
open Foundation.RowMajor

variable {R : Type} {m n : ℕ} {f : ℕ → ℕ → R} {fresh : ℕ → R}

section From

/-- The cells of the result, read from the cells that the source reads them from. -/
def misread (m n : ℕ) (f : ℕ → ℕ → R) (t : ℕ) : R :=
  f ((t % n * m + t / n) / n) ((t % n * m + t / n) % n)

theorem matrixfTransposeFrom_of (hsize : m * n < 2 ^ 31) :
    matrixfTransposeFrom fresh (MatrixF.of m n f) =
      .ok { data := tabulate (n * m) (misread m n f), N := m, M := n } := by
  have hcomm : n * m = m * n := Nat.mul_comm n m
  have hfill : (List.range m).foldlM (fun data i => (List.range n).foldlM (fun data j => do
      let x ← getAtWithN (MatrixF.of m n f).data m j i
      setAtWithN data n x i j) data) (tabulate (m * n) fresh) =
        .ok (tabulate (m * n) (misread m n f)) := by
    refine foldlM_fill (fun i j => i * n + j) (fun i hi j hj h _ _ => ?_) fun t => exists_index
    have hread : getAtWithN (MatrixF.of m n f).data m j i = .ok (misread m n f (i * n + j)) := by
      rw [MatrixF.of, ← hcomm, getAtWithN_tabulate hj hi (hcomm ▸ hsize), misread, index_div hj,
        index_mod hj]
    rw [hread, bind_ok, setAtWithN_tabulate hi hj hsize]
  rw [matrixfTransposeFrom]
  change (matrixfCreate fresh n m >>= _) = _
  rw [matrixfCreate_ok (hcomm ▸ hsize), bind_ok]
  change ((List.range m).foldlM _ (tabulate (n * m) fresh) >>= _) = _
  rw [hcomm]
  exact congrArg (· >>= _) hfill

end From

section InPlace

private theorem matrixfTranspose_of_ne (hne : m ≠ n) (hsize : m * n < 2 ^ 31) :
    matrixfTranspose fresh (MatrixF.of m n f) =
      .ok { data := tabulate (n * m) fun t => f (t % m) (t / m), N := n, M := m } := by
  have hcomm : n * m = m * n := Nat.mul_comm n m
  have hfill : (List.range m).foldlM (fun data i => (List.range n).foldlM (fun data j => do
      let x ← getAtWithN (MatrixF.of m n f).data n i j
      setAtWithN data m x j i) data) (tabulate (n * m) fresh) =
        .ok (tabulate (n * m) fun t => f (t % m) (t / m)) := by
    refine foldlM_fill (fun i j => j * m + i) (fun i hi j hj h _ _ => ?_) fun t ht => ?_
    · rw [getAtWithN_of hi hj hsize, bind_ok, setAtWithN_tabulate hj hi (hcomm ▸ hsize),
        index_div hi, index_mod hi]
    · obtain ⟨j, hj, i, hi, hcell⟩ := exists_index ht
      exact ⟨i, hi, j, hj, hcell⟩
  have halloc : memAlignedAlloc fresh (n * m) = .ok (tabulate (n * m) fresh) :=
    if_pos (hcomm ▸ hsize)
  rw [matrixfTranspose]
  change (if m = n then _ else (memAlignedAlloc fresh (n * m) >>= _)) = _
  rw [if_neg hne, halloc, bind_ok]
  exact congrArg (· >>= _) hfill

/-- The loops have passed the cell of row `a` and column `b`. -/
def Passed (i j a b : ℕ) : Prop := a < i ∨ a = i ∧ b < j

instance (i j a b : ℕ) : Decidable (Passed i j a b) := inferInstanceAs (Decidable (_ ∨ _))

/-- An element is where it was unless the loops have passed just one of its two cells. -/
def swapped (f : ℕ → ℕ → R) (i j a b : ℕ) : R :=
  if Passed i j a b ↔ Passed i j b a then f a b else f b a

private theorem swapped_succ (i j a b : ℕ) :
    swapped f i (j + 1) a b =
      if a = j ∧ b = i then swapped f i j i j
      else if a = i ∧ b = j then swapped f i j j i else swapped f i j a b := by
  grind [swapped, Passed]

private theorem swapped_row {i a b : ℕ} (ha : a < m) (hb : b < m) :
    swapped f i m a b = swapped f (i + 1) 0 a b := by
  grind [swapped, Passed]

private theorem swapFloat_tabulate {count a b : ℕ} {h : ℕ → R} (ha : a < count) (hb : b < count) :
    swapFloat (tabulate count h) a b =
      .ok (tabulate count (Function.update (Function.update h a (h b)) b (h a))) := by
  rw [swapFloat, floatAt_tabulate ha, bind_ok, floatAt_tabulate hb, bind_ok,
    setFloat_tabulate ha, bind_ok, set_tabulate, setFloat_tabulate hb, set_tabulate]

private theorem swapFloat_swapped {i j : ℕ} (hi : i < m) (hj : j < m) (hsize : m * m < 2 ^ 31) :
    swapFloat (MatrixF.of m m (swapped f i j)).data ((i * m + j) % 2 ^ 32)
        ((j * m + i) % 2 ^ 32) =
      .ok (MatrixF.of m m (swapped f i (j + 1))).data := by
  rw [index_mod_word hi hj hsize, index_mod_word hj hi hsize, MatrixF.of, MatrixF.of]
  dsimp only
  rw [swapFloat_tabulate (index_lt hi hj) (index_lt hj hi)]
  congr 1
  apply tabulate_congr
  intro t ht
  obtain ⟨a, ha, b, hb, rfl⟩ := exists_index ht
  simp only [Function.update_apply, index_div hi, index_div hj, index_div hb, index_mod hi,
    index_mod hj, index_mod hb, index_inj hb hi, index_inj hb hj, swapped_succ]

theorem matrixfTranspose_of_square (hsize : m * m < 2 ^ 31) :
    matrixfTranspose fresh (MatrixF.of m m f) = .ok (MatrixF.of m m f) := by
  have hrow (i : ℕ) (hi : i < m) :
      (List.range m).foldlM (fun data j => swapFloat data ((i * m + j) % 2 ^ 32)
        ((j * m + i) % 2 ^ 32)) (MatrixF.of m m (swapped f i 0)).data =
      .ok (MatrixF.of m m (swapped f (i + 1) 0)).data := by
    rw [← MatrixF.of_congr fun a ha b hb => swapped_row ha hb]
    exact foldlM_range_eq (fun j => (MatrixF.of m m (swapped f i j)).data)
      fun j hj => swapFloat_swapped hi hj hsize
  have hloops : (List.range m).foldlM (fun data i => (List.range m).foldlM (fun data j =>
      swapFloat data ((i * m + j) % 2 ^ 32) ((j * m + i) % 2 ^ 32)) data)
        (MatrixF.of m m (swapped f 0 0)).data = .ok (MatrixF.of m m (swapped f m 0)).data :=
    foldlM_range_eq (fun i => (MatrixF.of m m (swapped f i 0)).data) hrow
  have hstart : swapped f 0 0 = f := by
    ext a b
    grind [swapped, Passed]
  have hend : MatrixF.of m m (swapped f m 0) = MatrixF.of m m f :=
    MatrixF.of_congr fun a ha b hb => by grind [swapped, Passed]
  rw [hstart, hend] at hloops
  rw [matrixfTranspose]
  change (if m = m then _ else _) = _
  rw [if_pos rfl]
  exact congrArg (· >>= _) hloops

end InPlace

section Results

/-- Both transpositions return the `n` by `m` matrix with the elements of the columns as rows,
and the one in place returns the matrix itself when it is applied twice. -/
def Transposes (fresh : ℕ → R) (m n : ℕ) (f : ℕ → ℕ → R) : Prop :=
  matrixfTransposeFrom fresh (MatrixF.of m n f) = .ok (MatrixF.of n m fun j i => f i j) ∧
    matrixfTranspose fresh (MatrixF.of m n f) = .ok (MatrixF.of n m fun j i => f i j) ∧
    matrixfTranspose fresh (MatrixF.of m n f) >>= matrixfTranspose fresh = .ok (MatrixF.of m n f)

private theorem misread_square : MatrixF.of m m (fun j i => f i j) =
    { data := tabulate (m * m) (misread m m f), N := m, M := m } := by
  rw [MatrixF.of]
  congr 1
  apply tabulate_congr
  intro t ht
  obtain ⟨i, hi, j, hj, rfl⟩ := exists_index ht
  rw [misread, index_div hj, index_mod hj, index_div hi, index_mod hi]

private theorem Transposes.size (h : Transposes fresh m n f) : m * n < 2 ^ 31 := by
  by_contra hsize
  have hfrom := h.1
  rw [matrixfTransposeFrom] at hfrom
  change (matrixfCreate fresh n m >>= _) = _ at hfrom
  rw [matrixfCreate_error (Nat.mul_comm n m ▸ hsize), bind_error] at hfrom
  cases hfrom

/-- Only a matrix that is its own transpose is transposed. -/
theorem transposes_iff :
    Transposes fresh m n f ↔ m = n ∧ (∀ i < m, ∀ j < n, f i j = f j i) ∧ m * n < 2 ^ 31 := by
  constructor
  · intro h
    have hsize := h.size
    obtain ⟨-, htranspose, -⟩ := h
    have hmn : m = n := by
      by_contra hne
      rw [matrixfTranspose_of_ne hne hsize] at htranspose
      exact hne (congrArg MatrixF.M (Except.ok.inj htranspose))
    subst hmn
    rw [matrixfTranspose_of_square hsize] at htranspose
    exact ⟨rfl, MatrixF.of_inj.mp (Except.ok.inj htranspose), hsize⟩
  · rintro ⟨rfl, hsymm, hsize⟩
    have hself : MatrixF.of m m (fun j i => f i j) = MatrixF.of m m f :=
      MatrixF.of_congr fun i hi j hj => (hsymm i hi j hj).symm
    refine ⟨?_, ?_, ?_⟩
    · rw [matrixfTransposeFrom_of hsize, misread_square]
    · rw [matrixfTranspose_of_square hsize, hself]
    · rw [matrixfTranspose_of_square hsize, bind_ok, matrixfTranspose_of_square hsize]

/-- A matrix of two rows and three columns keeps two rows and three columns. -/
theorem matrixfTranspose_two_three :
    ¬ ∀ (fresh : ℕ → ℕ) (m n : ℕ) (f : ℕ → ℕ → ℕ), 1 ≤ m → 1 ≤ n → m * n < 2 ^ 31 →
      Transposes fresh m n f := by
  intro h
  have htranspose := (h (fun _ => 0) 2 3 (fun i j => 10 * i + j) (by decide) (by decide)
    (by decide)).2.1
  exact absurd htranspose (by decide)

end Results

end Libromano.Linalg
