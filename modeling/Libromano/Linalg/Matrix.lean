/- The matrices of `linalg32.h`, which are stored row by row, and their transposition. -/

import Libromano.Floats
import Libromano.Foundation.RowMajor

set_option autoImplicit false
set_option relaxedAutoImplicit false

namespace Libromano.Linalg

open Floats
open Foundation.RowMajor

variable {R : Type}

/-- A null pointer has no elements. -/
structure MatrixF (R : Type) where
  data : List R
  N : ℕ
  M : ℕ
  deriving DecidableEq

section Functions

/-- `GET_AT_WITH_N`, with an index of 32 bits. -/
def getAtWithN (data : List R) (N i j : ℕ) : Except Fault R := floatAt data ((i * N + j) % 2 ^ 32)

def setAtWithN (data : List R) (N : ℕ) (value : R) (i j : ℕ) : Except Fault (List R) :=
  setFloat data ((i * N + j) % 2 ^ 32) value

def swapFloat (data : List R) (f1 f2 : ℕ) : Except Fault (List R) := do
  let tmp ← floatAt data f1
  let value ← floatAt data f2
  let data ← setFloat data f1 value
  setFloat data f2 tmp

/-- A block for `count` floats, which holds what `fresh` says. The count is an `int`, and what
does not fit into it is not allocated. -/
def memAlignedAlloc (fresh : ℕ → R) (count : ℕ) : Except Fault (List R) :=
  if count < 2 ^ 31 then .ok (tabulate count fresh) else .error .outOfMemory

def matrixNull : MatrixF R := { data := [], N := 0, M := 0 }

def matrixfCreate (fresh : ℕ → R) (M N : ℕ) : Except Fault (MatrixF R) := do
  let data ← memAlignedAlloc fresh (M * N)
  .ok { data, M, N }

/-- What `A` held before is freed. -/
def matrixfResize (fresh : ℕ → R) (_A : MatrixF R) (M N : ℕ) : Except Fault (MatrixF R) := do
  let data ← memAlignedAlloc fresh (M * N)
  .ok { data, M, N }

def matrixfZero [Zero R] (A : MatrixF R) : Except Fault (MatrixF R) :=
  let count := A.M * A.N % 2 ^ 32
  if count ≤ A.data.length then
    .ok { A with data := List.replicate count 0 ++ A.data.drop count }
  else .error .outOfBounds

def matrixfTranspose (fresh : ℕ → R) (A : MatrixF R) : Except Fault (MatrixF R) := do
  let M := A.M
  let N := A.N
  if M = N then
    let data ← (List.range M).foldlM (fun data i => (List.range N).foldlM (fun data j =>
      swapFloat data ((i * M + j) % 2 ^ 32) ((j * M + i) % 2 ^ 32)) data) A.data
    .ok { data, M, N }
  else
    let newData ← memAlignedAlloc fresh (N * M)
    let data ← (List.range M).foldlM (fun newData i => (List.range N).foldlM (fun newData j => do
      let x ← getAtWithN A.data N i j
      setAtWithN newData M x j i) newData) newData
    .ok { data, M, N }

def matrixfTransposeFrom (fresh : ℕ → R) (A : MatrixF R) : Except Fault (MatrixF R) := do
  let M := A.M
  let N := A.N
  let res ← matrixfCreate fresh N M
  let data ← (List.range M).foldlM (fun data i => (List.range N).foldlM (fun data j => do
    let x ← getAtWithN A.data M j i
    setAtWithN data N x i j) data) res.data
  .ok { res with data }

end Functions

section Storage

/-- The `m` by `n` matrix with the elements of `f`. -/
def MatrixF.of (m n : ℕ) (f : ℕ → ℕ → R) : MatrixF R :=
  { data := tabulate (m * n) fun t => f (t / n) (t % n), N := n, M := m }

variable {m n i j count t : ℕ} {f g : ℕ → ℕ → R} {h fresh : ℕ → R}

theorem MatrixF.of_congr (heq : ∀ i < m, ∀ j < n, f i j = g i j) :
    MatrixF.of m n f = MatrixF.of m n g := by
  rw [MatrixF.of, MatrixF.of]
  congr 1
  apply tabulate_congr
  intro t ht
  obtain ⟨i, hi, j, hj, rfl⟩ := exists_index ht
  rw [index_div hj, index_mod hj, heq i hi j hj]

theorem MatrixF.of_inj : MatrixF.of m n f = MatrixF.of m n g ↔ ∀ i < m, ∀ j < n, f i j = g i j := by
  refine ⟨fun heq i hi j hj => ?_, MatrixF.of_congr⟩
  have hcell := tabulate_inj.mp (congrArg MatrixF.data heq) (i * n + j) (index_lt hi hj)
  rwa [index_div hj, index_mod hj] at hcell

theorem matrixfCreate_ok (hsize : m * n < 2 ^ 31) :
    matrixfCreate fresh m n = .ok { data := tabulate (m * n) fresh, N := n, M := m } := by
  rw [matrixfCreate, memAlignedAlloc, if_pos hsize, bind_ok]

theorem matrixfResize_ok (hsize : m * n < 2 ^ 31) {A : MatrixF R} :
    matrixfResize fresh A m n = .ok { data := tabulate (m * n) fresh, N := n, M := m } := by
  rw [matrixfResize, memAlignedAlloc, if_pos hsize, bind_ok]

theorem matrixfCreate_error (hsize : ¬ m * n < 2 ^ 31) :
    matrixfCreate fresh m n = .error .outOfMemory := by
  rw [matrixfCreate, memAlignedAlloc, if_neg hsize, bind_error]

theorem matrixfResize_error (hsize : ¬ m * n < 2 ^ 31) {A : MatrixF R} :
    matrixfResize fresh A m n = .error .outOfMemory := by
  rw [matrixfResize, memAlignedAlloc, if_neg hsize, bind_error]

theorem floatAt_tabulate (ht : t < count) : floatAt (tabulate count h) t = .ok (h t) := by
  rw [floatAt_of_lt (length_tabulate.symm ▸ ht), getElem_tabulate]

theorem setFloat_tabulate (ht : t < count) {v : R} :
    setFloat (tabulate count h) t v = .ok ((tabulate count h).set t v) :=
  if_pos (length_tabulate.symm ▸ ht)

theorem index_mod_word (hi : i < m) (hj : j < n) (hsize : m * n < 2 ^ 31) :
    (i * n + j) % 2 ^ 32 = i * n + j :=
  Nat.mod_eq_of_lt (Nat.lt_trans (index_lt hi hj) (Nat.lt_trans hsize (by decide)))

theorem getAtWithN_tabulate (hi : i < m) (hj : j < n) (hsize : m * n < 2 ^ 31) :
    getAtWithN (tabulate (m * n) h) n i j = .ok (h (i * n + j)) := by
  rw [getAtWithN, index_mod_word hi hj hsize, floatAt_tabulate (index_lt hi hj)]

theorem getAtWithN_of (hi : i < m) (hj : j < n) (hsize : m * n < 2 ^ 31) :
    getAtWithN (MatrixF.of m n f).data n i j = .ok (f i j) := by
  rw [MatrixF.of, getAtWithN_tabulate hi hj hsize, index_div hj, index_mod hj]

theorem setAtWithN_tabulate (hi : i < m) (hj : j < n) (hsize : m * n < 2 ^ 31) {v : R} :
    setAtWithN (tabulate (m * n) h) n v i j = .ok ((tabulate (m * n) h).set (i * n + j) v) := by
  rw [setAtWithN, index_mod_word hi hj hsize, setFloat_tabulate (index_lt hi hj)]

theorem matrixfZero_tabulate [Zero R] (hsize : m * n < 2 ^ 31) :
    matrixfZero { data := tabulate (m * n) h, N := n, M := m } =
      .ok (MatrixF.of m n fun _ _ => (0 : R)) := by
  have hword : m * n % 2 ^ 32 = m * n := Nat.mod_eq_of_lt (Nat.lt_trans hsize (by decide))
  rw [matrixfZero]
  dsimp only
  rw [hword, length_tabulate, if_pos (Nat.le_refl _), List.drop_eq_nil_of_le
    (Nat.le_of_eq length_tabulate), List.append_nil, MatrixF.of, tabulate, List.map_const',
    List.length_range]

end Storage

end Libromano.Linalg
