/- The kernels of the product of two matrices, the second of which they take transposed: one over
   single elements, and those over blocks of four rows and of `w` columns. The rows and columns
   that fill no block come last. -/

import Libromano.Linalg.Matrix
import Libromano.Simd
import Mathlib.Algebra.Ring.Defs

set_option autoImplicit false
set_option relaxedAutoImplicit false

namespace Libromano.Linalg

open Floats Simd
open Foundation.Loops
open Foundation.Packed
open Foundation.RowMajor
open Finset (range)

variable {R : Type}

section Kernels

/-- The array that a kernel writes, and the indices that it has written. -/
structure Output (R : Type) where
  data : List R
  written : List ℕ

def Output.setAt (C : Output R) (N : ℕ) (value : R) (i j : ℕ) : Except Fault (Output R) := do
  let data ← setAtWithN C.data N value i j
  .ok { data, written := C.written ++ [(i * N + j) % 2 ^ 32] }

/-- `_mm_loadu_ps(&A[i * N + k])`, and `_mm256_loadu_ps(&A[i * N + k])`. -/
def loaduAtWithN (w : ℕ) (data : List R) (N i k : ℕ) : Except Fault (Fin w → R) :=
  loaduPs w data ((i * N + k) % 2 ^ 32)

variable [Semiring R]

def matrixfMulScalar (A B : List R) (C : Output R) (M N P : ℕ) : Except Fault (Output R) :=
  (List.range M).foldlM (fun C i => (List.range P).foldlM (fun C j => do
    let sum ← (List.range N).foldlM (fun sum k => do
      let a ← getAtWithN A N i k
      let b ← getAtWithN B N j k
      .ok (sum + a * b)) 0
    C.setAt P sum i j) C) C

/-- The sums over the blocks of the row `i`. -/
def blockSum (w : ℕ) (A B : List R) (N nBlocks i j : ℕ) : Except Fault (Fin w → R) :=
  (counters 0 nBlocks w).foldlM (fun sum1 k => do
    let a1 ← loaduAtWithN w A N i k
    let b ← loaduAtWithN w B N j k
    .ok (fmaddPs a1 b sum1)) setzeroPs

/-- The columns of the row `i` that are left. -/
def tailSum (A B : List R) (N nBlocks i j : ℕ) (sum1 : R) : Except Fault R :=
  (counters nBlocks N 1).foldlM (fun sum1 k => do
    let a1 ← getAtWithN A N i k
    let b1 ← getAtWithN B N j k
    .ok (sum1 + a1 * b1)) sum1

def blockSums (w : ℕ) (A B : List R) (N nBlocks i j : ℕ) : Except Fault (Fin 4 → Fin w → R) :=
  (counters 0 nBlocks w).foldlM (fun sum k => do
    let a1 ← loaduAtWithN w A N i k
    let a2 ← loaduAtWithN w A N (i + 1) k
    let a3 ← loaduAtWithN w A N (i + 2) k
    let a4 ← loaduAtWithN w A N (i + 3) k
    let b ← loaduAtWithN w B N j k
    .ok ![fmaddPs a1 b (sum 0), fmaddPs a2 b (sum 1), fmaddPs a3 b (sum 2), fmaddPs a4 b (sum 3)])
    ![setzeroPs, setzeroPs, setzeroPs, setzeroPs]

def tailSums (A B : List R) (N nBlocks i j : ℕ) (sum : Fin 4 → R) : Except Fault (Fin 4 → R) :=
  (counters nBlocks N 1).foldlM (fun sum k => do
    let a1 ← getAtWithN A N i k
    let b1 ← getAtWithN B N j k
    let a2 ← getAtWithN A N (i + 1) k
    let b2 ← getAtWithN B N j k
    let a3 ← getAtWithN A N (i + 2) k
    let b3 ← getAtWithN B N j k
    let a4 ← getAtWithN A N (i + 3) k
    let b4 ← getAtWithN B N j k
    .ok ![sum 0 + a1 * b1, sum 1 + a2 * b2, sum 2 + a3 * b3, sum 3 + a4 * b4]) sum

/-- The elements in column `j` of four rows, with the sum over the lanes of a register. -/
def setFourRows (w : ℕ) (hsum : (Fin w → R) → R) (A B : List R) (N P nBlocks : ℕ)
    (C : Output R) (i j : ℕ) : Except Fault (Output R) := do
  let sums ← blockSums w A B N nBlocks i j
  let sum ← tailSums A B N nBlocks i j
    ![hsum (sums 0), hsum (sums 1), hsum (sums 2), hsum (sums 3)]
  let C ← C.setAt P (sum 0) i j
  let C ← C.setAt P (sum 1) (i + 1) j
  let C ← C.setAt P (sum 2) (i + 2) j
  C.setAt P (sum 3) (i + 3) j

def setRow (w : ℕ) (hsum : (Fin w → R) → R) (A B : List R) (N P nBlocks : ℕ) (C : Output R)
    (i j : ℕ) : Except Fault (Output R) := do
  let sums ← blockSum w A B N nBlocks i j
  let sum1 ← tailSum A B N nBlocks i j (hsum sums)
  C.setAt P sum1 i j

def matrixfMulPacked (w : ℕ) (hsum : (Fin w → R) → R) (A B : List R) (C : Output R)
    (M N P : ℕ) : Except Fault (Output R) := do
  let mBlocks := M - M % 4
  let nBlocks := N - N % w
  let C ← (counters 0 mBlocks 4).foldlM (fun C i => (List.range P).foldlM (fun C j =>
    setFourRows w hsum A B N P nBlocks C i j) C) C
  (counters mBlocks M 1).foldlM (fun C i => (List.range P).foldlM (fun C j =>
    setRow w hsum A B N P nBlocks C i j) C) C

def matrixfMulSse (A B : List R) (C : Output R) (M N P : ℕ) : Except Fault (Output R) :=
  matrixfMulPacked 4 mmHsumPs A B C M N P

def matrixfMulAvx2 (A B : List R) (C : Output R) (M N P : ℕ) : Except Fault (Output R) :=
  matrixfMulPacked 8 mm256HsumPs A B C M N P

end Kernels

section Sums

private theorem loaduAtWithN_tabulate {w m n i k : ℕ} {a : ℕ → R} (hi : i < m) (hk : k + w ≤ n)
    (hw : 0 < w)
    (hsize : m * n < 2 ^ 31) :
    loaduAtWithN w (tabulate (m * n) a) n i k = .ok fun l => a (i * n + k + l) := by
  have hend : i * n + k + w ≤ m * n := by
    have hlast := index_lt hi (show k + w - 1 < n by omega)
    omega
  rw [loaduAtWithN, index_mod_word hi (by omega) hsize, loaduPs,
    dif_pos (by rwa [length_tabulate])]
  congr 1
  ext l
  exact getElem_tabulate _

variable [Semiring R] {w m n p i j : ℕ} {a b : ℕ → R}

/-- The products that the element in row `i` and column `j` is the sum of. -/
def term (a b : ℕ → R) (n i j k : ℕ) : R := a (i * n + k) * b (j * n + k)

def dot (a b : ℕ → R) (n i j : ℕ) : R := ∑ k ∈ range n, term a b n i j k

/-- What a register holds after `t` blocks. -/
def lanes (w : ℕ) (a b : ℕ → R) (n i j t : ℕ) : Fin w → R :=
  fun l => ∑ q ∈ range t, term a b n i j (w * q + l)

private theorem fmaddPs_lanes {t : ℕ} :
    fmaddPs (fun l : Fin w => a (i * n + w * t + l)) (fun l => b (j * n + w * t + l))
      (lanes w a b n i j t) = lanes w a b n i j (t + 1) := by
  ext l
  rw [fmaddPs, lanes, lanes, Finset.sum_range_succ, add_comm, term, Nat.add_assoc, Nat.add_assoc]

section Loops

variable (hi : i < m) (hj : j < p) (ha : m * n < 2 ^ 31) (hb : p * n < 2 ^ 31)

include hi hj ha hb

private theorem scalarSum_tabulate :
    (List.range n).foldlM (fun sum k => do
      let x ← getAtWithN (tabulate (m * n) a) n i k
      let y ← getAtWithN (tabulate (p * n) b) n j k
      .ok (sum + x * y)) 0 = (.ok (dot a b n i j) : Except Fault R) := by
  rw [dot, ← zero_add (∑ k ∈ range n, term a b n i j k)]
  refine foldlM_range_sum (fun k hk sum => ?_) 0
  rw [getAtWithN_tabulate hi hk ha, bind_ok, getAtWithN_tabulate hj hk hb, bind_ok]
  rfl

private theorem blockSum_tabulate (hw : 0 < w) :
    blockSum w (tabulate (m * n) a) (tabulate (p * n) b) n (n / w * w) i j =
      .ok (lanes w a b n i j (n / w)) := by
  have hzero : lanes w a b n i j 0 = setzeroPs := rfl
  rw [blockSum, counters, turns_mul hw, ← hzero]
  apply foldlM_eq (lanes w a b n i j)
  intro t ht
  have hend : 0 + w * t + w ≤ n := by
    rw [Nat.zero_add, ← Nat.mul_succ]
    exact Nat.le_trans (Nat.mul_le_mul_left w ht) (Nat.mul_div_le n w)
  rw [loaduAtWithN_tabulate hi hend hw ha, bind_ok, loaduAtWithN_tabulate hj hend hw hb, bind_ok,
    Nat.zero_add, fmaddPs_lanes]

private theorem tailSum_tabulate (start : ℕ) (hstart : start ≤ n) (sum : R) :
    tailSum (tabulate (m * n) a) (tabulate (p * n) b) n start i j sum =
      .ok (sum + ∑ k ∈ range (n - start), term a b n i j (start + k)) := by
  rw [tailSum, counters, turns_one]
  refine foldlM_sum (fun k hk sum => ?_) sum
  have hlt : start + k < n := by omega
  rw [getAtWithN_tabulate hi hlt ha, bind_ok, getAtWithN_tabulate hj hlt hb, bind_ok]
  rfl

end Loops

section FourRows

/-- What four rows are given, from the row `i` on. -/
def fourRows {α : Type} (v : ℕ → α) (i : ℕ) : Fin 4 → α := ![v i, v (i + 1), v (i + 2), v (i + 3)]

variable (hi : i + 3 < m) (hj : j < p) (ha : m * n < 2 ^ 31) (hb : p * n < 2 ^ 31)

include hi hj ha hb

private theorem blockSums_tabulate (hw : 0 < w) :
    blockSums w (tabulate (m * n) a) (tabulate (p * n) b) n (n / w * w) i j =
      .ok (fourRows (fun r => lanes w a b n r j (n / w)) i) := by
  have hzero : fourRows (fun r => lanes w a b n r j 0) i =
      ![setzeroPs, setzeroPs, setzeroPs, setzeroPs] := rfl
  rw [blockSums, counters, turns_mul hw, ← hzero]
  apply foldlM_eq (fun t => fourRows (fun r => lanes w a b n r j t) i)
  intro t ht
  have hend : 0 + w * t + w ≤ n := by
    rw [Nat.zero_add, ← Nat.mul_succ]
    exact Nat.le_trans (Nat.mul_le_mul_left w ht) (Nat.mul_div_le n w)
  have hload (r : ℕ) (hr : r < m) := loaduAtWithN_tabulate (a := a) hr hend hw ha
  rw [hload i (by omega), bind_ok, hload (i + 1) (by omega), bind_ok, hload (i + 2) (by omega),
    bind_ok, hload (i + 3) hi, bind_ok, loaduAtWithN_tabulate hj hend hw hb, bind_ok,
    Nat.zero_add]
  simp only [fourRows, ← fmaddPs_lanes]
  rfl

private theorem tailSums_tabulate (start : ℕ) (hstart : start ≤ n) (sum : ℕ → R) :
    tailSums (tabulate (m * n) a) (tabulate (p * n) b) n start i j (fourRows sum i) =
      .ok (fourRows (fun r => sum r + ∑ k ∈ range (n - start), term a b n r j (start + k)) i) := by
  have hzero : fourRows (fun r => sum r + ∑ k ∈ range 0, term a b n r j (start + k)) i =
      fourRows sum i := by
    simp only [Finset.sum_range_zero, add_zero]
  rw [tailSums, counters, turns_one, ← hzero]
  refine foldlM_eq
    (fun t => fourRows (fun r => sum r + ∑ k ∈ range t, term a b n r j (start + k)) i)
    fun t ht => ?_
  have hlt : start + 1 * t < n := by omega
  have hread (r : ℕ) (hr : r < m) := getAtWithN_tabulate (h := a) hr hlt ha
  rw [hread i (by omega), bind_ok, getAtWithN_tabulate hj hlt hb, bind_ok,
    hread (i + 1) (by omega), bind_ok, bind_ok, hread (i + 2) (by omega), bind_ok, bind_ok,
    hread (i + 3) hi, bind_ok, bind_ok, Nat.one_mul]
  simp only [fourRows, Finset.sum_range_succ, ← add_assoc (sum _)]
  rfl

end FourRows

private theorem sum_lanes_add_tail :
    ∑ l, lanes w a b n i j (n / w) l +
      ∑ k ∈ range (n - n / w * w), term a b n i j (n / w * w + k) = dot a b n i j := by
  have hlanes : ∑ l, lanes w a b n i j (n / w) l = ∑ k ∈ range (w * (n / w)), term a b n i j k :=
    sum_lanes (term a b n i j) w (n / w)
  rw [hlanes, Nat.mul_comm w, ← Finset.sum_range_add, Nat.add_sub_cancel' (Nat.div_mul_le_self n w),
    dot]

end Sums

section Outputs

/-- The array has been written at the indices of `log`, as often as they are in it, with the
values of `value`. -/
structure Fills (value : ℕ → R) (count : ℕ) (log : List ℕ) (C : Output R) : Prop where
  length : C.data.length = count
  written : C.written.Perm log
  values : ∀ t ∈ log, C.data[t]? = some (value t)

variable {value : ℕ → R} {count m p i j : ℕ} {log log' : List ℕ} {C : Output R}

private theorem Fills.perm (h : Fills value count log C) (hperm : log.Perm log') :
    Fills value count log' C where
  length := h.length
  written := h.written.trans hperm
  values t ht := h.values t (hperm.mem_iff.mpr ht)

private theorem Fills.setAt (h : Fills value (m * p) log C) (hi : i < m) (hj : j < p)
    (hsize : m * p < 2 ^ 31) : ∃ C', C.setAt p (value (i * p + j)) i j = .ok C' ∧
      Fills value (m * p) (log ++ [i * p + j]) C' := by
  have hlt : i * p + j < C.data.length := h.length ▸ index_lt hi hj
  refine ⟨⟨C.data.set (i * p + j) (value (i * p + j)), C.written ++ [i * p + j]⟩, ?_, ?_⟩
  · rw [Output.setAt, setAtWithN, index_mod_word hi hj hsize, setFloat, if_pos hlt, bind_ok]
  · refine ⟨(List.length_set ..).trans h.length, h.written.append_right _, fun t ht => ?_⟩
    dsimp only
    rw [List.getElem?_set]
    split_ifs with heq
    · rw [heq]
    · rcases List.mem_append.mp ht with hold | hnew
      · exact h.values t hold
      · exact absurd (List.mem_singleton.mp hnew).symm heq

theorem Fills.data_eq (h : Fills value count (List.range count) C) :
    C.data = tabulate count value := by
  apply List.ext_getElem?
  intro t
  by_cases ht : t < count
  · rw [h.values t (List.mem_range.mpr ht), List.getElem?_eq_getElem (by rwa [length_tabulate]),
      getElem_tabulate]
  · rw [List.getElem?_eq_none (h.length ▸ Nat.le_of_not_lt ht),
      List.getElem?_eq_none (length_tabulate ▸ Nat.le_of_not_lt ht)]

/-- What has been written before the row `i`, and `j` columns of `r` rows from there on. -/
def cells (p i r j : ℕ) : List ℕ :=
  List.range (i * p) ++ (List.range r).flatMap fun q => List.range' ((i + q) * p) j

private theorem cells_zero {r : ℕ} : cells p i r 0 = List.range (i * p) := by
  simp [cells]

private theorem cells_succ {r : ℕ} :
    (cells p i r j ++ (List.range r).map fun q => (i + q) * p + j).Perm (cells p i r (j + 1)) := by
  rw [cells, cells, List.append_assoc]
  refine List.Perm.append_left _ ?_
  simp only [List.range'_1_concat, List.map_eq_flatMap]
  exact List.flatMap_append_perm _ _ _

private theorem cells_self {r : ℕ} : cells p i r p = List.range ((i + r) * p) := by
  induction r with
  | zero => simp [cells]
  | succ r ih =>
    have hrow : (List.range (r + 1)).flatMap (fun q => List.range' ((i + q) * p) p) =
        (List.range r).flatMap (fun q => List.range' ((i + q) * p) p) ++
          List.range' ((i + r) * p) p := by
      rw [List.range_succ, List.flatMap_append, List.flatMap_singleton]
    rw [cells, hrow, ← List.append_assoc, ← cells, ih, ← Nat.add_assoc, Nat.succ_mul,
      List.range_eq_range', List.range_eq_range']
    nth_rewrite 2 [← Nat.zero_add ((i + r) * p)]
    exact List.range'_append_1

private theorem exists_rows {f : Output R → ℕ → Except Fault (Output R)} (r : ℕ)
    (hstep : ∀ j < p, ∀ log C, Fills value count log C → ∃ C', f C j = .ok C' ∧
      Fills value count (log ++ (List.range r).map fun q => (i + q) * p + j) C')
    (h : Fills value count (List.range (i * p)) C) :
    ∃ C', (List.range p).foldlM f C = .ok C' ∧
      Fills value count (List.range ((i + r) * p)) C' := by
  rw [← cells_self]
  refine exists_foldlM_range (fun j => Fills value count (cells p i r j)) (fun j C hj hC => ?_)
    (cells_zero ▸ h)
  obtain ⟨C', hC', hfills⟩ := hstep j hj _ C hC
  exact ⟨C', hC', hfills.perm cells_succ⟩

end Outputs

section Products

variable [Semiring R] {w m n p i j : ℕ} {a b : ℕ → R} {hsum : (Fin w → R) → R} {C : Output R}

def product (a b : ℕ → R) (n p t : ℕ) : R := dot a b n (t / p) (t % p)

private theorem product_index (hj : j < p) : product a b n p (i * p + j) = dot a b n i j := by
  rw [product, index_div hj, index_mod hj]

variable (ha : m * n < 2 ^ 31) (hb : p * n < 2 ^ 31) (hc : m * p < 2 ^ 31)

include ha hb hc

theorem exists_matrixfMulScalar (hlength : C.data.length = m * p) (hwritten : C.written = []) :
    ∃ C', matrixfMulScalar (tabulate (m * n) a) (tabulate (p * n) b) C m n p = .ok C' ∧
      Fills (product a b n p) (m * p) (List.range (m * p)) C' := by
  have hstart : Fills (product a b n p) (m * p) (List.range (0 * p)) C := by
    rw [Nat.zero_mul]
    exact ⟨hlength, hwritten ▸ List.Perm.nil, fun t ht => absurd ht List.not_mem_nil⟩
  refine exists_foldlM_range (fun i => Fills (product a b n p) (m * p) (List.range (i * p)))
    (fun i C hi hC => exists_rows 1 (fun j hj log C hC => ?_) hC) hstart
  rw [scalarSum_tabulate hi hj ha hb, bind_ok, ← product_index hj]
  exact hC.setAt hi hj hc

variable (hw : 0 < w) (hhsum : ∀ x, hsum x = ∑ l, x l)

include hw hhsum

private theorem exists_setFourRows (hi : i + 3 < m) (hj : j < p) {log : List ℕ}
    (hC : Fills (product a b n p) (m * p) log C) :
    ∃ C', setFourRows w hsum (tabulate (m * n) a) (tabulate (p * n) b) n p (n / w * w) C i j =
        .ok C' ∧
      Fills (product a b n p) (m * p) (log ++ (List.range 4).map fun q => (i + q) * p + j) C' := by
  have hsums : ![hsum (lanes w a b n i j (n / w)), hsum (lanes w a b n (i + 1) j (n / w)),
      hsum (lanes w a b n (i + 2) j (n / w)), hsum (lanes w a b n (i + 3) j (n / w))] =
      fourRows (fun r => ∑ l, lanes w a b n r j (n / w) l) i := by
    simp only [hhsum, fourRows]
  rw [setFourRows, blockSums_tabulate hi hj ha hb hw, bind_ok]
  change ∃ C', (tailSums _ _ _ _ _ _ ![hsum (lanes w a b n i j (n / w)),
    hsum (lanes w a b n (i + 1) j (n / w)), hsum (lanes w a b n (i + 2) j (n / w)),
    hsum (lanes w a b n (i + 3) j (n / w))] >>= _) = _ ∧ _
  rw [hsums, tailSums_tabulate hi hj ha hb _ (Nat.div_mul_le_self n w), bind_ok]
  simp only [sum_lanes_add_tail, ← product_index hj]
  obtain ⟨C1, hset1, hfills1⟩ := hC.setAt (show i < m by omega) hj hc
  obtain ⟨C2, hset2, hfills2⟩ := hfills1.setAt (show i + 1 < m by omega) hj hc
  obtain ⟨C3, hset3, hfills3⟩ := hfills2.setAt (show i + 2 < m by omega) hj hc
  obtain ⟨C4, hset4, hfills4⟩ := hfills3.setAt hi hj hc
  refine ⟨C4, ?_, ?_⟩
  · change (C.setAt p (product a b n p (i * p + j)) i j >>= _) = _
    rw [hset1, bind_ok]
    change (C1.setAt p (product a b n p ((i + 1) * p + j)) (i + 1) j >>= _) = _
    rw [hset2, bind_ok]
    change (C2.setAt p (product a b n p ((i + 2) * p + j)) (i + 2) j >>= _) = _
    rw [hset3, bind_ok]
    exact hset4
  · rw [List.append_assoc, List.append_assoc, List.append_assoc] at hfills4
    exact hfills4

private theorem exists_setRow (hi : i < m) (hj : j < p) {log : List ℕ}
    (hC : Fills (product a b n p) (m * p) log C) :
    ∃ C', setRow w hsum (tabulate (m * n) a) (tabulate (p * n) b) n p (n / w * w) C i j = .ok C' ∧
      Fills (product a b n p) (m * p) (log ++ [i * p + j]) C' := by
  rw [setRow, blockSum_tabulate hi hj ha hb hw, bind_ok,
    tailSum_tabulate hi hj ha hb _ (Nat.div_mul_le_self n w), bind_ok, hhsum, sum_lanes_add_tail,
    ← product_index hj]
  exact hC.setAt hi hj hc

private theorem exists_blocks {count : ℕ} (hend : 4 * count ≤ m)
    (hC : Fills (product a b n p) (m * p) [] C) :
    ∃ C', (List.range' 0 count 4).foldlM (fun C i => (List.range p).foldlM (fun C j =>
        setFourRows w hsum (tabulate (m * n) a) (tabulate (p * n) b) n p (n / w * w) C i j) C) C =
        .ok C' ∧
      Fills (product a b n p) (m * p) (List.range (4 * count * p)) C' := by
  have hstart : Fills (product a b n p) (m * p) (List.range (4 * 0 * p)) C := by
    rwa [Nat.mul_zero, Nat.zero_mul]
  refine exists_foldlM (fun t => Fills (product a b n p) (m * p) (List.range (4 * t * p)))
    (fun t C ht hC => ?_) hstart
  rw [Nat.zero_add]
  exact exists_rows 4 (fun j hj log C hC =>
    exists_setFourRows ha hb hc hw hhsum (by omega) hj hC) hC

private theorem exists_rest {start count : ℕ} (hend : start + count ≤ m)
    (hC : Fills (product a b n p) (m * p) (List.range (start * p)) C) :
    ∃ C', (List.range' start count).foldlM (fun C i => (List.range p).foldlM (fun C j =>
        setRow w hsum (tabulate (m * n) a) (tabulate (p * n) b) n p (n / w * w) C i j) C) C =
        .ok C' ∧
      Fills (product a b n p) (m * p) (List.range ((start + count) * p)) C' := by
  refine exists_foldlM (fun t => Fills (product a b n p) (m * p) (List.range ((start + t) * p)))
    (fun t C ht hC => ?_) hC
  rw [Nat.one_mul]
  exact exists_rows 1 (fun j hj log C hC =>
    exists_setRow ha hb hc hw hhsum (by omega) hj hC) hC

theorem exists_matrixfMulPacked (hlength : C.data.length = m * p) (hwritten : C.written = []) :
    ∃ C', matrixfMulPacked w hsum (tabulate (m * n) a) (tabulate (p * n) b) C m n p = .ok C' ∧
      Fills (product a b n p) (m * p) (List.range (m * p)) C' := by
  have hle : m / 4 * 4 ≤ m := Nat.div_mul_le_self m 4
  obtain ⟨C1, hC1, hfills1⟩ := exists_blocks ha hb hc hw hhsum (Nat.mul_comm 4 _ ▸ hle)
    ⟨hlength, hwritten ▸ List.Perm.nil, fun t ht => absurd ht List.not_mem_nil⟩
  rw [Nat.mul_comm 4] at hfills1
  obtain ⟨C2, hC2, hfills2⟩ := exists_rest ha hb hc hw hhsum
    (Nat.le_of_eq (Nat.add_sub_cancel' hle)) hfills1
  rw [Nat.add_sub_cancel' hle] at hfills2
  refine ⟨C2, ?_, hfills2⟩
  rw [matrixfMulPacked, sub_mod_eq, sub_mod_eq, counters, turns_mul (by decide),
    hC1, bind_ok, counters, turns_one]
  exact hC2

end Products

section Results

variable [Semiring R] {A B C : List R} {m n p : ℕ}

/-- The kernels over blocks return what the one over single elements returns, read no more than
the arrays, and write every element once. -/
theorem kernels_agree (hA : A.length = m * n) (hB : B.length = p * n) (hC : C.length = m * p)
    (hmn : m * n < 2 ^ 31) (hpn : p * n < 2 ^ 31) (hmp : m * p < 2 ^ 31) :
    ∃ scalar sse avx2,
      matrixfMulScalar A B { data := C, written := [] } m n p = .ok scalar ∧
      matrixfMulSse A B { data := C, written := [] } m n p = .ok sse ∧
      matrixfMulAvx2 A B { data := C, written := [] } m n p = .ok avx2 ∧
      scalar.data.length = m * p ∧ sse.data = scalar.data ∧ avx2.data = scalar.data ∧
      sse.written.Perm (List.range (m * p)) ∧ avx2.written.Perm (List.range (m * p)) := by
  obtain ⟨scalar, hscalar, hfills⟩ := exists_matrixfMulScalar (a := fun t => A.getD t 0)
    (b := fun t => B.getD t 0) (C := ⟨C, []⟩) hmn hpn hmp hC rfl
  obtain ⟨sse, hsse, hfills4⟩ := exists_matrixfMulPacked (a := fun t => A.getD t 0)
    (b := fun t => B.getD t 0) (C := ⟨C, []⟩) hmn hpn hmp (by decide) mmHsumPs_eq hC rfl
  obtain ⟨avx2, havx2, hfills8⟩ := exists_matrixfMulPacked (a := fun t => A.getD t 0)
    (b := fun t => B.getD t 0) (C := ⟨C, []⟩) hmn hpn hmp (by decide) mm256HsumPs_eq hC rfl
  rw [← hA, ← hB, tabulate_getD, tabulate_getD] at hscalar hsse havx2
  exact ⟨scalar, sse, avx2, hscalar, hsse, havx2, hfills.length,
    hfills4.data_eq.trans hfills.data_eq.symm, hfills8.data_eq.trans hfills.data_eq.symm,
    hfills4.written, hfills8.written⟩

theorem kernels_agree_five_nine : ∃ scalar sse avx2,
    matrixfMulScalar (List.replicate 45 (2 : ℤ)) (List.replicate 18 3)
      { data := List.replicate 10 0, written := [] } 5 9 2 = .ok scalar ∧
    matrixfMulSse (List.replicate 45 (2 : ℤ)) (List.replicate 18 3)
      { data := List.replicate 10 0, written := [] } 5 9 2 = .ok sse ∧
    matrixfMulAvx2 (List.replicate 45 (2 : ℤ)) (List.replicate 18 3)
      { data := List.replicate 10 0, written := [] } 5 9 2 = .ok avx2 ∧
    scalar.data.length = 10 ∧ sse.data = scalar.data ∧ avx2.data = scalar.data ∧
    sse.written.Perm (List.range 10) ∧ avx2.written.Perm (List.range 10) :=
  kernels_agree (m := 5) (n := 9) (p := 2) rfl rfl rfl (by decide) (by decide) (by decide)

end Results

end Libromano.Linalg
