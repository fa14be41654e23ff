/- The product of two matrices. A matrix of less than eight rows is multiplied with the second
   operand as it is, though the kernels take it transposed, and for the others it is transposed by
   `matrixf_transpose_from`, which is right for square matrices and for vectors only. -/

import Libromano.Linalg.Kernels
import Libromano.Linalg.Transpose

set_option autoImplicit false
set_option relaxedAutoImplicit false

namespace Libromano.Linalg

open Simd
open Foundation.RowMajor
open Finset (range)

variable {R : Type} [Semiring R]

section Functions

/-- `matmul_func`, on the array that is written. -/
abbrev MatmulFunc (R : Type) := List R → List R → Output R → ℕ → ℕ → ℕ → Except Fault (Output R)

def matmulFuncs : List (MatmulFunc R) := [matrixfMulScalar, matrixfMulSse, matrixfMulAvx2]

def matmulFunc (mode : VectorizationMode) : Except Fault (MatmulFunc R) :=
  match matmulFuncs[mode.index]? with
  | some func => .ok func
  | none => .error .outOfBounds

/-- `fresh 0` and `fresh 1` are what the blocks held that are allocated for the result and for
the transposed operand. That the sizes fit is asserted in debug builds only. -/
def matrixfMul (mode : VectorizationMode) (fresh : ℕ → ℕ → R) (A B C : MatrixF R) :
    Except Fault (MatrixF R) := do
  let M := A.M
  let N := A.N
  let P := B.N
  let C ← matrixfResize (fresh 0) C M P
  let C ← matrixfZero C
  if 8 ≤ M then
    let Bt ← matrixfTransposeFrom (fresh 1) B
    let func ← matmulFunc mode
    let out ← func A.data Bt.data { data := C.data, written := [] } M N P
    .ok { C with data := out.data }
  else
    let out ← matrixfMulScalar A.data B.data { data := C.data, written := [] } M N P
    .ok { C with data := out.data }

end Functions

section Products

variable {mode : VectorizationMode} {fresh : ℕ → ℕ → R} {m n p : ℕ} {f g : ℕ → ℕ → R}
  {C : MatrixF R}

/-- What stands for the element in row `k` and column `j` of the second operand. -/
def operand (m n p : ℕ) (g : ℕ → ℕ → R) (j k : ℕ) : R :=
  if 8 ≤ m then misread n p g (j * n + k) else g ((j * n + k) / p) ((j * n + k) % p)

private theorem exists_matmulFunc {a b : ℕ → R} (hmode : mode.index ≤ 2) (hmn : m * n < 2 ^ 31)
    (hpn : p * n < 2 ^ 31) (hmp : m * p < 2 ^ 31) {C : Output R}
    (hlength : C.data.length = m * p) (hwritten : C.written = []) :
    ∃ func out, matmulFunc mode = .ok func ∧
      func (tabulate (m * n) a) (tabulate (p * n) b) C m n p = .ok out ∧
      out.data = tabulate (m * p) (product a b n p) := by
  cases mode with
  | scalar =>
    obtain ⟨out, hout, hfills⟩ := exists_matrixfMulScalar (a := a) (b := b) hmn hpn hmp hlength
      hwritten
    exact ⟨matrixfMulScalar, out, rfl, hout, hfills.data_eq⟩
  | sse =>
    obtain ⟨out, hout, hfills⟩ := exists_matrixfMulPacked (a := a) (b := b) hmn hpn hmp
      (by decide) mmHsumPs_eq hlength hwritten
    exact ⟨matrixfMulSse, out, rfl, hout, hfills.data_eq⟩
  | avx =>
    obtain ⟨out, hout, hfills⟩ := exists_matrixfMulPacked (a := a) (b := b) hmn hpn hmp
      (by decide) mm256HsumPs_eq hlength hwritten
    exact ⟨matrixfMulAvx2, out, rfl, hout, hfills.data_eq⟩
  | avx2 => exact absurd hmode (by decide)
  | avx512 => exact absurd hmode (by decide)

private theorem product_of {b : ℕ → R} :
    MatrixF.mk (tabulate (m * p) (product (fun t => f (t / n) (t % n)) b n p)) p m =
      MatrixF.of m p fun i j => ∑ k ∈ range n, f i k * b (j * n + k) := by
  rw [MatrixF.of]
  congr 1
  apply tabulate_congr
  intro t ht
  rw [product, dot]
  apply Finset.sum_congr rfl
  intro k hk
  rw [term, index_div (Finset.mem_range.mp hk), index_mod (Finset.mem_range.mp hk)]

private theorem matrixfMul_ok (hnp : n * p < 2 ^ 31) {C' : MatrixF R}
    (h : matrixfMul mode fresh (MatrixF.of m n f) (MatrixF.of n p g) C = .ok C') :
    (m < 8 ∨ mode.index ≤ 2) ∧ m * p < 2 ^ 31 := by
  have hmp : m * p < 2 ^ 31 := by
    by_contra hlarge
    have hresize : matrixfResize (fresh 0) C m p = .error .outOfMemory := by
      rw [matrixfResize, memAlignedAlloc, if_neg hlarge, bind_error]
    rw [matrixfMul] at h
    change (matrixfResize (fresh 0) C m p >>= _) = _ at h
    rw [hresize, bind_error] at h
    cases h
  refine ⟨?_, hmp⟩
  by_contra! hneither
  obtain ⟨hm, hmode⟩ := hneither
  have hfunc : matmulFunc (R := R) mode = .error .outOfBounds := by
    cases mode with
    | scalar => exact absurd hmode (by decide)
    | sse => exact absurd hmode (by decide)
    | avx => exact absurd hmode (by decide)
    | avx2 => rfl
    | avx512 => rfl
  rw [matrixfMul] at h
  change (matrixfResize (fresh 0) C m p >>= _) = _ at h
  rw [matrixfResize_ok hmp, bind_ok, matrixfZero_tabulate hmp, bind_ok] at h
  change (if 8 ≤ m then _ else _) = _ at h
  rw [if_pos hm, matrixfTransposeFrom_of hnp, bind_ok, hfunc, bind_error] at h
  cases h

variable (hmn : m * n < 2 ^ 31) (hnp : n * p < 2 ^ 31)

include hmn hnp

private theorem matrixfMul_small (hmp : m * p < 2 ^ 31) (hm : ¬ 8 ≤ m) :
    matrixfMul mode fresh (MatrixF.of m n f) (MatrixF.of n p g) C =
      .ok (MatrixF.of m p fun i j => ∑ k ∈ range n, f i k * operand m n p g j k) := by
  have hcomm : n * p = p * n := Nat.mul_comm n p
  obtain ⟨out, hout, hfills⟩ := exists_matrixfMulScalar (a := fun t => f (t / n) (t % n))
    (b := fun t => g (t / p) (t % p)) (C := ⟨(MatrixF.of m p fun _ _ => (0 : R)).data, []⟩) hmn
    (hcomm ▸ hnp) hmp length_tabulate rfl
  rw [← hcomm] at hout
  rw [matrixfMul]
  change (matrixfResize (fresh 0) C m p >>= _) = _
  rw [matrixfResize_ok hmp, bind_ok, matrixfZero_tabulate hmp, bind_ok]
  change (if 8 ≤ m then _ else (matrixfMulScalar (tabulate (m * n) _) (tabulate (n * p) _) _ m n p
    >>= _)) = _
  rw [if_neg hm, hout, bind_ok, hfills.data_eq]
  simp only [operand, if_neg hm]
  exact congrArg Except.ok product_of

private theorem matrixfMul_large (hmp : m * p < 2 ^ 31) (hm : 8 ≤ m) (hmode : mode.index ≤ 2) :
    matrixfMul mode fresh (MatrixF.of m n f) (MatrixF.of n p g) C =
      .ok (MatrixF.of m p fun i j => ∑ k ∈ range n, f i k * operand m n p g j k) := by
  obtain ⟨func, out, hfunc, hout, hdata⟩ := exists_matmulFunc (a := fun t => f (t / n) (t % n))
    (b := misread n p g) (C := ⟨(MatrixF.of m p fun _ _ => (0 : R)).data, []⟩) hmode hmn
    (Nat.mul_comm n p ▸ hnp) hmp length_tabulate rfl
  rw [matrixfMul]
  change (matrixfResize (fresh 0) C m p >>= _) = _
  rw [matrixfResize_ok hmp, bind_ok, matrixfZero_tabulate hmp, bind_ok]
  change (if 8 ≤ m then _ else _) = _
  rw [if_pos hm, matrixfTransposeFrom_of hnp, bind_ok, hfunc, bind_ok]
  change (func (tabulate (m * n) _) (tabulate (p * n) _) _ m n p >>= _) = _
  rw [hout, bind_ok, hdata]
  simp only [operand, if_pos hm]
  exact congrArg Except.ok product_of

end Products

section Results

variable {mode : VectorizationMode} {m n p : ℕ}

/-- The product of every two matrices of these sizes is returned. -/
def Multiplies (R : Type) [Semiring R] (mode : VectorizationMode) (m n p : ℕ) : Prop :=
  ∀ (fresh : ℕ → ℕ → R) (f g : ℕ → ℕ → R) (C : MatrixF R),
    matrixfMul mode fresh (MatrixF.of m n f) (MatrixF.of n p g) C =
      .ok (MatrixF.of m p fun i j => ∑ k ∈ range n, f i k * g k j)

/-- The sizes for which the second operand is read as it should be. -/
def ReadsRight (m n p : ℕ) : Prop := n = 1 ∨ p = 1 ∨ 8 ≤ m ∧ n = p

private theorem operand_eq {S : Type} {g : ℕ → ℕ → S} {j k : ℕ} (h : ReadsRight m n p) (hj : j < p)
    (hk : k < n) :
    operand m n p g j k = g k j := by
  rcases h with rfl | rfl | ⟨hm, rfl⟩
  · obtain rfl : k = 0 := Nat.lt_one_iff.mp hk
    have hindex : j * 1 + 0 = j := by rw [Nat.mul_one, Nat.add_zero]
    rw [operand, misread, hindex, Nat.div_eq_of_lt hj, Nat.mod_eq_of_lt hj, hindex,
      Nat.div_eq_of_lt hj, Nat.mod_eq_of_lt hj, ite_self]
  · obtain rfl : j = 0 := Nat.lt_one_iff.mp hj
    simp [operand, misread, Nat.mod_one]
  · rw [operand, if_pos hm, misread, index_div hk, index_mod hk, index_div hj, index_mod hj]

private theorem exists_misread (S : Type) (hn : 1 ≤ n) (hp : 1 ≤ p) (h : ¬ ReadsRight m n p) :
    ∃ j < p, ∃ k < n, (n / p, n % p) ≠ (k, j) ∧
      ∀ g : ℕ → ℕ → S, operand m n p g j k = g (n / p) (n % p) := by
  rw [ReadsRight, not_or, not_or, not_and] at h
  obtain ⟨hn1, hp1, hsquare⟩ := h
  have hn2 : 2 ≤ n := by omega
  have hp2 : 2 ≤ p := by omega
  by_cases hm : 8 ≤ m
  · refine ⟨0, hp, 1, hn2, fun heq => ?_, fun g => ?_⟩
    · obtain ⟨hdiv, hmod⟩ := Prod.mk.inj heq
      have hdivmod := Nat.div_add_mod n p
      rw [hdiv, hmod] at hdivmod
      exact hsquare hm (by omega)
    · rw [operand, if_pos hm, misread, Nat.zero_mul, Nat.zero_add, Nat.mod_eq_of_lt hp2,
        Nat.div_eq_of_lt hp2, Nat.one_mul, Nat.add_zero]
  · refine ⟨1, hp2, 0, hn, fun heq => ?_, fun g => ?_⟩
    · obtain ⟨hdiv, hmod⟩ := Prod.mk.inj heq
      have hdivmod := Nat.div_add_mod n p
      rw [hdiv, hmod] at hdivmod
      exact hn1 (by omega)
    · rw [operand, if_neg hm, Nat.one_mul, Nat.add_zero]

private theorem readsRight_of_multiplies [Nontrivial R] (hm : 1 ≤ m) (hn : 1 ≤ n) (hp : 1 ≤ p)
    (hreads : ∀ f g : ℕ → ℕ → R, ∀ i < m, ∀ j < p,
      ∑ k ∈ range n, f i k * operand m n p g j k = ∑ k ∈ range n, f i k * g k j) :
    ReadsRight m n p := by
  by_contra h
  obtain ⟨j, hj, k, hk, hne, hoperand⟩ := exists_misread R hn hp h
  have hsum := hreads (fun _ k' => if k' = k then 1 else 0)
    (fun a b => if (a, b) = (k, j) then 1 else 0) 0 hm j hj
  simp only [ite_mul, one_mul, zero_mul, Finset.sum_ite_eq', Finset.mem_range, hk, if_true,
    hoperand, if_neg hne] at hsum
  exact zero_ne_one hsum

theorem multiplies_iff [Nontrivial R] (hm : 1 ≤ m) (hn : 1 ≤ n) (hp : 1 ≤ p)
    (hmn : m * n < 2 ^ 31) (hnp : n * p < 2 ^ 31) :
    Multiplies R mode m n p ↔
      ReadsRight m n p ∧ (m < 8 ∨ mode.index ≤ 2) ∧ m * p < 2 ^ 31 := by
  have hmul (hmp : m * p < 2 ^ 31) (hmode : m < 8 ∨ mode.index ≤ 2) (fresh : ℕ → ℕ → R)
      (f g : ℕ → ℕ → R) (C : MatrixF R) :
      matrixfMul mode fresh (MatrixF.of m n f) (MatrixF.of n p g) C =
        .ok (MatrixF.of m p fun i j => ∑ k ∈ range n, f i k * operand m n p g j k) := by
    by_cases hlarge : 8 ≤ m
    · exact matrixfMul_large hmn hnp hmp hlarge (hmode.resolve_left (Nat.not_lt.mpr hlarge))
    · exact matrixfMul_small hmn hnp hmp hlarge
  constructor
  · intro h
    obtain ⟨hmode, hmp⟩ := matrixfMul_ok hnp (h (fun _ _ => 0) (fun _ _ => 0) (fun _ _ => 0)
      matrixNull)
    refine ⟨readsRight_of_multiplies (R := R) hm hn hp fun f g => ?_, hmode, hmp⟩
    have hright := h (fun _ _ => 0) f g matrixNull
    rw [hmul hmp hmode] at hright
    exact MatrixF.of_inj.mp (Except.ok.inj hright)
  · rintro ⟨hreads, hmode, hmp⟩ fresh f g C
    rw [hmul hmp hmode]
    refine congrArg Except.ok (MatrixF.of_congr fun i _ j hj => Finset.sum_congr rfl fun k hk => ?_)
    rw [operand_eq hreads hj (Finset.mem_range.mp hk)]

theorem multiplies_eight_two_two : Multiplies ℤ .avx 8 2 2 :=
  (multiplies_iff (by decide) (by decide) (by decide) (by decide) (by decide)).mpr
    ⟨.inr (.inr ⟨by decide, rfl⟩), .inr (by decide), by decide⟩

/-- Even the identity times a matrix of two rows comes out transposed. -/
theorem matrixfMul_identity :
    ¬ ∀ (mode : VectorizationMode) (m n p : ℕ), 1 ≤ m → 1 ≤ n → 1 ≤ p → m * n < 2 ^ 31 →
      n * p < 2 ^ 31 → Multiplies ℤ mode m n p := by
  intro h
  have hmul := h .sse 2 2 2 (by decide) (by decide) (by decide) (by decide) (by decide)
    (fun _ _ => 0) (fun i j => if i = j then 1 else 0) (fun i j => 10 * i + j) matrixNull
  exact absurd hmul (by decide)

end Results

end Libromano.Linalg
