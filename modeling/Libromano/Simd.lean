/- The vectorization modes of `simd.h`, and its functions that go across the lanes of a register. -/

import Libromano.Foundation.Packed
import Mathlib.Algebra.Group.Basic
import Mathlib.Order.Fin.Basic
import Mathlib.Order.Lattice

set_option autoImplicit false
set_option relaxedAutoImplicit false

namespace Libromano.Simd

open Foundation.Packed

variable {R : Type}

inductive VectorizationMode
  | scalar
  | sse
  | avx
  | avx2
  | avx512
  deriving DecidableEq

/-- Its value as an index. -/
def VectorizationMode.index : VectorizationMode → ℕ
  | scalar => 0
  | sse => 1
  | avx => 2
  | avx2 => 3
  | avx512 => 4

section Sums

def mmHsumPs [Add R] (x : M128 R) : R :=
  let shuf := mmShufflePs x x 2 3 0 1
  let sums := addPs x shuf
  let shuf := mmMovehlPs shuf sums
  let sums := mmAddSs sums shuf
  mmCvtssF32 sums

def mm256HsumPs [Add R] (x : M256 R) : R :=
  let hi := mm256Extractf128Ps x 1
  let lo := mm256Castps256Ps128 x
  let sum := addPs hi lo
  let sum := mmHaddPs sum sum
  let sum := mmHaddPs sum sum
  mmCvtssF32 sum

/-- `_mm_lerp_ps`, and `_mm256_lerp_ps`. -/
def lerpPs [One R] [Sub R] [Mul R] [Add R] {w : ℕ} (a b t : Fin w → R) : Fin w → R :=
  let oneMinusT := subPs (set1Ps 1) t
  let a := mulPs oneMinusT a
  let b := mulPs b t
  addPs a b

def mmHmeanPs [Add R] [Div R] [OfNat R 4] (x : M128 R) : R := mmHsumPs x / 4

def mm256HmeanPs [Add R] [Div R] [OfNat R 8] (x : M256 R) : R := mm256HsumPs x / 8

theorem mmHsumPs_eq [AddCommMonoid R] (x : M128 R) : mmHsumPs x = ∑ l, x l := by
  rw [Fin.sum_univ_four]
  exact (add_assoc _ _ _).symm

theorem mm256HsumPs_eq [AddCommMonoid R] (x : M256 R) : mm256HsumPs x = ∑ l, x l := by
  have hsum : mm256HsumPs x = x 4 + x 0 + (x 5 + x 1) + (x 6 + x 2 + (x 7 + x 3)) := rfl
  rw [hsum, Fin.sum_univ_eight]
  ac_rfl

end Sums

section Extremes

def mmHminPs [Min R] (x : M128 R) : R :=
  let x := minPs x (mmShufflePs x x 2 3 0 0)
  let x := minPs x (mmShufflePs x x 1 1 0 0)
  mmCvtssF32 x

def mm256HminPs [Zero R] [Min R] (v : M256 R) : R :=
  let permHalves := mm256Permute2f128Ps v v 1
  let m0 := minPs permHalves v
  let perm0 := mm256PermutePs m0 0x4E
  let m1 := minPs m0 perm0
  let perm1 := mm256PermutePs m1 0xB1
  let m2 := minPs perm1 m1
  mm256CvtssF32 m2

def mmHmaxPs [Max R] (v : M128 R) : R :=
  let v := maxPs v (mmShufflePs v v 2 3 0 0)
  let v := maxPs v (mmShufflePs v v 1 1 0 0)
  mmCvtssF32 v

def mm256HmaxPs [Zero R] [Max R] (v : M256 R) : R :=
  let permHalves := mm256Permute2f128Ps v v 1
  let m0 := maxPs permHalves v
  let perm0 := mm256PermutePs m0 0x4E
  let m1 := maxPs m0 perm0
  let perm1 := mm256PermutePs m1 0xB1
  let m2 := maxPs perm1 m1
  mm256CvtssF32 m2

variable [LinearOrder R]

theorem mmHminPs_eq (x : M128 R) : mmHminPs x = x 0 := by
  have hmin : mmHminPs x = min (min (x 0) (x 0)) (min (x 0) (x 0)) := rfl
  rw [hmin, min_self, min_self]

theorem mmHmaxPs_eq (x : M128 R) : mmHmaxPs x = x 0 := by
  have hmax : mmHmaxPs x = max (max (x 0) (x 0)) (max (x 0) (x 0)) := rfl
  rw [hmax, max_self, max_self]

theorem min_mm256HminPs [Zero R] (x : M256 R) (a : R) :
    min a (mm256HminPs x) = (List.ofFn x).foldl min a := by
  have hmin : mm256HminPs x = min (min (min (x 5) (x 1)) (min (x 7) (x 3)))
      (min (min (x 4) (x 0)) (min (x 6) (x 2))) := rfl
  have hfold : (List.ofFn x).foldl min a = min (min (min (min (min (min (min (min a (x 0)) (x 1))
      (x 2)) (x 3)) (x 4)) (x 5)) (x 6)) (x 7) := rfl
  rw [hmin, hfold]
  ac_rfl

theorem max_mm256HmaxPs [Zero R] (x : M256 R) (a : R) :
    max a (mm256HmaxPs x) = (List.ofFn x).foldl max a := by
  have hmax : mm256HmaxPs x = max (max (max (x 5) (x 1)) (max (x 7) (x 3)))
      (max (max (x 4) (x 0)) (max (x 6) (x 2))) := rfl
  have hfold : (List.ofFn x).foldl max a = max (max (max (max (max (max (max (max a (x 0)) (x 1))
      (x 2)) (x 3)) (x 4)) (x 5)) (x 6)) (x 7) := rfl
  rw [hmax, hfold]
  ac_rfl

end Extremes

end Libromano.Simd
