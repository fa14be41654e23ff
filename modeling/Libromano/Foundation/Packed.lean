/- The registers of SSE and AVX that hold floats, over any numbers, and the intrinsics on them,
   lane by lane. What is done alike in the lanes of both kinds of register is defined for any
   number of lanes. -/

import Mathlib.Algebra.BigOperators.Fin
import Mathlib.Data.Fin.VecNotation

set_option autoImplicit false
set_option relaxedAutoImplicit false

namespace Libromano.Foundation.Packed

variable {R : Type} {w : ℕ}

abbrev M128 (R : Type) := Fin 4 → R

abbrev M256 (R : Type) := Fin 8 → R

scoped instance lanes_four : NeZero 4 := ⟨Nat.succ_ne_zero 3⟩

scoped instance lanes_eight : NeZero 8 := ⟨Nat.succ_ne_zero 7⟩

/-- `_mm_setzero_ps`, and `_mm256_setzero_ps`. -/
def setzeroPs [Zero R] : Fin w → R := fun _ => 0

def set1Ps (a : R) : Fin w → R := fun _ => a

def addPs [Add R] (a b : Fin w → R) : Fin w → R := fun l => a l + b l

def subPs [Sub R] (a b : Fin w → R) : Fin w → R := fun l => a l - b l

def mulPs [Mul R] (a b : Fin w → R) : Fin w → R := fun l => a l * b l

def fmaddPs [Mul R] [Add R] (a b c : Fin w → R) : Fin w → R := fun l => a l * b l + c l

def minPs [Min R] (a b : Fin w → R) : Fin w → R := fun l => min (a l) (b l)

def maxPs [Max R] (a b : Fin w → R) : Fin w → R := fun l => max (a l) (b l)

def mmShufflePs (a b : M128 R) (z y x w : Fin 4) : M128 R := ![a w, a x, b y, b z]

def mmMovehlPs (a b : M128 R) : M128 R := ![b 2, b 3, a 2, a 3]

def mmAddSs [Add R] (a b : M128 R) : M128 R := ![a 0 + b 0, a 1, a 2, a 3]

def mmHaddPs [Add R] (a b : M128 R) : M128 R := ![a 0 + a 1, a 2 + a 3, b 0 + b 1, b 2 + b 3]

/-- `_mm_cvtss_f32`, and `_mm256_cvtss_f32`. -/
def mmCvtssF32 (a : M128 R) : R := a 0

def mm256CvtssF32 (a : M256 R) : R := a 0

def M256.low (a : M256 R) : M128 R := ![a 0, a 1, a 2, a 3]

def M256.high (a : M256 R) : M128 R := ![a 4, a 5, a 6, a 7]

def mm256Extractf128Ps (a : M256 R) (imm8 : ℕ) : M128 R := if imm8 % 2 = 0 then a.low else a.high

def mm256Castps256Ps128 (a : M256 R) : M128 R := a.low

def selectHalf [Zero R] (a b : M256 R) (control : ℕ) : M128 R :=
  if control / 8 % 2 = 1 then fun _ => 0
  else
    match control % 4 with
    | 0 => a.low
    | 1 => a.high
    | 2 => b.low
    | _ => b.high

def ofHalves (low high : M128 R) : M256 R :=
  ![low 0, low 1, low 2, low 3, high 0, high 1, high 2, high 3]

def mm256Permute2f128Ps [Zero R] (a b : M256 R) (imm8 : ℕ) : M256 R :=
  ofHalves (selectHalf a b imm8) (selectHalf a b (imm8 / 16))

def laneOf (imm8 k : ℕ) : Fin 4 := ⟨imm8 / 4 ^ k % 4, Nat.mod_lt _ (by decide)⟩

def permuteHalf (a : M128 R) (imm8 : ℕ) : M128 R :=
  ![a (laneOf imm8 0), a (laneOf imm8 1), a (laneOf imm8 2), a (laneOf imm8 3)]

def mm256PermutePs (a : M256 R) (imm8 : ℕ) : M256 R :=
  ofHalves (permuteHalf a.low imm8) (permuteHalf a.high imm8)

end Libromano.Foundation.Packed
