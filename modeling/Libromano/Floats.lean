/- Arrays of floats, and the functions of `common32.h`, over any exact numbers. -/

import Libromano.Fault
import Mathlib.Algebra.Order.Ring.Defs
import Mathlib.Data.List.Basic

set_option autoImplicit false
set_option relaxedAutoImplicit false

namespace Libromano.Floats

variable {R : Type}

/-- `array[i]`. -/
def floatAt (array : List R) (i : ℕ) : Except Fault R :=
  match array[i]? with
  | some x => .ok x
  | none => .error .outOfBounds

/-- `array[i] = value`. -/
def setFloat (array : List R) (i : ℕ) (value : R) : Except Fault (List R) :=
  if i < array.length then .ok (array.set i value) else .error .outOfBounds

/-- `_mm_loadu_ps(&array[i])`, and `_mm256_loadu_ps(&array[i])`. -/
def loaduPs (w : ℕ) (array : List R) (i : ℕ) : Except Fault (Fin w → R) :=
  if h : i + w ≤ array.length then
    .ok fun l => array.get ⟨i + l, Nat.lt_of_lt_of_le (Nat.add_lt_add_left l.isLt i) h⟩
  else .error .outOfBounds

def mathfSqr [Mul R] (x : R) : R := x * x

def mathfAbs [Lattice R] [Neg R] (x : R) : R := x ⊔ -x

def mathfMin [Min R] (a b : R) : R := min a b

def mathfMax [Max R] (a b : R) : R := max a b

def mathfLerp [One R] [Sub R] [Mul R] [Add R] (a b t : R) : R := (1 - t) * a + t * b

theorem floatAt_of_lt {array : List R} {i : ℕ} (h : i < array.length) :
    floatAt array i = .ok array[i] := by
  rw [floatAt, List.getElem?_eq_getElem h]

theorem loaduPs_out {array : List R} {w i : ℕ} (h : array.length < i + w) :
    loaduPs w array i = .error .outOfBounds :=
  dif_neg (Nat.not_le.mpr h)

end Libromano.Floats
