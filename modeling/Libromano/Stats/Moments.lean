/- The mean and the variance of an array, in exact arithmetic. The mean is kept while the elements
   go by, each with the weight that it has among those before it; the variance goes by the
   recurrence of Youngs and Cramer. -/

import Libromano.Simd
import Libromano.Stats.Sweep
import Mathlib.Algebra.BigOperators.Group.List.Basic
import Mathlib.Algebra.CharZero.Defs
import Mathlib.Algebra.Field.Rat
import Mathlib.Algebra.Order.Ring.Rat
import Mathlib.Data.Nat.Cast.Field
import Mathlib.Tactic.FieldSimp
import Mathlib.Tactic.Ring

set_option autoImplicit false
set_option relaxedAutoImplicit false

namespace Libromano.Stats

open Floats Simd
open Foundation.Loops
open Foundation.Packed

variable {K : Type} [Field K]

section Functions

/-- The mean goes on from the element `start`. -/
def meanFrom (array : List K) (start n : ℕ) (mean : K) : Except Fault K :=
  scalarLoop (fun mean i x => mathfLerp mean x (1 / ((i + 1 : ℕ) : K))) array start n mean

def statsMeanScalar (array : List K) (n : ℕ) : Except Fault K := meanFrom array 0 n 0

/-- The versions over blocks of `w` elements, which start with the mean of the lanes. -/
def statsMeanPacked (w : ℕ) (hmean : (Fin w → K) → K) (array : List K) (n : ℕ) :
    Except Fault K := do
  let loop := n % w
  let m ← blockLoop w (fun m i v => lerpPs m v (set1Ps (1 / ((i + 1 : ℕ) : K)))) array loop
    setzeroPs
  meanFrom array (counted 0 loop w) n (hmean m)

def statsMeanSse (array : List K) (n : ℕ) : Except Fault K := statsMeanPacked 4 mmHmeanPs array n

def statsMeanAvx (array : List K) (n : ℕ) : Except Fault K := statsMeanPacked 8 mm256HmeanPs array n

def statsMean (mode : VectorizationMode) (array : List K) (n : ℕ) : Except Fault K :=
  match mode with
  | .scalar => statsMeanScalar array n
  | .sse => statsMeanSse array n
  | .avx => statsMeanAvx array n
  | .avx2 => statsMeanAvx array n
  | .avx512 => statsMeanAvx array n

/-- The variables of the loop of `stats_variance`. -/
structure Deviations (K : Type) where
  n : K
  m : K
  sum : K

def Deviations.add (d : Deviations K) (x : K) : Deviations K :=
  let n := d.n + 1
  let m := d.m + x
  { n, m, sum := d.sum + (1 / (n * (n - 1))) * mathfSqr (n * x - m) }

def statsVariance (array : List K) (n : ℕ) : Except Fault K := do
  let x ← floatAt array 0
  let d ← scalarLoop (fun (d : Deviations K) _ x => d.add x) array 1 n
    { n := 1, m := x, sum := 0 }
  .ok (d.sum / n)

end Functions

section Mean

private theorem mmHmeanPs_eq (v : M128 K) : mmHmeanPs v = (List.ofFn v).sum / ((4 : ℕ) : K) := by
  rw [mmHmeanPs, mmHsumPs_eq, List.sum_ofFn]
  rfl

private theorem mm256HmeanPs_eq (v : M256 K) :
    mm256HmeanPs v = (List.ofFn v).sum / ((8 : ℕ) : K) := by
  rw [mm256HmeanPs, mm256HsumPs_eq, List.sum_ofFn]
  rfl

variable {array : List K} {w : ℕ} {hmean : (Fin w → K) → K}

private theorem statsMeanPacked_short (hpos : 0 < array.length) (hlt : array.length < w) :
    statsMeanPacked w hmean array array.length = .error .outOfBounds := by
  have hmod : array.length % w ≠ 0 := by
    rw [Nat.mod_eq_of_lt hlt]
    exact Nat.pos_iff_ne_zero.mp hpos
  rw [statsMeanPacked]
  rw [blockLoop_short hlt hmod, bind_error]

variable [CharZero K]

/-- The mean of the first `i` elements. -/
def meanOf (array : List K) (i : ℕ) : K := (array.take i).sum / i

private theorem mathfLerp_meanOf {i : ℕ} (h : i < array.length) :
    mathfLerp (meanOf array i) array[i] (1 / ((i + 1 : ℕ) : K)) = meanOf array (i + 1) := by
  have hsucc : (i : K) + 1 ≠ 0 := Nat.cast_add_one_ne_zero i
  rw [mathfLerp, meanOf, meanOf, List.sum_take_succ array i h, Nat.cast_succ]
  rcases Nat.eq_zero_or_pos i with rfl | hpos
  · simp
  · have hi : (i : K) ≠ 0 := Nat.cast_ne_zero.mpr (Nat.pos_iff_ne_zero.mp hpos)
    field_simp
    ring

private theorem meanFrom_eq {start : ℕ} (h : start ≤ array.length) :
    meanFrom array start array.length (meanOf array start) =
      .ok (array.sum / array.length) := by
  rw [meanFrom, scalarLoop_eq (meanOf array) h fun i hi _ => mathfLerp_meanOf hi, meanOf,
    List.take_length]

private theorem statsMeanScalar_eq :
    statsMeanScalar array array.length = .ok (array.sum / array.length) := by
  have hzero : meanOf array 0 = 0 := by rw [meanOf, Nat.cast_zero, div_zero]
  have hmean := meanFrom_eq (Nat.zero_le array.length)
  rwa [hzero] at hmean

private theorem statsMeanPacked_eq (hw : 0 < w) (hmeans : ∀ v, hmean v = (List.ofFn v).sum / w)
    (h : array.length % w = 0 ∨ w ≤ array.length) :
    statsMeanPacked w hmean array array.length = .ok (array.sum / array.length) := by
  rw [statsMeanPacked]
  by_cases haligned : array.length % w = 0
  · have hzero : hmean setzeroPs = meanOf array 0 := by
      have hzeros : List.ofFn (setzeroPs : Fin w → K) = List.replicate w 0 := List.ofFn_const w 0
      rw [hmeans, hzeros, List.sum_replicate, nsmul_zero, zero_div, meanOf, Nat.cast_zero, div_zero]
    rw [blockLoop_aligned hw haligned, bind_ok, counted_eq hw, if_pos haligned, hzero]
    exact meanFrom_eq (Nat.zero_le _)
  · have hle : w ≤ array.length := h.resolve_left haligned
    have hblock : lerpPs setzeroPs (firstBlock array hle) (set1Ps (1 / ((0 + 1 : ℕ) : K))) =
        firstBlock array hle := by
      ext l
      simp [lerpPs, addPs, mulPs, subPs, set1Ps, setzeroPs]
    rw [blockLoop_first hw haligned hle, bind_ok, counted_eq hw, if_neg haligned, hblock, hmeans,
      ofFn_firstBlock]
    exact meanFrom_eq hle

/-- In every mode the sum over the number of elements is returned, and no element outside the
array is read. -/
def MeanReturned (array : List K) : Prop :=
  ∀ mode, statsMean mode array array.length = .ok (array.sum / array.length)

/-- The mean is returned where there is a block for the AVX version. -/
theorem meanReturned_iff (h : array ≠ []) : MeanReturned array ↔ 8 ≤ array.length := by
  constructor
  · intro hmean
    by_contra hlt
    have hshort : statsMean .avx array array.length = .error .outOfBounds :=
      statsMeanPacked_short (List.length_pos_iff.mpr h) (Nat.lt_of_not_le hlt)
    cases hshort.symm.trans (hmean .avx)
  · intro hle mode
    have havx : statsMeanAvx array array.length = .ok (array.sum / array.length) :=
      statsMeanPacked_eq (by decide) mm256HmeanPs_eq (.inr hle)
    cases mode with
    | scalar => exact statsMeanScalar_eq
    | sse =>
      exact statsMeanPacked_eq (by decide) mmHmeanPs_eq (.inr (Nat.le_trans (by decide) hle))
    | avx => exact havx
    | avx2 => exact havx
    | avx512 => exact havx

theorem meanReturned_eight : MeanReturned [1, 2, 3, 4, 5, 6, 7, (8 : ℚ)] :=
  (meanReturned_iff (List.cons_ne_nil _ _)).mpr (Nat.le_refl 8)

/-- The AVX version reads eight elements of an array of one. -/
theorem statsMean_overreads : ¬ ∀ array : List ℚ, array ≠ [] → MeanReturned array := by
  intro h
  have hshort : statsMean .avx [(1 : ℚ)] 1 = .error .outOfBounds :=
    statsMeanPacked_short Nat.one_pos (Nat.le_add_left 2 6)
  cases hshort.symm.trans (h [1] (List.cons_ne_nil _ _) .avx)

end Mean

section Variance

variable [CharZero K] {array : List K}

/-- The mean of the squared deviations from the mean. -/
def populationVariance (array : List K) : K :=
  (array.map fun x => (x - array.sum / array.length) ^ 2).sum / array.length

/-- The sum of the squared deviations of the first `i` elements, in one pass. -/
def squares (array : List K) (i : ℕ) : K :=
  ((array.take i).map (· ^ 2)).sum - (array.take i).sum ^ 2 / i

/-- What the variables are after `i` elements. -/
def deviations (array : List K) (i : ℕ) : Deviations K :=
  { n := i, m := (array.take i).sum, sum := squares array i }

private theorem add_deviations {i : ℕ} (h : i < array.length) (hpos : 1 ≤ i) :
    (deviations array i).add array[i] = deviations array (i + 1) := by
  have hi : (i : K) ≠ 0 := Nat.cast_ne_zero.mpr (Nat.pos_iff_ne_zero.mp hpos)
  have hsucc : (i : K) + 1 ≠ 0 := Nat.cast_add_one_ne_zero i
  have hsquares : squares array i + (1 / ((i + 1) * (i + 1 - 1))) *
      mathfSqr ((i + 1) * array[i] - ((array.take i).sum + array[i])) = squares array (i + 1) := by
    rw [squares, squares, List.map_take, List.map_take,
      List.sum_take_succ (array.map (· ^ 2)) i (by rwa [List.length_map]),
      List.sum_take_succ array i h, List.getElem_map, add_sub_cancel_right, mathfSqr,
      Nat.cast_succ]
    field_simp
    ring
  rw [deviations, deviations, Deviations.add]
  dsimp only
  rw [hsquares, List.sum_take_succ array i h, Nat.cast_succ]

private theorem squares_length (h : array ≠ []) :
    squares array array.length =
      (array.map fun x => (x - array.sum / array.length) ^ 2).sum := by
  have hn : (array.length : K) ≠ 0 := Nat.cast_ne_zero.mpr (List.length_pos_iff.mpr h).ne'
  have hexpand (mean : K) : (array.map fun x => (x - mean) ^ 2).sum =
      (array.map (· ^ 2)).sum - 2 * mean * array.sum + array.length * mean ^ 2 := by
    clear h hn
    induction array with
    | nil => simp
    | cons a rest ih =>
      rw [List.map_cons, List.sum_cons, ih, List.map_cons, List.sum_cons, List.sum_cons,
        List.length_cons, Nat.cast_succ]
      ring
  rw [squares, List.take_length, hexpand]
  field_simp
  ring

theorem statsVariance_eq (h : array ≠ []) :
    statsVariance array array.length = .ok (populationVariance array) := by
  have hpos : 0 < array.length := List.length_pos_iff.mpr h
  have hfirst : deviations array 1 = { n := 1, m := array[0], sum := 0 } := by
    obtain ⟨a, rest, rfl⟩ := List.exists_cons_of_ne_nil h
    simp [deviations, squares]
  have hloop : scalarLoop (fun (d : Deviations K) _ x => d.add x) array 1 array.length
      (deviations array 1) = .ok (deviations array array.length) :=
    scalarLoop_eq (deviations array) hpos fun i hi => add_deviations hi
  rw [statsVariance, floatAt_of_lt hpos, bind_ok, ← hfirst, hloop, bind_ok, deviations]
  dsimp only
  rw [squares_length h, populationVariance]

theorem statsVariance_two : statsVariance [1, (3 : ℚ)] 2 = .ok 1 :=
  (statsVariance_eq (List.cons_ne_nil _ _)).trans
    (congrArg Except.ok (by norm_num [populationVariance]))

end Variance

end Libromano.Stats
