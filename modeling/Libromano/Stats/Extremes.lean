/- The minimum, the maximum and the range of an array, in every vectorization mode. The AVX
   versions need a whole block of elements, and the SSE versions look at the first lane of the
   block only. -/

import Libromano.Simd
import Libromano.Stats.Sweep
import Mathlib.Algebra.Order.Group.Abs
import Mathlib.Algebra.Order.Ring.Int
import Mathlib.Order.Bounds.Basic

set_option autoImplicit false
set_option relaxedAutoImplicit false

namespace Libromano.Stats

open Floats Simd
open Foundation.Loops
open Foundation.Packed

variable {R S : Type}

section Sweeps

def sweepScalar (init : R → S) (f : S → R → S) (array : List R) (n : ℕ) : Except Fault S := do
  let x ← floatAt array 0
  scalarLoop (fun s _ x => f s x) array 1 n (init x)

/-- The versions over blocks of `w` elements. -/
def sweepPacked (w : ℕ) (init : R → S) (f : S → R → S) (fv : S → (Fin w → R) → S)
    (array : List R) (n : ℕ) : Except Fault S := do
  let x ← floatAt array 0
  let loop := n % w
  let s ← blockLoop w (fun s _ v => fv s v) array loop (init x)
  scalarLoop (fun s _ x => f s x) array (counted 0 loop w) n s

variable {init : R → S} {f : S → R → S} {a : R} {rest : List R}

private theorem sweepScalar_eq (hfirst : f (init a) a = init a) :
    sweepScalar init f (a :: rest) (a :: rest).length = .ok ((a :: rest).foldl f (init a)) := by
  rw [sweepScalar, floatAt_of_lt (Nat.succ_pos _), bind_ok, List.getElem_cons_zero,
    scalarLoop_fold (Nat.succ_pos _), List.foldl_cons, hfirst]
  rfl

variable {w : ℕ} {fv : S → (Fin w → R) → S}

private theorem sweepPacked_aligned (hw : 0 < w) (h : (a :: rest).length % w = 0) :
    sweepPacked w init f fv (a :: rest) (a :: rest).length =
      .ok ((a :: rest).foldl f (init a)) := by
  rw [sweepPacked, floatAt_of_lt (Nat.succ_pos _), bind_ok, List.getElem_cons_zero]
  dsimp only
  rw [blockLoop_aligned hw h, bind_ok, counted_eq hw, if_pos h, scalarLoop_fold (Nat.zero_le _),
    List.drop_zero]

private theorem sweepPacked_first (hw : 0 < w) (h : (a :: rest).length % w ≠ 0)
    (hle : w ≤ (a :: rest).length) :
    sweepPacked w init f fv (a :: rest) (a :: rest).length =
      .ok (((a :: rest).drop w).foldl f (fv (init a) (firstBlock (a :: rest) hle))) := by
  rw [sweepPacked, floatAt_of_lt (Nat.succ_pos _), bind_ok, List.getElem_cons_zero]
  dsimp only
  rw [blockLoop_first hw h hle, bind_ok, counted_eq hw, if_neg h, scalarLoop_fold hle]

private theorem sweepPacked_short (hlt : (a :: rest).length < w) :
    sweepPacked w init f fv (a :: rest) (a :: rest).length = .error .outOfBounds := by
  have hmod : (a :: rest).length % w ≠ 0 := by
    rw [Nat.mod_eq_of_lt hlt]
    exact Nat.succ_ne_zero _
  rw [sweepPacked, floatAt_of_lt (Nat.succ_pos _), bind_ok]
  dsimp only
  rw [blockLoop_short hlt hmod, bind_error]

private theorem sweepPacked_eq (hw : 0 < w) (hle : w ≤ (a :: rest).length)
    (hfold : ∀ s v, fv s v = (List.ofFn v).foldl f s) :
    sweepPacked w init f fv (a :: rest) (a :: rest).length =
      .ok ((a :: rest).foldl f (init a)) := by
  by_cases h : (a :: rest).length % w = 0
  · exact sweepPacked_aligned hw h
  · rw [sweepPacked_first hw h hle, hfold, ofFn_firstBlock, ← List.foldl_append,
      List.take_append_drop]

private theorem foldl_pair {f g : R → R → R} (array : List R) (x y : R) :
    array.foldl (fun s x => (f s.1 x, g s.2 x)) (x, y) = (array.foldl f x, array.foldl g y) := by
  induction array generalizing x y with
  | nil => rfl
  | cons a rest ih => exact ih _ _

end Sweeps

section Functions

variable [Zero R] [Lattice R] [Neg R] [Sub R]

def statsMinScalar (array : List R) (n : ℕ) : Except Fault R := sweepScalar id mathfMin array n

def statsMinSse (array : List R) (n : ℕ) : Except Fault R :=
  sweepPacked 4 id mathfMin (fun min v => mathfMin min (mmHminPs v)) array n

def statsMinAvx (array : List R) (n : ℕ) : Except Fault R :=
  sweepPacked 8 id mathfMin (fun min v => mathfMin min (mm256HminPs v)) array n

def statsMinAvx5 (array : List R) (n : ℕ) : Except Fault R := statsMinAvx array n

def statsMin (mode : VectorizationMode) (array : List R) (n : ℕ) : Except Fault R :=
  match mode with
  | .scalar => statsMinScalar array n
  | .sse => statsMinSse array n
  | .avx => statsMinAvx array n
  | .avx2 => statsMinAvx array n
  | .avx512 => statsMinAvx5 array n

def statsMaxScalar (array : List R) (n : ℕ) : Except Fault R := sweepScalar id mathfMax array n

def statsMaxSse (array : List R) (n : ℕ) : Except Fault R :=
  sweepPacked 4 id mathfMax (fun max v => mathfMax max (mmHmaxPs v)) array n

def statsMaxAvx (array : List R) (n : ℕ) : Except Fault R :=
  sweepPacked 8 id mathfMax (fun max v => mathfMax max (mm256HmaxPs v)) array n

def statsMaxAvx5 (array : List R) (n : ℕ) : Except Fault R := statsMaxAvx array n

def statsMax (mode : VectorizationMode) (array : List R) (n : ℕ) : Except Fault R :=
  match mode with
  | .scalar => statsMaxScalar array n
  | .sse => statsMaxSse array n
  | .avx => statsMaxAvx array n
  | .avx2 => statsMaxAvx array n
  | .avx512 => statsMaxAvx5 array n

def widen (s : R × R) (x : R) : R × R := (mathfMin s.1 x, mathfMax s.2 x)

def statsRangeScalar (array : List R) (n : ℕ) : Except Fault R := do
  let s ← sweepScalar (fun x => (x, x)) widen array n
  .ok (mathfAbs (s.2 - s.1))

def statsRangeSse (array : List R) (n : ℕ) : Except Fault R := do
  let s ← sweepPacked 4 (fun x => (x, x)) widen
    (fun s v => (mathfMin s.1 (mmHminPs v), mathfMax s.2 (mmHmaxPs v))) array n
  .ok (mathfAbs (s.2 - s.1))

def statsRangeAvx (array : List R) (n : ℕ) : Except Fault R := do
  let s ← sweepPacked 8 (fun x => (x, x)) widen
    (fun s v => (mathfMin s.1 (mm256HminPs v), mathfMax s.2 (mm256HmaxPs v))) array n
  .ok (mathfAbs (s.2 - s.1))

def statsRangeAvx5 (array : List R) (n : ℕ) : Except Fault R := statsRangeAvx array n

def statsRange (mode : VectorizationMode) (array : List R) (n : ℕ) : Except Fault R :=
  match mode with
  | .scalar => statsRangeScalar array n
  | .sse => statsRangeSse array n
  | .avx => statsRangeAvx array n
  | .avx2 => statsRangeAvx array n
  | .avx512 => statsRangeAvx5 array n

end Functions

section Values

/-- The elements that the SSE versions look at. -/
def seen (array : List R) : List R :=
  if array.length % 4 = 0 then array else array.take 1 ++ array.drop 4

private theorem mem_seen_cons {a : R} {rest : List R} : a ∈ seen (a :: rest) := by
  rw [seen]
  split_ifs <;> exact List.mem_cons_self

private theorem mem_of_mem_seen {array : List R} {x : R} (h : x ∈ seen array) : x ∈ array := by
  rw [seen] at h
  split_ifs at h with haligned
  · exact h
  · rcases List.mem_append.mp h with htake | hdrop
    · exact List.mem_of_mem_take htake
    · exact List.mem_of_mem_drop hdrop

private theorem foldl_widen [LinearOrder R] (array : List R) (x y : R) :
    array.foldl widen (x, y) = (array.foldl min x, array.foldl max y) :=
  foldl_pair array x y

variable [LinearOrder R]

private theorem isLeast_foldl {array : List R} {a : R} (h : a ∈ array) :
    IsLeast {x | x ∈ array} (array.foldl min a) := by
  have hmin : (a :: array).min? = some (array.foldl min a) := rfl
  obtain ⟨hmem, hle⟩ := List.min?_eq_some_iff.mp hmin
  refine ⟨?_, fun x hx => hle x (List.mem_cons_of_mem a hx)⟩
  rcases List.mem_cons.mp hmem with heq | hmem
  · change _ ∈ array
    rw [heq]
    exact h
  · exact hmem

private theorem isGreatest_foldl {array : List R} {a : R} (h : a ∈ array) :
    IsGreatest {x | x ∈ array} (array.foldl max a) := by
  have hmax : (a :: array).max? = some (array.foldl max a) := rfl
  obtain ⟨hmem, hle⟩ := List.max?_eq_some_iff.mp hmax
  refine ⟨?_, fun x hx => hle x (List.mem_cons_of_mem a hx)⟩
  rcases List.mem_cons.mp hmem with heq | hmem
  · change _ ∈ array
    rw [heq]
    exact h
  · exact hmem

variable [AddCommGroup R] {a : R} {rest : List R}

/-- The three functions return the extremes of the elements in `found`, and their distance. -/
structure Returns (mode : VectorizationMode) (array found : List R) (a : R) : Prop where
  least : statsMin mode array array.length = .ok (found.foldl min a)
  greatest : statsMax mode array array.length = .ok (found.foldl max a)
  distance : statsRange mode array array.length =
    .ok (mathfAbs (found.foldl max a - found.foldl min a))

private theorem returns_scalar : Returns .scalar (a :: rest) (a :: rest) a where
  least := sweepScalar_eq (min_self a)
  greatest := sweepScalar_eq (max_self a)
  distance := by
    have hwiden : widen (a, a) a = (a, a) := Prod.ext (min_self a) (max_self a)
    have hsweep : sweepScalar (fun x => (x, x)) widen (a :: rest) (a :: rest).length = _ :=
      sweepScalar_eq hwiden
    rw [foldl_widen] at hsweep
    change statsRangeScalar _ _ = _
    rw [statsRangeScalar, hsweep, bind_ok]

private theorem returns_sse_aligned (h : (a :: rest).length % 4 = 0) :
    Returns .sse (a :: rest) (a :: rest) a where
  least := sweepPacked_aligned (by decide) h
  greatest := sweepPacked_aligned (by decide) h
  distance := by
    change statsRangeSse _ _ = _
    rw [statsRangeSse, sweepPacked_aligned (by decide) h, foldl_widen, bind_ok]

private theorem returns_sse_first (h : (a :: rest).length % 4 ≠ 0)
    (hle : 4 ≤ (a :: rest).length) : Returns .sse (a :: rest) (a :: (a :: rest).drop 4) a where
  least := by
    change statsMinSse _ _ = _
    rw [statsMinSse, sweepPacked_first (by decide) h hle, mmHminPs_eq]
    rfl
  greatest := by
    change statsMaxSse _ _ = _
    rw [statsMaxSse, sweepPacked_first (by decide) h hle, mmHmaxPs_eq]
    rfl
  distance := by
    change statsRangeSse _ _ = _
    rw [statsRangeSse, sweepPacked_first (by decide) h hle, mmHminPs_eq, mmHmaxPs_eq,
      foldl_widen, bind_ok]
    rfl

private theorem returns_sse (hle : 4 ≤ (a :: rest).length) :
    Returns .sse (a :: rest) (seen (a :: rest)) a := by
  by_cases h : (a :: rest).length % 4 = 0
  · rw [seen, if_pos h]
    exact returns_sse_aligned h
  · rw [seen, if_neg h]
    exact returns_sse_first h hle

private theorem returns_avx (hle : 8 ≤ (a :: rest).length) : Returns .avx (a :: rest)
    (a :: rest) a where
  least := sweepPacked_eq (by decide) hle fun s v => min_mm256HminPs v s
  greatest := sweepPacked_eq (by decide) hle fun s v => max_mm256HmaxPs v s
  distance := by
    have hfold (s : R × R) (v : M256 R) :
        (mathfMin s.1 (mm256HminPs v), mathfMax s.2 (mm256HmaxPs v)) =
          (List.ofFn v).foldl widen s := by
      rw [← Prod.mk.eta (p := s), foldl_widen]
      exact Prod.ext (min_mm256HminPs v s.1) (max_mm256HmaxPs v s.2)
    change statsRangeAvx _ _ = _
    rw [statsRangeAvx, sweepPacked_eq (by decide) hle hfold, foldl_widen, bind_ok]

private theorem statsMin_avx_short (hlt : (a :: rest).length < 8) :
    statsMin .avx (a :: rest) (a :: rest).length = .error .outOfBounds :=
  sweepPacked_short hlt

end Values

section Results

variable [AddCommGroup R] [LinearOrder R]

/-- In every mode the least element is returned, the greatest and their difference, and no
element outside the array is read. -/
def ExtremesReturned (array : List R) : Prop :=
  ∃ lo hi, IsLeast {x | x ∈ array} lo ∧ IsGreatest {x | x ∈ array} hi ∧ ∀ mode,
    statsMin mode array array.length = .ok lo ∧ statsMax mode array array.length = .ok hi ∧
      statsRange mode array array.length = .ok (hi - lo)

variable [IsOrderedAddMonoid R]

private theorem Returns.extremes {mode : VectorizationMode} {array found : List R} {a lo hi : R}
    (h : Returns mode array found a) (ha : a ∈ found) (hfound : ∀ x ∈ found, x ∈ array)
    (hlo : IsLeast {x | x ∈ array} lo) (hhi : IsGreatest {x | x ∈ array} hi) (hmem : lo ∈ found)
    (hmem' : hi ∈ found) :
    statsMin mode array array.length = .ok lo ∧ statsMax mode array array.length = .ok hi ∧
      statsRange mode array array.length = .ok (hi - lo) := by
  have hleast : found.foldl min a = lo :=
    (isLeast_foldl ha).unique ⟨hmem, fun x hx => hlo.2 (hfound x hx)⟩
  have hgreatest : found.foldl max a = hi :=
    (isGreatest_foldl ha).unique ⟨hmem', fun x hx => hhi.2 (hfound x hx)⟩
  have habs : mathfAbs (hi - lo) = hi - lo := abs_of_nonneg (sub_nonneg.mpr (hlo.2 hhi.1))
  refine ⟨hleast ▸ h.least, hgreatest ▸ h.greatest, ?_⟩
  rw [h.distance, hleast, hgreatest, habs]

/-- The extremes are found where there is a block for the AVX versions, and where a least and a
greatest element are among those that the SSE versions look at. -/
theorem extremesReturned_iff {array : List R} (h : array ≠ []) :
    ExtremesReturned array ↔ 8 ≤ array.length ∧
      ∃ lo ∈ seen array, ∃ hi ∈ seen array, ∀ x ∈ array, lo ≤ x ∧ x ≤ hi := by
  obtain ⟨a, rest, rfl⟩ := List.exists_cons_of_ne_nil h
  constructor
  · rintro ⟨lo, hi, hlo, hhi, hmodes⟩
    have hlength : 8 ≤ (a :: rest).length := by
      by_contra hlt
      have hmin := (hmodes .avx).1
      rw [statsMin_avx_short (Nat.lt_of_not_le hlt)] at hmin
      cases hmin
    have hsse : Returns .sse (a :: rest) _ a := returns_sse (Nat.le_trans (by decide) hlength)
    have hleast := hsse.least.symm.trans (hmodes .sse).1
    have hgreatest := hsse.greatest.symm.trans (hmodes .sse).2.1
    refine ⟨hlength, lo, ?_, hi, ?_, fun x hx => ⟨hlo.2 hx, hhi.2 hx⟩⟩
    · rw [← Except.ok.inj hleast]
      exact (isLeast_foldl mem_seen_cons).1
    · rw [← Except.ok.inj hgreatest]
      exact (isGreatest_foldl mem_seen_cons).1
  · rintro ⟨hlength, lo, hlo, hi, hhi, hbounds⟩
    have hleast : IsLeast {x | x ∈ a :: rest} lo :=
      ⟨mem_of_mem_seen hlo, fun x hx => (hbounds x hx).1⟩
    have hgreatest : IsGreatest {x | x ∈ a :: rest} hi :=
      ⟨mem_of_mem_seen hhi, fun x hx => (hbounds x hx).2⟩
    have hall {mode : VectorizationMode} (hreturns : Returns mode (a :: rest) (a :: rest) a) :=
      hreturns.extremes List.mem_cons_self (fun _ hx => hx) hleast hgreatest hleast.1 hgreatest.1
    have havx := hall (returns_avx hlength)
    refine ⟨lo, hi, hleast, hgreatest, fun mode => ?_⟩
    cases mode with
    | scalar => exact hall returns_scalar
    | sse =>
      exact (returns_sse (Nat.le_trans (by decide) hlength)).extremes mem_seen_cons
        (fun _ => mem_of_mem_seen) hleast hgreatest hlo hhi
    | avx => exact havx
    | avx2 => exact havx
    | avx512 => exact havx

/-- Extremes that stand at the ends are seen. -/
theorem extremesReturned_descending : ExtremesReturned [9, 8, 7, 6, 5, 4, 3, 2, (1 : ℤ)] :=
  (extremesReturned_iff (by decide)).mpr (by decide)

/-- The SSE version misses the least element, which stands second. -/
theorem statsMin_misses :
    ¬ ∀ array : List ℤ, array ≠ [] → ExtremesReturned array := by
  intro h
  obtain ⟨lo, hi, -, -, hmodes⟩ := h [3, 0, 3, 3, 3, 3, 3, 3, 3] (by decide)
  have hscalar : statsMin .scalar [3, 0, 3, 3, 3, 3, 3, 3, (3 : ℤ)] 9 = .ok 0 := by decide
  have hsse : statsMin .sse [3, 0, 3, 3, 3, 3, 3, 3, (3 : ℤ)] 9 = .ok 3 := by decide
  cases hscalar.symm.trans ((hmodes .scalar).1.trans ((hmodes .sse).1.symm.trans hsse))

end Results

end Libromano.Stats
