/- The loops of the statistics: one that reads an element at each turn, and one that reads a block
   of `w` elements at each turn. The latter goes up to `n % w`, and so is taken at most once. -/

import Libromano.Floats
import Libromano.Foundation.Loops

set_option autoImplicit false
set_option relaxedAutoImplicit false

namespace Libromano.Stats

open Floats
open Foundation.Loops

variable {R S : Type}

/-- `for(i = start; i < stop; i++)`, with `array[i]` read. -/
def scalarLoop (f : S → ℕ → R → S) (array : List R) (start stop : ℕ) (s : S) : Except Fault S :=
  (counters start stop 1).foldlM (fun s i => do
    let x ← floatAt array i
    .ok (f s i x)) s

/-- `for(i = 0; i < stop; i += w)`, with `w` elements from `array[i]` on read. -/
def blockLoop (w : ℕ) (f : S → ℕ → (Fin w → R) → S) (array : List R) (stop : ℕ) (s : S) :
    Except Fault S :=
  (counters 0 stop w).foldlM (fun s i => do
    let v ← loaduPs w array i
    .ok (f s i v)) s

def firstBlock {w : ℕ} (array : List R) (h : w ≤ array.length) : Fin w → R :=
  fun l => array.get ⟨l, Nat.lt_of_lt_of_le l.isLt h⟩

theorem ofFn_firstBlock {w : ℕ} {array : List R} (h : w ≤ array.length) :
    List.ofFn (firstBlock array h) = array.take w := by
  apply List.ext_getElem
  · rw [List.length_ofFn, List.length_take, Nat.min_eq_left h]
  · intro i hi _
    rw [List.getElem_ofFn, List.getElem_take]
    rfl

section Scalar

variable {f : S → ℕ → R → S} {array : List R}

theorem scalarLoop_eq {start : ℕ} (g : ℕ → S) (hstart : start ≤ array.length)
    (hstep : ∀ i (h : i < array.length), start ≤ i → f (g i) i array[i] = g (i + 1)) :
    scalarLoop f array start array.length (g start) = .ok (g array.length) := by
  have hturns : turns start array.length 1 = array.length - start := turns_one _ _
  have hloop : (List.range' start (array.length - start) 1).foldlM (fun s i => do
      let x ← floatAt array i
      .ok (f s i x)) (g (start + 0)) = .ok (g (start + (array.length - start))) :=
    foldlM_eq (fun t => g (start + t)) fun t ht => by
      rw [Nat.one_mul, floatAt_of_lt (show start + t < array.length by omega), bind_ok,
        hstep _ (by omega) (Nat.le_add_right start t)]
      rfl
  rw [scalarLoop, counters, hturns]
  rw [Nat.add_zero, Nat.add_sub_cancel' hstart] at hloop
  exact hloop

theorem scalarLoop_fold {op : S → R → S} {start : ℕ} (hstart : start ≤ array.length) (s : S) :
    scalarLoop (fun s _ x => op s x) array start array.length s =
      .ok ((array.drop start).foldl op s) := by
  let g (i : ℕ) : S := ((array.drop start).take (i - start)).foldl op s
  have hstep (i : ℕ) (h : i < array.length) (hle : start ≤ i) : op (g i) array[i] = g (i + 1) := by
    have hlt : i - start < (array.drop start).length := by rw [List.length_drop]; omega
    have hget : (array.drop start)[i - start] = array[i] := by
      rw [List.getElem_drop]
      congr 1
      omega
    dsimp only [g]
    rw [show i + 1 - start = i - start + 1 by omega, List.take_add_one, List.foldl_append,
      List.getElem?_eq_getElem hlt, hget]
    rfl
  have hloop : scalarLoop (fun s _ x => op s x) array start array.length (g start) = _ :=
    scalarLoop_eq g hstart hstep
  dsimp only [g] at hloop
  rw [Nat.sub_self, List.take_zero, ← List.length_drop, List.take_length] at hloop
  exact hloop

end Scalar

section Blocks

variable {w : ℕ} {f : S → ℕ → (Fin w → R) → S} {array : List R} {n : ℕ}

theorem counted_eq (hw : 0 < w) : counted 0 (n % w) w = if n % w = 0 then 0 else w := by
  rw [counted, turns_of_lt (Nat.mod_lt n hw)]
  split_ifs <;> omega

theorem blockLoop_aligned (hw : 0 < w) (h : n % w = 0) (s : S) :
    blockLoop w f array (n % w) s = .ok s := by
  rw [blockLoop, counters, turns_of_lt (Nat.mod_lt n hw), if_pos h]
  rfl

private theorem blockLoop_once (hw : 0 < w) (h : n % w ≠ 0) (s : S) :
    blockLoop w f array (n % w) s = (do
      let v ← loaduPs w array 0
      .ok (f s 0 v)) := by
  rw [blockLoop, counters, turns_of_lt (Nat.mod_lt n hw), if_neg h, List.range'_one,
    List.foldlM_cons]
  exact bind_pure _

theorem blockLoop_first (hw : 0 < w) (h : n % w ≠ 0) (hle : w ≤ array.length) (s : S) :
    blockLoop w f array (n % w) s = .ok (f s 0 (firstBlock array hle)) := by
  have hload : loaduPs w array 0 = .ok (firstBlock array hle) := by
    rw [loaduPs, dif_pos (by rwa [Nat.zero_add])]
    congr 1
    ext l
    rw [firstBlock]
    congr 2
    exact Nat.zero_add _
  rw [blockLoop_once hw h, hload, bind_ok]

theorem blockLoop_short (hlt : array.length < w) (h : n % w ≠ 0) (s : S) :
    blockLoop w f array (n % w) s = .error .outOfBounds := by
  rw [blockLoop_once (Nat.zero_lt_of_lt hlt) h, loaduPs_out (by rwa [Nat.zero_add]), bind_error]

end Blocks

end Libromano.Stats
