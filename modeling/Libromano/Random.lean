/- The generators of `random.c` and `random.h` that give whole words, each with a static variable
   of its own. Calls of them may stand in any order. -/

import Libromano.Foundation.Mixing
import Mathlib.Algebra.Order.Ring.Nat
import Mathlib.Data.List.Count
import Mathlib.Data.Nat.GCD.Basic
import Mathlib.Data.Nat.Prime.Basic
import Mathlib.Logic.Function.Iterate
import Mathlib.Tactic.Ring

set_option autoImplicit false
set_option relaxedAutoImplicit false

namespace Libromano.Random

open Foundation.Mixing Function

def wangHash (seed : UInt32) : UInt32 :=
  let seed := (seed ^^^ (61 : UInt32)) ^^^ (seed >>> 16)
  let seed := seed * 9
  let seed := seed ^^^ (seed >>> 4)
  let seed := seed * 0x27d4eb2d
  let seed := seed ^^^ (seed >>> 15)
  1 + seed

def xorshift32 (state : UInt32) : UInt32 :=
  let state := state ^^^ (state <<< 13)
  let state := state ^^^ (state >>> 17)
  state ^^^ (state <<< 5)

def murmur64 (h : UInt64) : UInt64 :=
  let h := h ^^^ (h >>> 33)
  let h := h * 0xff51afd7ed558ccd
  let h := h ^^^ (h >>> 33)
  let h := h * 0xc4ceb9fe1a85ec53
  h ^^^ (h >>> 33)

/-- The static variables. -/
structure Statics where
  wyhash64X : UInt64
  lehmer64State : BitVec 128
  stateNextUint32 : UInt32
  stateNextUint64 : UInt64
  deriving DecidableEq

def Statics.start : Statics := ⟨1, 1, 0, 0⟩

def foldedMul (x y : UInt64) : UInt64 :=
  let tmp := x.toBitVec.setWidth 128 * y.toBitVec.setWidth 128
  ⟨((tmp >>> 64) ^^^ tmp).setWidth 64⟩

def randomWyhash64 (s : Statics) : UInt64 × Statics :=
  let wyhash64X := s.wyhash64X + 0x60bee2bee120fc15
  let m1 := foldedMul wyhash64X 0xa3b195354a39b70d
  let m2 := foldedMul m1 0x1b03738712fad5c9
  (m2, { s with wyhash64X := wyhash64X })

def randomLehmer64 (s : Statics) : UInt64 × Statics :=
  let lehmer64State := s.lehmer64State * 0xda942042e4dd58b5
  (⟨(lehmer64State >>> 64).setWidth 64⟩, { s with lehmer64State := lehmer64State })

def randomNextUint32 (s : Statics) : UInt32 × Statics :=
  let stateNextUint32 := s.stateNextUint32 + 1
  (xorshift32 (wangHash stateNextUint32), { s with stateNextUint32 := stateNextUint32 })

def randomNextUint64 (s : Statics) : UInt64 × Statics :=
  let stateNextUint64 := s.stateNextUint64 + 1
  (murmur64 stateNextUint64, { s with stateNextUint64 := stateNextUint64 })

inductive Call
  | wyhash64
  | lehmer64
  | nextUint32
  | nextUint64
  deriving DecidableEq

def call (s : Statics) : Call → UInt64 × Statics
  | .wyhash64 => randomWyhash64 s
  | .lehmer64 => randomLehmer64 s
  | .nextUint32 => let (x, s) := randomNextUint32 s; (x.toUInt64, s)
  | .nextUint64 => randomNextUint64 s

/-- What one of the generators gives in a run. -/
def values (which : Call) (s : Statics) : List Call → List UInt64
  | [] => []
  | c :: calls =>
    let rest := values which (call s c).2 calls
    if c = which then (call s c).1 :: rest else rest

section Values

variable {σ : Type} {which : Call} {get : Statics → σ} {next : σ → σ} {out : σ → UInt64}

structure Owns (which : Call) (get : Statics → σ) (next : σ → σ) (out : σ → UInt64) : Prop where
  value : ∀ s, (call s which).1 = out (next (get s))
  own : ∀ s, get (call s which).2 = next (get s)
  others : ∀ s c, c ≠ which → get (call s c).2 = get s

private theorem Owns.values_eq (h : Owns which get next out) (s : Statics) (calls : List Call) :
    values which s calls =
      (List.range (calls.count which)).map fun i => out (next^[i + 1] (get s)) := by
  induction calls generalizing s with
  | nil => rfl
  | cons c calls ih =>
    rw [values]
    by_cases hc : c = which
    · subst hc
      rw [if_pos rfl, List.count_cons_self, List.range_succ_eq_map, List.map_cons, List.map_map, ih,
        h.value, h.own]
      rfl
    · rw [if_neg hc, List.count_cons_of_ne hc, ih, h.others s c hc]

private theorem Owns.getElem_values (h : Owns which get next out) (s : Statics) (calls : List Call)
    {i : ℕ}
    (hi : i < (values which s calls).length) :
    (values which s calls)[i] = out (next^[i + 1] (get s)) := by
  simp only [h.values_eq, List.getElem_map, List.getElem_range]

private theorem Owns.getElem?_values (h : Owns which get next out) (s : Statics) {calls : List Call}
    {i : ℕ}
    (hi : i < calls.count which) :
    (values which s calls)[i]? = some (out (next^[i + 1] (get s))) := by
  rw [h.values_eq, List.getElem?_map, List.getElem?_range hi]
  rfl

end Values

private theorem xorshift32_injective : Injective xorshift32 :=
  ((xorShiftLeft32_injective (by decide)).comp (xorShiftRight32_injective (by decide))).comp
    (xorShiftLeft32_injective (by decide))

private theorem wangHash_injective : Injective wangHash := by
  have hfirst : Injective fun seed : UInt32 => (seed ^^^ (61 : UInt32)) ^^^ (seed >>> 16) := by
    intro x y h
    have hcomm : ∀ z : UInt32, (z ^^^ (61 : UInt32)) ^^^ (z >>> 16) =
        (z ^^^ (z >>> 16)) ^^^ (61 : UInt32) := fun z => by
      rw [UInt32.xor_assoc, UInt32.xor_comm 61, ← UInt32.xor_assoc]
    simp only [hcomm] at h
    exact xorShiftRight32_injective (k := 16) (by decide) (xor32_injective 61 h)
  have hlast : Injective fun seed : UInt32 => 1 + seed :=
    fun x y h => (UInt32.add_right_inj 1).mp h
  exact ((((hlast.comp (xorShiftRight32_injective (k := 15) (by decide))).comp
    (mul32_injective (c := 0x27d4eb2d) (by decide))).comp
      (xorShiftRight32_injective (k := 4) (by decide))).comp
        (mul32_injective (c := 9) (by decide))).comp hfirst

private theorem murmur64_injective : Injective murmur64 :=
  ((((xorShiftRight64_injective (by decide)).comp (mul64_injective (by decide))).comp
    (xorShiftRight64_injective (by decide))).comp (mul64_injective (by decide))).comp
      (xorShiftRight64_injective (by decide))

/-! A call changes the variable of its own generator. -/

private theorem call_wyhash64 (s : Statics) :
    ∃ value x, call s .wyhash64 = (value, { s with wyhash64X := x }) := ⟨_, _, rfl⟩

private theorem call_lehmer64 (s : Statics) :
    ∃ value x, call s .lehmer64 = (value, { s with lehmer64State := x }) := ⟨_, _, rfl⟩

private theorem call_nextUint32 (s : Statics) :
    ∃ value x, call s .nextUint32 = (value, { s with stateNextUint32 := x }) := ⟨_, _, rfl⟩

private theorem call_nextUint64 (s : Statics) :
    ∃ value x, call s .nextUint64 = (value, { s with stateNextUint64 := x }) := ⟨_, _, rfl⟩

private theorem call_others (s : Statics) (c : Call) :
    (c ≠ .lehmer64 → (call s c).2.lehmer64State = s.lehmer64State) ∧
    (c ≠ .nextUint32 → (call s c).2.stateNextUint32 = s.stateNextUint32) ∧
    (c ≠ .nextUint64 → (call s c).2.stateNextUint64 = s.stateNextUint64) := by
  cases c with
  | wyhash64 =>
    obtain ⟨value, x, hcall⟩ := call_wyhash64 s
    rw [hcall]
    exact ⟨fun _ => rfl, fun _ => rfl, fun _ => rfl⟩
  | lehmer64 =>
    obtain ⟨value, x, hcall⟩ := call_lehmer64 s
    rw [hcall]
    exact ⟨fun h => absurd rfl h, fun _ => rfl, fun _ => rfl⟩
  | nextUint32 =>
    obtain ⟨value, x, hcall⟩ := call_nextUint32 s
    rw [hcall]
    exact ⟨fun _ => rfl, fun h => absurd rfl h, fun _ => rfl⟩
  | nextUint64 =>
    obtain ⟨value, x, hcall⟩ := call_nextUint64 s
    rw [hcall]
    exact ⟨fun _ => rfl, fun _ => rfl, fun h => absurd rfl h⟩

/-- In whatever order the generators are called, one of them gives the same value at two of its calls
exactly if a multiple of `m` of them lies between, and each value within `m` of them. -/
def Cycles {β : Type} (which : Call) (s : Statics) (m : ℕ) (word : β → UInt64) : Prop :=
  (∀ calls i j (hi : i < (values which s calls).length) (hj : j < (values which s calls).length),
    (values which s calls)[i] = (values which s calls)[j] ↔ i ≡ j [MOD m]) ∧
  ∀ value, ∃ i < m, ∀ calls, i < calls.count which → (values which s calls)[i]? = some (word value)

private theorem Owns.cycles {β σ : Type} {which : Call} {get : Statics → σ} {next : σ → σ}
    {mix : σ → β}
    {word : β → UInt64} {m : ℕ} (h : Owns which get next (word ∘ mix)) (hcounts : Counts next m)
    (hmix : Bijective mix) (hword : Injective word) (s : Statics) : Cycles which s m word := by
  refine ⟨fun calls i j hi hj => ?_, fun value => ?_⟩
  · rw [h.getElem_values s calls hi, h.getElem_values s calls hj,
      (hword.comp hmix.injective).eq_iff, hcounts.same]
  · obtain ⟨x, rfl⟩ := hmix.surjective value
    obtain ⟨i, hi, hx⟩ := hcounts.reaches (get s) x
    refine ⟨i, hi, fun calls hcalls => ?_⟩
    rw [h.getElem?_values s hcalls, hx]
    rfl

private theorem owns_nextUint32 : Owns .nextUint32 Statics.stateNextUint32 (fun x => x + 1)
    (UInt32.toUInt64 ∘ xorshift32 ∘ wangHash) :=
  ⟨fun _ => rfl, fun _ => rfl, fun s c hc => (call_others s c).2.1 hc⟩

private theorem owns_nextUint64 : Owns .nextUint64 Statics.stateNextUint64 (fun x => x + 1)
    (id ∘ murmur64) :=
  ⟨fun _ => rfl, fun _ => rfl, fun s c hc => (call_others s c).2.2 hc⟩

/-- `random_next_uint32` and `random_next_uint64` give each word once before they give one again. -/
theorem next_cycles (s : Statics) :
    Cycles .nextUint32 s (2 ^ 32) UInt32.toUInt64 ∧ Cycles .nextUint64 s (2 ^ 64) id := by
  have hmix : Injective (xorshift32 ∘ wangHash) := xorshift32_injective.comp wangHash_injective
  exact ⟨owns_nextUint32.cycles counts32 ⟨hmix, surjective32 hmix⟩
      (fun _ _ h => UInt32.toUInt64_inj.mp h) s,
    owns_nextUint64.cycles counts64 ⟨murmur64_injective, surjective64 murmur64_injective⟩
      injective_id s⟩

def upperHalf (x : BitVec 128) : UInt64 := ⟨(x >>> 64).setWidth 64⟩

private theorem owns_lehmer64 :
    Owns .lehmer64 Statics.lehmer64State (fun x => x * 0xda942042e4dd58b5)
    upperHalf :=
  ⟨fun _ => rfl, fun _ => rfl, fun s c hc => (call_others s c).1 hc⟩

private theorem toNat_upperHalf (x : BitVec 128) : (upperHalf x).toNat = x.toNat / 2 ^ 64 := by
  change ((x >>> 64).setWidth 64).toNat = _
  rw [BitVec.toNat_setWidth, BitVec.toNat_ushiftRight, Nat.shiftRight_eq_div_pow]
  exact Nat.mod_eq_of_lt (by omega)

private theorem upperHalf_ne {x y : BitVec 128} (h : y.toNat = (x.toNat + 2 ^ 127) % 2 ^ 128) :
    upperHalf y ≠ upperHalf x := by
  intro hsame
  have hnat := congrArg UInt64.toNat hsame
  rw [toNat_upperHalf, toNat_upperHalf, h] at hnat
  omega

/-- The words that the generator goes through, from the first one that it makes. -/
def lehmerState (i : ℕ) : BitVec 128 := (fun x : BitVec 128 => x * 0xda942042e4dd58b5)^[i + 1] 1

private theorem lehmerState_full (i : ℕ) : lehmerState (i + 2 ^ (125 + 1)) = lehmerState i := by
  have hfull := iterate_mul_full (n := 125) (c := 0xda942042e4dd58b5) (x := 1)
    (a := (0xda942042e4dd58b5 - 1) / 4) (by decide) (by decide) (i + 1)
  rw [lehmerState, lehmerState, Nat.add_right_comm]
  exact hfull

private theorem lehmerState_half :
    (lehmerState (0 + 2 ^ 125)).toNat = ((lehmerState 0).toNat + 2 ^ 127) % 2 ^ 128 := by
  have hhalf := iterate_mul_half (n := 125) (c := 0xda942042e4dd58b5) (x := lehmerState 0)
    (a := (0xda942042e4dd58b5 - 1) / 4) (by decide) (by decide) (by decide)
  rw [lehmerState, Nat.zero_add, iterate_succ_apply]
  exact hhalf

/-- In whatever order the generators are called, the results of `random_lehmer_64` come back after
`2 ^ 126` of its calls, and after no number of them that is not a multiple of that. -/
theorem lehmer64_values_period (p : ℕ) : (∀ calls i, i + p < calls.count .lehmer64 →
    (values .lehmer64 Statics.start calls)[i + p]? = (values .lehmer64 Statics.start calls)[i]?) ↔
      2 ^ 126 ∣ p := by
  have hvalue : ∀ calls i, i < calls.count .lehmer64 →
      (values .lehmer64 Statics.start calls)[i]? = some (upperHalf (lehmerState i)) :=
    fun calls i hi => owns_lehmer64.getElem?_values Statics.start hi
  rw [← periodic_iff_dvd (f := fun i => upperHalf (lehmerState i)) (k := 125)
    (fun i => congrArg upperHalf (lehmerState_full i)) ⟨0, upperHalf_ne lehmerState_half⟩]
  constructor
  · intro h i
    have hlong := h (List.replicate (i + p + 1) .lehmer64) i
      (by rw [List.count_replicate_self]; exact Nat.lt_succ_self _)
    rw [hvalue _ _ (by rw [List.count_replicate_self]; omega),
      hvalue _ _ (by rw [List.count_replicate_self]; omega)] at hlong
    exact Option.some.inj hlong
  · intro h calls i hi
    rw [hvalue calls (i + p) hi, hvalue calls i (by omega)]
    exact congrArg some (h i)

end Libromano.Random
