/- The two implementations of `int128.h`, by the compiler's own type and by SSE2. -/

import Libromano.Foundation.Sse2

set_option autoImplicit false
set_option relaxedAutoImplicit false

namespace Libromano.Int128

open Foundation.Sse2

namespace Native

def makeUint128 (high low : BitVec 64) : BitVec 128 :=
  high.setWidth 128 <<< 64 ||| low.setWidth 128

def uint128Low (x : BitVec 128) : BitVec 64 := x.setWidth 64

def uint128High (x : BitVec 128) : BitVec 64 := (x >>> 64).setWidth 64

def uint128Add (a b : BitVec 128) : BitVec 128 := a + b

/-- An overflow of the signed type has no result. -/
def int128Add (a b : BitVec 128) : Option (BitVec 128) :=
  if a.saddOverflow b then none else some (a + b)

def uint128Sub (a b : BitVec 128) : BitVec 128 := a - b

def int128Sub (a b : BitVec 128) : Option (BitVec 128) :=
  if a.ssubOverflow b then none else some (a - b)

def uint128Eq (a b : BitVec 128) : ℤ := if a = b then 1 else 0

def uint128Lt (a b : BitVec 128) : ℤ := if a < b then 1 else 0

def uint128Gt (a b : BitVec 128) : ℤ := if a > b then 1 else 0

def uint128And (a b : BitVec 128) : BitVec 128 := a &&& b

def uint128Or (a b : BitVec 128) : BitVec 128 := a ||| b

def uint128Xor (a b : BitVec 128) : BitVec 128 := a ^^^ b

def uint128Not (a : BitVec 128) : BitVec 128 := ~~~a

def uint128Shl (a : BitVec 128) (count : ℤ) : BitVec 128 :=
  if count ≥ 128 then 0 else if count ≤ 0 then a else a <<< count.toNat

def uint128Shr (a : BitVec 128) (count : ℤ) : BitVec 128 :=
  if count ≥ 128 then 0 else if count ≤ 0 then a else a >>> count.toNat

end Native

namespace Sse2

def makeUint128 (high low : BitVec 64) : M128i := mmSetEpi64x high low

/-- `_mm_extract_epi64` of the lane 0. -/
def uint128Low (x : M128i) : BitVec 64 := x.low

/-- `_mm_extract_epi64` of the lane 1. -/
def uint128High (x : M128i) : BitVec 64 := x.high

def uint128Add (a b : M128i) : M128i :=
  let sum := mmAddEpi64 a b
  let aLow := uint128Low a
  let bLow := uint128Low b
  let sumLow := uint128Low sum
  if sumLow < aLow ∨ sumLow < bLow then mmAddEpi64 sum (mmSetEpi64x 1 0) else sum

def int128Add (a b : M128i) : M128i := uint128Add a b

def uint128Sub (a b : M128i) : M128i :=
  let diff := mmSubEpi64 a b
  let aLow := uint128Low a
  let bLow := uint128Low b
  if aLow < bLow then mmSubEpi64 diff (mmSetEpi64x 1 0) else diff

def int128Sub (a b : M128i) : M128i := uint128Sub a b

def uint128Eq (a b : M128i) : ℤ := if mmMovemaskEpi8 (mmCmpeqEpi64 a b) = 0xFFFF then 1 else 0

def uint128Lt (a b : M128i) : ℤ :=
  let aHi := uint128High a
  let bHi := uint128High b
  if aHi ≠ bHi then (if aHi < bHi then 1 else 0)
  else if uint128Low a < uint128Low b then 1 else 0

def uint128Gt (a b : M128i) : ℤ := uint128Lt b a

def uint128And (a b : M128i) : M128i := mmAndSi128 a b

def uint128Or (a b : M128i) : M128i := mmOrSi128 a b

def uint128Xor (a b : M128i) : M128i := mmXorSi128 a b

def uint128Not (a : M128i) : M128i := mmXorSi128 a (mmSet1Epi8 0xFF)

def uint128Shl (a : M128i) (count : ℤ) : M128i :=
  if count ≥ 64 then
    if count ≥ 128 then mmSetzeroSi128 else mmSlliSi128 a 8
  else if count > 0 then
    let highShifted := mmSlliEpi64 a count
    let crossBoundary := mmSrliEpi64 a (64 - count)
    let crossBoundary := mmSlliSi128 crossBoundary 8
    mmOrSi128 highShifted crossBoundary
  else a

/-- The second half of `uint128_shr`. -/
def shrLanes (a : M128i) (count : ℤ) : M128i :=
  if count > 0 then
    let lowShifted := mmSrliEpi64 a count
    let crossBoundary := mmSlliEpi64 a (64 - count)
    let crossBoundary := mmSrliSi128 crossBoundary 8
    mmOrSi128 lowShifted crossBoundary
  else a

def uint128Shr (a : M128i) (count : ℤ) : M128i :=
  if count ≥ 64 then
    if count ≥ 128 then mmSetzeroSi128 else shrLanes (mmSrliSi128 a 8) (count - 64)
  else shrLanes a count

end Sse2

variable {a b : M128i} {count : ℤ}

theorem makeUint128_eq (high low : BitVec 64) :
    Sse2.makeUint128 high low = Native.makeUint128 high low := by
  apply BitVec.eq_of_getLsbD_eq
  intro i hi
  unfold Sse2.makeUint128 Native.makeUint128 mmSetEpi64x
  rw [BitVec.getLsbD_append, BitVec.getLsbD_or, BitVec.getLsbD_shiftLeft, BitVec.getLsbD_setWidth,
    BitVec.getLsbD_setWidth]
  by_cases hlow : i < 64
  · simp [hlow, hi]
  · have hzero : low.getLsbD i = false := BitVec.getLsbD_of_ge low i (by omega)
    have hlt : i - 64 < 128 := by omega
    simp [hlow, hi, hzero, hlt]

private theorem uint128Low_eq (x : M128i) : Sse2.uint128Low x = Native.uint128Low x := by
  apply BitVec.eq_of_toNat_eq
  unfold Sse2.uint128Low Native.uint128Low
  rw [toNat_low, BitVec.toNat_setWidth]

theorem uint128High_eq (x : M128i) : Sse2.uint128High x = Native.uint128High x := by
  apply BitVec.eq_of_getLsbD_eq
  intro i hi
  unfold Sse2.uint128High Native.uint128High
  rw [getLsbD_high, BitVec.getLsbD_setWidth, BitVec.getLsbD_ushiftRight]

private theorem low_add (a b : M128i) : M128i.low (a + b) = a.low + b.low := by
  apply BitVec.eq_of_toNat_eq
  rw [toNat_low, BitVec.toNat_add, BitVec.toNat_add, toNat_low, toNat_low]
  omega

private theorem low_sub (a b : M128i) : M128i.low (a - b) = a.low - b.low := by
  have ha := a.isLt
  have hb := b.isLt
  apply BitVec.eq_of_toNat_eq
  rw [toNat_low, BitVec.toNat_sub, BitVec.toNat_sub, toNat_low, toNat_low]
  omega

private theorem high_add (a b : M128i) :
    M128i.high (a + b) =
      a.high + b.high + if 2 ^ 64 ≤ a.low.toNat + b.low.toNat then 1 else 0 := by
  apply BitVec.eq_of_toNat_eq
  split
  case isTrue hcarry =>
    rw [toNat_low, toNat_low] at hcarry
    rw [toNat_high, BitVec.toNat_add, BitVec.toNat_add, BitVec.toNat_add, toNat_high, toNat_high,
      show (1 : BitVec 64).toNat = 1 from rfl]
    omega
  case isFalse hcarry =>
    rw [toNat_low, toNat_low] at hcarry
    rw [toNat_high, BitVec.toNat_add, BitVec.toNat_add, BitVec.toNat_add, toNat_high, toNat_high,
      show (0 : BitVec 64).toNat = 0 from rfl]
    omega

private theorem high_sub (a b : M128i) :
    M128i.high (a - b) = a.high - b.high - if a.low < b.low then 1 else 0 := by
  have ha := a.isLt
  have hb := b.isLt
  apply BitVec.eq_of_toNat_eq
  split
  case isTrue hborrow =>
    rw [BitVec.lt_def, toNat_low, toNat_low] at hborrow
    rw [toNat_high, BitVec.toNat_sub, BitVec.toNat_sub, BitVec.toNat_sub, toNat_high, toNat_high,
      show (1 : BitVec 64).toNat = 1 from rfl]
    omega
  case isFalse hborrow =>
    rw [BitVec.lt_def, toNat_low, toNat_low] at hborrow
    rw [toNat_high, BitVec.toNat_sub, BitVec.toNat_sub, BitVec.toNat_sub, toNat_high, toNat_high,
      show (0 : BitVec 64).toNat = 0 from rfl]
    omega

private theorem carry_iff (x y : BitVec 64) :
    x + y < x ∨ x + y < y ↔ 2 ^ 64 ≤ x.toNat + y.toNat := by
  have hx := x.isLt
  have hy := y.isLt
  rw [BitVec.lt_def, BitVec.lt_def, BitVec.toNat_add]
  omega

private theorem uint128Add_eq (a b : M128i) : Sse2.uint128Add a b = Native.uint128Add a b := by
  apply ext_lanes
  · unfold Sse2.uint128Add Native.uint128Add
    rw [high_add]
    simp only [Sse2.uint128Low, mmAddEpi64, low_lanewise, carry_iff]
    split
    · rw [high_lanewise, high_lanewise, mmSetEpi64x, high_append]
    · rw [high_lanewise]
      exact (BitVec.add_zero _).symm
  · unfold Sse2.uint128Add Native.uint128Add
    rw [low_add]
    dsimp only
    split
    · rw [mmAddEpi64, low_lanewise, mmAddEpi64, low_lanewise, mmSetEpi64x, low_append]
      exact BitVec.add_zero _
    · rw [mmAddEpi64, low_lanewise]

private theorem uint128Sub_eq (a b : M128i) : Sse2.uint128Sub a b = Native.uint128Sub a b := by
  apply ext_lanes
  · unfold Sse2.uint128Sub Native.uint128Sub
    rw [high_sub]
    dsimp only [Sse2.uint128Low]
    split
    · rw [mmSubEpi64, high_lanewise, mmSubEpi64, high_lanewise, mmSetEpi64x, high_append]
    · rw [mmSubEpi64, high_lanewise]
      exact (BitVec.sub_zero _).symm
  · unfold Sse2.uint128Sub Native.uint128Sub
    rw [low_sub]
    dsimp only
    split
    · rw [mmSubEpi64, low_lanewise, mmSubEpi64, low_lanewise, mmSetEpi64x, low_append]
      exact BitVec.sub_zero _
    · rw [mmSubEpi64, low_lanewise]

private theorem uint128Eq_eq (a b : M128i) : Sse2.uint128Eq a b = Native.uint128Eq a b := by
  unfold Sse2.uint128Eq Native.uint128Eq
  exact if_congr movemask_cmpeq rfl rfl

private theorem uint128Lt_eq (a b : M128i) : Sse2.uint128Lt a b = Native.uint128Lt a b := by
  unfold Sse2.uint128Lt Native.uint128Lt Sse2.uint128High Sse2.uint128Low
  dsimp only
  by_cases hhigh : a.high = b.high
  · rw [if_neg (not_not.mpr hhigh)]
    refine if_congr ?_ rfl rfl
    rw [lt_iff_lanes, hhigh]
    simp
  · rw [if_pos hhigh]
    refine if_congr ?_ rfl rfl
    rw [lt_iff_lanes]
    simp [hhigh]

private theorem uint128Gt_eq (a b : M128i) : Sse2.uint128Gt a b = Native.uint128Gt a b :=
  uint128Lt_eq b a

private theorem imm8_sub {k : ℕ} (hk : k < 64) : imm8 (64 - (k : ℤ)) = 64 - k := by
  unfold imm8
  omega

private theorem shl_lanes {k : ℕ} (hpos : 0 < k) (hk : k < 64) :
    mmOrSi128 (mmSlliEpi64 a k) (mmSlliSi128 (mmSrliEpi64 a (64 - k)) 8) = a <<< k := by
  apply BitVec.eq_of_getLsbD_eq
  intro i hi
  unfold mmOrSi128 mmSlliEpi64 mmSlliSi128 mmSrliEpi64
  rw [imm8_of_lt (by omega), imm8_sub hk, show imm8 8 = 8 from rfl]
  simp only [BitVec.getLsbD_or, BitVec.getLsbD_append, BitVec.getLsbD_shiftLeft,
    BitVec.getLsbD_ushiftRight, getLsbD_high, getLsbD_low]
  by_cases hlow : i < 64
  · grind
  · obtain ⟨j, rfl⟩ : ∃ j, i = 64 + j := ⟨i - 64, by omega⟩
    simp only [Nat.add_sub_cancel_left]
    by_cases hcross : j < k
    · rw [show 64 + j - k = 64 - k + j by omega]
      simp [hcross, hi, show ¬64 + j < k by omega, show j < 64 by omega,
        show 64 - k + j < 64 by omega]
    · rw [show 64 + j - k = 64 + (j - k) by omega]
      simp [hcross, hi, show ¬64 + j < k by omega, show j < 64 by omega,
        show j - k < 64 by omega, show ¬64 - k + j < 64 by omega]

private theorem shr_lanes {k : ℕ} (hpos : 0 < k) (hk : k < 64) :
    mmOrSi128 (mmSrliEpi64 a k) (mmSrliSi128 (mmSlliEpi64 a (64 - k)) 8) = a >>> k := by
  apply BitVec.eq_of_getLsbD_eq
  intro i hi
  unfold mmOrSi128 mmSlliEpi64 mmSrliSi128 mmSrliEpi64
  rw [imm8_of_lt (by omega), imm8_sub hk, show imm8 8 = 8 from rfl]
  simp only [BitVec.getLsbD_or, BitVec.getLsbD_append, BitVec.getLsbD_shiftLeft,
    BitVec.getLsbD_ushiftRight, getLsbD_high, getLsbD_low]
  grind

private theorem shrLanes_natCast {k : ℕ} (hk : k < 64) : Sse2.shrLanes a k = a >>> k := by
  unfold Sse2.shrLanes
  by_cases hpos : (k : ℤ) > 0
  · rw [if_pos hpos]
    exact shr_lanes (by omega) hk
  · have hzero : k = 0 := by omega
    rw [if_neg hpos, hzero, BitVec.ushiftRight_zero]

private theorem uint128Shr_eq (a : M128i) (count : ℤ) :
    Sse2.uint128Shr a count = Native.uint128Shr a count := by
  unfold Sse2.uint128Shr Native.uint128Shr
  by_cases hwhole : count ≥ 128
  · rw [if_pos (by omega), if_pos hwhole, if_pos hwhole]
    rfl
  rw [if_neg hwhole, if_neg hwhole]
  by_cases hlane : count ≥ 64
  · obtain ⟨k, rfl⟩ : ∃ k : ℕ, count = 64 + k := ⟨(count - 64).toNat, by omega⟩
    rw [if_pos hlane, if_neg (by omega), show 64 + (k : ℤ) - 64 = k by omega,
      shrLanes_natCast (by omega), show (64 + (k : ℤ)).toNat = 64 + k by omega,
      BitVec.shiftRight_add]
    rfl
  rw [if_neg hlane]
  by_cases hpos : count ≤ 0
  · rw [if_pos hpos, Sse2.shrLanes, if_neg (by omega)]
  · obtain ⟨k, rfl⟩ : ∃ k : ℕ, count = k := ⟨count.toNat, by omega⟩
    rw [if_neg hpos, shrLanes_natCast (by omega), Int.toNat_natCast]

private theorem uint128Shl_eq (hcount : count ≤ 64 ∨ 128 ≤ count) :
    Sse2.uint128Shl a count = Native.uint128Shl a count := by
  unfold Sse2.uint128Shl Native.uint128Shl
  by_cases hwhole : count ≥ 128
  · rw [if_pos (by omega), if_pos hwhole, if_pos hwhole]
    rfl
  rw [if_neg hwhole, if_neg hwhole]
  by_cases hlane : count ≥ 64
  · have heq : count = 64 := by omega
    rw [if_pos hlane, if_neg (by omega), heq]
    rfl
  rw [if_neg hlane]
  by_cases hpos : count ≤ 0
  · rw [if_pos hpos, if_neg (by omega)]
  · obtain ⟨k, rfl⟩ : ∃ k : ℕ, count = k := ⟨count.toNat, by omega⟩
    rw [if_neg hpos, if_pos (by omega), Int.toNat_natCast]
    exact shl_lanes (by omega) (by omega)

/-- A low lane that both shifts put at the same place is empty: its lowest bit would have to
be at two places. -/
private theorem shl_lane_eq_iff {k : ℕ} (hlow : 64 < k) : a <<< 64 = a <<< k ↔ a.low = 0 := by
  constructor
  · intro h
    have hbits : ∀ i, i < 64 → a.getLsbD i = false := by
      intro i
      induction i using Nat.strong_induction_on with
      | _ i ih =>
        intro hi
        have hbit := congrArg (fun b => BitVec.getLsbD b (64 + i)) h
        simp only [BitVec.getLsbD_shiftLeft, Nat.add_sub_cancel_left] at hbit
        have hbelow : 64 + i < k ∨ a.getLsbD (64 + i - k) = false := by
          by_cases hk : 64 + i < k
          · exact Or.inl hk
          · exact Or.inr (ih _ (by omega) (by omega))
        grind
    apply BitVec.eq_of_getLsbD_eq
    intro i hi
    rw [getLsbD_low, hbits i hi, Bool.and_false]
    exact (BitVec.getLsbD_zero).symm
  · intro h
    have hbits : ∀ i, i < 64 → a.getLsbD i = false := by
      intro i hi
      have hbit : a.low.getLsbD i = false := h ▸ BitVec.getLsbD_zero
      rwa [getLsbD_low, decide_eq_true hi, Bool.true_and] at hbit
    apply BitVec.eq_of_getLsbD_eq
    intro i hi
    rw [BitVec.getLsbD_shiftLeft, BitVec.getLsbD_shiftLeft, hbits _ (by omega), hbits _ (by omega),
      Bool.and_false, Bool.and_false]

private theorem uint128Shl_eq_iff :
    Sse2.uint128Shl a count = Native.uint128Shl a count ↔
      (64 < count ∧ count < 128 → a.low = 0) := by
  by_cases hlane : 64 < count ∧ count < 128
  · obtain ⟨k, rfl⟩ : ∃ k : ℕ, count = k := ⟨count.toNat, by omega⟩
    unfold Sse2.uint128Shl Native.uint128Shl
    rw [if_pos (by omega), if_neg (by omega), if_neg (by omega), if_neg (by omega),
      Int.toNat_natCast, forall_prop_of_true hlane]
    exact shl_lane_eq_iff (by omega)
  · exact iff_of_true (uint128Shl_eq (by omega)) fun h => absurd h hlane

/-- The results are the same, for the signed type wherever the compiler's own one has any. -/
structure Agree (a b : BitVec 128) (count : ℤ) : Prop where
  add : Sse2.uint128Add a b = Native.uint128Add a b
  addSigned : ∀ sum ∈ Native.int128Add a b, Sse2.int128Add a b = sum
  sub : Sse2.uint128Sub a b = Native.uint128Sub a b
  subSigned : ∀ diff ∈ Native.int128Sub a b, Sse2.int128Sub a b = diff
  eq : Sse2.uint128Eq a b = Native.uint128Eq a b
  lt : Sse2.uint128Lt a b = Native.uint128Lt a b
  gt : Sse2.uint128Gt a b = Native.uint128Gt a b
  and : Sse2.uint128And a b = Native.uint128And a b
  or : Sse2.uint128Or a b = Native.uint128Or a b
  xor : Sse2.uint128Xor a b = Native.uint128Xor a b
  not : Sse2.uint128Not a = Native.uint128Not a
  shl : Sse2.uint128Shl a count = Native.uint128Shl a count
  shr : Sse2.uint128Shr a count = Native.uint128Shr a count

private theorem int128Add_eq (sum : BitVec 128) (h : sum ∈ Native.int128Add a b) :
    Sse2.int128Add a b = sum := by
  unfold Native.int128Add at h
  split at h
  · cases h
  · cases h
    exact uint128Add_eq a b

private theorem int128Sub_eq (diff : BitVec 128) (h : diff ∈ Native.int128Sub a b) :
    Sse2.int128Sub a b = diff := by
  unfold Native.int128Sub at h
  split at h
  · cases h
  · cases h
    exact uint128Sub_eq a b

private theorem uint128Not_eq (a : M128i) : Sse2.uint128Not a = Native.uint128Not a := by
  unfold Sse2.uint128Not Native.uint128Not mmXorSi128
  rw [set1_allOnes, BitVec.xor_allOnes]

/-- The implementations agree but for the left shifts by more than one lane, where they do
so when there is nothing to shift. -/
theorem agree_iff (a b : BitVec 128) (count : ℤ) :
    Agree a b count ↔ (64 < count ∧ count < 128 → Native.uint128Low a = 0) := by
  rw [← uint128Low_eq]
  constructor
  · exact fun h => uint128Shl_eq_iff.mp h.shl
  · intro h
    exact {
      add := uint128Add_eq a b
      addSigned := int128Add_eq
      sub := uint128Sub_eq a b
      subSigned := int128Sub_eq
      eq := uint128Eq_eq a b
      lt := uint128Lt_eq a b
      gt := uint128Gt_eq a b
      and := rfl
      or := rfl
      xor := rfl
      not := uint128Not_eq a
      shl := uint128Shl_eq_iff.mpr h
      shr := uint128Shr_eq a count }

/-- `uint128_shl(1, 65)`. -/
theorem implementations_not_agree :
    ¬∀ (a b : BitVec 128) (count : ℤ), -2 ^ 31 ≤ count → count < 2 ^ 31 → Agree a b count := by
  intro h
  have hshl := (h 1 0 65 (by decide) (by decide)).shl
  revert hshl
  decide

end Libromano.Int128
