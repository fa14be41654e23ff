/- The integer formatters write decimal numerals. The digit count by one addition and one shift is
   right because each entry of the table is chosen for the numbers of one bit length, among which
   at most one power of ten lies. -/

import Libromano.Fmt
import Libromano.Foundation.Decimal

set_option autoImplicit false
set_option relaxedAutoImplicit false

namespace Libromano.Fmt

open Libromano.Foundation.Decimal

private theorem floorLog2_eq {n : UInt64} (hn : n ≠ 0) : floorLog2 n = n.toNat.log2 := by
  have hpos : n.toNat ≠ 0 := fun h => hn (UInt64.toNat_inj.mp h)
  have hlt : n.toNat.log2 < 64 := (Nat.log2_lt hpos).mpr n.toNat_lt
  have hxor : ∀ k < 64, 63 ^^^ (63 - k) = k := by decide
  rw [floorLog2, clzU64, hxor _ hlt]

private def tableEntry (k : ℕ) : ℕ := (digitCountTable.getD k 0).toNat

private theorem tableEntry_spec : ∀ k < 64,
    tableEntry k + 10 ^ ceilLog10Pow2 k / 2 ^ (k / 4) = (ceilLog10Pow2 k + 1) * 2 ^ 52 ∧
    2 ^ (k / 4) * (10 ^ ceilLog10Pow2 k / 2 ^ (k / 4)) = 10 ^ ceilLog10Pow2 k ∧
    10 ^ ceilLog10Pow2 k / 2 ^ (k / 4) ≤ 2 ^ 52 ∧ 2 ^ (k + 1) / 2 ^ (k / 4) ≤ 2 ^ 52 ∧
    2 ^ (k / 4) ∣ 2 ^ (k + 1) ∧ ceilLog10Pow2 k ≤ 19 ∧
    10 ^ ceilLog10Pow2 k ≤ 10 * 2 ^ k ∧ 2 ^ (k + 1) ≤ 10 ^ (ceilLog10Pow2 k + 1) := by
  decide

private theorem length_digits_eq {n L : ℕ} (hn : n ≠ 0) (hlow : 10 ^ L ≤ n)
    (hhigh : n < 10 ^ (L + 1)) : (Nat.digits 10 n).length = L + 1 := by
  have hle : 10 ^ (Nat.digits 10 n).length ≤ 10 * n := Nat.base_pow_length_digits_le 10 n (by decide) hn
  have hlt : n < 10 ^ (Nat.digits 10 n).length := Nat.lt_base_pow_length_digits (by decide)
  have h1 : L < (Nat.digits 10 n).length :=
    (Nat.pow_lt_pow_iff_right (by decide)).mp (hlow.trans_lt hlt)
  have h2 : (Nat.digits 10 n).length < L + 2 := by
    refine (Nat.pow_lt_pow_iff_right (a := 10) (by decide)).mp (hle.trans_lt ?_)
    rw [Nat.pow_succ]
    omega
  omega

private theorem countDigits_eq {n : UInt64} (hn : n ≠ 0) :
    countDigits n = (Nat.digits 10 n.toNat).length := by
  have hpos : n.toNat ≠ 0 := fun h => hn (UInt64.toNat_inj.mp h)
  obtain ⟨k, hk⟩ : ∃ k, k = n.toNat.log2 := ⟨_, rfl⟩
  have hklt : k < 64 := hk ▸ (Nat.log2_lt hpos).mpr n.toNat_lt
  have hlow : 2 ^ k ≤ n.toNat := hk ▸ Nat.log2_self_le hpos
  have hhigh : n.toNat < 2 ^ (k + 1) := hk ▸ Nat.lt_log2_self
  obtain ⟨hentry, hexact, hsmall, hwidth, hdvd, hub, hbelow, habove⟩ := tableEntry_spec k hklt
  have hshift : n.toNat / 2 ^ (k / 4) < 2 ^ 52 :=
    (Nat.div_lt_of_lt_mul (by rw [Nat.mul_div_cancel' hdvd]; exact hhigh)).trans_le hwidth
  have hcount : countDigits n = (tableEntry k + n.toNat / 2 ^ (k / 4)) / 2 ^ 52 := by
    have hquarter : (UInt64.ofNat (k / 4)).toNat % 64 = k / 4 := by
      rw [UInt64.toNat_ofNat_of_lt' (by show k / 4 < 2 ^ 64; omega)]
      omega
    have hsum : tableEntry k + n.toNat / 2 ^ (k / 4) < 2 ^ 64 := by
      have htable : tableEntry k ≤ 20 * 2 ^ 52 :=
        (Nat.le.intro hentry).trans (Nat.mul_le_mul_right _ (by omega))
      exact (Nat.add_lt_add_of_le_of_lt htable hshift).trans (by decide)
    rw [countDigits, if_neg hn, floorLog2_eq hn, ← hk, UInt64.toNat_shiftRight, UInt64.toNat_add,
      UInt64.toNat_shiftRight, hquarter, Nat.shiftRight_eq_div_pow, Nat.shiftRight_eq_div_pow]
    exact congrArg (· / 2 ^ 52) (Nat.mod_eq_of_lt hsum)
  rw [hcount]
  by_cases hge : 10 ^ ceilLog10Pow2 k ≤ n.toNat
  · rw [length_digits_eq hpos hge (hhigh.trans_le habove)]
    have hquot : 10 ^ ceilLog10Pow2 k / 2 ^ (k / 4) ≤ n.toNat / 2 ^ (k / 4) :=
      Nat.div_le_div_right hge
    apply Nat.div_eq_of_lt_le
    · exact hentry.symm.le.trans (Nat.add_le_add_left hquot _)
    · rw [Nat.succ_mul]
      exact Nat.add_lt_add_of_le_of_lt (Nat.le.intro hentry) hshift
  · have hquot : n.toNat / 2 ^ (k / 4) < 10 ^ ceilLog10Pow2 k / 2 ^ (k / 4) := by
      refine Nat.div_lt_of_lt_mul ?_
      rw [hexact]
      omega
    cases hcase : ceilLog10Pow2 k with
    | zero =>
      rw [hcase] at hge
      omega
    | succ u =>
      rw [hcase] at hge hbelow hentry hsmall hquot
      have hlow' : 10 ^ u ≤ n.toNat := by
        rw [Nat.pow_succ] at hbelow
        omega
      rw [length_digits_eq hpos hlow' (by omega)]
      apply Nat.div_eq_of_lt_le
      · rw [Nat.succ_mul] at hentry
        exact Nat.le_of_add_le_add_right (hentry.symm.le.trans' (Nat.add_le_add_left hsmall _)) |>.trans
          (Nat.le_add_right _ _)
      · rw [← hentry]
        exact Nat.add_lt_add_left hquot _

theorem countDigits_eq_length (n : UInt64) : countDigits n = (decimal n.toNat).length := by
  by_cases hn : n = 0
  · subst hn
    rfl
  · rw [countDigits_eq hn, length_decimal fun h => hn (UInt64.toNat_inj.mp h)]

theorem decimal_pair {val : ℕ} (hval : 100 ≤ val) :
    decimal val = decimal (val / 100) ++ [digit (val % 100 / 10), digit (val % 100 % 10)] := by
  have hten : val / 10 % 10 = val % 100 / 10 := by omega
  have hone : val % 10 = val % 100 % 10 := by omega
  rw [decimal_step (show 10 ≤ val by omega), decimal_step (show 10 ≤ val / 10 by omega),
    List.append_assoc, Nat.div_div_eq_div_mul, hten, hone]
  rfl

private theorem utoaLoop_eq (fuel : ℕ) {val : ℕ} (digits : List UInt8)
    (hval : val < 100 ^ (fuel + 1)) :
    utoaLoop (fuel + 1) val digits = .ok (decimal val ++ digits) := by
  induction fuel generalizing val digits with
  | zero =>
    rw [utoaLoop, if_neg (by omega)]
    split_ifs with h10
    · rw [decimal_step h10, decimal_of_lt (by omega)]
      rfl
    · rw [decimal_of_lt (by omega)]
      rfl
  | succ fuel ih =>
    rw [utoaLoop]
    split_ifs with h100 h10
    · have hsplit : decimal val = decimal (val / 100) ++ digitPair (val % 100) :=
        decimal_pair h100
      rw [ih _ (Nat.div_lt_of_lt_mul (by rwa [Nat.pow_succ, Nat.mul_comm] at hval)), hsplit,
        List.append_assoc]
    · rw [decimal_step h10, decimal_of_lt (by omega)]
      rfl
    · rw [decimal_of_lt (by omega)]
      rfl

theorem utoaFast_eq (val : UInt64) : utoaFast val = .ok (decimal val.toNat) := by
  have hval : val.toNat < 100 ^ 10 := val.toNat_lt.trans (by decide)
  rw [utoaFast, utoaLoop_eq 9 [] hval, List.append_nil]
  simp [countDigits_eq_length]

theorem fmtU64_eq (n : UInt64) : fmtU64 n = .ok (decimal n.toNat) := utoaFast_eq n

theorem fmtSizeU64_eq (n : UInt64) : fmtSizeU64 n = (decimal n.toNat).length :=
  countDigits_eq_length n

private theorem shiftRight_63 (x : Int64) : x >>> 63 = if x < 0 then -1 else 0 := by
  apply Int64.toInt_inj.mp
  have hshift : (x >>> 63).toInt = x.toInt >>> (63 : ℕ) := by
    show (x >>> 63).toBitVec.toInt = _
    rw [Int64.toBitVec_shiftRight]
    exact BitVec.toInt_sshiftRight
  have hlow := x.le_toInt
  have hhigh := x.toInt_lt
  rw [hshift, Int.shiftRight_eq_div_pow]
  split_ifs with hneg
  · rw [Int64.lt_iff_toInt_lt, Int64.toInt_zero] at hneg
    show _ = (-1 : ℤ)
    omega
  · rw [Int64.lt_iff_toInt_lt, Int64.toInt_zero] at hneg
    show _ = (0 : ℤ)
    omega

theorem absI64_eq (x : Int64) :
    absI64 x = if x < 0 then -x.toUInt64 else x.toUInt64 := by
  rw [absI64, shiftRight_63]
  split_ifs with hneg
  · show ((-1) ^^^ x.toUInt64) - (-1) = -x.toUInt64
    rw [UInt64.neg_one_xor, UInt64.not_eq_neg_sub]
    grind
  · show (0 ^^^ x.toUInt64) - 0 = x.toUInt64
    simp

theorem absI64_toNat (x : Int64) : (absI64 x).toNat = x.toInt.natAbs := by
  have h : x.toInt = (x.toUInt64.toNat : ℤ).bmod (2 ^ 64) := BitVec.toInt_eq_toNat_bmod x.toBitVec
  have hlt := x.toUInt64.toNat_lt
  rw [Int.bmod_def] at h
  rw [absI64_eq]
  split_ifs with hneg
  · rw [Int64.lt_iff_toInt_lt, Int64.toInt_zero] at hneg
    rw [UInt64.toNat_neg, UInt64.size]
    split_ifs at h <;> omega
  · rw [Int64.lt_iff_toInt_lt, Int64.toInt_zero] at hneg
    split_ifs at h <;> omega

def signed (x : ℤ) : List UInt8 := if x < 0 then 45 :: decimal x.natAbs else decimal x.natAbs

theorem fmtI64_eq (x : Int64) : fmtI64 x = .ok (signed x.toInt) := by
  rw [fmtI64, utoaFast_eq, absI64_toNat, bind_ok, signed]
  simp only [Int64.lt_iff_toInt_lt, Int64.toInt_zero]

theorem fmtSizeI64_eq (x : Int64) : fmtSizeI64 x = (signed x.toInt).length := by
  rw [fmtSizeI64, countDigits_eq_length, absI64_toNat, signed]
  simp only [Int64.lt_iff_toInt_lt, Int64.toInt_zero]
  split_ifs <;> simp

end Libromano.Fmt
