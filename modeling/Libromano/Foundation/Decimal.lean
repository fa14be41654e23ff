/- Decimal numerals as byte strings. -/

import Mathlib.Data.Nat.Digits.Lemmas

set_option autoImplicit false
set_option relaxedAutoImplicit false

namespace Libromano.Foundation.Decimal

def digit (d : ℕ) : UInt8 := UInt8.ofNat (48 + d)

def isDigit (c : UInt8) : Bool := decide (48 ≤ c.toNat) && decide (c.toNat < 58)

def decimal (n : ℕ) : List UInt8 :=
  if n = 0 then [digit 0] else (Nat.digits 10 n).reverse.map digit

/-- Read further digits. -/
def readOn (n : ℕ) (digits : List UInt8) : ℕ :=
  digits.foldl (fun n c => n * 10 + (c.toNat - 48)) n

private theorem digit_toNat {d : ℕ} (hd : d < 10) : (digit d).toNat = 48 + d := by
  rw [digit, UInt8.toNat_ofNat']
  omega

private theorem isDigit_digit {d : ℕ} (hd : d < 10) : isDigit (digit d) = true := by
  simp only [isDigit, digit_toNat hd, Bool.and_eq_true, decide_eq_true_eq]
  omega

theorem decimal_ne_nil (n : ℕ) : decimal n ≠ [] := by
  unfold decimal
  split_ifs with h
  · simp
  · simpa [Nat.digits_eq_nil_iff_eq_zero] using h

theorem isDigit_of_mem_decimal {n : ℕ} {c : UInt8} (h : c ∈ decimal n) : isDigit c = true := by
  unfold decimal at h
  split_ifs at h
  · rw [List.mem_singleton.mp h]
    exact isDigit_digit (by decide)
  · obtain ⟨d, hd, rfl⟩ := List.mem_map.mp h
    exact isDigit_digit (Nat.digits_lt_base (by decide) (List.mem_reverse.mp hd))

theorem decimal_step {n : ℕ} (hn : 10 ≤ n) : decimal n = decimal (n / 10) ++ [digit (n % 10)] := by
  have hpos : n / 10 ≠ 0 := by omega
  rw [decimal, if_neg (by omega), Nat.digits_def' (by decide) (by omega), decimal, if_neg hpos]
  simp

theorem decimal_of_lt {n : ℕ} (hn : n < 10) : decimal n = [digit n] := by
  rcases Nat.eq_zero_or_pos n with rfl | hpos
  · rfl
  · rw [decimal, if_neg (by omega), Nat.digits_of_lt 10 n (by omega) hn]
    rfl

private theorem readOn_append (n : ℕ) (xs ys : List UInt8) :
    readOn n (xs ++ ys) = readOn (readOn n xs) ys := List.foldl_append

theorem readOn_decimal (n : ℕ) : readOn 0 (decimal n) = n := by
  induction n using Nat.strong_induction_on with
  | _ n ih =>
    by_cases hn : n < 10
    · rw [decimal_of_lt hn]
      simp only [readOn, List.foldl_cons, List.foldl_nil, digit_toNat hn]
      omega
    · rw [decimal_step (by omega), readOn_append, ih (n / 10) (by omega)]
      simp only [readOn, List.foldl_cons, List.foldl_nil, digit_toNat (Nat.mod_lt n (by decide))]
      omega

theorem length_decimal {n : ℕ} (hn : n ≠ 0) : (decimal n).length = (Nat.digits 10 n).length := by
  simp [decimal, hn]

end Libromano.Foundation.Decimal
