/- The integer formatters write the canonical decimal numerals into the buffer, and nothing else. -/

import Libromano.FmtDecimal
import Libromano.Foundation.Memory

set_option autoImplicit false
set_option relaxedAutoImplicit false

namespace Libromano.Fmt

open Foundation Foundation.Decimal Foundation.Memory

def digitPairs : List UInt8 := [
  48, 48, 48, 49, 48, 50, 48, 51, 48, 52, 48, 53, 48, 54, 48, 55, 48, 56, 48, 57,
  49, 48, 49, 49, 49, 50, 49, 51, 49, 52, 49, 53, 49, 54, 49, 55, 49, 56, 49, 57,
  50, 48, 50, 49, 50, 50, 50, 51, 50, 52, 50, 53, 50, 54, 50, 55, 50, 56, 50, 57,
  51, 48, 51, 49, 51, 50, 51, 51, 51, 52, 51, 53, 51, 54, 51, 55, 51, 56, 51, 57,
  52, 48, 52, 49, 52, 50, 52, 51, 52, 52, 52, 53, 52, 54, 52, 55, 52, 56, 52, 57,
  53, 48, 53, 49, 53, 50, 53, 51, 53, 52, 53, 53, 53, 54, 53, 55, 53, 56, 53, 57,
  54, 48, 54, 49, 54, 50, 54, 51, 54, 52, 54, 53, 54, 54, 54, 55, 54, 56, 54, 57,
  55, 48, 55, 49, 55, 50, 55, 51, 55, 52, 55, 53, 55, 54, 55, 55, 55, 56, 55, 57,
  56, 48, 56, 49, 56, 50, 56, 51, 56, 52, 56, 53, 56, 54, 56, 55, 56, 56, 56, 57,
  57, 48, 57, 49, 57, 50, 57, 51, 57, 52, 57, 53, 57, 54, 57, 55, 57, 56, 57, 57]

/-- The loop of `utoa_fast` and what comes after it. -/
def utoaWrite : ℕ → ℕ → ℤ → Memory → Except Fault Memory
  | 0, _, _, _ => .error .diverges
  | fuel + 1, val, pEnd, mem =>
    if 100 ≤ val then
      let r := val % 100
      let mem := mem.write pEnd (digitPairs.getD (r * 2 + 1) 0)
      let mem := mem.write (pEnd - 1) (digitPairs.getD (r * 2) 0)
      utoaWrite fuel (val / 100) (pEnd - 2) mem
    else if 10 ≤ val then
      let mem := mem.write pEnd (digitPairs.getD (val * 2 + 1) 0)
      .ok (mem.write (pEnd - 1) (digitPairs.getD (val * 2) 0))
    else .ok (mem.write pEnd (UInt8.ofNat (48 + val)))

/-- `utoa_fast`, which returns the address behind the numeral. -/
def utoaFastAt (val : UInt64) (buf : ℤ) (mem : Memory) : Except Fault (Memory × ℤ) := do
  let ndigits := countDigits val
  let mem ← utoaWrite 10 val.toNat (buf + ndigits - 1) mem
  .ok (mem, buf + ndigits)

/-- `fmt_u64`, with the bytes written and the number returned. -/
def fmtU64At (buffer : ℤ) (u64 : UInt64) (mem : Memory) : Except Fault (Memory × ℤ) := do
  let (mem, p) ← utoaFastAt u64 buffer mem
  .ok (mem, p - buffer)

def fmtI64At (buffer : ℤ) (i64 : Int64) (mem : Memory) : Except Fault (Memory × ℤ) := do
  let negative := decide (i64 < 0)
  let mem := if negative then mem.write buffer 45 else mem
  let buffer := if negative then buffer + 1 else buffer
  let (mem, p) ← utoaFastAt (absI64 i64) buffer mem
  .ok (mem, p - buffer + if negative then 1 else 0)

/-- The canonical numeral of a number. -/
structure Numeral (n : ℕ) (text : List UInt8) : Prop where
  digits : ∀ c ∈ text, isDigit c = true
  ne_nil : text ≠ []
  noLeadingZero : text.head? = some 48 → text = [48]
  value : readOn 0 text = n

/-- The canonical numeral of an integer, with a sign just when it is negative. -/
def SignedNumeral (x : ℤ) (text : List UInt8) : Prop :=
  if x < 0 then ∃ digits, text = 45 :: digits ∧ Numeral x.natAbs digits else Numeral x.natAbs text

private theorem numeral_decimal (n : ℕ) : Numeral n (decimal n) := by
  refine ⟨fun c => isDigit_of_mem_decimal, decimal_ne_nil n, ?_, readOn_decimal n⟩
  induction n using Nat.strong_induction_on with
  | _ n ih =>
    by_cases hn : n < 10
    · rw [decimal_of_lt hn]
      intro hhead
      exact congrArg (· :: []) (Option.some.inj hhead)
    · rw [decimal_step (by omega), List.head?_append_of_ne_nil _ (decimal_ne_nil _)]
      intro hhead
      -- the number without its last digit would be zero
      have hzero := readOn_decimal (n / 10)
      rw [ih (n / 10) (by omega) hhead] at hzero
      have : (0 : ℕ) = n / 10 := hzero
      omega

private theorem signedNumeral_signed (x : ℤ) : SignedNumeral x (signed x) := by
  unfold SignedNumeral signed
  by_cases hx : x < 0
  · rw [if_pos hx, if_pos hx]
    exact ⟨_, rfl, numeral_decimal _⟩
  · rw [if_neg hx, if_neg hx]
    exact numeral_decimal _

private theorem digitPairs_spec :
    ∀ r < 100, [digitPairs.getD (r * 2) 0, digitPairs.getD (r * 2 + 1) 0] =
    [digit (r / 10), digit (r % 10)] := by
  decide +kernel

private theorem stored_pair (mem : Memory) {p pEnd : ℤ} (hp : p = pEnd - 1) {r : ℕ} (hr : r < 100) :
    Stored mem p [digit (r / 10), digit (r % 10)]
      ((mem.write pEnd (digitPairs.getD (r * 2 + 1) 0)).write (pEnd - 1)
        (digitPairs.getD (r * 2) 0)) := by
  subst hp
  rw [← digitPairs_spec r hr]
  have hlow := stored_write mem pEnd (digitPairs.getD (r * 2 + 1) 0)
  have hhigh := stored_write (mem.write pEnd (digitPairs.getD (r * 2 + 1) 0)) (pEnd - 1)
    (digitPairs.getD (r * 2) 0)
  refine Stored.prepend ?_ hhigh
  rwa [List.length_singleton, Nat.cast_one, sub_add_cancel]

private theorem utoaWrite_last (fuel : ℕ) {val : ℕ} (pEnd : ℤ) (mem : Memory) (hval : val < 100) :
    ∃ mem', utoaWrite (fuel + 1) val pEnd mem = .ok mem' ∧
      Stored mem (pEnd + 1 - (decimal val).length) (decimal val) mem' := by
  unfold utoaWrite
  rw [if_neg (by omega)]
  by_cases hten : 10 ≤ val
  · rw [if_pos hten, decimal_step hten, decimal_of_lt (by omega)]
    refine ⟨_, rfl, ?_⟩
    have hplace : pEnd + 1 - (([digit (val / 10)] ++ [digit (val % 10)]).length : ℤ) = pEnd - 1 := by
      simp
      omega
    rw [hplace]
    exact stored_pair mem rfl hval
  · rw [if_neg hten, decimal_of_lt (by omega)]
    refine ⟨_, rfl, ?_⟩
    rw [List.length_singleton, Nat.cast_one, add_sub_cancel_right]
    exact stored_write _ _ _

private theorem utoaWrite_stored (fuel : ℕ) {val : ℕ} (pEnd : ℤ) (mem : Memory)
    (hval : val < 100 ^ (fuel + 1)) :
    ∃ mem', utoaWrite (fuel + 1) val pEnd mem = .ok mem' ∧
      Stored mem (pEnd + 1 - (decimal val).length) (decimal val) mem' := by
  induction fuel generalizing val pEnd mem with
  | zero => exact utoaWrite_last 0 pEnd mem hval
  | succ fuel ih =>
    by_cases hpair : 100 ≤ val
    · unfold utoaWrite
      rw [if_pos hpair, decimal_pair hpair]
      have hpow : val / 100 < 100 ^ (fuel + 1) :=
        Nat.div_lt_of_lt_mul (by rwa [Nat.pow_succ, Nat.mul_comm] at hval)
      obtain ⟨mem', hwrite, hstored⟩ := ih (pEnd - 2) _ hpow
      refine ⟨mem', hwrite, ?_⟩
      have hfront := stored_pair mem (p := pEnd - 1 - (decimal (val / 100)).length +
        (decimal (val / 100)).length) (sub_add_cancel _ _) (Nat.mod_lt val (show 0 < 100 by decide))
      have hplace : pEnd + 1 - ((decimal (val / 100) ++
          [digit (val % 100 / 10), digit (val % 100 % 10)]).length : ℤ) =
          pEnd - 1 - (decimal (val / 100)).length := by
        rw [List.length_append, List.length_cons, List.length_singleton]
        omega
      rw [hplace]
      refine hfront.prepend ?_
      rwa [show pEnd - 2 + 1 = pEnd - 1 by omega] at hstored
    · exact utoaWrite_last (fuel + 1) pEnd mem (by omega)

private theorem utoaFastAt_stored (val : UInt64) (buf : ℤ) (mem : Memory) :
    ∃ mem', utoaFastAt val buf mem = .ok (mem', buf + countDigits val) ∧
      Stored mem buf (decimal val.toNat) mem' := by
  have hval : val.toNat < 100 ^ (9 + 1) := val.toNat_lt.trans (by decide)
  obtain ⟨mem', hwrite, hstored⟩ := utoaWrite_stored 9 (buf + countDigits val - 1) mem hval
  refine ⟨mem', ?_, ?_⟩
  · unfold utoaFastAt
    exact bind_eq_ok.mpr ⟨mem', hwrite, rfl⟩
  · rwa [sub_add_cancel, countDigits_eq_length, add_sub_cancel_right] at hstored

private theorem fmtU64At_stored (buffer : ℤ) (u64 : UInt64) (mem : Memory) :
    ∃ mem', fmtU64At buffer u64 mem = .ok (mem', fmtSizeU64 u64) ∧
      Stored mem buffer (decimal u64.toNat) mem' := by
  obtain ⟨mem', hfast, hstored⟩ := utoaFastAt_stored u64 buffer mem
  refine ⟨mem', ?_, hstored⟩
  unfold fmtU64At fmtSizeU64
  simp [hfast]

private theorem fmtI64At_stored (buffer : ℤ) (i64 : Int64) (mem : Memory) :
    ∃ mem', fmtI64At buffer i64 mem = .ok (mem', fmtSizeI64 i64) ∧
      Stored mem buffer (signed i64.toInt) mem' := by
  have hiff : i64 < 0 ↔ i64.toInt < 0 := by rw [Int64.lt_iff_toInt_lt, Int64.toInt_zero]
  unfold fmtI64At fmtSizeI64 signed
  by_cases hneg : i64 < 0
  · obtain ⟨mem', hfast, hstored⟩ := utoaFastAt_stored (absI64 i64) (buffer + 1) (mem.write buffer 45)
    refine ⟨mem', ?_, ?_⟩
    · simp [hneg, hfast]
    · rw [if_pos (hiff.mp hneg), ← absI64_toNat]
      exact (stored_write mem buffer 45).append hstored
  · obtain ⟨mem', hfast, hstored⟩ := utoaFastAt_stored (absI64 i64) buffer mem
    refine ⟨mem', ?_, ?_⟩
    · simp [hneg, hfast]
    · rwa [if_neg (fun h => hneg (hiff.mpr h)), ← absI64_toNat]

/-- Both formatters write the canonical numeral, and just the bytes that they return and that
their sizes predict. -/
theorem fmt_numerals (buffer : ℤ) (mem : Memory) :
    (∀ u64 : UInt64, ∃ mem' text, fmtU64At buffer u64 mem = .ok (mem', fmtSizeU64 u64) ∧
      text.length = fmtSizeU64 u64 ∧ Stored mem buffer text mem' ∧ Numeral u64.toNat text) ∧
    ∀ i64 : Int64, ∃ mem' text, fmtI64At buffer i64 mem = .ok (mem', fmtSizeI64 i64) ∧
      text.length = fmtSizeI64 i64 ∧ Stored mem buffer text mem' ∧
        SignedNumeral i64.toInt text := by
  constructor
  · intro u64
    obtain ⟨mem', hfmt, hstored⟩ := fmtU64At_stored buffer u64 mem
    exact ⟨mem', _, hfmt, (fmtSizeU64_eq u64).symm, hstored, numeral_decimal _⟩
  · intro i64
    obtain ⟨mem', hfmt, hstored⟩ := fmtI64At_stored buffer i64 mem
    exact ⟨mem', _, hfmt, (fmtSizeI64_eq i64).symm, hstored, signedNumeral_signed _⟩

end Libromano.Fmt
