/- Steps that mix the bits of a word and lose none of them, and how long it takes until the states
   of a counter or of a product come back. -/

import Mathlib.Data.Fintype.EquivFin
import Mathlib.Data.Nat.ModEq
import Mathlib.Dynamics.PeriodicPts.Lemmas
import Mathlib.Tactic.Ring

set_option autoImplicit false
set_option relaxedAutoImplicit false

namespace Libromano.Foundation.Mixing

open Function

variable {w n : ℕ} {x y : BitVec w}

private theorem eq_zero_of_ushiftRight (hn : 0 < n) (h : x >>> n = x) : x = 0#w := by
  have hall : ∀ k, x >>> (n * k) = x := by
    intro k
    induction k with
    | zero => rfl
    | succ k ih => rw [Nat.mul_succ, BitVec.shiftRight_add, ih, h]
  rw [← hall w]
  exact BitVec.ushiftRight_eq_zero (Nat.le_mul_of_pos_left w hn)

private theorem eq_zero_of_shiftLeft (hn : 0 < n) (h : x <<< n = x) : x = 0#w := by
  have hall : ∀ k, x <<< (n * k) = x := by
    intro k
    induction k with
    | zero => exact BitVec.shiftLeft_zero x
    | succ k ih => rw [Nat.mul_succ, BitVec.shiftLeft_add, ih, h]
  rw [← hall w]
  exact BitVec.shiftLeft_eq_zero (Nat.le_mul_of_pos_left w hn)

private theorem xor_eq_of_step {f : BitVec w → BitVec w} (hf : ∀ x y, f (x ^^^ y) = f x ^^^ f y)
    (h : x ^^^ f x = y ^^^ f y) : f (x ^^^ y) = x ^^^ y := by
  have hy : f y = y ^^^ (x ^^^ f x) := by rw [h, ← BitVec.xor_assoc, BitVec.xor_self, BitVec.zero_xor]
  rw [hf, hy, BitVec.xor_comm y, BitVec.xor_comm x (f x), BitVec.xor_assoc (f x) x y,
    ← BitVec.xor_assoc, BitVec.xor_self, BitVec.zero_xor]

private theorem xorShiftRight_injective (hn : 0 < n) : Injective fun x :
    BitVec w => x ^^^ (x >>> n) := by
  intro x y h
  have hsame := xor_eq_of_step (f := fun x => x >>> n)
    (fun x y => BitVec.ushiftRight_xor_distrib x y n) h
  exact BitVec.xor_eq_zero_iff.mp (eq_zero_of_ushiftRight hn hsame)

private theorem xorShiftLeft_injective (hn : 0 < n) : Injective fun x :
    BitVec w => x ^^^ (x <<< n) := by
  intro x y h
  have hsame := xor_eq_of_step (f := fun x => x <<< n)
    (fun x y => BitVec.shiftLeft_xor_distrib x y n) h
  exact BitVec.xor_eq_zero_iff.mp (eq_zero_of_shiftLeft hn hsame)

private theorem mul_injective {c : BitVec w} (hc : c.toNat % 2 = 1) : Injective fun x :
    BitVec w => x * c := by
  intro x y h
  have hnat := congrArg BitVec.toNat h
  simp only [BitVec.toNat_mul] at hnat
  have hcoprime : Nat.gcd (2 ^ w) c.toNat = 1 := by
    apply Nat.Coprime.pow_left
    change Nat.gcd 2 c.toNat = 1
    rw [Nat.gcd_rec, hc]
    rfl
  have hmod : x.toNat ≡ y.toNat [MOD 2 ^ w] := Nat.ModEq.cancel_right_of_coprime hcoprime hnat
  rw [Nat.ModEq, Nat.mod_eq_of_lt x.isLt, Nat.mod_eq_of_lt y.isLt] at hmod
  exact BitVec.eq_of_toNat_eq hmod

private theorem getLsbD_rotate {m : ℕ} (hsum : n + m = w) (x : BitVec w) {i : ℕ} (hi : i < w) :
    x.getLsbD i = ((x <<< n) ||| (x >>> m)).getLsbD (if i < m then i + n else i - m) := by
  rw [BitVec.getLsbD_or, BitVec.getLsbD_shiftLeft, BitVec.getLsbD_ushiftRight]
  split_ifs with him
  · have hhigh : x.getLsbD (m + (i + n)) = false := BitVec.getLsbD_of_ge x _ (by omega)
    simp [hhigh, show i + n < w by omega]
  · have hlow : i - m < n := by omega
    simp [hlow, show m + (i - m) = i by omega]

private theorem rotate_injective {m : ℕ} (hsum : n + m = w) :
    Injective fun x : BitVec w => (x <<< n) ||| (x >>> m) := by
  intro x y h
  apply BitVec.eq_of_getLsbD_eq
  intro i hi
  rw [getLsbD_rotate hsum x hi, getLsbD_rotate hsum y hi]
  exact congrArg (fun z : BitVec w => z.getLsbD _) h

theorem xorShiftRight32_injective {k : UInt32} (hk : 0 < k.toNat % 32) :
    Injective fun x : UInt32 => x ^^^ (x >>> k) := by
  intro x y h
  have hbits := congrArg UInt32.toBitVec h
  simp only [UInt32.toBitVec_xor, UInt32.toBitVec_shiftRight, BitVec.ushiftRight_eq'] at hbits
  exact UInt32.toBitVec_inj.mp (xorShiftRight_injective hk hbits)

theorem xorShiftLeft32_injective {k : UInt32} (hk : 0 < k.toNat % 32) :
    Injective fun x : UInt32 => x ^^^ (x <<< k) := by
  intro x y h
  have hbits := congrArg UInt32.toBitVec h
  simp only [UInt32.toBitVec_xor, UInt32.toBitVec_shiftLeft, BitVec.shiftLeft_eq'] at hbits
  exact UInt32.toBitVec_inj.mp (xorShiftLeft_injective hk hbits)

theorem mul32_injective {c : UInt32} (hc : c.toNat % 2 = 1) : Injective fun x :
    UInt32 => x * c := by
  intro x y h
  have hbits := congrArg UInt32.toBitVec h
  simp only [UInt32.toBitVec_mul] at hbits
  exact UInt32.toBitVec_inj.mp (mul_injective hc hbits)

theorem rotate32_injective {k m : UInt32} (hsum : k.toNat % 32 + m.toNat % 32 = 32) :
    Injective fun x : UInt32 => (x <<< k) ||| (x >>> m) := by
  intro x y h
  have hbits := congrArg UInt32.toBitVec h
  simp only [UInt32.toBitVec_or, UInt32.toBitVec_shiftLeft, UInt32.toBitVec_shiftRight,
    BitVec.shiftLeft_eq', BitVec.ushiftRight_eq'] at hbits
  exact UInt32.toBitVec_inj.mp (rotate_injective hsum hbits)

theorem xor32_injective (c : UInt32) : Injective fun x : UInt32 => x ^^^ c :=
  fun _ _ h => (UInt32.xor_left_inj c).mp h

theorem xorShiftRight64_injective {k : UInt64} (hk : 0 < k.toNat % 64) :
    Injective fun x : UInt64 => x ^^^ (x >>> k) := by
  intro x y h
  have hbits := congrArg UInt64.toBitVec h
  simp only [UInt64.toBitVec_xor, UInt64.toBitVec_shiftRight, BitVec.ushiftRight_eq'] at hbits
  exact UInt64.toBitVec_inj.mp (xorShiftRight_injective hk hbits)

theorem mul64_injective {c : UInt64} (hc : c.toNat % 2 = 1) : Injective fun x :
    UInt64 => x * c := by
  intro x y h
  have hbits := congrArg UInt64.toBitVec h
  simp only [UInt64.toBitVec_mul] at hbits
  exact UInt64.toBitVec_inj.mp (mul_injective hc hbits)

theorem surjective32 {f : UInt32 → UInt32} (hf : Injective f) : Surjective f :=
  have : Finite UInt32 := Finite.of_injective UInt32.toFin fun _ _ h => UInt32.toFin_inj.mp h
  Finite.injective_iff_surjective.mp hf

theorem surjective64 {f : UInt64 → UInt64} (hf : Injective f) : Surjective f :=
  have : Finite UInt64 := Finite.of_injective UInt64.toFin fun _ _ h => UInt64.toFin_inj.mp h
  Finite.injective_iff_surjective.mp hf

/-- A counter comes back to a state after `m` steps and no fewer, and comes to each state. -/
structure Counts {σ : Type} (next : σ → σ) (m : ℕ) : Prop where
  same : ∀ x i j, next^[i + 1] x = next^[j + 1] x ↔ i ≡ j [MOD m]
  reaches : ∀ x y, ∃ i < m, next^[i + 1] x = y

private theorem iterate_succ32 (x : UInt32) (n : ℕ) :
    (fun x : UInt32 => x + 1)^[n] x = x + UInt32.ofNat n := by
  induction n with
  | zero => exact (UInt32.add_zero x).symm
  | succ n ih => rw [iterate_succ_apply', ih, UInt32.add_assoc, UInt32.ofNat_add]; rfl

private theorem iterate_succ64 (x : UInt64) (n : ℕ) :
    (fun x : UInt64 => x + 1)^[n] x = x + UInt64.ofNat n := by
  induction n with
  | zero => exact (UInt64.add_zero x).symm
  | succ n ih => rw [iterate_succ_apply', ih, UInt64.add_assoc, UInt64.ofNat_add]; rfl

private theorem succ_modEq_iff {m : ℕ} (i j : ℕ) : i + 1 ≡ j + 1 [MOD m] ↔ i ≡ j [MOD m] :=
  ⟨Nat.ModEq.add_right_cancel' 1, Nat.ModEq.add_right 1⟩

theorem counts32 : Counts (fun x : UInt32 => x + 1) (2 ^ 32) := by
  refine ⟨fun x i j => ?_, fun x y => ⟨(y - x - 1).toNat, UInt32.toNat_lt _, ?_⟩⟩
  · rw [iterate_succ32, iterate_succ32, UInt32.add_right_inj, ← UInt32.toNat_inj,
      UInt32.toNat_ofNat', UInt32.toNat_ofNat', ← succ_modEq_iff, Nat.ModEq]
  · have hone : UInt32.ofNat 1 = 1 := by decide
    rw [iterate_succ32, UInt32.ofNat_add, UInt32.ofNat_toNat, hone, UInt32.sub_add_cancel,
      UInt32.add_comm, UInt32.sub_add_cancel]

theorem counts64 : Counts (fun x : UInt64 => x + 1) (2 ^ 64) := by
  refine ⟨fun x i j => ?_, fun x y => ⟨(y - x - 1).toNat, UInt64.toNat_lt _, ?_⟩⟩
  · rw [iterate_succ64, iterate_succ64, UInt64.add_right_inj, ← UInt64.toNat_inj,
      UInt64.toNat_ofNat', UInt64.toNat_ofNat', ← succ_modEq_iff, Nat.ModEq]
  · have hone : UInt64.ofNat 1 = 1 := by decide
    rw [iterate_succ64, UInt64.ofNat_add, UInt64.ofNat_toNat, hone, UInt64.sub_add_cancel,
      UInt64.add_comm, UInt64.sub_add_cancel]

section Periods

variable {α : Type} {f : ℕ → α} {k p : ℕ}

private theorem iterate_shift (f : ℕ → α) (p : ℕ) :
    (fun (f : ℕ → α) i => f (i + 1))^[p] f = fun i => f (i + p) := by
  induction p with
  | zero => rfl
  | succ p ih =>
    rw [iterate_succ_apply', ih]
    funext i
    exact congrArg f (Nat.add_right_comm i 1 p)

theorem periodic_iff_dvd (hfull : ∀ i, f (i + 2 ^ (k + 1)) = f i)
    (hhalf : ∃ i, f (i + 2 ^ k) ≠ f i) :
    (∀ i, f (i + p) = f i) ↔ 2 ^ (k + 1) ∣ p := by
  have hperiodic : ∀ p, IsPeriodicPt (fun (f : ℕ → α) i => f (i + 1)) p f ↔ ∀ i, f (i + p) = f i := by
    intro p
    rw [IsPeriodicPt, IsFixedPt, iterate_shift]
    exact funext_iff
  have : Fact (Nat.Prime 2) := ⟨Nat.prime_two⟩
  have hminimal : minimalPeriod (fun (f : ℕ → α) i => f (i + 1)) f = 2 ^ (k + 1) := by
    apply minimalPeriod_eq_prime_pow
    · intro h
      obtain ⟨i, hi⟩ := hhalf
      exact hi ((hperiodic _).mp h i)
    · exact (hperiodic _).mpr hfull
  rw [← hperiodic, isPeriodicPt_iff_minimalPeriod_dvd, hminimal]

end Periods

section Products

variable {a n : ℕ}

private theorem exists_pow_two_pow (ha : a % 2 = 1) (n : ℕ) :
    ∃ c, c % 2 = 1 ∧ (1 + 4 * a) ^ 2 ^ n = 1 + 2 ^ (n + 2) * c := by
  induction n with
  | zero => exact ⟨a, ha, by ring⟩
  | succ n ih =>
    obtain ⟨c, hc, hpow⟩ := ih
    refine ⟨c + 2 * (2 ^ n * c ^ 2), by omega, ?_⟩
    rw [pow_succ, pow_mul, hpow]
    ring

private theorem mul_pow_half (ha : a % 2 = 1) {x : ℕ} (hx : x % 2 = 1) (n : ℕ) :
    x * (1 + 4 * a) ^ 2 ^ n ≡ x + 2 ^ (n + 2) [MOD 2 ^ (n + 3)] := by
  obtain ⟨c, hc, hpow⟩ := exists_pow_two_pow ha n
  obtain ⟨d, hd⟩ : ∃ d, x * c = 2 * d + 1 := by
    have hodd : x * c % 2 = 1 := by rw [Nat.mul_mod, hx, hc]
    exact ⟨x * c / 2, by omega⟩
  have hsum : x * (1 + 4 * a) ^ 2 ^ n = x + 2 ^ (n + 2) + 2 ^ (n + 3) * d := by
    rw [hpow, Nat.mul_add, Nat.mul_one, Nat.mul_left_comm, hd]
    ring
  rw [hsum, Nat.ModEq, Nat.add_mul_mod_self_left]

private theorem mul_pow_full (ha : a % 2 = 1) (x n : ℕ) :
    x * (1 + 4 * a) ^ 2 ^ (n + 1) ≡ x [MOD 2 ^ (n + 3)] := by
  obtain ⟨c, -, hpow⟩ := exists_pow_two_pow ha (n + 1)
  have hsum : x * (1 + 4 * a) ^ 2 ^ (n + 1) = x + 2 ^ (n + 3) * (x * c) := by
    rw [hpow]
    ring
  rw [hsum, Nat.ModEq, Nat.add_mul_mod_self_left]

private theorem iterate_mul (c x : BitVec w) (i : ℕ) :
    (fun x : BitVec w => x * c)^[i] x = BitVec.ofNat w (x.toNat * c.toNat ^ i) := by
  induction i with
  | zero => rw [pow_zero, Nat.mul_one, BitVec.ofNat_toNat, BitVec.setWidth_eq]; rfl
  | succ i ih =>
    rw [iterate_succ_apply', ih]
    apply BitVec.eq_of_toNat_eq
    simp only [BitVec.toNat_mul, BitVec.toNat_ofNat]
    rw [Nat.mod_mul_mod, pow_succ, Nat.mul_assoc]

variable {c x : BitVec (n + 3)}

theorem iterate_mul_full (hc : c.toNat = 1 + 4 * a) (ha : a % 2 = 1) (i : ℕ) :
    (fun x : BitVec (n + 3) => x * c)^[i + 2 ^ (n + 1)] x = (fun x : BitVec (n + 3) => x * c)^[i] x := by
  rw [iterate_mul, iterate_mul]
  apply BitVec.eq_of_toNat_eq
  rw [BitVec.toNat_ofNat, BitVec.toNat_ofNat, hc, pow_add, ← Nat.mul_assoc]
  exact mul_pow_full ha _ n

theorem iterate_mul_half (hc : c.toNat = 1 + 4 * a) (ha : a % 2 = 1) (hx : x.toNat % 2 = 1) :
    ((fun x : BitVec (n + 3) => x * c)^[2 ^ n] x).toNat = (x.toNat + 2 ^ (n + 2)) % 2 ^ (n + 3) := by
  rw [iterate_mul, BitVec.toNat_ofNat, hc]
  exact mul_pow_half ha hx n

end Products

end Libromano.Foundation.Mixing
