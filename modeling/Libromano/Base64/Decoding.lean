/- What the decoder reads and writes. Only the characters before the padding are looked up. -/

import Libromano.Base64.Groups

set_option autoImplicit false
set_option relaxedAutoImplicit false

namespace Libromano.Base64

open Bytes (byteAt byteAt_append)

def bytesOf (chunk : UInt32) : List UInt8 :=
  [((chunk >>> 16) &&& 0xFF).toUInt8, ((chunk >>> 8) &&& 0xFF).toUInt8,
    ((chunk >>> 0) &&& 0xFF).toUInt8]

def chunkOf (c₀ c₁ c₂ c₃ : UInt8) : UInt32 :=
  valueOf c₀ <<< 18 ||| valueOf c₁ <<< 12 ||| valueOf c₂ <<< 6 ||| valueOf c₃ <<< 0

def decodedGroups : List UInt8 → List UInt8
  | c₀ :: c₁ :: c₂ :: c₃ :: data => bytesOf (chunkOf c₀ c₁ c₂ c₃) ++ decodedGroups data
  | _ => []

theorem length_decodedGroups {turns : ℕ} {front : List UInt8} (h : front.length = 4 * turns) :
    (decodedGroups front).length = 3 * turns := by
  induction turns generalizing front with
  | zero =>
    obtain rfl := List.length_eq_zero_iff.mp h
    rfl
  | succ turns ih =>
    obtain ⟨c₀, c₁, c₂, c₃, front, rfl⟩ := exists_four h.ge
    simp only [List.length_cons] at h
    rw [decodedGroups, List.length_append, ih (by omega), bytesOf]
    simp only [List.length_cons, List.length_nil]
    omega

def AllIndexed (chars : List UInt8) : Prop := ∀ c ∈ chars, Indexed c

instance (chars : List UInt8) : Decidable (AllIndexed chars) :=
  inferInstanceAs (Decidable (∀ c ∈ chars, Indexed c))

@[simp] theorem allIndexed_nil : AllIndexed [] := by simp [AllIndexed]

@[simp] theorem allIndexed_cons {c : UInt8} {chars : List UInt8} :
    AllIndexed (c :: chars) ↔ Indexed c ∧ AllIndexed chars := by simp [AllIndexed]

@[simp] theorem allIndexed_append {l₁ l₂ : List UInt8} :
    AllIndexed (l₁ ++ l₂) ↔ AllIndexed l₁ ∧ AllIndexed l₂ := by
  simp only [AllIndexed, List.mem_append, or_imp, forall_and]

private theorem toUInt8_mask (x : UInt32) : (x &&& 0xFF).toUInt8 = x.toUInt8 := by
  apply UInt8.toNat_inj.mp
  rw [UInt32.toNat_toUInt8, UInt32.toNat_toUInt8, UInt32.toNat_and]
  have hmask : x.toNat &&& 255 = x.toNat % 256 := Nat.and_two_pow_sub_one_eq_mod _ 8
  change (x.toNat &&& 255) % 256 = x.toNat % 256
  rw [hmask, Nat.mod_mod]

private theorem decodeGroups_eq {turns i : ℕ} (fuel : ℕ)
    (before front after written rest : List UInt8)
    (hfront : front.length = 4 * turns) (hbefore : before.length = i)
    (hrest : 3 * turns ≤ rest.length) (hfuel : turns < fuel) :
    decodeGroups (before ++ (front ++ after)) (i + 4 * turns) fuel i (filled written rest) =
      if AllIndexed front then
        .ok (i + 4 * turns, filled (written ++ decodedGroups front) (rest.drop (3 * turns)))
      else .error .outOfBounds := by
  induction turns generalizing i before front written rest fuel with
  | zero =>
    obtain rfl := List.length_eq_zero_iff.mp hfront
    obtain ⟨fuel, rfl⟩ : ∃ n, fuel = n + 1 := ⟨fuel - 1, by omega⟩
    simp [decodeGroups, decodedGroups]
  | succ turns ih =>
    obtain ⟨fuel, rfl⟩ : ∃ n, fuel = n + 1 := ⟨fuel - 1, by omega⟩
    obtain ⟨c₀, c₁, c₂, c₃, front, rfl⟩ := exists_four hfront.ge
    obtain ⟨r₀, r₁, r₂, rest, rfl⟩ := exists_three hrest
    simp only [List.length_cons] at hfront hrest
    have hnext := ih (i := i + 4) fuel (before ++ [c₀, c₁, c₂, c₃]) front
      (written ++ bytesOf (chunkOf c₀ c₁ c₂ c₃)) rest (by omega) (by simp [hbefore]) (by omega)
      (by omega)
    have hread (j : ℕ) : byteAt (before ++ (c₀ :: c₁ :: c₂ :: c₃ :: front ++ after)) (i + j) =
        byteAt (c₀ :: c₁ :: c₂ :: c₃ :: front ++ after) j := byteAt_append _ _ (by rw [hbefore])
    have hsplit : before ++ (c₀ :: c₁ :: c₂ :: c₃ :: front ++ after) =
        before ++ [c₀, c₁, c₂, c₃] ++ (front ++ after) := by simp
    have hbound : i + 4 * (turns + 1) = i + 4 + 4 * turns := by omega
    have hdrop : (r₀ :: r₁ :: r₂ :: rest).drop (3 * (turns + 1)) = rest.drop (3 * turns) := by
      rw [Nat.mul_succ]
      rfl
    rw [decodeGroups, if_pos (by omega), hread, hread, hread, hread]
    simp only [show byteAt (c₀ :: c₁ :: c₂ :: c₃ :: front ++ after) 0 = .ok c₀ from rfl,
      show byteAt (c₀ :: c₁ :: c₂ :: c₃ :: front ++ after) 1 = .ok c₁ from rfl,
      show byteAt (c₀ :: c₁ :: c₂ :: c₃ :: front ++ after) 2 = .ok c₂ from rfl,
      show byteAt (c₀ :: c₁ :: c₂ :: c₃ :: front ++ after) 3 = .ok c₃ from rfl, bind_ok,
      decodeAt_eq]
    by_cases h₀ : Indexed c₀
    · by_cases h₁ : Indexed c₁
      · by_cases h₂ : Indexed c₂
        · by_cases h₃ : Indexed c₃
          · simp only [h₀, h₁, h₂, h₃, if_true, bind_ok, push_filled]
            change decodeGroups _ _ _ _ (filled (written ++ [(chunkOf c₀ c₁ c₂ c₃ >>> 16).toUInt8] ++
              [((chunkOf c₀ c₁ c₂ c₃ >>> 8) &&& 0xFF).toUInt8] ++
              [((chunkOf c₀ c₁ c₂ c₃ >>> 0) &&& 0xFF).toUInt8]) rest) = _
            rw [← toUInt8_mask (chunkOf c₀ c₁ c₂ c₃ >>> 16), List.append_assoc,
              List.append_assoc, hsplit, hbound, hdrop]
            refine hnext.trans ?_
            simp [decodedGroups, h₀, h₁, h₂, h₃]
          · simp [h₀, h₁, h₂, h₃]
        · simp [h₀, h₁, h₂]
      · simp [h₀, h₁]
    · simp [h₀]

def gather : ℕ → List UInt8 → UInt32 → UInt32
  | _, [], chunk => chunk
  | j, c :: chars, chunk =>
    gather (j + 1) chars (chunk ||| valueOf c <<< UInt32.ofNat ((3 - j) * 6))

private theorem decodeLast_eq {data : List UInt8} {i : ℕ} (chars : List UInt8) (j : ℕ)
    (chunk : UInt32)
    (hread : ∀ k c, chars[k]? = some c → byteAt data (i + (j + k)) = .ok c) :
    decodeLast data i chars.length j chunk =
      if AllIndexed chars then .ok (gather j chars chunk) else .error .outOfBounds := by
  induction chars generalizing j chunk with
  | nil => simp [decodeLast, gather]
  | cons c chars ih =>
    have hnext := ih (j + 1) (chunk ||| valueOf c <<< UInt32.ofNat ((3 - j) * 6))
      fun k d hd => by
        rw [Nat.add_assoc j 1 k, Nat.add_comm 1 k]
        exact hread (k + 1) d hd
    have hfirst : byteAt data (i + j) = .ok c := hread 0 c rfl
    rw [List.length_cons, decodeLast, hfirst, bind_ok, decodeAt_eq]
    by_cases hc : Indexed c
    · rw [if_pos hc, bind_ok, hnext]
      simp [hc, gather]
    · rw [if_neg hc, bind_error]
      simp [hc]

/-- The number of `=` among the last two characters. -/
def padding (c₂ c₃ : UInt8) : ℕ := (decide (c₃ = 61)).toNat + (decide (c₂ = 61)).toNat

theorem padding_le (c₂ c₃ : UInt8) : padding c₂ c₃ ≤ 2 := by
  have h₂ := Bool.toNat_le (decide (c₂ = 61))
  have h₃ := Bool.toNat_le (decide (c₃ = 61))
  rw [padding]
  omega

section Last

variable {front : List UInt8} {turns : ℕ} {c₀ c₁ c₂ c₃ : UInt8}
  (hfront : front.length = 4 * turns)

include hfront

private theorem byteAt_last (j : ℕ) : byteAt (front ++ [c₀, c₁, c₂, c₃]) (4 * turns + j) =
    byteAt [c₀, c₁, c₂, c₃] j := byteAt_append _ _ (by rw [hfront])

private theorem countPadding_eq :
    countPadding (front ++ [c₀, c₁, c₂, c₃]) = .ok (padding c₂ c₃) := by
  have hlength : (front ++ [c₀, c₁, c₂, c₃]).length = 4 * turns + 4 := by
    rw [List.length_append, hfront]
    rfl
  have hlast : subSize (4 * turns + 4) 1 = 4 * turns + 3 := if_pos (by omega)
  have hbefore : subSize (4 * turns + 4) 2 = 4 * turns + 2 := if_pos (by omega)
  rw [countPadding, isPadding, isPadding, hlength, hlast, hbefore, byteAt_last hfront,
    byteAt_last hfront]
  rfl

theorem base64GetDecodeSize_eq : base64GetDecodeSize (front ++ [c₀, c₁, c₂, c₃]) =
    .ok (3 * turns + (3 - padding c₂ c₃)) := by
  have hle := padding_le c₂ c₃
  rw [base64GetDecodeSize, countPadding_eq hfront, List.length_append, hfront]
  simp only [List.length_cons, List.length_nil]
  rw [if_neg (by omega), if_neg (by omega), bind_ok]
  congr 1
  omega

private theorem decodeLast_last : decodeLast (front ++ [c₀, c₁, c₂, c₃]) (4 * turns)
    (4 - padding c₂ c₃) 0 0 =
    if AllIndexed ([c₀, c₁, c₂, c₃].take (4 - padding c₂ c₃)) then
      .ok (gather 0 ([c₀, c₁, c₂, c₃].take (4 - padding c₂ c₃)) 0)
    else .error .outOfBounds := by
  have hread := decodeLast_eq (i := 4 * turns)
    ([c₀, c₁, c₂, c₃].take (4 - padding c₂ c₃)) 0 0
    fun k c hk => by
      rw [List.getElem?_take] at hk
      split_ifs at hk
      rw [Nat.zero_add, byteAt_last hfront, byteAt, hk]
  rwa [List.length_take, show [c₀, c₁, c₂, c₃].length = 4 from rfl,
    Nat.min_eq_left (Nat.sub_le _ _)] at hread

omit hfront in
private theorem push_last (written : List UInt8) (chunk : UInt32) (p : ℕ) (hp : p ≤ 2) :
    (do
      let out ← (filled written (List.replicate (3 - p) 0)).push ((chunk >>> 16) &&& 0xFF).toUInt8
      let out ← (if p < 2 then out.push ((chunk >>> 8) &&& 0xFF).toUInt8 else .ok out)
      if p < 1 then out.push ((chunk >>> 0) &&& 0xFF).toUInt8 else .ok out) =
    .ok (filled (written ++ (bytesOf chunk).take (3 - p)) []) := by
  obtain rfl | rfl | rfl : p = 0 ∨ p = 1 ∨ p = 2 := by omega
  · simp [List.replicate_succ, push_filled, bytesOf]
  · simp [List.replicate_succ, push_filled, bytesOf]
  · simp [List.replicate_succ, push_filled, bytesOf]

def decodedLast (c₀ c₁ c₂ c₃ : UInt8) : List UInt8 :=
  (bytesOf (gather 0 ([c₀, c₁, c₂, c₃].take (4 - padding c₂ c₃)) 0)).take (3 - padding c₂ c₃)

omit hfront in
theorem length_decodedLast : (decodedLast c₀ c₁ c₂ c₃).length = 3 - padding c₂ c₃ := by
  rw [decodedLast, List.length_take]
  exact Nat.min_eq_left (Nat.sub_le _ _)

theorem base64Decode_eq : base64Decode (front ++ [c₀, c₁, c₂, c₃]) =
    if AllIndexed (front ++ [c₀, c₁, c₂, c₃].take (4 - padding c₂ c₃)) then
      .ok (some ⟨decodedGroups front ++ decodedLast c₀ c₁ c₂ c₃,
        3 * turns + (3 - padding c₂ c₃)⟩)
    else .error .outOfBounds := by
  have hlength : (front ++ [c₀, c₁, c₂, c₃]).length = 4 * turns + 4 := by
    rw [List.length_append, hfront]
    rfl
  have hbound : subSize (4 * turns + 4) 4 = 0 + 4 * turns := (if_pos (by omega)).trans (by omega)
  have hloop := decodeGroups_eq (i := 0) ((4 * turns + 4) / 4 + 1) [] front [c₀, c₁, c₂, c₃] []
    (List.replicate (3 * turns + (3 - padding c₂ c₃)) 0) hfront rfl
    (by rw [List.length_replicate]; omega) (by omega)
  rw [List.nil_append, List.drop_replicate, Nat.add_sub_cancel_left] at hloop
  rw [base64Decode, if_neg (by omega), base64GetDecodeSize_eq hfront, bind_ok, calloc_eq,
    base64DecodeScalar, countPadding_eq hfront, hlength, hbound, hloop]
  by_cases hall : AllIndexed front
  · rw [if_pos hall]
    simp only [bind_ok, List.nil_append, Nat.zero_add, decodeLast_last hfront]
    by_cases hlast : AllIndexed ([c₀, c₁, c₂, c₃].take (4 - padding c₂ c₃))
    · rw [if_pos hlast]
      have hpush := push_last (decodedGroups front)
        (gather 0 ([c₀, c₁, c₂, c₃].take (4 - padding c₂ c₃)) 0) (padding c₂ c₃) (padding_le c₂ c₃)
      rw [if_pos (allIndexed_append.mpr ⟨hall, hlast⟩), bind_ok, hpush, bind_ok, filled,
        List.append_nil, List.length_append, length_decodedGroups hfront, ← decodedLast,
        length_decodedLast]
    · rw [if_neg hlast, if_neg fun h => hlast (allIndexed_append.mp h).2]
      rfl
  · rw [if_neg hall, if_neg fun h => hall (allIndexed_append.mp h).1]
    rfl

end Last

end Libromano.Base64
