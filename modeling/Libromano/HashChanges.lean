/- What a change of the key does to its hash: a change of one byte always shows in `hash_fnv1a`,
   and one within four bytes that are read as one word in `hash_murmur3`. -/

import Libromano.Foundation.Mixing
import Libromano.Hash

set_option autoImplicit false
set_option relaxedAutoImplicit false

namespace Libromano.Hash

open Bytes Foundation Foundation.Mixing Function

variable {before text rest : List UInt8} {a b c d : UInt8}

private theorem word_injective {bytes bytes' : List UInt8} (hlen : bytes.length = bytes'.length)
    (hfour : bytes.length ≤ 4) (h : word bytes = word bytes') : bytes = bytes' := by
  have hnat := congrArg UInt32.toNat h
  rw [toNat_word hfour, toNat_word (hlen ▸ hfour)] at hnat
  rw [← littleEndian_ofLittleEndian bytes, ← littleEndian_ofLittleEndian bytes', hnat, hlen]

private theorem rotl_injective {r : UInt32} (hr : r.toNat % 32 + (32 - r).toNat % 32 = 32) :
    Injective fun x => Murmur3.rotl32 x r := rotate32_injective hr

private theorem scramble_injective : Injective Murmur3.scramble :=
  ((mul32_injective (c := 0x1b873593) (by decide)).comp (rotl_injective (r := 15) (by decide))).comp
    (mul32_injective (c := 0xcc9e2d51) (by decide))

def mixed (h k : UInt32) : UInt32 := Murmur3.rotl32 (h ^^^ k) 13 * 5 + 0xe6546b64

private theorem mixed_injective : Injective fun x :
    UInt32 => Murmur3.rotl32 x 13 * 5 + 0xe6546b64 := by
  intro x y h
  have hproduct : Murmur3.rotl32 x 13 * 5 = Murmur3.rotl32 y 13 * 5 := (UInt32.add_left_inj _).mp h
  have hrotated : Murmur3.rotl32 x 13 = Murmur3.rotl32 y 13 :=
    mul32_injective (c := 5) (by decide) hproduct
  exact rotl_injective (by decide) hrotated

private theorem fmix32_injective : Injective Murmur3.fmix32 :=
  ((((xorShiftRight32_injective (k := 16) (by decide)).comp
    (mul32_injective (c := 0xc2b2ae35) (by decide))).comp
      (xorShiftRight32_injective (k := 13) (by decide))).comp
        (mul32_injective (c := 0x85ebca6b) (by decide))).comp
          (xorShiftRight32_injective (k := 16) (by decide))

private theorem body_block (h : UInt32) : Murmur3.body h (a :: b :: c :: d :: rest) =
    Murmur3.body (mixed h (Murmur3.scramble (word [a, b, c, d]))) rest := by
  conv_lhs => unfold Murmur3.body
  dsimp only [mixed]

private theorem body_tail (h : UInt32) (hne : text ≠ []) (hlen : text.length < 4) :
    Murmur3.body h text = h ^^^ Murmur3.scramble (word text) := by
  match text, hne, hlen with
  | [a], _, _ | [a, b], _, _ | [a, b, c], _, _ => rfl

private theorem length_lt_of_no_block (h : ∀ a b c d rest, text ≠ a :: b :: c :: d :: rest) :
    text.length < 4 := by
  match text, h with
  | [], _ | [_], _ | [_, _], _ | [_, _, _], _ => simp
  | a :: b :: c :: d :: rest, h => exact absurd rfl (h a b c d rest)

private theorem body_injective (text : List UInt8) : Injective fun h => Murmur3.body h text := by
  intro h h' hbody
  dsimp only at hbody
  fun_induction Murmur3.body h text generalizing h' with
  | case1 h a b c d rest ih =>
    rw [body_block] at hbody
    exact xor32_injective _ (mixed_injective (ih hbody))
  | case2 h => exact hbody
  | case3 h tail hblock hne =>
    rw [body_tail h' hne (length_lt_of_no_block hblock)] at hbody
    exact xor32_injective _ hbody

private theorem body_append (h : UInt32) (hbefore : before.length % 4 = 0) (text : List UInt8) :
    Murmur3.body h (before ++ text) = Murmur3.body (Murmur3.body h before) text := by
  fun_induction Murmur3.body h before with
  | case1 h a b c d rest ih =>
    simp only [List.length_cons] at hbefore
    rw [List.cons_append, List.cons_append, List.cons_append, List.cons_append, body_block]
    exact ih (by omega)
  | case2 h => rfl
  | case3 h tail hblock hne =>
    have hlt := length_lt_of_no_block hblock
    have hpos := List.length_pos_iff.mpr hne
    omega

/-- The bytes that are read as one word: four of them, or what is left of the key. -/
def OneWord (block rest : List UInt8) : Prop := block.length = 4 ∨ block.length < 4 ∧ rest = []

private theorem body_oneWord (h : UInt32) (block rest : List UInt8) (hword : OneWord block rest)
    (hne : block ≠ []) : ∃ f : UInt32 → UInt32, Injective f ∧
      ∀ block', block'.length = block.length → Murmur3.body h (block' ++ rest) = f (word block') := by
  obtain hfour | ⟨hlt, rfl⟩ := hword
  · refine ⟨fun k => Murmur3.body (mixed h (Murmur3.scramble k)) rest, fun x y hxy => ?_, ?_⟩
    · have hstate := mixed_injective (body_injective rest hxy)
      exact scramble_injective ((UInt32.xor_right_inj h).mp hstate)
    · intro block' hlen
      match block', hlen.trans hfour with
      | [a, b, c, d], _ => exact body_block h
  · refine ⟨fun k => h ^^^ Murmur3.scramble k, fun x y hxy => ?_, fun block' hlen => ?_⟩
    · exact scramble_injective ((UInt32.xor_right_inj h).mp hxy)
    · rw [List.append_nil]
      refine body_tail h ?_ (hlen ▸ hlt)
      rintro rfl
      exact hne (List.length_eq_zero_iff.mp hlen.symm)

/-- Two keys that differ in nothing but one word have two hashes, wherever they stand. -/
theorem hashMurmur3_word_iff (order order' : ByteOrder) (address address' : ℕ)
    {before block block' rest : List UInt8} (after after' : List UInt8) (seed : UInt32)
    (hbefore : before.length % 4 = 0) (hlen : block'.length = block.length)
    (hword : OneWord block rest) :
    hashMurmur3 order address (before ++ (block ++ rest) ++ after)
        (before ++ (block ++ rest)).length seed =
      hashMurmur3 order' address' (before ++ (block' ++ rest) ++ after')
        (before ++ (block' ++ rest)).length seed ↔ block = block' := by
  have hsame : (before ++ (block' ++ rest)).length = (before ++ (block ++ rest)).length := by
    simp only [List.length_append, hlen]
  refine ⟨fun h => ?_, ?_⟩
  · rw [hashMurmur3_eq, hashMurmur3_eq, Murmur3.hash, Murmur3.hash, hsame] at h
    have hbody := xor32_injective _ (fmix32_injective (Except.ok.inj h))
    rw [body_append _ hbefore, body_append _ hbefore] at hbody
    by_cases hne : block = []
    · subst hne
      exact (List.length_eq_zero_iff.mp hlen).symm
    · obtain ⟨f, hf, hbytes⟩ := body_oneWord (Murmur3.body seed before) block rest hword hne
      rw [hbytes block rfl, hbytes block' hlen] at hbody
      refine word_injective hlen.symm ?_ (hf hbody)
      obtain hfour | ⟨hlt, -⟩ := hword <;> omega
  · rintro rfl
    rw [hashMurmur3_eq, hashMurmur3_eq]

theorem hashMurmur3_word_iff_tail :
    hashMurmur3 .littleEndian 0 ([] ++ ([1, 2, 3] ++ []) ++ []) ([] ++ ([1, 2, 3] ++ [])).length 7 ≠
      hashMurmur3 .bigEndian 1 ([] ++ ([1, 2, 4] ++ []) ++ [9]) ([] ++ ([1, 2, 4] ++ [])).length 7 := by
  have hbefore : ([] : List UInt8).length % 4 = 0 := rfl
  have hlen : ([1, 2, 4] : List UInt8).length = ([1, 2, 3] : List UInt8).length := rfl
  have hword : OneWord [1, 2, 3] [] := .inr ⟨by decide, rfl⟩
  have hsame := hashMurmur3_word_iff .littleEndian .bigEndian 0 1 [] [9] 7 hbefore hlen hword
  exact hsame.not.mpr (by decide)

private theorem charToU32_injective (charIsSigned : Bool) : Injective (charToU32 charIsSigned) := by
  intro c c' h
  cases charIsSigned with
  | false =>
    have hnat := congrArg UInt32.toNat h
    exact UInt8.toNat_inj.mp hnat
  | true =>
    have hbits : c.toBitVec.signExtend 32 = c'.toBitVec.signExtend 32 := congrArg UInt32.toBitVec h
    apply UInt8.toBitVec_inj.mp
    apply BitVec.eq_of_getLsbD_eq
    intro i hi
    have hbit := congrArg (fun x : BitVec 32 => x.getLsbD i) hbits
    simp only [BitVec.getLsbD_signExtend, hi, show i < 32 by omega, decide_true, Bool.true_and,
      if_true] at hbit
    exact hbit

private theorem foldl_round_injective (charIsSigned : Bool) (text : List UInt8) :
    Injective fun h => text.foldl (round charIsSigned) h := by
  induction text with
  | nil => exact injective_id
  | cons c text ih =>
    intro h h' hfold
    exact xor32_injective _ (mul_prime_injective (ih hfold))

/-- Two keys that differ in nothing but one byte have two hashes. -/
theorem hashFnv1a_byte_iff (charIsSigned : Bool) (before rest after after' : List UInt8)
    (c c' : UInt8) :
    hashFnv1a charIsSigned (before ++ c :: rest ++ after) (before ++ c :: rest).length =
      hashFnv1a charIsSigned (before ++ c' :: rest ++ after') (before ++ c' :: rest).length ↔
        c = c' := by
  refine ⟨fun h => ?_, ?_⟩
  · rw [hashFnv1a_eq, hashFnv1a_eq, List.foldl_append, List.foldl_append] at h
    have hround := foldl_round_injective charIsSigned rest (Except.ok.inj h)
    exact charToU32_injective charIsSigned
      ((UInt32.xor_right_inj _).mp (mul_prime_injective hround))
  · rintro rfl
    rw [hashFnv1a_eq, hashFnv1a_eq]

end Libromano.Hash
