/- Hash functions of 32 bits as functions of bytes: MurmurHash3 (x86, 32 bits) and FNV-1a. -/

import Libromano.Foundation.Heap

set_option autoImplicit false
set_option relaxedAutoImplicit false

namespace Libromano.Foundation

def word (bytes : List UInt8) : UInt32 := UInt32.ofNat (ofLittleEndian bytes)

section Words

variable {bytes : List UInt8} {b : UInt8}

private theorem ofLittleEndian_append (bytes : List UInt8) (b : UInt8) :
    ofLittleEndian (bytes ++ [b]) = 2 ^ (8 * bytes.length) * b.toNat + ofLittleEndian bytes := by
  induction bytes with
  | nil => simp [ofLittleEndian]
  | cons c bytes ih =>
    rw [List.cons_append, ofLittleEndian, ih, ofLittleEndian, List.length_cons,
      show 8 * (bytes.length + 1) = 8 + 8 * bytes.length by omega, Nat.pow_add, Nat.mul_assoc]
    omega

private theorem ofLittleEndian_lt_two_pow (bytes : List UInt8) :
    ofLittleEndian bytes < 2 ^ (8 * bytes.length) := by
  rw [Nat.pow_mul]
  exact ofLittleEndian_lt bytes

theorem toNat_word (h : bytes.length ≤ 4) : (word bytes).toNat = ofLittleEndian bytes := by
  have hlt := ofLittleEndian_lt_two_pow bytes
  have hle : 2 ^ (8 * bytes.length) ≤ 2 ^ 32 := Nat.pow_le_pow_right (by decide) (by omega)
  rw [word, UInt32.toNat_ofNat']
  exact Nat.mod_eq_of_lt (Nat.lt_of_lt_of_le hlt hle)

private theorem toNat_shifted (b : UInt8) {k : ℕ} (hk : k ≤ 24) :
    (b.toUInt32 <<< UInt32.ofNat k).toNat = 2 ^ k * b.toNat := by
  have hshift : (UInt32.ofNat k).toNat % 32 = k := by
    rw [UInt32.toNat_ofNat']
    omega
  have hpow : 2 ^ k ≤ 2 ^ 24 := Nat.pow_le_pow_right (by decide) hk
  have hlt : 2 ^ k * b.toNat < 2 ^ 32 := by
    calc 2 ^ k * b.toNat ≤ 2 ^ 24 * b.toNat := Nat.mul_le_mul_right _ hpow
      _ < 2 ^ 24 * 2 ^ 8 := Nat.mul_lt_mul_of_pos_left b.toNat_lt (by decide)
      _ = 2 ^ 32 := by decide
  rw [UInt32.toNat_shiftLeft, hshift, UInt8.toNat_toUInt32, Nat.shiftLeft_eq, Nat.mul_comm]
  exact Nat.mod_eq_of_lt hlt

theorem word_or (b : UInt8) (h : bytes.length ≤ 3) :
    word bytes ||| (b.toUInt32 <<< UInt32.ofNat (8 * bytes.length)) = word (bytes ++ [b]) := by
  apply UInt32.toNat_inj.mp
  rw [UInt32.toNat_or, toNat_word (by omega), toNat_shifted b (by omega),
    toNat_word (by rw [List.length_append, List.length_singleton]; omega), ofLittleEndian_append,
    Nat.two_pow_add_eq_or_of_lt (ofLittleEndian_lt_two_pow bytes), Nat.or_comm]

theorem word_xor (b : UInt8) (h : bytes.length ≤ 3) :
    word bytes ^^^ (b.toUInt32 <<< UInt32.ofNat (8 * bytes.length)) = word (bytes ++ [b]) := by
  rw [← word_or b h]
  apply UInt32.toNat_inj.mp
  rw [UInt32.toNat_xor, UInt32.toNat_or, toNat_word (by omega), toNat_shifted b (by omega)]
  apply Nat.eq_of_testBit_eq
  intro i
  rw [Nat.testBit_xor, Nat.testBit_or, Nat.testBit_two_pow_mul]
  by_cases hi : 8 * bytes.length ≤ i
  · have hlow : (ofLittleEndian bytes).testBit i = false :=
      Nat.testBit_lt_two_pow (Nat.lt_of_lt_of_le (ofLittleEndian_lt_two_pow bytes)
        (Nat.pow_le_pow_right (by decide) hi))
    simp [hlow]
  · simp [hi]

end Words

namespace Murmur3

def rotl32 (x r : UInt32) : UInt32 := (x <<< r) ||| (x >>> (32 - r))

def scramble (k : UInt32) : UInt32 := rotl32 (k * 0xcc9e2d51) 15 * 0x1b873593

def body (h : UInt32) : List UInt8 → UInt32
  | a :: b :: c :: d :: rest => body (rotl32 (h ^^^ scramble (word [a, b, c, d])) 13 * 5 + 0xe6546b64) rest
  | [] => h
  | tail => h ^^^ scramble (word tail)

def fmix32 (h : UInt32) : UInt32 :=
  let h := (h ^^^ (h >>> 16)) * 0x85ebca6b
  let h := (h ^^^ (h >>> 13)) * 0xc2b2ae35
  h ^^^ (h >>> 16)

def hash (seed : UInt32) (bytes : List UInt8) : UInt32 :=
  fmix32 (body seed bytes ^^^ UInt32.ofNat bytes.length)

end Murmur3

namespace Fnv1a

def step (h : UInt32) (octet : UInt8) : UInt32 := (h ^^^ octet.toUInt32) * 0x01000193

def hash (bytes : List UInt8) : UInt32 := bytes.foldl step 0x811c9dc5

end Fnv1a

end Libromano.Foundation
