/- The encoder and the decoder of `base64.c`. Memory is taken to last, and a request for no bytes
   to give a pointer. No size wraps: an object has less than `2 ^ 63` bytes. -/

import Libromano.Bytes
import Mathlib.Algebra.Order.Ring.Nat
import Mathlib.Data.Int.Notation
import Mathlib.Data.List.Basic

set_option autoImplicit false
set_option relaxedAutoImplicit false

namespace Libromano.Base64

open Bytes (byteAt)

/-- A buffer with the number of bytes that were written to it. -/
structure Output where
  buffer : List UInt8
  size : ℕ
  deriving DecidableEq

def calloc (n : ℕ) : Output := ⟨List.replicate n 0, 0⟩

/-- `out_buffer[(*out_sz)++] = b`. -/
def Output.push (out : Output) (b : UInt8) : Except Fault Output :=
  if out.size < out.buffer.length then .ok ⟨out.buffer.set out.size b, out.size + 1⟩
  else .error .outOfBounds

def base64GetEncodeSize (dataSz : ℕ) : ℕ := (dataSz + 2) / 3 * 4

def encodeTable : List UInt8 := [
  'A', 'B', 'C', 'D', 'E', 'F', 'G', 'H', 'I', 'J', 'K', 'L', 'M', 'N', 'O', 'P',
  'Q', 'R', 'S', 'T', 'U', 'V', 'W', 'X', 'Y', 'Z', 'a', 'b', 'c', 'd', 'e', 'f',
  'g', 'h', 'i', 'j', 'k', 'l', 'm', 'n', 'o', 'p', 'q', 'r', 's', 't', 'u', 'v',
  'w', 'x', 'y', 'z', '0', '1', '2', '3', '4', '5', '6', '7', '8', '9', '+', '/'].map fun c => UInt8.ofNat c.toNat

/-- `encode_table[(chunk >> shift) & 0x3F]`. -/
def encodeAt (chunk shift : UInt32) : Except Fault UInt8 :=
  byteAt encodeTable ((chunk >>> shift) &&& 0x3F).toNat

/-- The loop over the full groups, with the number of turns left. -/
def encodeGroups (data : List UInt8) : ℕ → ℕ → Output → Except Fault Output
  | 0, _, out => .ok out
  | turns + 1, g, out => do
    let i := g * 3
    let b₀ ← byteAt data (i + 0)
    let b₁ ← byteAt data (i + 1)
    let b₂ ← byteAt data (i + 2)
    let chunk := b₀.toUInt32 <<< 16 ||| b₁.toUInt32 <<< 8 ||| b₂.toUInt32
    let out ← out.push (← encodeAt chunk 18)
    let out ← out.push (← encodeAt chunk 12)
    let out ← out.push (← encodeAt chunk 6)
    let out ← out.push (← encodeAt chunk 0)
    encodeGroups data turns (g + 1) out

def encodeRest (data : List UInt8) (i rem : ℕ) (out : Output) : Except Fault Output := do
  let b₀ ← byteAt data (i + 0)
  let b₁ ← (if 2 ≤ rem then byteAt data (i + 1) else .ok 0)
  let chunk := b₀.toUInt32 <<< 16 ||| b₁.toUInt32 <<< 8
  let out ← out.push (← encodeAt chunk 18)
  let out ← out.push (← encodeAt chunk 12)
  if rem = 1 then
    let out ← out.push 61
    out.push 61
  else
    let out ← out.push (← encodeAt chunk 6)
    out.push 61

/-- The result is the buffer with the size that is reported. -/
def base64EncodeScalar (data : List UInt8) (out : Output) : Except Fault Output := do
  let fullGroups := data.length / 3
  let out ← encodeGroups data fullGroups 0 { out with size := 0 }
  let rem := data.length % 3
  if rem ≠ 0 then encodeRest data (fullGroups * 3) rem out else .ok out

def base64Encode (data : List UInt8) : Except Fault Output :=
  base64EncodeScalar data (calloc (base64GetEncodeSize data.length))

/-- The table as it is stored: `-1` and `-2` are bytes. -/
def decodeTable : List UInt8 := [
  62, 255, 255, 255, 63, 52, 53, 54, 55, 56,
  57, 58, 59, 60, 61, 255, 255, 255, 254, 255,
  255, 255, 0, 1, 2, 3, 4, 5, 6, 7,
  8, 9, 10, 11, 12, 13, 14, 15, 16, 17,
  18, 19, 20, 21, 22, 23, 24, 25, 255, 255,
  255, 255, 255, 255, 26, 27, 28, 29, 30, 31,
  32, 33, 34, 35, 36, 37, 38, 39, 40, 41,
  42, 43, 44, 45, 46, 47, 48, 49, 50, 51]

/-- `c - '+'`, where a `char` has a sign. -/
def tableIndex (c : UInt8) : ℤ := c.toInt8.toInt - 43

/-- `(uint32_t)decode_table[c - '+']`. -/
def decodeAt (c : UInt8) : Except Fault UInt32 :=
  if 0 ≤ tableIndex c then do
    let v ← byteAt decodeTable (tableIndex c).toNat
    .ok v.toUInt32
  else .error .outOfBounds

/-- The difference of two sizes, which are of type `size_t`. -/
def subSize (a b : ℕ) : ℕ := if b ≤ a then a - b else a + 2 ^ 64 - b

/-- `data[data_sz - k] == '='`. -/
def isPadding (data : List UInt8) (k : ℕ) : Except Fault Bool := do
  let c ← byteAt data (subSize data.length k)
  .ok (c = 61)

def countPadding (data : List UInt8) : Except Fault ℕ := do
  let last ← isPadding data 1
  let beforeLast ← isPadding data 2
  .ok (last.toNat + beforeLast.toNat)

def base64GetDecodeSize (data : List UInt8) : Except Fault ℕ :=
  if data.length = 0 then .ok 0
  else if data.length % 4 ≠ 0 then .ok 0
  else do
    let padding ← countPadding data
    .ok (data.length / 4 * 3 - padding)

def decodeGroups (data : List UInt8) (bound : ℕ) : ℕ → ℕ → Output → Except Fault (ℕ × Output)
  | 0, _, _ => .error .diverges
  | fuel + 1, i, out =>
    if i < bound then do
      let v₀ ← decodeAt (← byteAt data (i + 0))
      let v₁ ← decodeAt (← byteAt data (i + 1))
      let v₂ ← decodeAt (← byteAt data (i + 2))
      let v₃ ← decodeAt (← byteAt data (i + 3))
      let chunk := v₀ <<< 18 ||| v₁ <<< 12 ||| v₂ <<< 6 ||| v₃ <<< 0
      let out ← out.push (chunk >>> 16).toUInt8
      let out ← out.push ((chunk >>> 8) &&& 0xFF).toUInt8
      let out ← out.push ((chunk >>> 0) &&& 0xFF).toUInt8
      decodeGroups data bound fuel (i + 4) out
    else .ok (i, out)

/-- The loop over what stands in the last group before the padding, with the number
of turns left. -/
def decodeLast (data : List UInt8) (i : ℕ) : ℕ → ℕ → UInt32 → Except Fault UInt32
  | 0, _, chunk => .ok chunk
  | turns + 1, j, chunk => do
    let v ← decodeAt (← byteAt data (i + j))
    decodeLast data i turns (j + 1) (chunk ||| v <<< UInt32.ofNat ((3 - j) * 6))

/-- `none` stands for `NULL`. -/
def base64DecodeScalar (data : List UInt8) (out : Output) : Except Fault Output := do
  let (i, out) ← decodeGroups data (subSize data.length 4) (data.length / 4 + 1) 0 out
  let padding ← countPadding data
  let chunk ← decodeLast data i (4 - padding) 0 0
  let out ← out.push ((chunk >>> 16) &&& 0xFF).toUInt8
  let out ← (if padding < 2 then out.push ((chunk >>> 8) &&& 0xFF).toUInt8 else .ok out)
  if padding < 1 then out.push ((chunk >>> 0) &&& 0xFF).toUInt8 else .ok out

/-- `none` stands for `NULL`. -/
def base64Decode (data : List UInt8) : Except Fault (Option Output) :=
  if data.length % 4 ≠ 0 then .ok none
  else do
    let bufferSz ← base64GetDecodeSize data
    let out ← base64DecodeScalar data (calloc bufferSz)
    .ok (some out)

end Libromano.Base64
