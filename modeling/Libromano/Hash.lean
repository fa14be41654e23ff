/- The hash functions of `hash.c`. A key is given by its bytes and the address they stand at. -/

import Libromano.Bytes
import Libromano.Foundation.Hashes

set_option autoImplicit false
set_option relaxedAutoImplicit false

namespace Libromano.Hash

open Bytes Foundation

inductive ByteOrder
  | littleEndian
  | bigEndian
  deriving DecidableEq

/-- `*(const uint32_t *)data`. -/
def wordAt (order : ByteOrder) (key : List UInt8) (data : ℕ) : Except Fault UInt32 := do
  let bytes ← bytesAt key data 4
  match order with
  | .littleEndian => .ok (UInt32.ofNat (ofLittleEndian bytes))
  | .bigEndian => .ok (UInt32.ofNat (ofLittleEndian bytes.reverse))

/-- The word whose bytes stand in memory as those of a little-endian machine. -/
def htole32 (order : ByteOrder) (k : UInt32) : UInt32 :=
  match order with
  | .littleEndian => k
  | .bigEndian => UInt32.ofNat (ofLittleEndian (littleEndian 4 k.toNat).reverse)

def scramble (k : UInt32) : UInt32 :=
  let k := k * 0xcc9e2d51
  let k := (k <<< 15) ||| (k >>> 17)
  k * 0x1b873593

def mixIn (h k : UInt32) : UInt32 :=
  let h := h ^^^ k
  let h := (h <<< 13) ||| (h >>> 19)
  h * 5 + 0xe6546b64

/-- The loop over the words of an aligned key, with its `data`, `len2` and `h`. -/
def alignedBlocks (order : ByteOrder) (key : List UInt8) :
    ℕ → ℕ → UInt32 → Except Fault (ℕ × ℕ × UInt32)
  | data, len2 + 4, h => do
    let k ← wordAt order key data
    let k := htole32 order k
    alignedBlocks order key (data + 4) len2 (mixIn h (scramble k))
  | data, len2, h => .ok (data, len2, h)

def unalignedBlocks (key : List UInt8) : ℕ → ℕ → UInt32 → Except Fault (ℕ × ℕ × UInt32)
  | data, len2 + 4, h => do
    let b₀ ← byteAt key data
    let k := b₀.toUInt32
    let b₁ ← byteAt key (data + 1)
    let k := k ||| (b₁.toUInt32 <<< 8)
    let b₂ ← byteAt key (data + 2)
    let k := k ||| (b₂.toUInt32 <<< 16)
    let b₃ ← byteAt key (data + 3)
    let k := k ||| (b₃.toUInt32 <<< 24)
    unalignedBlocks key (data + 4) len2 (mixIn h (scramble k))
  | data, len2, h => .ok (data, len2, h)

/-! The cases of the `switch`, each of which falls through to the next. -/

def case1 (key : List UInt8) (data : ℕ) (h k : UInt32) : Except Fault UInt32 := do
  let b ← byteAt key data
  let k := k ^^^ b.toUInt32
  .ok (h ^^^ scramble k)

def case2 (key : List UInt8) (data : ℕ) (h k : UInt32) : Except Fault UInt32 := do
  let b ← byteAt key (data + 1)
  case1 key data h (k ^^^ (b.toUInt32 <<< 8))

def case3 (key : List UInt8) (data : ℕ) (h k : UInt32) : Except Fault UInt32 := do
  let b ← byteAt key (data + 2)
  case2 key data h (k ^^^ (b.toUInt32 <<< 16))

def lastBytes (key : List UInt8) (data len2 : ℕ) (h : UInt32) : Except Fault UInt32 :=
  match len2 with
  | 3 => case3 key data h 0
  | 2 => case2 key data h 0
  | 1 => case1 key data h 0
  | _ => .ok h

/-- The size is cut to the 32 bits of the hash when it is mixed in. -/
def finish (h : UInt32) (origLen : ℕ) : UInt32 :=
  let h := h ^^^ UInt32.ofNat origLen
  let h := h ^^^ (h >>> 16)
  let h := h * 0x85ebca6b
  let h := h ^^^ (h >>> 13)
  let h := h * 0xc2b2ae35
  h ^^^ (h >>> 16)

def hashMurmur3 (order : ByteOrder) (address : ℕ) (key : List UInt8) (len : ℕ) (seed : UInt32) :
    Except Fault UInt32 := do
  let (data, len2, h) ← (if address % 4 = 0 then alignedBlocks order key 0 len seed
    else unalignedBlocks key 0 len seed)
  let h ← lastBytes key data len2 h
  .ok (finish h len)

section Blocks

variable {order : ByteOrder} {before after tail text : List UInt8} {a b c d : UInt8} {h : UInt32}
  {data : ℕ}

private theorem scramble_eq : scramble = Murmur3.scramble := rfl

private theorem htole32_wordAt (order : ByteOrder) (hdata : before.length = data) :
    (wordAt order (before ++ ([a, b, c, d] ++ after)) data).map (htole32 order) =
      .ok (word [a, b, c, d]) := by
  have hread : bytesAt (before ++ ([a, b, c, d] ++ after)) data 4 = .ok [a, b, c, d] :=
    bytesAt_append before [a, b, c, d] after hdata rfl
  rw [wordAt, hread, bind_ok]
  cases order with
  | littleEndian => rfl
  | bigEndian =>
    have hreverse : (word [d, c, b, a]).toNat = ofLittleEndian [d, c, b, a] := toNat_word (by simp)
    have hbytes : littleEndian 4 (ofLittleEndian [d, c, b, a]) = [d, c, b, a] :=
      littleEndian_ofLittleEndian [d, c, b, a]
    refine congrArg Except.ok ?_
    change htole32 .bigEndian (word [d, c, b, a]) = _
    rw [htole32, hreverse, hbytes]
    rfl

private theorem word_singleton (a : UInt8) : a.toUInt32 = word [a] := by
  apply UInt32.toNat_inj.mp
  rw [toNat_word (by simp), UInt8.toNat_toUInt32]
  rfl

private theorem word_of_bytes : a.toUInt32 ||| (b.toUInt32 <<< 8) ||| (c.toUInt32 <<< 16) |||
    (d.toUInt32 <<< 24) = word [a, b, c, d] := by
  have htwo : word [a] ||| (b.toUInt32 <<< 8) = word [a, b] := word_or b (by simp)
  have hthree : word [a, b] ||| (c.toUInt32 <<< 16) = word [a, b, c] := word_or c (by simp)
  have hfour : word [a, b, c] ||| (d.toUInt32 <<< 24) = word [a, b, c, d] := word_or d (by simp)
  rw [word_singleton, htwo, hthree, hfour]

private theorem word_of_last_two : b.toUInt32 <<< 8 ^^^ a.toUInt32 = word [a, b] := by
  have htwo : word [a] ^^^ (b.toUInt32 <<< 8) = word [a, b] := word_xor b (by simp)
  rw [word_singleton a, UInt32.xor_comm, htwo]

private theorem word_of_last_three :
    c.toUInt32 <<< 16 ^^^ b.toUInt32 <<< 8 ^^^ a.toUInt32 = word [a, b, c] := by
  have hthree : word [a, b] ^^^ (c.toUInt32 <<< 16) = word [a, b, c] := word_xor c (by simp)
  rw [UInt32.xor_assoc, word_of_last_two, UInt32.xor_comm, hthree]

private theorem byteAt_offset (before after : List UInt8) (hdata : before.length = data) (i : ℕ) :
    byteAt (before ++ after) (data + i) = byteAt after i :=
  byteAt_append before after (by rw [hdata])

private theorem lastBytes_eq (hdata : before.length = data) (htail : tail ≠ [])
    (hlen : tail.length < 4) :
    lastBytes (before ++ (tail ++ after)) data tail.length h =
      .ok (h ^^^ Murmur3.scramble (word tail)) := by
  have hread := byteAt_offset before (tail ++ after) hdata
  have hfirst : byteAt (before ++ (tail ++ after)) data = byteAt (tail ++ after) 0 := hread 0
  match tail, htail, hlen with
  | [a], _, _ =>
    rw [List.length_singleton, lastBytes, case1, hfirst, ← word_singleton]
    change Except.ok (h ^^^ scramble (0 ^^^ a.toUInt32)) = _
    rw [UInt32.zero_xor, scramble_eq]
  | [a, b], _, _ =>
    change case2 _ data h 0 = _
    rw [case2, hread 1]
    change case1 _ data h ((0 : UInt32) ^^^ b.toUInt32 <<< 8) = _
    rw [case1, hfirst, ← word_of_last_two, UInt32.zero_xor]
    rfl
  | [a, b, c], _, _ =>
    change case3 _ data h 0 = _
    rw [case3, hread 2]
    change case2 _ data h ((0 : UInt32) ^^^ c.toUInt32 <<< 16) = _
    rw [case2, hread 1]
    change case1 _ data h ((0 : UInt32) ^^^ c.toUInt32 <<< 16 ^^^ b.toUInt32 <<< 8) = _
    rw [case1, hfirst, ← word_of_last_three, UInt32.zero_xor]
    rfl

private theorem alignedBlocks_step (order : ByteOrder) (hdata : before.length = data) (len2 : ℕ) :
    alignedBlocks order (before ++ ([a, b, c, d] ++ after)) data (len2 + 4) h =
      alignedBlocks order (before ++ ([a, b, c, d] ++ after)) (data + 4) len2
        (mixIn h (scramble (word [a, b, c, d]))) := by
  have hword : (wordAt order (before ++ ([a, b, c, d] ++ after)) data).map (htole32 order) =
      .ok (word [a, b, c, d]) := htole32_wordAt order hdata
  rw [alignedBlocks]
  cases hread : wordAt order (before ++ ([a, b, c, d] ++ after)) data with
  | error fault =>
    rw [hread] at hword
    exact nomatch hword
  | ok k =>
    rw [hread] at hword
    have hk : htole32 order k = word [a, b, c, d] := Except.ok.inj hword
    rw [bind_ok, hk]

private theorem unalignedBlocks_step (hdata : before.length = data) (len2 : ℕ) :
    unalignedBlocks (before ++ ([a, b, c, d] ++ after)) data (len2 + 4) h =
      unalignedBlocks (before ++ ([a, b, c, d] ++ after)) (data + 4) len2
        (mixIn h (scramble (word [a, b, c, d]))) := by
  have hread := byteAt_offset before ([a, b, c, d] ++ after) hdata
  have hfirst : byteAt (before ++ ([a, b, c, d] ++ after)) data = .ok a := hread 0
  have hsecond : byteAt (before ++ ([a, b, c, d] ++ after)) (data + 1) = .ok b := hread 1
  have hthird : byteAt (before ++ ([a, b, c, d] ++ after)) (data + 2) = .ok c := hread 2
  have hfourth : byteAt (before ++ ([a, b, c, d] ++ after)) (data + 3) = .ok d := hread 3
  rw [unalignedBlocks, hfirst, hsecond, hthird, hfourth]
  simp only [bind_ok, word_of_bytes]

private theorem blocks_eq {blocks : List UInt8 → ℕ → ℕ → UInt32 → Except Fault (ℕ × ℕ × UInt32)}
    (text after : List UInt8) (h : UInt32)
    (hstep : ∀ (before after : List UInt8) (a b c d : UInt8) (len2 : ℕ) (h : UInt32),
      blocks (before ++ ([a, b, c, d] ++ after)) before.length (len2 + 4) h =
        blocks (before ++ ([a, b, c, d] ++ after)) (before.length + 4) len2
          (mixIn h (scramble (word [a, b, c, d]))))
    (hend : ∀ key data len2 h, len2 < 4 → blocks key data len2 h = .ok (data, len2, h))
    (hdata : before.length = data) :
    (do
      let (data', len2, h') ← blocks (before ++ (text ++ after)) data text.length h
      lastBytes (before ++ (text ++ after)) data' len2 h') = .ok (Murmur3.body h text) := by
  subst hdata
  fun_induction Murmur3.body h text generalizing before with
  | case1 h a b c d rest ih =>
    have hrest := @ih (before ++ [a, b, c, d])
    rw [List.append_assoc, List.length_append] at hrest
    have hfirst := hstep before (rest ++ after) a b c d rest.length h
    rw [List.length_cons, List.length_cons, List.length_cons, List.length_cons]
    rw [show a :: b :: c :: d :: rest = [a, b, c, d] ++ rest from rfl, List.append_assoc, hfirst]
    exact hrest
  | case2 h =>
    rw [List.length_nil, hend _ _ _ _ (by decide)]
    rfl
  | case3 h tail hblock hne =>
    have hlen : tail.length < 4 := by
      match tail, hblock with
      | [], _ => simp
      | [_], _ => simp
      | [_, _], _ => simp
      | [_, _, _], _ => simp
      | a :: b :: c :: d :: rest, hblock => exact absurd rfl (hblock a b c d rest)
    rw [hend _ _ _ _ hlen]
    exact lastBytes_eq rfl hne hlen

private theorem alignedBlocks_end (order : ByteOrder) (key : List UInt8) {len2 : ℕ}
    (hlen : len2 < 4) :
    alignedBlocks order key data len2 h = .ok (data, len2, h) := by
  match len2, hlen with
  | 0, _ | 1, _ | 2, _ | 3, _ => rfl

private theorem unalignedBlocks_end (key : List UInt8) {len2 : ℕ} (hlen : len2 < 4) :
    unalignedBlocks key data len2 h = .ok (data, len2, h) := by
  match len2, hlen with
  | 0, _ | 1, _ | 2, _ | 3, _ => rfl

end Blocks

/-- The hash is the same at every address, in either byte order. -/
theorem hashMurmur3_eq (order : ByteOrder) (address : ℕ) (text after : List UInt8) (seed : UInt32) :
    hashMurmur3 order address (text ++ after) text.length seed = .ok (Murmur3.hash seed text) := by
  have hstart : ([] : List UInt8).length = 0 := rfl
  have haligned := blocks_eq text after seed
    (fun before after a b c d len2 h => alignedBlocks_step order rfl len2)
    (fun key data len2 h => alignedBlocks_end order key) hstart
  have hunaligned := blocks_eq text after seed
    (fun before after a b c d len2 h => unalignedBlocks_step rfl len2)
    (fun key data len2 h => unalignedBlocks_end key) hstart
  have hfinish : ∀ h, finish h text.length = Murmur3.fmix32 (h ^^^ UInt32.ofNat text.length) :=
    fun h => rfl
  rw [List.nil_append] at haligned hunaligned
  rw [hashMurmur3, Murmur3.hash, ← hfinish]
  split_ifs
  · obtain ⟨⟨data, len2, h⟩, hblocks, hlast⟩ := bind_eq_ok.mp haligned
    dsimp only at hlast
    simp only [hblocks, bind_ok, hlast]
  · obtain ⟨⟨data, len2, h⟩, hblocks, hlast⟩ := bind_eq_ok.mp hunaligned
    dsimp only at hlast
    simp only [hblocks, bind_ok, hlast]

/-- `(uint32_t)s[i]`. A signed `char` keeps its sign. -/
def charToU32 (charIsSigned : Bool) (c : UInt8) : UInt32 :=
  if charIsSigned then c.toInt8.toInt32.toUInt32 else c.toUInt32

/-- The loop of `hash_fnv1a`, from `i` on. -/
def fnv1aLoop (charIsSigned : Bool) (s : List UInt8) (n : ℕ) : ℕ → ℕ → UInt32 → Except Fault UInt32
  | 0, _, _ => .error .diverges
  | fuel + 1, i, result =>
    if i < n then do
      let c ← byteAt s i
      let result := result ^^^ charToU32 charIsSigned c
      let result := result * 0x01000193
      fnv1aLoop charIsSigned s n fuel (i + 1) result
    else .ok result

def hashFnv1a (charIsSigned : Bool) (str : List UInt8) (n : ℕ) : Except Fault UInt32 :=
  fnv1aLoop charIsSigned str n (n + 1) 0 0x811c9dc5

section Fnv

variable {charIsSigned : Bool} {before after text : List UInt8} {c : UInt8} {h h' : UInt32}

def round (charIsSigned : Bool) (h : UInt32) (c : UInt8) : UInt32 :=
  (h ^^^ charToU32 charIsSigned c) * 0x01000193

private theorem fnv1aLoop_eq (charIsSigned : Bool) (before text after : List UInt8) (h : UInt32) :
    fnv1aLoop charIsSigned (before ++ (text ++ after)) (before.length + text.length) (text.length + 1)
      before.length h = .ok (text.foldl (round charIsSigned) h) := by
  induction text generalizing before h with
  | nil => rw [List.length_nil, fnv1aLoop, if_neg (by omega)]; rfl
  | cons c text ih =>
    have hread : byteAt (before ++ (c :: (text ++ after))) before.length = .ok c :=
      byteAt_at before (text ++ after) c rfl
    have hrest := ih (before ++ [c]) (round charIsSigned h c)
    rw [List.append_assoc, List.singleton_append, List.length_append, List.length_singleton] at hrest
    rw [List.cons_append, fnv1aLoop, if_pos (by rw [List.length_cons]; omega), hread, bind_ok,
      List.length_cons, Nat.add_comm text.length 1, ← Nat.add_assoc, List.foldl_cons, ← hrest]
    rw [Nat.add_comm 1 text.length]
    rfl

theorem hashFnv1a_eq (charIsSigned : Bool) (text after : List UInt8) :
    hashFnv1a charIsSigned (text ++ after) text.length =
      .ok (text.foldl (round charIsSigned) 0x811c9dc5) := by
  have hloop := fnv1aLoop_eq charIsSigned [] text after 0x811c9dc5
  rw [List.nil_append, List.length_nil, Nat.zero_add] at hloop
  exact hloop

private theorem msb_eq (c : UInt8) : c.toBitVec.msb = decide (128 ≤ c) := by
  rw [BitVec.msb_eq_decide]
  exact decide_eq_decide.mpr Iff.rfl

private theorem charToU32_of_lt (charIsSigned : Bool) (hc : c < 128) :
    charToU32 charIsSigned c = c.toUInt32 := by
  cases charIsSigned with
  | false => rfl
  | true =>
    have hmsb : c.toBitVec.msb = false := by
      rw [msb_eq, decide_eq_false (UInt8.not_le.mpr hc)]
    apply UInt32.toBitVec_inj.mp
    exact BitVec.signExtend_eq_setWidth_of_msb_false hmsb

private theorem charToU32_ne (hc : 128 ≤ c) : charToU32 true c ≠ c.toUInt32 := by
  intro hsame
  have hmsb : c.toBitVec.msb = true := by
    rw [msb_eq, decide_eq_true hc]
  have hbits : c.toBitVec.signExtend 32 = c.toBitVec.setWidth 32 := congrArg UInt32.toBitVec hsame
  have hsign := congrArg BitVec.msb hbits
  simp [BitVec.msb_signExtend, BitVec.msb_setWidth, hmsb] at hsign

theorem mul_prime_injective (hmul : h * 0x01000193 = h' * 0x01000193) : h = h' := by
  have hinverse : (0x01000193 : UInt32) * 0x359c449b = 1 := by decide
  calc h = h * 0x01000193 * 0x359c449b := by rw [UInt32.mul_assoc, hinverse, UInt32.mul_one]
    _ = h' * 0x01000193 * 0x359c449b := by rw [hmul]
    _ = h' := by rw [UInt32.mul_assoc, hinverse, UInt32.mul_one]

private theorem foldl_round (charIsSigned : Bool) (htext : ∀ c ∈ text, c < 128) :
    text.foldl (round charIsSigned) h = text.foldl Fnv1a.step h := by
  apply List.foldl_ext _ _ h
  intro h c hc
  rw [round, charToU32_of_lt charIsSigned (htext c hc), Fnv1a.step]

/-- What is to be returned on every platform. -/
def Fnv1aRight (text : List UInt8) : Prop :=
  ∀ (charIsSigned : Bool) (after : List UInt8),
    hashFnv1a charIsSigned (text ++ after) text.length = .ok (Fnv1a.hash text)

private theorem fnv1aRight_of_lt (htext : ∀ c ∈ text, c < 128) : Fnv1aRight text := by
  intro charIsSigned after
  rw [hashFnv1a_eq, foldl_round charIsSigned htext]
  rfl

private theorem not_fnv1aRight_concat (htext : ∀ c ∈ text, c < 128) (hc : 128 ≤ c) :
    ¬Fnv1aRight (text ++ [c]) := by
  intro hright
  have hsigned := hright true []
  rw [hashFnv1a_eq, Fnv1a.hash, List.foldl_append, List.foldl_append, foldl_round true htext] at hsigned
  have hround := mul_prime_injective (Except.ok.inj hsigned)
  exact charToU32_ne hc (UInt32.xor_right_inj _ |>.mp hround)

private theorem exists_high (h : ¬∀ c ∈ text, c < 128) :
    ∃ low c rest, text = low ++ c :: rest ∧ (∀ b ∈ low, b < 128) ∧ 128 ≤ c := by
  induction text with
  | nil => exact absurd (List.forall_mem_nil _) h
  | cons c text ih =>
    by_cases hc : c < 128
    · obtain ⟨low, b, rest, rfl, hlow, hb⟩ := ih fun htext => h (List.forall_mem_cons.mpr ⟨hc, htext⟩)
      exact ⟨c :: low, b, rest, rfl, List.forall_mem_cons.mpr ⟨hc, hlow⟩, hb⟩
    · exact ⟨[], c, text, rfl, List.forall_mem_nil _, UInt8.not_lt.mp hc⟩

/-- The beginnings of a text are all hashed right if and only if it is one of 7 bits. -/
theorem fnv1aRight_iff (text : List UInt8) :
    (∀ k, Fnv1aRight (text.take k)) ↔ ∀ c ∈ text, c < 128 := by
  constructor
  · intro hright
    by_contra hhigh
    obtain ⟨low, c, rest, rfl, hlow, hc⟩ := exists_high hhigh
    have hbegins := hright (low ++ [c]).length
    rw [List.append_cons low c rest, List.take_left] at hbegins
    exact not_fnv1aRight_concat hlow hc hbegins
  · intro htext k
    exact fnv1aRight_of_lt fun c hc => htext c (List.mem_of_mem_take hc)

end Fnv

/-- Later bytes can undo the difference. -/
example : Fnv1aRight [9, 164, 200] := by
  intro charIsSigned after
  rw [hashFnv1a_eq]
  cases charIsSigned <;> decide

theorem not_fnv1aRight : ¬∀ text : List UInt8, Fnv1aRight text := by
  intro h
  exact not_fnv1aRight_concat (List.forall_mem_nil _) (by decide : (128 : UInt8) ≤ 128) (h [128])

end Libromano.Hash
