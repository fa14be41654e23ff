/- The buffers of `buffer.c`. Memory lasts for every object that can exist, which has less than `2
   ^ 63` bytes. -/

import Libromano.Bytes
import Mathlib.Algebra.Order.Ring.Nat

set_option autoImplicit false
set_option relaxedAutoImplicit false

namespace Libromano.Http

open Bytes

structure Buffer where
  capacity : ℕ
  /-- The first `sz` bytes of the data. -/
  bytes : List UInt8
  deriving DecidableEq

def int64Max : ℕ := 2 ^ 63 - 1

def doubled (needed : ℕ) : ℕ → ℕ → Except Fault ℕ
  | 0, _ => .error .diverges
  | fuel + 1, newCapacity =>
    if newCapacity < needed ∧ newCapacity < int64Max then doubled needed fuel (newCapacity * 2)
    else .ok newCapacity

/-- `none` stands for `false`. -/
def bufferResize (buffer : Buffer) (toAddSz : ℕ) : Except Fault (Option Buffer) := do
  let newCapacity ← doubled (buffer.bytes.length + toAddSz) 64 buffer.capacity
  if newCapacity ≤ int64Max then .ok (some { buffer with capacity := newCapacity }) else .ok none

def bufferCheckResize (buffer : Buffer) (toAddSz : ℕ) : Except Fault (Option Buffer) :=
  if buffer.capacity ≤ buffer.bytes.length + toAddSz then bufferResize buffer toAddSz
  else .ok (some buffer)

/-- Bytes are written to the back of the buffer, whose size grows with them. -/
def Buffer.write (buffer : Buffer) (data : List UInt8) : Except Fault Buffer :=
  if buffer.bytes.length + data.length ≤ buffer.capacity then
    .ok { buffer with bytes := buffer.bytes ++ data }
  else .error .outOfBounds

def bufferAppend (buffer : Buffer) (data : List UInt8) (dataSz : ℕ) :
    Except Fault (Option Buffer) := do
  match ← bufferCheckResize buffer dataSz with
  | none => .ok none
  | some buffer =>
    let bytes ← bytesAt data 0 dataSz
    let buffer ← buffer.write bytes
    .ok (some buffer)

def bufferReset (buffer : Buffer) : Buffer := { buffer with bytes := [] }

/-- Memory lasts until the buffer has `n` bytes: doubling comes to a capacity that is large
enough before it comes to one that no object has. -/
structure Buffer.Room (buffer : Buffer) (n : ℕ) : Prop where
  positive : 0 < buffer.capacity
  fits : buffer.bytes.length ≤ buffer.capacity
  reaches : ∃ k, n ≤ buffer.capacity * 2 ^ k ∧ buffer.capacity * 2 ^ k ≤ int64Max

section Doubling

variable {buffer : Buffer} {needed capacity k fuel n total : ℕ} {data : List UInt8}

private theorem doubled_reaches (hneeded : needed ≤ capacity * 2 ^ k)
    (hobject : capacity * 2 ^ k ≤ int64Max)
    (hfuel : k < fuel) : ∃ j ≤ k, doubled needed fuel capacity = .ok (capacity * 2 ^ j) ∧
      needed ≤ capacity * 2 ^ j := by
  induction k generalizing capacity fuel with
  | zero =>
    obtain ⟨fuel, rfl⟩ : ∃ n, fuel = n + 1 := ⟨fuel - 1, by omega⟩
    rw [Nat.pow_zero, Nat.mul_one] at hneeded
    refine ⟨0, le_rfl, ?_, by simpa using hneeded⟩
    rw [doubled, if_neg fun h => Nat.not_lt.mpr hneeded h.1, Nat.pow_zero, Nat.mul_one]
  | succ k ih =>
    obtain ⟨fuel, rfl⟩ : ∃ n, fuel = n + 1 := ⟨fuel - 1, by omega⟩
    have hdouble : ∀ i, capacity * 2 ^ (i + 1) = capacity * 2 * 2 ^ i := by
      intro i
      rw [Nat.pow_succ', Nat.mul_assoc]
    by_cases hless : capacity < needed
    · have hbelow : capacity < int64Max := Nat.lt_of_lt_of_le hless (Nat.le_trans hneeded hobject)
      rw [hdouble] at hneeded hobject
      obtain ⟨j, hj, hdoubled, hreached⟩ := ih hneeded hobject (by omega : k < fuel)
      refine ⟨j + 1, by omega, ?_, by rwa [hdouble]⟩
      rw [doubled, if_pos ⟨hless, hbelow⟩, hdouble]
      exact hdoubled
    · refine ⟨0, Nat.zero_le _, ?_, by simpa using hless⟩
      rw [doubled, if_neg fun h => hless h.1, Nat.pow_zero, Nat.mul_one]

private theorem doublings_lt (hpos : 0 < capacity) (hobject : capacity * 2 ^ k ≤ int64Max) :
    k < 63 := by
  by_contra hlarge
  have hpow : 2 ^ 63 ≤ 2 ^ k := Nat.pow_le_pow_right (by decide) (by omega)
  have hle : 1 * 2 ^ k ≤ capacity * 2 ^ k := Nat.mul_le_mul_right _ (by omega)
  unfold int64Max at hobject
  omega

private theorem Buffer.Room.checkResize (h : buffer.Room total)
    (hn : buffer.bytes.length + n ≤ total) :
    ∃ j, bufferCheckResize buffer n = .ok (some { buffer with capacity := buffer.capacity * 2 ^ j }) ∧
      buffer.bytes.length + n ≤ buffer.capacity * 2 ^ j ∧
      ({ buffer with capacity := buffer.capacity * 2 ^ j } : Buffer).Room total := by
  obtain ⟨hpos, hfits, k, htotal, hobject⟩ := h
  by_cases hfull : buffer.capacity ≤ buffer.bytes.length + n
  · have hfuel := doublings_lt hpos hobject
    obtain ⟨j, hj, hdoubled, hreached⟩ := doubled_reaches (Nat.le_trans hn htotal) hobject
      (Nat.lt_succ_of_lt hfuel)
    have hle : buffer.capacity * 2 ^ j ≤ buffer.capacity * 2 ^ k :=
      Nat.mul_le_mul_left _ (Nat.pow_le_pow_right (by decide) hj)
    have hsplit : buffer.capacity * 2 ^ j * 2 ^ (k - j) = buffer.capacity * 2 ^ k := by
      rw [Nat.mul_assoc, ← Nat.pow_add, Nat.add_sub_cancel' hj]
    refine ⟨j, ?_, hreached, Nat.mul_pos hpos (Nat.two_pow_pos j), ?_, k - j, ?_⟩
    · rw [bufferCheckResize, if_pos hfull, bufferResize, hdoubled, bind_ok,
        if_pos (Nat.le_trans hle hobject)]
    · exact Nat.le_trans (Nat.le_add_right _ _) hreached
    · rw [hsplit]
      exact ⟨htotal, hobject⟩
  · refine ⟨0, ?_⟩
    rw [Nat.pow_zero, Nat.mul_one]
    exact ⟨if_neg hfull, by omega, hpos, hfits, k, htotal, hobject⟩

theorem Buffer.Room.append (h : buffer.Room total) (data after : List UInt8) (hn : data.length = n)
    (hfits : buffer.bytes.length + n ≤ total) :
    ∃ j buffer', bufferAppend buffer (data ++ after) n = .ok (some buffer') ∧ buffer'.Room total ∧
      buffer'.capacity = buffer.capacity * 2 ^ j ∧ buffer'.bytes = buffer.bytes ++ data := by
  obtain ⟨j, hresize, hroom, hresized⟩ := h.checkResize hfits
  have hread : bytesAt (data ++ after) 0 n = .ok data := bytesAt_append [] data after rfl hn
  refine ⟨j, ⟨buffer.capacity * 2 ^ j, buffer.bytes ++ data⟩, ?_, ⟨hresized.positive, ?_,
    hresized.reaches⟩, rfl, rfl⟩
  · rw [bufferAppend, hresize, bind_ok]
    simp only [hread, bind_ok, Buffer.write, hn]
    rw [if_pos hroom]
    rfl
  · rwa [List.length_append, hn]

end Doubling

/-- The largest capacity to which a buffer of 4096 bytes is doubled. -/
def maxCapacity : ℕ := 2 ^ 62

structure Buffer.Grown (buffer : Buffer) : Prop where
  fits : buffer.bytes.length ≤ buffer.capacity
  capacity : ∃ k ≤ 50, buffer.capacity = 2 ^ (12 + k)

section Growing

variable {buffer : Buffer} {needed k fuel n : ℕ} {data : List UInt8}

private theorem two_pow_le {k : ℕ} (hk : k ≤ 50) : 2 ^ (12 + k) ≤ maxCapacity :=
  Nat.pow_le_pow_right (by omega) (by omega)

theorem Buffer.Grown.room (h : buffer.Grown) : buffer.Room maxCapacity := by
  obtain ⟨hfits, k, hk, hcapacity⟩ := h
  refine ⟨?_, hfits, 50 - k, ?_⟩
  · rw [hcapacity]
    exact Nat.two_pow_pos _
  · rw [hcapacity, ← Nat.pow_add, show 12 + k + (50 - k) = 62 by omega]
    exact ⟨le_rfl, by decide⟩

theorem Buffer.Room.grown {total : ℕ} (h : buffer.Room total)
    (hcapacity : buffer.capacity = 2 ^ (12 + k)) : buffer.Grown := by
  obtain ⟨-, hfits, j, -, hobject⟩ := h
  rw [hcapacity, ← Nat.pow_add, ← Nat.one_mul (2 ^ (12 + k + j))] at hobject
  have hlt := doublings_lt Nat.one_pos hobject
  exact ⟨hfits, k, by omega, hcapacity⟩

private theorem doubled_exceeds (fuel : ℕ) (hneeded : maxCapacity < needed) (hk : k ≤ 50)
    (hfuel : 52 ≤ fuel + k) : doubled needed fuel (2 ^ (12 + k)) = .ok (2 ^ 63) := by
  induction fuel generalizing k with
  | zero => omega
  | succ fuel ih =>
    have hle := two_pow_le hk
    have hbelow : 2 ^ (12 + k) < int64Max := Nat.lt_of_le_of_lt hle (by decide)
    rw [doubled, if_pos ⟨Nat.lt_of_le_of_lt hle hneeded, hbelow⟩, ← Nat.pow_succ]
    by_cases hlast : k = 50
    · subst hlast
      obtain ⟨fuel, rfl⟩ : ∃ n, fuel = n + 1 := ⟨fuel - 1, by omega⟩
      rw [doubled, if_neg fun h => absurd h.2 (by decide)]
    · exact ih (k := k + 1) (by omega) (by omega)

theorem Buffer.Grown.checkResize (h : buffer.Grown)
    (hfits : buffer.bytes.length + n ≤ maxCapacity) :
    ∃ buffer', bufferCheckResize buffer n = .ok (some buffer') ∧ buffer'.Grown ∧
      buffer'.bytes = buffer.bytes ∧ buffer.bytes.length + n ≤ buffer'.capacity := by
  obtain ⟨j, hresize, hroom, hresized⟩ := h.room.checkResize hfits
  obtain ⟨-, k, -, hcapacity⟩ := h
  refine ⟨_, hresize, hresized.grown (k := k + j) ?_, rfl, hroom⟩
  rw [← Nat.add_assoc, Nat.pow_add, ← hcapacity]

theorem Buffer.Grown.checkResize_none (h : buffer.Grown)
    (hexceeds : maxCapacity < buffer.bytes.length + n) : bufferCheckResize buffer n = .ok none := by
  obtain ⟨-, k, hk, hcapacity⟩ := h
  have hle := two_pow_le hk
  have hdoubled := doubled_exceeds 64 hexceeds hk (by omega)
  rw [bufferCheckResize, if_pos (by omega), bufferResize, hcapacity, hdoubled]
  rfl

theorem Buffer.Grown.write (h : buffer.Grown) (data : List UInt8)
    (hroom : buffer.bytes.length + data.length ≤ buffer.capacity) :
    buffer.write data = .ok { buffer with bytes := buffer.bytes ++ data } ∧
      ({ buffer with bytes := buffer.bytes ++ data } : Buffer).Grown := by
  refine ⟨if_pos hroom, ?_, h.capacity⟩
  rw [List.length_append]
  exact hroom

theorem Buffer.Grown.append (h : buffer.Grown) (data after : List UInt8) (hn : data.length = n)
    (hfits : buffer.bytes.length + n ≤ maxCapacity) :
    ∃ buffer', bufferAppend buffer (data ++ after) n = .ok (some buffer') ∧ buffer'.Grown ∧
      buffer'.bytes = buffer.bytes ++ data := by
  obtain ⟨j, buffer', happend, hroom, hcapacity, hbytes⟩ := h.room.append data after hn hfits
  obtain ⟨-, k, -, hgrown⟩ := h
  refine ⟨buffer', happend, hroom.grown (k := k + j) ?_, hbytes⟩
  rw [hcapacity, hgrown, ← Nat.pow_add, Nat.add_assoc]

theorem Buffer.Grown.reset (h : buffer.Grown) : (bufferReset buffer).Grown :=
  ⟨Nat.zero_le _, h.capacity⟩

end Growing

end Libromano.Http
