/- The bytes that a string holds, and what each function does to them as long as the size of no
   allocation wraps around. -/

import Libromano.Strings.Model

set_option autoImplicit false
set_option relaxedAutoImplicit false

namespace Libromano.Strings

open Bytes (bytesAt writeBytes)
open Foundation
open Vectors (malloc)

/-- The string has these bytes, a null byte behind them, and room for its capacity. -/
structure Holds (s : String) (content : List UInt8) : Prop where
  size : s.size = content.length
  bytes : ∃ rest, s.bytes = content ++ 0 :: rest
  capacity : s.bytes.length = s.capacity + 1
  bounded : s.capacity + 1 + headerSize < 2 ^ 63

section Blocks

variable {block before old new after data : List UInt8} {start n : ℕ}

private theorem writeBytes_head (hlength : new.length = old.length) :
    writeBytes (old ++ after) 0 new = .ok (new ++ after) := by
  rw [writeBytes, Block.store_prefix hlength]

theorem bytesAt_head (hn : data.length = n) : bytesAt (data ++ after) 0 n = .ok data := by
  rw [bytesAt, Block.load_prefix hn]

private theorem writeBytes_ok (h : start + data.length ≤ block.length) : ∃ before old after,
    block = before ++ (old ++ after) ∧ before.length = start ∧ old.length = data.length ∧
      writeBytes block start data = .ok (before ++ (data ++ after)) := by
  obtain ⟨before, old, after, rfl, hstart, hold⟩ := Block.exists_split h
  exact ⟨before, old, after, rfl, hstart, hold, Bytes.writeBytes_append _ _ _ _ hstart hold.symm⟩

theorem bytesAt_out (h : block.length < start + n) :
    bytesAt block start n = .error .outOfBounds := by
  rw [bytesAt, Block.load_eq_none h]

end Blocks

private theorem allocate_yields (fresh : ℕ → UInt8) {capacity : ℕ}
    (hfits : capacity + 1 + headerSize < 2 ^ 64) : Yields (allocate fresh capacity) fun block =>
      block.length = capacity + 1 ∧ capacity + 1 + headerSize < 2 ^ 63 := by
  have hsize : allocationSize capacity = capacity + 1 + headerSize := Nat.mod_eq_of_lt hfits
  rw [allocate, hsize, malloc]
  split_ifs with hbounded
  · rw [bind_ok, if_neg (by omega)]
    refine ⟨?_, hbounded⟩
    rw [List.length_map, List.length_range]
    omega
  · exact Yields.noMemory

namespace Holds

variable {s : String} {content : List UInt8}

theorem size_le (h : Holds s content) : s.size ≤ s.capacity := by
  obtain ⟨rest, hbytes⟩ := h.bytes
  have hlength := congrArg List.length hbytes
  rw [h.capacity, List.length_append, List.length_cons] at hlength
  rw [h.size]
  omega

theorem content_eq (h : Holds s content) : s.content = content := by
  obtain ⟨rest, hbytes⟩ := h.bytes
  rw [String.content, hbytes, h.size, List.take_left]

theorem terminator (h : Holds s content) : s.bytes[s.size]? = some 0 := by
  obtain ⟨rest, hbytes⟩ := h.bytes
  rw [hbytes, h.size, List.getElem?_append_right (Nat.le_refl _), Nat.sub_self]
  rfl

private theorem exists_rest (h : Holds s content) : ∃ rest, s.bytes = content ++ 0 :: rest ∧
    content.length + rest.length = s.capacity := by
  obtain ⟨rest, hbytes⟩ := h.bytes
  refine ⟨rest, hbytes, ?_⟩
  have hlength := congrArg List.length hbytes
  rw [h.capacity, List.length_append, List.length_cons] at hlength
  omega

private theorem fetch (h : Holds s content) : bytesAt s.bytes 0 s.size = .ok content := by
  obtain ⟨rest, hbytes⟩ := h.bytes
  rw [hbytes, h.size, bytesAt_head rfl]

private theorem fetch_terminated (h : Holds s content) :
    bytesAt s.bytes 0 (s.size + 1) = .ok (content ++ [0]) := by
  obtain ⟨rest, hbytes⟩ := h.bytes
  rw [hbytes, h.size, List.append_cons, bytesAt_head (by simp)]

end Holds

section Strings

variable {s s' other : String} {content data text : List UInt8} {n : ℕ} {fresh : ℕ → UInt8}

private theorem writeBytes_fresh {block : List UInt8} (hblock : block.length = n + 1)
    (hle : data.length ≤ n)
    (hbounded : n + 1 + headerSize < 2 ^ 63) :
    Yields (do let bytes ← writeBytes block 0 (data ++ [0]); .ok (⟨n, data.length, bytes⟩ : String))
      fun s => Holds s data ∧ s.capacity = n := by
  have hroom : 0 + (data ++ [0]).length ≤ block.length := by
    rw [List.length_append, List.length_singleton]
    omega
  obtain ⟨before, old, after, rfl, hbefore, hold, hput⟩ := writeBytes_ok hroom
  obtain rfl := List.length_eq_zero_iff.mp hbefore
  rw [hput, bind_ok]
  refine ⟨⟨rfl, ⟨after, by simp⟩, ?_, hbounded⟩, rfl⟩
  simp only [List.nil_append, List.length_append, List.length_singleton] at hblock hold ⊢
  omega

private theorem le_growth (n : ℕ) : n ≤ n * 161 / 100 := by
  omega

private theorem grown_eq (h : n * 161 / 100 + 1 + headerSize < 2 ^ 64) : grown n = n * 161 / 100 :=
  Nat.mod_eq_of_lt (by omega)

def Growable (n : ℕ) : Prop := n * 161 / 100 + 1 + headerSize < 2 ^ 64

instance (n : ℕ) : Decidable (Growable n) := inferInstanceAs (Decidable (_ < _))

theorem stringNew_yields (h : Growable data.length) :
    Yields (stringNew data) fun s => Holds s data := by
  rw [stringNew, grown_eq h]
  apply (allocate_yields _ h).bind
  rintro block ⟨hblock, hbounded⟩
  exact (writeBytes_fresh hblock (le_growth _) hbounded).mono fun s _ hs => hs.1

theorem stringNewz_yields (h : Growable n) :
    Yields (stringNewz n) fun s => Holds s (List.replicate n 0) := by
  rw [stringNewz, grown_eq h]
  apply (allocate_yields _ h).bind
  rintro block ⟨hblock, hbounded⟩
  have hle : (List.replicate n (0 : UInt8)).length ≤ n * 161 / 100 := by
    rw [List.length_replicate]
    exact le_growth n
  have hput := writeBytes_fresh hblock hle hbounded
  rw [List.length_replicate, ← List.replicate_succ'] at hput
  exact hput.mono fun s _ hs => hs.1

theorem Holds.copy (h : Holds other content) (fresh : ℕ → UInt8) :
    Yields (stringCopy fresh other) fun s => Holds s content := by
  have hfits : other.capacity + 1 + headerSize < 2 ^ 64 := by
    have := h.bounded
    omega
  rw [stringCopy]
  apply (allocate_yields fresh hfits).bind
  rintro block ⟨hblock, hbounded⟩
  have hfetch : bytesAt other.bytes 0 (other.capacity + 1) = .ok other.bytes := by
    have := @bytesAt_head [] other.bytes _ h.capacity
    rwa [List.append_nil] at this
  rw [hfetch, bind_ok]
  have hput : writeBytes block 0 other.bytes = .ok other.bytes := by
    have := @writeBytes_head block other.bytes [] (by rw [h.capacity, hblock])
    rwa [List.append_nil, List.append_nil] at this
  rw [hput, bind_ok]
  exact ⟨h.size, h.bytes, h.capacity, hbounded⟩

/-- A capacity can be asked for, or the string already has more. -/
def Resizable (s : String) (newSize : ℕ) : Prop :=
  newSize < s.capacity ∨ newSize + 1 + headerSize < 2 ^ 64

instance (s : String) (newSize : ℕ) : Decidable (Resizable s newSize) :=
  inferInstanceAs (Decidable (_ ∨ _))

private theorem Holds.setNullTerminator (hsize : s.size = content.length)
    (hbytes : ∃ c rest, s.bytes = content ++ c :: rest)
    (hcapacity : s.bytes.length = s.capacity + 1) (hbounded : s.capacity + 1 + headerSize < 2 ^ 63) :
    ∃ s', s.setNullTerminator = .ok s' ∧ Holds s' content ∧ s'.capacity = s.capacity := by
  obtain ⟨c, rest, hbytes⟩ := hbytes
  have hput : writeBytes s.bytes s.size [0] = .ok (content ++ ([0] ++ rest)) := by
    rw [hbytes, ← List.singleton_append]
    exact Bytes.writeBytes_append _ _ _ _ hsize.symm rfl
  refine ⟨{ s with bytes := content ++ ([0] ++ rest) }, ?_, ⟨hsize, ⟨rest, rfl⟩, ?_, hbounded⟩, rfl⟩
  · rw [String.setNullTerminator, hput]
    rfl
  · rw [← hcapacity, hbytes]
    simp

theorem Holds.resize (h : Holds s content) (hfits : Resizable s n) :
    Yields (stringResize fresh s n) fun s' =>
      Holds s' content ∧ n ≤ s'.capacity ∧ s.capacity ≤ s'.capacity := by
  rw [stringResize]
  split_ifs with hlt
  · exact ⟨h, hlt.le, Nat.le_refl _⟩
  · apply (allocate_yields fresh (hfits.resolve_left hlt)).bind
    rintro block ⟨hblock, hbounded⟩
    rw [h.fetch, bind_ok]
    have hle := h.size_le
    rw [h.size] at hle
    obtain ⟨before, old, after, rfl, hbefore, hold, hput⟩ :=
      @writeBytes_ok block content 0 (by omega)
    obtain rfl := List.length_eq_zero_iff.mp hbefore
    rw [hput, bind_ok]
    simp only [List.nil_append, List.length_append] at hblock ⊢
    obtain ⟨c, after, rfl⟩ : ∃ c rest, after = c :: rest := by
      cases after with
      | nil =>
        simp at hblock
        omega
      | cons c rest => exact ⟨c, rest, rfl⟩
    obtain ⟨s', hs', hholds, hcapacity⟩ := Holds.setNullTerminator
      (s := ⟨n, s.size, content ++ c :: after⟩) h.size ⟨c, after, rfl⟩
      (by simp only [List.length_append]; omega) hbounded
    rw [hs']
    exact ⟨hholds, hcapacity.ge, by rw [hcapacity]; exact Nat.not_lt.mp hlt⟩

private theorem Holds.reserve (h : Holds s content) {needed newCapacity : ℕ}
    (hneeded : needed < 2 ^ 64)
    (hfits : needed < s.capacity ∨ newCapacity + 1 + headerSize < 2 ^ 64)
    (hle : s.capacity ≤ needed → needed ≤ newCapacity) :
    Yields (reserve fresh s needed newCapacity) fun s' =>
      Holds s' content ∧ needed ≤ s'.capacity := by
  rw [Strings.reserve, Nat.mod_eq_of_lt hneeded]
  split_ifs with hfull
  · have hresizable : Resizable s newCapacity := .inr (hfits.resolve_left (by omega))
    refine (h.resize hresizable).mono fun s' _ hs' => ⟨hs'.1, ?_⟩
    exact (hle hfull).trans hs'.2.1
  · exact ⟨h, (Nat.not_le.mp hfull).le⟩

private theorem Holds.copyIn {source written : List UInt8} {at_ size : ℕ}
    (hfetch : bytesAt source 0 n = .ok written)
    (hput : writeBytes s.bytes at_ written = .ok data) (hsize : size = content.length)
    (hdata : ∃ c rest, data = content ++ c :: rest) (hcapacity : data.length = s.capacity + 1)
    (hbounded : s.capacity + 1 + headerSize < 2 ^ 63) :
    Yields (s.copyIn at_ source n size) fun s' => Holds s' content := by
  rw [String.copyIn, hfetch, bind_ok, hput, bind_ok]
  obtain ⟨s', hs', hholds, -⟩ := Holds.setNullTerminator
    (s := { s with size, bytes := data }) hsize hdata hcapacity hbounded
  rw [hs']
  exact hholds

def Source (source data : List UInt8) : Prop := ∃ rest, source = data ++ 0 :: rest

theorem source_cString (data : List UInt8) : Source (data ++ [0]) data := ⟨[], rfl⟩

theorem Holds.source (h : Holds s content) : Source s.bytes content := h.bytes

theorem Source.fetch {source : List UInt8} (h : Source source data) :
    bytesAt source 0 data.length = .ok data := by
  obtain ⟨rest, rfl⟩ := h
  exact bytesAt_head rfl

theorem Source.fetch_terminated {source : List UInt8} (h : Source source data) :
    bytesAt source 0 (data.length + 1) = .ok (data ++ [0]) := by
  obtain ⟨rest, rfl⟩ := h
  rw [List.append_cons, bytesAt_head (by simp)]

theorem Holds.copyIn_back {source : List UInt8} (h : Holds s content)
    (hfetch : bytesAt source 0 (data.length + 1) = .ok (data ++ [0]))
    (hroom : content.length + data.length ≤ s.capacity) :
    Yields (s.copyIn content.length source (data.length + 1) (content.length + data.length))
      fun s' => Holds s' (content ++ data) := by
  obtain ⟨rest, hbytes, hlength⟩ := h.exists_rest
  obtain ⟨old, after, hrest, hold⟩ : ∃ old after, 0 :: rest = old ++ after ∧
      (data ++ [0]).length = old.length := by
    refine ⟨(0 :: rest).take (data.length + 1), (0 :: rest).drop (data.length + 1), by simp, ?_⟩
    simp
    omega
  have hput : writeBytes s.bytes content.length (data ++ [0]) =
      .ok (content ++ ((data ++ [0]) ++ after)) := by
    rw [hbytes, hrest]
    exact Bytes.writeBytes_append _ _ _ _ rfl hold
  refine Holds.copyIn hfetch hput (List.length_append).symm ⟨0, after, by simp⟩ ?_ h.bounded
  rw [← h.capacity, hbytes, hrest]
  simp only [List.length_append] at hold ⊢
  omega

theorem Holds.copyIn_front {source : List UInt8} (h : Holds s content)
    (hfetch : bytesAt source 0 data.length = .ok data)
    (hroom : content.length + data.length ≤ s.capacity) :
    Yields (do let s' ← s.shift data.length
               s'.copyIn 0 source data.length (content.length + data.length))
      fun s' => Holds s' (data ++ content) := by
  obtain ⟨before, old, after, hbytes, hbefore, hold, hput⟩ :=
    @writeBytes_ok s.bytes (content ++ [0]) data.length (by
      rw [h.capacity, List.length_append, List.length_singleton]
      omega)
  have hshift : s.shift data.length =
      .ok { s with bytes := before ++ ((content ++ [0]) ++ after) } := by
    rw [String.shift, h.fetch_terminated, bind_ok, hput]
    rfl
  rw [hshift, bind_ok]
  have hfront : writeBytes (before ++ ((content ++ [0]) ++ after)) 0 data =
      .ok (data ++ ((content ++ [0]) ++ after)) := writeBytes_head hbefore.symm
  refine Holds.copyIn hfetch hfront ?_ ⟨0, after, by simp⟩ ?_ h.bounded
  · rw [List.length_append, Nat.add_comm]
  · change _ = s.capacity + 1
    rw [← h.capacity, hbytes]
    simp only [List.length_append, hold, hbefore]

section Copies

variable {source : List UInt8} (h : Holds s content) (hsource : Source source data)

include h hsource

theorem Holds.set (hfits : Resizable s data.length) :
    Yields (set fresh s source data.length) fun s' => Holds s' data := by
  have hlt : data.length < 2 ^ 64 := by
    have := h.bounded
    rcases hfits with hfits | hfits <;> omega
  refine (h.reserve hlt hfits fun _ => Nat.le_refl _).bind fun s' ⟨hs', hroom⟩ => ?_
  obtain ⟨before, old, after, hbytes, hbefore, hold, hput⟩ :=
    @writeBytes_ok s'.bytes (data ++ [0]) 0 (by
      rw [hs'.capacity, List.length_append, List.length_singleton]
      omega)
  obtain rfl := List.length_eq_zero_iff.mp hbefore
  refine Holds.copyIn hsource.fetch_terminated hput rfl ⟨0, after, by simp⟩ ?_ hs'.bounded
  rw [← hs'.capacity, hbytes]
  simp only [List.length_append, hold]

def Appendable (s : String) (n : ℕ) : Prop :=
  s.size + n < s.capacity ∨ Growable (s.capacity + n)

instance (s : String) (n : ℕ) : Decidable (Appendable s n) := inferInstanceAs (Decidable (_ ∨ _))

omit hsource in
theorem Holds.reserve_sum (hfits : Appendable s n) :
    s.size + n < 2 ^ 64 ∧
      Yields (Strings.reserve fresh s (s.size + n) (grown (s.capacity + n))) fun s' =>
        Holds s' content ∧ s.size + n ≤ s'.capacity := by
  have hsize := h.size_le
  have hbounded := h.bounded
  rcases hfits with hfits | hfits
  · have hlt : s.size + n < 2 ^ 64 := by omega
    exact ⟨hlt, h.reserve hlt (.inl hfits) fun hle => absurd hfits (Nat.not_lt.mpr hle)⟩
  · have hgrown := grown_eq hfits
    have hgrowth := le_growth (s.capacity + n)
    have hlt : s.size + n < 2 ^ 64 := by
      rw [Growable] at hfits
      omega
    refine ⟨hlt, h.reserve hlt (.inr ?_) fun _ => ?_⟩
    · rw [hgrown]
      exact hfits
    · rw [hgrown]
      omega

theorem Holds.append (hfits : Appendable s data.length) :
    Yields (append fresh s source data.length) fun s' => Holds s' (content ++ data) := by
  obtain ⟨hlt, hreserve⟩ := h.reserve_sum hfits
  apply hreserve.bind
  rintro s' ⟨hs', hroom⟩
  rw [Nat.mod_eq_of_lt hlt]
  rw [h.size] at hroom ⊢
  exact hs'.copyIn_back hsource.fetch_terminated hroom

theorem Holds.prepend (hfits : Appendable s data.length) :
    Yields (prepend fresh s source data.length) fun s' => Holds s' (data ++ content) := by
  obtain ⟨hlt, hreserve⟩ := h.reserve_sum hfits
  apply hreserve.bind
  rintro s' ⟨hs', hroom⟩
  rw [Nat.mod_eq_of_lt hlt]
  rw [h.size] at hroom ⊢
  exact hs'.copyIn_front hsource.fetch hroom

end Copies

theorem Holds.clear (h : Holds s content) :
    Yields (stringClear s) fun s' => Holds s' [] := by
  obtain ⟨rest, hbytes, -⟩ := h.exists_rest
  have hput : writeBytes s.bytes 0 (List.replicate (s.size + 1) 0) =
      .ok (List.replicate (s.size + 1) 0 ++ rest) := by
    rw [hbytes, List.append_cons]
    exact writeBytes_head (by simp [h.size])
  rw [stringClear, stringLength, hput, bind_ok]
  refine ⟨rfl, ⟨List.replicate s.size 0 ++ rest, by simp [List.replicate_succ]⟩, ?_, h.bounded⟩
  rw [← h.capacity, hbytes]
  simp [h.size]
  omega

end Strings

end Libromano.Strings
