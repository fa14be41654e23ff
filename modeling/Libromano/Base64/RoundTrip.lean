/- The encoder and the decoder together. The decoder never tests the marks of its table, and never
   answers that a text is malformed once its length is a multiple of four. -/

import Libromano.Base64.Decoding

set_option autoImplicit false
set_option relaxedAutoImplicit false

namespace Libromano.Base64

theorem exists_last {s : List UInt8} (hs : s ≠ []) (h : s.length % 4 = 0) :
    ∃ front turns c₀ c₁ c₂ c₃, s = front ++ [c₀, c₁, c₂, c₃] ∧ front.length = 4 * turns := by
  have hpos := List.length_pos_iff.mpr hs
  have hlast : (s.drop (s.length - 4)).length = 4 := by
    rw [List.length_drop]
    omega
  obtain ⟨c₀, c₁, c₂, c₃, rest, hrest⟩ := exists_four (n := 0) hlast.ge
  obtain rfl : rest = [] := by
    rw [hrest] at hlast
    exact List.length_eq_zero_iff.mp (by simpa using hlast)
  refine ⟨s.take (s.length - 4), s.length / 4 - 1, c₀, c₁, c₂, c₃, ?_, ?_⟩
  · rw [← hrest, List.take_append_drop]
  · rw [List.length_take]
    omega

/-- All characters but as many as there are `=` among the last two. -/
def lookedUp (s : List UInt8) : List UInt8 := s.take (s.length - (s.drop (s.length - 2)).count 61)

private theorem count_last (c₂ c₃ : UInt8) : [c₂, c₃].count 61 = padding c₂ c₃ := by
  by_cases h₂ : c₂ = 61 <;> by_cases h₃ : c₃ = 61 <;> simp [padding, h₂, h₃]

private theorem lookedUp_append (front : List UInt8) (c₀ c₁ c₂ c₃ : UInt8) :
    lookedUp (front ++ [c₀, c₁, c₂, c₃]) =
      front ++ [c₀, c₁, c₂, c₃].take (4 - padding c₂ c₃) := by
  have hle := padding_le c₂ c₃
  have hlength : (front ++ [c₀, c₁, c₂, c₃]).length = front.length + 4 := List.length_append
  have hdrop : (front ++ [c₀, c₁, c₂, c₃]).drop (front.length + 4 - 2) = [c₂, c₃] := by
    rw [Nat.add_sub_assoc (by omega), List.drop_append, Nat.add_sub_cancel_left,
      List.drop_of_length_le (Nat.le_add_right _ _)]
    rfl
  rw [lookedUp, hlength, hdrop, count_last, Nat.add_sub_assoc (by omega), List.take_append,
    Nat.add_sub_cancel_left, List.take_of_length_le (Nat.le_add_right _ _)]

private theorem base64Decode_nil : base64Decode [] = .error .outOfBounds := by
  rfl

theorem base64Decode_safe_iff {s : List UInt8} (h : s.length % 4 = 0) :
    (∃ out, base64Decode s = .ok (some out) ∧ base64GetDecodeSize s = .ok out.size ∧
      out.buffer.length = out.size) ↔ s ≠ [] ∧ ∀ c ∈ lookedUp s, 43 ≤ c ∧ c ≤ 122 := by
  by_cases hs : s = []
  · subst hs
    simp [base64Decode_nil]
  obtain ⟨front, turns, c₀, c₁, c₂, c₃, rfl, hfront⟩ := exists_last hs h
  have hiff : (∀ c ∈ lookedUp (front ++ [c₀, c₁, c₂, c₃]), 43 ≤ c ∧ c ≤ 122) ↔
      AllIndexed (front ++ [c₀, c₁, c₂, c₃].take (4 - padding c₂ c₃)) := by
    rw [lookedUp_append]
    rfl
  rw [base64Decode_eq hfront, base64GetDecodeSize_eq hfront, hiff]
  constructor
  · rintro ⟨out, hout, -, -⟩
    refine ⟨hs, ?_⟩
    by_contra hall
    rw [if_neg hall] at hout
    cases hout
  · rintro ⟨-, hall⟩
    rw [if_pos hall]
    refine ⟨_, rfl, rfl, ?_⟩
    rw [List.length_append, length_decodedGroups hfront, length_decodedLast]

/-- The text `QQ==`. -/
theorem base64Decode_safe_iff_padded :
    (∃ out, base64Decode [81, 81, 61, 61] = .ok (some out) ∧
      base64GetDecodeSize [81, 81, 61, 61] = .ok out.size ∧ out.buffer.length = out.size) ↔
    ([81, 81, 61, 61] : List UInt8) ≠ [] ∧ ∀ c ∈ lookedUp [81, 81, 61, 61], 43 ≤ c ∧ c ≤ 122 :=
  base64Decode_safe_iff rfl

/-- A space stands before the table. -/
theorem base64Decode_not_safe :
    ¬∀ s : List UInt8, s.length % 4 = 0 → ∃ out, base64Decode s = .ok (some out) ∧
      base64GetDecodeSize s = .ok out.size ∧ out.buffer.length = out.size := by
  intro h
  obtain ⟨out, hout, -, -⟩ := h [32, 32, 32, 32] rfl
  cases hout

theorem letter_spec : ∀ c ∈ encodeTable, Indexed c ∧ (valueOf c).toNat < 64 ∧
    sextet (valueOf c).toNat = c ∧ c ≠ 61 := by
  decide +kernel

private theorem sextet_mem {v : ℕ} (hv : v < 64) : sextet v ∈ encodeTable := by
  have hlt : v < encodeTable.length := hv
  rw [sextet, List.getD_eq_getElem?_getD, List.getElem?_eq_getElem hlt]
  exact List.getElem_mem hlt

private theorem bytesOf_eq {x : UInt32} {n : ℕ} (h : x.toNat = n) :
    bytesOf x = [UInt8.ofNat (n / 2 ^ 16), UInt8.ofNat (n / 2 ^ 8), UInt8.ofNat n] := by
  subst h
  have hbyte {k : ℕ} (hk : k < 32) :
      ((x >>> UInt32.ofNat k) &&& 0xFF).toUInt8 = UInt8.ofNat (x.toNat / 2 ^ k) := by
    apply UInt8.toNat_inj.mp
    rw [toNat_byte x hk, UInt8.toNat_ofNat']
  have h₁ := hbyte (k := 16) (by omega)
  have h₂ := hbyte (k := 8) (by omega)
  have h₃ := hbyte (k := 0) (by omega)
  rw [Nat.pow_zero, Nat.div_one] at h₃
  rw [bytesOf]
  exact congrArg₂ _ h₁ (congrArg₂ _ h₂ (congrArg₂ _ h₃ rfl))

private theorem toNat_chunkOf {c₀ c₁ c₂ c₃ : UInt8} (h : ∀ c ∈ [c₀, c₁, c₂, c₃], c ∈ encodeTable) :
    (chunkOf c₀ c₁ c₂ c₃).toNat = (valueOf c₀).toNat * 2 ^ 18 + ((valueOf c₁).toNat * 2 ^ 12 +
      ((valueOf c₂).toNat * 2 ^ 6 + (valueOf c₃).toNat)) := by
  have hlt (c : UInt8) (hc : c ∈ [c₀, c₁, c₂, c₃]) := (letter_spec c (h c hc)).2.1
  exact toNat_sextets (hlt c₀ (by simp)) (hlt c₁ (by simp)) (hlt c₂ (by simp)) (hlt c₃ (by simp))

theorem exists_encodeGroup (a b c : UInt8) : ∃ c₀ c₁ c₂ c₃, encodeGroup a b c = [c₀, c₁, c₂, c₃] ∧
    (∀ d ∈ [c₀, c₁, c₂, c₃], d ∈ encodeTable) ∧ bytesOf (chunkOf c₀ c₁ c₂ c₃) = [a, b, c] := by
  have ha := a.toNat_lt
  have hb := b.toNat_lt
  have hc := c.toNat_lt
  obtain ⟨n, hn⟩ : ∃ n, n = a.toNat * 2 ^ 16 + (b.toNat * 2 ^ 8 + c.toNat) := ⟨_, rfl⟩
  have hmod (m : ℕ) : m % 64 < 64 := Nat.mod_lt _ (by omega)
  have hletters : ∀ d ∈ [sextet (n / 2 ^ 18 % 64), sextet (n / 2 ^ 12 % 64),
      sextet (n / 2 ^ 6 % 64), sextet (n % 64)], d ∈ encodeTable := by
    simp [sextet_mem, hmod]
  have hvalue (m : ℕ) : (valueOf (sextet (m % 64))).toNat = m % 64 := (sextet_spec _ (hmod m)).2.1
  have hchunk := toNat_chunkOf hletters
  rw [hvalue, hvalue, hvalue, hvalue] at hchunk
  refine ⟨_, _, _, _, by rw [encodeGroup, ← hn], hletters, ?_⟩
  rw [bytesOf_eq (n := n) (by omega)]
  have h₁ : n / 2 ^ 16 = a.toNat := by omega
  have h₂ : UInt8.ofNat (n / 2 ^ 8) = b := by
    apply UInt8.toNat_inj.mp
    rw [UInt8.toNat_ofNat']
    omega
  have h₃ : UInt8.ofNat n = c := by
    apply UInt8.toNat_inj.mp
    rw [UInt8.toNat_ofNat']
    omega
  rw [h₁, h₂, h₃, UInt8.ofNat_toNat]

theorem exists_bytesOf {c₀ c₁ c₂ c₃ : UInt8} (h : ∀ c ∈ [c₀, c₁, c₂, c₃], c ∈ encodeTable) :
    ∃ a b c, bytesOf (chunkOf c₀ c₁ c₂ c₃) = [a, b, c] ∧ encodeGroup a b c = [c₀, c₁, c₂, c₃] ∧
      b.toNat = (valueOf c₁).toNat % 16 * 16 + (valueOf c₂).toNat / 4 ∧
      c.toNat = (valueOf c₂).toNat % 4 * 64 + (valueOf c₃).toNat := by
  have hletter (d : UInt8) (hd : d ∈ [c₀, c₁, c₂, c₃]) := (letter_spec d (h d hd)).2
  obtain ⟨hlt₀, hs₀, -⟩ := hletter c₀ (by simp)
  obtain ⟨hlt₁, hs₁, -⟩ := hletter c₁ (by simp)
  obtain ⟨hlt₂, hs₂, -⟩ := hletter c₂ (by simp)
  obtain ⟨hlt₃, hs₃, -⟩ := hletter c₃ (by simp)
  obtain ⟨n, hn⟩ : ∃ n, n = (chunkOf c₀ c₁ c₂ c₃).toNat := ⟨_, rfl⟩
  have hsum := toNat_chunkOf h
  rw [← hn] at hsum
  refine ⟨_, _, _, bytesOf_eq hn.symm, ?_, ?_, ?_⟩
  · have hword : n / 2 ^ 16 % 256 * 2 ^ 16 + (n / 2 ^ 8 % 256 * 2 ^ 8 + n % 256) = n := by omega
    rw [encodeGroup]
    simp only [UInt8.toNat_ofNat', show 2 ^ 8 = 256 from rfl] at hword ⊢
    rw [hword]
    have h₀ : n / 2 ^ 18 % 64 = (valueOf c₀).toNat := by omega
    have h₁ : n / 2 ^ 12 % 64 = (valueOf c₁).toNat := by omega
    have h₂ : n / 2 ^ 6 % 64 = (valueOf c₂).toNat := by omega
    have h₃ : n % 64 = (valueOf c₃).toNat := by omega
    rw [h₀, h₁, h₂, h₃, hs₀, hs₁, hs₂, hs₃]
  · rw [UInt8.toNat_ofNat']
    omega
  · rw [UInt8.toNat_ofNat']
    omega

private theorem gather_two (c₀ c₁ : UInt8) : gather 0 [c₀, c₁] 0 = chunkOf c₀ c₁ 65 65 := by
  simp [gather, chunkOf, show valueOf 65 = 0 from rfl]

private theorem gather_three (c₀ c₁ c₂ : UInt8) :
    gather 0 [c₀, c₁, c₂] 0 = chunkOf c₀ c₁ c₂ 65 := by
  simp [gather, chunkOf, show valueOf 65 = 0 from rfl]

private theorem gather_four (c₀ c₁ c₂ c₃ : UInt8) :
    gather 0 [c₀, c₁, c₂, c₃] 0 = chunkOf c₀ c₁ c₂ c₃ := by
  simp [gather, chunkOf]

theorem decodedLast_two (c₀ c₁ : UInt8) :
    decodedLast c₀ c₁ 61 61 = (bytesOf (chunkOf c₀ c₁ 65 65)).take 1 := by
  rw [← gather_two]
  rfl

theorem decodedLast_three {c₀ c₁ c₂ : UInt8} (h : c₂ ≠ 61) :
    decodedLast c₀ c₁ c₂ 61 = (bytesOf (chunkOf c₀ c₁ c₂ 65)).take 2 := by
  rw [← gather_three, decodedLast, padding, decide_eq_false h]
  rfl

theorem decodedLast_four {c₀ c₁ c₂ c₃ : UInt8} (h₂ : c₂ ≠ 61) (h₃ : c₃ ≠ 61) :
    decodedLast c₀ c₁ c₂ c₃ = bytesOf (chunkOf c₀ c₁ c₂ c₃) := by
  rw [← gather_four, decodedLast, padding, decide_eq_false h₂, decide_eq_false h₃]
  rfl

theorem encodeGroup_one (a : UInt8) : ∃ c₀ c₁, encodeGroup a 0 0 = [c₀, c₁, 65, 65] := by
  have ha := a.toNat_lt
  have h₂ : (a.toNat * 2 ^ 16 + (0 * 2 ^ 8 + 0)) / 2 ^ 6 % 64 = 0 := by omega
  have h₃ : (a.toNat * 2 ^ 16 + (0 * 2 ^ 8 + 0)) % 64 = 0 := by omega
  rw [encodeGroup, show (0 : UInt8).toNat = 0 from rfl, h₂, h₃]
  exact ⟨_, _, rfl⟩

theorem encodeGroup_two (a b : UInt8) : ∃ c₀ c₁ c₂, encodeGroup a b 0 = [c₀, c₁, c₂, 65] := by
  have h₃ : (a.toNat * 2 ^ 16 + (b.toNat * 2 ^ 8 + 0)) % 64 = 0 := by omega
  rw [encodeGroup, show (0 : UInt8).toNat = 0 from rfl, h₃]
  exact ⟨_, _, _, rfl⟩

theorem encoded_full {turns : ℕ} {full : List UInt8} (h : full.length = 3 * turns) :
    decodedGroups (encoded full) = full ∧ (encoded full).length = 4 * turns ∧
      ∀ c ∈ encoded full, c ∈ encodeTable := by
  induction turns generalizing full with
  | zero =>
    obtain rfl := List.length_eq_zero_iff.mp h
    exact ⟨rfl, rfl, fun c hc => absurd hc List.not_mem_nil⟩
  | succ turns ih =>
    obtain ⟨a, b, c, full, rfl⟩ := exists_three h.ge
    simp only [List.length_cons] at h
    have hfull : full.length = 3 * turns := by omega
    obtain ⟨hdecoded, hlength, hletters⟩ := ih hfull
    obtain ⟨c₀, c₁, c₂, c₃, hgroup, hgroupLetters, hbytes⟩ := exists_encodeGroup a b c
    rw [encoded, hgroup]
    refine ⟨?_, ?_, ?_⟩
    · change bytesOf (chunkOf c₀ c₁ c₂ c₃) ++ decodedGroups (encoded full) = _
      rw [hbytes, hdecoded]
      rfl
    · rw [List.length_append, hlength]
      simp only [List.length_cons, List.length_nil]
      omega
    · exact List.forall_mem_append.mpr ⟨hgroupLetters, hletters⟩

private theorem encoded_last {last : List UInt8} (hpos : last ≠ []) (hle : last.length ≤ 3) :
    ∃ c₀ c₁ c₂ c₃, encoded last = [c₀, c₁, c₂, c₃] ∧
      (∀ c ∈ [c₀, c₁, c₂, c₃].take (4 - padding c₂ c₃), c ∈ encodeTable) ∧
      decodedLast c₀ c₁ c₂ c₃ = last := by
  rcases last with _ | ⟨a, _ | ⟨b, _ | ⟨c, _ | ⟨d, last⟩⟩⟩⟩
  · exact absurd rfl hpos
  · obtain ⟨c₀, c₁, hone⟩ := encodeGroup_one a
    obtain ⟨d₀, d₁, d₂, d₃, hgroup, hletters, hbytes⟩ := exists_encodeGroup a 0 0
    rw [hone] at hgroup
    cases hgroup
    refine ⟨c₀, c₁, 61, 61, by rw [encoded, hone]; rfl, fun c hc => hletters c ?_, ?_⟩
    · exact List.mem_of_mem_take (i := 2) hc
    · rw [decodedLast_two, hbytes]
      rfl
  · obtain ⟨c₀, c₁, c₂, htwo⟩ := encodeGroup_two a b
    obtain ⟨d₀, d₁, d₂, d₃, hgroup, hletters, hbytes⟩ := exists_encodeGroup a b 0
    rw [htwo] at hgroup
    cases hgroup
    have hc₂ : c₂ ≠ 61 := (letter_spec c₂ (hletters c₂ (by simp))).2.2.2
    refine ⟨c₀, c₁, c₂, 61, by rw [encoded, htwo]; rfl, fun c hc => hletters c ?_, ?_⟩
    · rw [padding, decide_eq_false hc₂] at hc
      exact List.mem_of_mem_take (i := 3) hc
    · rw [decodedLast_three hc₂, hbytes]
      rfl
  · obtain ⟨c₀, c₁, c₂, c₃, hgroup, hletters, hbytes⟩ := exists_encodeGroup a b c
    have hc₂ : c₂ ≠ 61 := (letter_spec c₂ (hletters c₂ (by simp))).2.2.2
    have hc₃ : c₃ ≠ 61 := (letter_spec c₃ (hletters c₃ (by simp))).2.2.2
    refine ⟨c₀, c₁, c₂, c₃, by rw [encoded, hgroup]; rfl, fun c hc => hletters c ?_, ?_⟩
    · exact List.mem_of_mem_take hc
    · rw [decodedLast_four hc₂ hc₃, hbytes]
  · simp only [List.length_cons] at hle
    omega

theorem exists_groups_last {x : List UInt8} (hx : x ≠ []) : ∃ full last turns, x = full ++ last ∧
    full.length = 3 * turns ∧ last ≠ [] ∧ last.length ≤ 3 := by
  have hpos := List.length_pos_iff.mpr hx
  refine ⟨x.take (3 * ((x.length - 1) / 3)), x.drop (3 * ((x.length - 1) / 3)), (x.length - 1) / 3,
    ?_, ?_, ?_, ?_⟩
  · rw [List.take_append_drop]
  · rw [List.length_take]
    omega
  · rw [← List.length_pos_iff, List.length_drop]
    omega
  · rw [List.length_drop]
    omega

theorem base64Decode_base64Encode {x : List UInt8} (hx : x ≠ []) :
    ∃ out, base64Encode x = .ok out ∧ out.size = base64GetEncodeSize x.length ∧
      out.buffer.length = out.size ∧ base64GetDecodeSize out.buffer = .ok x.length ∧
      base64Decode out.buffer = .ok (some ⟨x, x.length⟩) := by
  refine ⟨_, base64Encode_eq x, rfl, length_encoded x, ?_⟩
  obtain ⟨full, last, turns, rfl, hfull, hpos, hle⟩ := exists_groups_last hx
  obtain ⟨hgroups, hfront, hletters⟩ := encoded_full hfull
  obtain ⟨c₀, c₁, c₂, c₃, hlast, hlastLetters, hdecoded⟩ := encoded_last hpos hle
  have hlength : 3 * turns + (3 - padding c₂ c₃) = (full ++ last).length := by
    rw [List.length_append, hfull, ← hdecoded, length_decodedLast]
  have hindexed : AllIndexed (encoded full ++ [c₀, c₁, c₂, c₃].take (4 - padding c₂ c₃)) := by
    intro c hc
    refine (letter_spec c ?_).1
    rcases List.mem_append.mp hc with hc | hc
    · exact hletters c hc
    · exact hlastLetters c hc
  rw [encoded_append hfull, hlast]
  constructor
  · rw [base64GetDecodeSize_eq hfront, hlength]
  · rw [base64Decode_eq hfront, if_pos hindexed, hgroups, hdecoded, hlength]

/-- A full group and two bytes that are left. -/
theorem base64Decode_base64Encode_five :
    ∃ out, base64Encode [77, 97, 110, 0, 255] = .ok out ∧
      out.size = base64GetEncodeSize [(77 : UInt8), 97, 110, 0, 255].length ∧
      out.buffer.length = out.size ∧
      base64GetDecodeSize out.buffer = .ok [(77 : UInt8), 97, 110, 0, 255].length ∧
      base64Decode out.buffer =
        .ok (some ⟨[77, 97, 110, 0, 255], [(77 : UInt8), 97, 110, 0, 255].length⟩) :=
  base64Decode_base64Encode (List.cons_ne_nil _ _)

end Libromano.Base64
