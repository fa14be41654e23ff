/- The texts that the encoder can produce, among those that the decoder accepts. -/

import Libromano.Base64.RoundTrip

set_option autoImplicit false
set_option relaxedAutoImplicit false

namespace Libromano.Base64

/-- `=` stands only as padding, and the bits that the padding drops are zero. -/
def Canonical (s : List UInt8) : Prop :=
  ∃ body p, s = body ++ List.replicate p 61 ∧ p ≤ 2 ∧ (∀ c ∈ body, c ∈ encodeTable) ∧
    (valueOf (body.getLastD 65)).toNat % 4 ^ p = 0

section Groups

variable {front : List UInt8} {turns : ℕ} {c₀ c₁ c₂ c₃ : UInt8}

private theorem encoded_decodedGroups (hfront : front.length = 4 * turns)
    (hletters : ∀ c ∈ front, c ∈ encodeTable) : encoded (decodedGroups front) = front := by
  induction turns generalizing front with
  | zero =>
    obtain rfl := List.length_eq_zero_iff.mp hfront
    rfl
  | succ turns ih =>
    obtain ⟨c₀, c₁, c₂, c₃, front, rfl⟩ := exists_four hfront.ge
    simp only [List.length_cons] at hfront
    have hsplit : ∀ c ∈ [c₀, c₁, c₂, c₃] ++ front, c ∈ encodeTable := hletters
    obtain ⟨hgroup, hrest⟩ := List.forall_mem_append.mp hsplit
    obtain ⟨a, b, c, hbytes, hencoded, -, -⟩ := exists_bytesOf hgroup
    rw [decodedGroups, hbytes]
    change encodeGroup a b c ++ encoded (decodedGroups front) = _
    rw [hencoded, ih (by omega) hrest]
    rfl

private theorem encoded_decodedLast_four (h : ∀ c ∈ [c₀, c₁, c₂, c₃], c ∈ encodeTable) :
    encoded (decodedLast c₀ c₁ c₂ c₃) = [c₀, c₁, c₂, c₃] := by
  obtain ⟨a, b, c, hbytes, hencoded, -, -⟩ := exists_bytesOf h
  have hc₂ : c₂ ≠ 61 := (letter_spec c₂ (h c₂ (by simp))).2.2.2
  have hc₃ : c₃ ≠ 61 := (letter_spec c₃ (h c₃ (by simp))).2.2.2
  rw [decodedLast_four hc₂ hc₃, hbytes, encoded, hencoded]
  rfl

private theorem mem_encodeTable_a : (65 : UInt8) ∈ encodeTable := by decide

private theorem encoded_decodedLast_three (h : ∀ c ∈ [c₀, c₁, c₂], c ∈ encodeTable)
    (hbits : (valueOf c₂).toNat % 4 = 0) : encoded (decodedLast c₀ c₁ c₂ 61) = [c₀, c₁, c₂, 61] := by
  have hletters : ∀ c ∈ [c₀, c₁, c₂] ++ [65], c ∈ encodeTable :=
    List.forall_mem_append.mpr ⟨h, by simp [mem_encodeTable_a]⟩
  obtain ⟨a, b, c, hbytes, hencoded, -, hzero⟩ := exists_bytesOf hletters
  have hc₂ : c₂ ≠ 61 := (letter_spec c₂ (h c₂ (by simp))).2.2.2
  obtain rfl : c = 0 := by
    apply UInt8.toNat_inj.mp
    rw [hzero, hbits]
    rfl
  rw [decodedLast_three hc₂, hbytes]
  change (encodeGroup a b 0).take 3 ++ [61] = _
  rw [hencoded]
  rfl

private theorem encoded_decodedLast_two (h : ∀ c ∈ [c₀, c₁], c ∈ encodeTable)
    (hbits : (valueOf c₁).toNat % 16 = 0) : encoded (decodedLast c₀ c₁ 61 61) = [c₀, c₁, 61, 61] := by
  have hletters : ∀ c ∈ [c₀, c₁] ++ [65, 65], c ∈ encodeTable :=
    List.forall_mem_append.mpr ⟨h, by simp [mem_encodeTable_a]⟩
  obtain ⟨a, b, c, hbytes, hencoded, hzero, hzero'⟩ := exists_bytesOf hletters
  obtain rfl : b = 0 := by
    apply UInt8.toNat_inj.mp
    rw [hzero, hbits]
    rfl
  obtain rfl : c = 0 := UInt8.toNat_inj.mp hzero'
  rw [decodedLast_two, hbytes]
  change (encodeGroup a 0 0).take 2 ++ [61, 61] = _
  rw [hencoded]
  rfl

end Groups

private theorem encoded_of_canonical {front : List UInt8} {turns : ℕ} {c₀ c₁ c₂ c₃ : UInt8}
    (hfront : front.length = 4 * turns) (h : Canonical (front ++ [c₀, c₁, c₂, c₃])) :
    encoded (decodedGroups front ++ decodedLast c₀ c₁ c₂ c₃) = front ++ [c₀, c₁, c₂, c₃] := by
  obtain ⟨body, p, hs, hp, hletters, hbits⟩ := h
  rw [encoded_append (length_decodedGroups hfront)]
  obtain rfl | rfl | rfl : p = 0 ∨ p = 1 ∨ p = 2 := by omega
  · obtain rfl : front ++ [c₀, c₁, c₂, c₃] = body := by simpa using hs
    obtain ⟨hbefore, hlast⟩ := List.forall_mem_append.mp hletters
    rw [encoded_decodedGroups hfront hbefore, encoded_decodedLast_four hlast]
  · have hsplit : front ++ [c₀, c₁, c₂] ++ [c₃] = body ++ [61] := by simpa using hs
    obtain ⟨rfl, hc₃⟩ := List.append_inj' hsplit rfl
    obtain rfl : c₃ = 61 := by simpa using hc₃
    obtain ⟨hbefore, hlast⟩ := List.forall_mem_append.mp hletters
    rw [encoded_decodedGroups hfront hbefore, encoded_decodedLast_three hlast]
    simpa using hbits
  · have hsplit : front ++ [c₀, c₁] ++ [c₂, c₃] = body ++ [61, 61] := by simpa using hs
    obtain ⟨rfl, hc⟩ := List.append_inj' hsplit rfl
    obtain ⟨rfl, rfl⟩ : c₂ = 61 ∧ c₃ = 61 := by simpa using hc
    obtain ⟨hbefore, hlast⟩ := List.forall_mem_append.mp hletters
    rw [encoded_decodedGroups hfront hbefore, encoded_decodedLast_two hlast]
    simpa using hbits

private theorem encoded_last_eq {last : List UInt8} (hpos : last ≠ []) (hle : last.length ≤ 3) :
    ∃ body c p, encoded last = body ++ [c] ++ List.replicate p 61 ∧ p ≤ 2 ∧
      (∀ d ∈ body ++ [c], d ∈ encodeTable) ∧ (valueOf c).toNat % 4 ^ p = 0 := by
  rcases last with _ | ⟨a, _ | ⟨b, _ | ⟨c, _ | ⟨d, last⟩⟩⟩⟩
  · exact absurd rfl hpos
  · obtain ⟨c₀, c₁, hone⟩ := encodeGroup_one a
    obtain ⟨d₀, d₁, d₂, d₃, hgroup, hletters, hbytes⟩ := exists_encodeGroup a 0 0
    rw [hone] at hgroup
    cases hgroup
    obtain ⟨a', b', c', hbytes', -, hzero, -⟩ := exists_bytesOf hletters
    rw [hbytes] at hbytes'
    cases hbytes'
    refine ⟨[c₀], c₁, 2, by rw [encoded, hone]; rfl, le_rfl, fun d hd => ?_, ?_⟩
    · exact hletters d (List.mem_of_mem_take (i := 2) hd)
    · have hb : (0 : UInt8).toNat = 0 := rfl
      omega
  · obtain ⟨c₀, c₁, c₂, htwo⟩ := encodeGroup_two a b
    obtain ⟨d₀, d₁, d₂, d₃, hgroup, hletters, hbytes⟩ := exists_encodeGroup a b 0
    rw [htwo] at hgroup
    cases hgroup
    obtain ⟨a', b', c', hbytes', -, -, hzero⟩ := exists_bytesOf hletters
    rw [hbytes] at hbytes'
    cases hbytes'
    refine ⟨[c₀, c₁], c₂, 1, by rw [encoded, htwo]; rfl, by omega, fun d hd => ?_, ?_⟩
    · exact hletters d (List.mem_of_mem_take (i := 3) hd)
    · have hc : (0 : UInt8).toNat = 0 := rfl
      omega
  · obtain ⟨c₀, c₁, c₂, c₃, hgroup, hletters, -⟩ := exists_encodeGroup a b c
    exact ⟨[c₀, c₁, c₂], c₃, 0, by rw [encoded, hgroup]; rfl, by omega, hletters, Nat.mod_one _⟩
  · simp only [List.length_cons] at hle
    omega

private theorem canonical_encoded {x : List UInt8} (hx : x ≠ []) : Canonical (encoded x) := by
  obtain ⟨full, last, turns, rfl, hfull, hpos, hle⟩ := exists_groups_last hx
  obtain ⟨-, -, hletters⟩ := encoded_full hfull
  obtain ⟨body, c, p, hlast, hp, hlastLetters, hbits⟩ := encoded_last_eq hpos hle
  refine ⟨encoded full ++ (body ++ [c]), p, ?_, hp, ?_, ?_⟩
  · rw [encoded_append hfull, hlast, List.append_assoc (encoded full)]
  · exact List.forall_mem_append.mpr ⟨hletters, hlastLetters⟩
  · rw [← List.append_assoc, List.getLastD_concat]
    exact hbits

private theorem alphabet_of_all {s : List UInt8}
    (h : (s.all fun c => c ∈ encodeTable || c == 61) = true) :
    ∀ c ∈ s, c ∈ encodeTable ∨ c = 61 := by
  simpa using h

private theorem allIndexed_of_alphabet {s : List UInt8} (h : ∀ c ∈ s, c ∈ encodeTable ∨ c = 61) :
    AllIndexed s := by
  intro c hc
  rcases h c hc with hletter | rfl
  · exact (letter_spec c hletter).1
  · decide

theorem base64Encode_base64Decode_iff {s : List UInt8} (hs : s ≠ [])
    (halphabet : ∀ c ∈ s, c ∈ encodeTable ∨ c = 61) :
    (∀ out, base64Decode s = .ok (some out) →
      ∃ back, base64Encode (out.buffer.take out.size) = .ok back ∧ back.buffer = s) ↔
    s.length % 4 ≠ 0 ∨ Canonical s := by
  by_cases hlength : s.length % 4 = 0
  · obtain ⟨front, turns, c₀, c₁, c₂, c₃, rfl, hfront⟩ := exists_last hs hlength
    have hindexed : AllIndexed (front ++ [c₀, c₁, c₂, c₃].take (4 - padding c₂ c₃)) := by
      refine fun c hc => allIndexed_of_alphabet halphabet c ?_
      rcases List.mem_append.mp hc with hc | hc
      · exact List.mem_append_left _ hc
      · exact List.mem_append_right _ (List.mem_of_mem_take hc)
    have hdecoded : base64Decode (front ++ [c₀, c₁, c₂, c₃]) = _ := base64Decode_eq hfront
    rw [if_pos hindexed] at hdecoded
    have hsize : (decodedGroups front ++ decodedLast c₀ c₁ c₂ c₃).length =
        3 * turns + (3 - padding c₂ c₃) := by
      rw [List.length_append, length_decodedGroups hfront, length_decodedLast]
    rw [or_iff_right (not_not_intro hlength)]
    constructor
    · intro hback
      obtain ⟨back, hencoded, hbuffer⟩ := hback _ hdecoded
      rw [List.take_of_length_le hsize.le, base64Encode_eq] at hencoded
      obtain rfl := Except.ok.inj hencoded
      rw [← hbuffer]
      apply canonical_encoded
      intro hnil
      have hle := padding_le c₂ c₃
      rw [hnil, List.length_nil] at hsize
      omega
    · intro hcanonical out hout
      obtain rfl := Option.some.inj (Except.ok.inj (hdecoded.symm.trans hout))
      rw [List.take_of_length_le hsize.le]
      exact ⟨_, base64Encode_eq _, encoded_of_canonical hfront hcanonical⟩
  · refine iff_of_true (fun out hout => ?_) (.inl hlength)
    rw [base64Decode, if_pos hlength] at hout
    cases hout

/-- The text `QQ==`. -/
theorem base64Encode_base64Decode_iff_padded :
    (∀ out, base64Decode [81, 81, 61, 61] = .ok (some out) →
      ∃ back, base64Encode (out.buffer.take out.size) = .ok back ∧
        back.buffer = [81, 81, 61, 61]) ↔
    ([81, 81, 61, 61] : List UInt8).length % 4 ≠ 0 ∨ Canonical [81, 81, 61, 61] :=
  base64Encode_base64Decode_iff (by simp) (alphabet_of_all (by decide))

/-- In the text `Q=QQ` padding stands where a letter must. -/
theorem base64Encode_not_base64Decode :
    ¬∀ s : List UInt8, s ≠ [] → (∀ c ∈ s, c ∈ encodeTable ∨ c = 61) →
      ∀ out, base64Decode s = .ok (some out) →
        ∃ back, base64Encode (out.buffer.take out.size) = .ok back ∧ back.buffer = s := by
  intro h
  obtain ⟨back, hback, hbuffer⟩ := h [81, 61, 81, 81] (by simp) (alphabet_of_all (by decide)) _ rfl
  obtain rfl := Except.ok.inj hback
  revert hbuffer
  decide

end Libromano.Base64
