/- The search of `string_algo.c`. -/

import Libromano.Bytes
import Libromano.Foundation.Occurrences

set_option autoImplicit false
set_option relaxedAutoImplicit false

namespace Libromano.StringAlgo

open Bytes Foundation

/-- The inner loop of `strstrn`, with its `j`. -/
def compareLoop (haystack needle : List UInt8) (needleLen i : ℕ) : ℕ → ℕ → Except Fault ℕ
  | 0, _ => .error .diverges
  | fuel + 1, j =>
    if j < needleLen then do
      let a ← byteAt haystack (i + j)
      let b ← byteAt needle j
      if a ≠ b then .ok j else compareLoop haystack needle needleLen i fuel (j + 1)
    else .ok j

/-- The outer loop, with its `i`. `none` stands for `NULL`. -/
def searchLoop (haystack needle : List UInt8) (needleLen : ℕ) (first : UInt8) (searchSz : ℕ) :
    ℕ → ℕ → Except Fault (Option ℕ)
  | 0, _ => .error .diverges
  | fuel + 1, i =>
    if i < searchSz then do
      let a ← byteAt haystack i
      if a ≠ first then searchLoop haystack needle needleLen first searchSz fuel (i + 1)
      else do
        let j ← compareLoop haystack needle needleLen i needleLen 1
        if j = needleLen then .ok (some i)
        else searchLoop haystack needle needleLen first searchSz fuel (i + 1)
    else .ok none

/-- The place in the haystack that is pointed to. A null pointer is `none`. -/
def strstrn (haystack : Option (List UInt8)) (haystackLen : ℕ) (needle : Option (List UInt8))
    (needleLen : ℕ) : Except Fault (Option ℕ) :=
  match haystack, needle with
  | some haystack, some needle =>
    if needleLen = 0 then .ok (some 0)
    else if haystackLen < needleLen then .ok none
    else do
      let first ← byteAt needle 0
      let searchSz := haystackLen - needleLen + 1
      searchLoop haystack needle needleLen first searchSz (searchSz + 1) 0
  | _, _ => .ok none

section Search

variable {haystack needle : List UInt8} {i j fuel : ℕ} {first : UInt8}

private theorem byteAt_lt {data : List UInt8} (h : i < data.length) :
    byteAt data i = .ok data[i] := by
  rw [byteAt, List.getElem?_eq_getElem h]

private theorem compareLoop_spec (hfits : i + needle.length ≤ haystack.length)
    (hj : j ≤ needle.length)
    (hfuel : needle.length - j < fuel) :
    ∃ j', compareLoop haystack needle needle.length i fuel j = .ok j' ∧
      (j' = needle.length ↔ ∀ k, j ≤ k → k < needle.length → haystack[i + k]? = needle[k]?) := by
  induction fuel generalizing j with
  | zero => omega
  | succ fuel ih =>
    rw [compareLoop]
    split_ifs with hlt
    · have ha : i + j < haystack.length := by omega
      rw [byteAt_lt ha, byteAt_lt hlt]
      simp only [bind_ok]
      split_ifs with hdiffers
      · refine ⟨j, rfl, iff_of_false (Nat.ne_of_lt hlt) fun hall => hdiffers ?_⟩
        have hcell := hall j (Nat.le_refl j) hlt
        rw [List.getElem?_eq_getElem ha, List.getElem?_eq_getElem hlt] at hcell
        exact Option.some.inj hcell
      · obtain ⟨j', hloop, hend⟩ := ih (j := j + 1) (by omega) (by omega)
        refine ⟨j', hloop, hend.trans ⟨fun hall k hk hlength => ?_, fun hall k hk => hall k (by omega)⟩⟩
        rcases Nat.eq_or_lt_of_le hk with rfl | hk
        · rw [List.getElem?_eq_getElem ha, List.getElem?_eq_getElem hlength, not_not.mp hdiffers]
        · exact hall k hk hlength
    · refine ⟨j, rfl, iff_of_true (by omega) fun k hk hlength => ?_⟩
      omega

private theorem searchLoop_spec (hfirst : needle[0]? = some first)
    (hfits : needle.length ≤ haystack.length)
    (hnone : ∀ i' < i, ¬OccursAt needle haystack i')
    (hfuel : haystack.length - needle.length + 1 - i < fuel) :
    ∃ r, searchLoop haystack needle needle.length first (haystack.length - needle.length + 1) fuel i =
      .ok r ∧ First needle haystack r := by
  induction fuel generalizing i with
  | zero => omega
  | succ fuel ih =>
    rw [searchLoop]
    have hpos : 0 < needle.length := (List.getElem?_eq_some_iff.mp hfirst).1
    split_ifs with hlt
    · have ha : i < haystack.length := by omega
      have hnext : ¬OccursAt needle haystack i → ∀ i' < i + 1, ¬OccursAt needle haystack i' := by
        intro hnot i' hi'
        rcases Nat.eq_or_lt_of_le (Nat.le_of_lt_succ hi') with rfl | hi'
        · exact hnot
        · exact hnone i' hi'
      have hoccurs : OccursAt needle haystack i ↔
          ∀ k < needle.length, haystack[i + k]? = needle[k]? := occursAt_iff_getElem? (by omega)
      rw [byteAt_lt ha]
      simp only [bind_ok]
      split_ifs with hdiffers
      · refine ih (hnext fun hhere => hdiffers ?_) (by omega)
        have hcell := hoccurs.mp hhere 0 hpos
        rw [hfirst, Nat.add_zero, List.getElem?_eq_getElem ha] at hcell
        exact Option.some.inj hcell
      · have hfits' : i + needle.length ≤ haystack.length := by omega
        have hfuel' : needle.length - 1 < needle.length := by omega
        obtain ⟨j, hloop, hend⟩ := compareLoop_spec hfits' hpos hfuel'
        have hall : j = needle.length ↔ OccursAt needle haystack i := by
          rw [hend, hoccurs]
          refine ⟨fun hall k hk => ?_, fun hall k _ => hall k⟩
          rcases Nat.eq_zero_or_pos k with rfl | hk₀
          · rw [hfirst, Nat.add_zero, List.getElem?_eq_getElem ha, not_not.mp hdiffers]
          · exact hall k hk₀ hk
        rw [hloop]
        simp only [bind_ok]
        split_ifs with hfound
        · exact ⟨some i, rfl, hall.mp hfound, hnone⟩
        · exact ih (hnext fun hhere => hfound (hall.mpr hhere)) (by omega)
    · refine ⟨none, rfl, fun i' hoccurs => ?_⟩
      have hle := hoccurs.le
      exact hnone i' (by omega) hoccurs

theorem strstrn_finds (haystack needle : List UInt8) :
    ∃ r, strstrn (some haystack) haystack.length (some needle) needle.length = .ok r ∧
      First needle haystack r := by
  rw [strstrn]
  split_ifs with hempty hshort
  · obtain rfl := List.length_eq_zero_iff.mp hempty
    exact ⟨some 0, rfl, first_nil⟩
  · exact ⟨none, rfl, first_none_of_lt hshort⟩
  · obtain ⟨first, rest, rfl⟩ := List.exists_cons_of_length_pos (Nat.pos_of_ne_zero hempty)
    exact searchLoop_spec rfl (Nat.le_of_not_lt hshort) (fun i' hi' => absurd hi' (Nat.not_lt_zero i'))
      (by omega)

end Search

/-- The first occurrence is returned, and nothing is read but the two strings. -/
theorem strstrn_first (haystack needle : List UInt8) :
    ∃ r, strstrn (some haystack) haystack.length (some needle) needle.length = .ok r ∧
      ∀ r', First needle haystack r' ↔ r' = r := by
  obtain ⟨r, hrun, hfirst⟩ := strstrn_finds haystack needle
  refine ⟨r, hrun, fun r' => ⟨fun hfirst' => hfirst'.unique hfirst, ?_⟩⟩
  rintro rfl
  exact hfirst

end Libromano.StringAlgo
