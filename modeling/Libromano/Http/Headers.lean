/- The list of the headers: its chain with the two ends, and the strings in it. -/

import Libromano.Http.Model

set_option autoImplicit false
set_option relaxedAutoImplicit false

namespace Libromano.Http

open Bytes
open Foundation.Chains

structure Listed (header : HTTPHeader) (l : List (ℕ × HTTPHeaderEntry)) : Prop where
  segment : Segment header.entries header.head l none
  tail : header.tail = (addresses l).getLast?

/-- The header shows these entries. -/
def Shows (header : HTTPHeader) (entries : List HTTPHeaderEntry) : Prop :=
  ∃ l, Listed header l ∧ items l = entries

theorem shows_init : Shows httpHeaderInit [] := ⟨[], ⟨rfl, rfl⟩, rfl⟩

section Lists

variable {header : HTTPHeader} {entry : HTTPHeaderEntry} {entries : List HTTPHeaderEntry}
  {l : List (ℕ × HTTPHeaderEntry)} {p : Option ℕ} {fuel : ℕ}

private theorem Listed.link (h : Listed header l) :
    Listed (header.link entry) (l ++ [(header.entries.length, entry)]) := by
  rcases List.eq_nil_or_concat' l with rfl | ⟨before, ⟨a, last⟩, rfl⟩
  · have hhead : header.head = none := h.segment
    have htail : header.tail = none := h.tail
    refine ⟨?_, ?_⟩
    · simp only [HTTPHeader.link, hhead, htail]
      exact Segment.singleton.mpr ⟨rfl, List.getElem?_concat_length⟩
    · rfl
  · have htail : header.tail = some a := by
      rw [h.tail, addresses_append]
      exact List.getLast?_concat
    have hhead : header.head ≠ none := by
      intro hnone
      simpa using h.segment.eq_none_iff.mp hnone
    obtain ⟨first, hfirst⟩ := Option.ne_none_iff_exists'.mp hhead
    have hsegment := h.segment
    rw [hfirst] at hsegment
    refine ⟨?_, ?_⟩
    · simp only [HTTPHeader.link, hfirst, htail]
      rw [List.append_assoc]
      exact hsegment.link
    · rw [addresses_append]
      exact List.getLast?_concat.symm

theorem Shows.link (h : Shows header entries) : Shows (header.link entry) (entries ++ [entry]) := by
  obtain ⟨l, hl, rfl⟩ := h
  exact ⟨_, hl.link, items_append⟩

private theorem entriesFrom_eq (h : Segment header.entries p l none) (hfuel : l.length < fuel) :
    entriesFrom header fuel p = .ok (items l) := by
  induction l generalizing p fuel with
  | nil =>
    obtain rfl : p = none := h
    obtain ⟨fuel, rfl⟩ : ∃ n, fuel = n + 1 := ⟨fuel - 1, by simp at hfuel; omega⟩
    rfl
  | cons first l ih =>
    obtain ⟨a, x⟩ := first
    obtain ⟨rfl, next, hcell, hl⟩ := h
    obtain ⟨fuel, rfl⟩ : ∃ n, fuel = n + 1 := ⟨fuel - 1, by simp at hfuel; omega⟩
    have hrest := ih hl (by simpa using hfuel)
    simp only [entriesFrom, hcell, hrest, bind_ok]
    rfl

theorem Shows.entries_eq (h : Shows header entries) : httpHeaderEntries header = .ok entries := by
  obtain ⟨l, hl, rfl⟩ := h
  exact entriesFrom_eq hl.segment (Nat.lt_succ_of_le hl.segment.length_le)

end Lists

section Strings

variable {text after : List UInt8}

/-- What is copied of a span: if it is empty, everything up to the next null byte. -/
def copied (text after : List UInt8) : List UInt8 := if text = [] then cString after else text

/-- There is room for a string in the arena. -/
def Storable (text : List UInt8) : Prop := text.length < stringBlockSize

instance (text : List UInt8) : Decidable (Storable text) := inferInstanceAs (Decidable (_ < _))

theorem copied_of_ne (h : text ≠ []) : copied text after = text := if_neg h

theorem copied_nil : copied [] after = cString after := rfl

theorem internalString_eq (text : List UInt8) (h : 0 ∈ after) :
    internalString (text ++ after) text.length =
      if Storable (copied text after) then .ok (copied text after ++ [0])
      else .error .arenaOverrun := by
  obtain ⟨strSz, hstrSz⟩ : ∃ n, n = (copied text after).length := ⟨_, rfl⟩
  have hholds : Arena.holds stringBlockSize (strSz + 1) = decide (Storable (copied text after)) := by
    rw [hstrSz]
    rfl
  by_cases htext : text = []
  · subst htext
    obtain ⟨rest, hafter, hnull⟩ := exists_cString h
    have hsize : strlen after = .ok strSz := by
      rw [hstrSz, strlen, if_pos h]
      rfl
    have hbytes : bytesAt after 0 strSz = .ok (cString after) := by
      have hread := bytesAt_append [] (cString after) (0 :: rest) rfl hstrSz.symm
      rwa [List.nil_append, ← hafter] at hread
    simp only [internalString, List.length_nil, if_true, List.nil_append, hsize, bind_ok, hholds,
      hbytes, decide_eq_true_eq]
    rfl
  · rw [copied_of_ne htext] at hstrSz hholds ⊢
    subst hstrSz
    have hbytes : bytesAt (text ++ after) 0 text.length = .ok text :=
      bytesAt_append [] text after rfl rfl
    have hne : text.length ≠ 0 := fun hzero => htext (List.length_eq_zero_iff.mp hzero)
    simp only [internalString, if_neg hne, bind_ok, hholds, hbytes, decide_eq_true_eq]

end Strings

end Libromano.Http
