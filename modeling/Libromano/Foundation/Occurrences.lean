/- Where one list occurs in another, and the first place. -/

import Mathlib.Data.List.Basic
import Mathlib.Data.Nat.Find

set_option autoImplicit false
set_option relaxedAutoImplicit false

namespace Libromano.Foundation

variable {α : Type} {needle haystack before after : List α} {i j : ℕ} {r r' : Option ℕ}

def OccursAt (needle haystack : List α) (i : ℕ) : Prop :=
  ∃ before after, haystack = before ++ (needle ++ after) ∧ before.length = i

theorem OccursAt.le (h : OccursAt needle haystack i) : i + needle.length ≤ haystack.length := by
  obtain ⟨before, after, rfl, rfl⟩ := h
  simp only [List.length_append]
  omega

theorem occursAt_iff_take (hfits : i + needle.length ≤ haystack.length) :
    OccursAt needle haystack i ↔ (haystack.drop i).take needle.length = needle := by
  constructor
  · rintro ⟨before, after, rfl, rfl⟩
    rw [List.drop_left, List.take_left]
  · intro htake
    refine ⟨haystack.take i, (haystack.drop i).drop needle.length, ?_, ?_⟩
    · conv_rhs => rw [← htake]
      rw [List.length_take, List.length_drop, Nat.min_eq_left (by omega), List.take_append_drop,
        List.take_append_drop]
    · rw [List.length_take]
      omega

theorem occursAt_iff_getElem? (hfits : i + needle.length ≤ haystack.length) :
    OccursAt needle haystack i ↔ ∀ k < needle.length, haystack[i + k]? = needle[k]? := by
  rw [occursAt_iff_take hfits]
  constructor
  · intro htake k hk
    have hcell := congrArg (·[k]?) htake
    simpa [List.getElem?_take, hk] using hcell
  · intro hcells
    apply List.ext_getElem?
    intro k
    rw [List.getElem?_take, List.getElem?_drop]
    split_ifs with hk
    · exact hcells k hk
    · exact (List.getElem?_eq_none (Nat.le_of_not_lt hk)).symm

/-- The first place of the needle, if there is one. -/
def First (needle haystack : List α) : Option ℕ → Prop
  | some i => OccursAt needle haystack i ∧ ∀ j < i, ¬OccursAt needle haystack j
  | none => ∀ i, ¬OccursAt needle haystack i

theorem First.unique (h : First needle haystack r) (h' : First needle haystack r') : r = r' := by
  cases r with
  | none =>
    cases r' with
    | none => rfl
    | some j => exact absurd h'.1 (h j)
  | some i =>
    cases r' with
    | none => exact absurd h.1 (h' i)
    | some j =>
      rcases Nat.lt_trichotomy i j with hlt | heq | hgt
      · exact absurd h.1 (h'.2 i hlt)
      · exact congrArg some heq
      · exact absurd h'.1 (h.2 j hgt)

theorem exists_first (needle haystack : List α) : ∃ r, First needle haystack r := by
  classical
  by_cases h : ∃ i, OccursAt needle haystack i
  · exact ⟨some (Nat.find h), Nat.find_spec h, fun j hj => Nat.find_min h hj⟩
  · exact ⟨none, fun i hoccurs => h ⟨i, hoccurs⟩⟩

theorem first_nil : First [] haystack (some 0) :=
  ⟨⟨[], haystack, rfl, rfl⟩, fun j hj => absurd hj (Nat.not_lt_zero j)⟩

theorem first_none_of_lt (h : haystack.length < needle.length) : First needle haystack none := by
  intro i hoccurs
  have hle := hoccurs.le
  omega

end Libromano.Foundation
