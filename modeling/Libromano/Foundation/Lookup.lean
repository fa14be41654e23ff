/- Lookup in a list of pairs in which no key stands twice. -/

import Mathlib.Data.List.Nodup

set_option autoImplicit false
set_option relaxedAutoImplicit false

namespace Libromano.Foundation.Lookup

universe u v

variable {κ : Type u} {α : Type v} [BEq κ] [LawfulBEq κ] {entries : List (κ × α)} {key : κ}
  {value : α}

theorem lookup_eq_none_iff_not_mem : entries.lookup key = none ↔ key ∉ entries.map Prod.fst := by
  rw [List.lookup_eq_none_iff, List.mem_map]
  constructor
  · rintro hall ⟨entry, hentry, rfl⟩
    simpa using hall entry hentry
  · intro hkey entry hentry
    refine bne_iff_ne.mpr ?_
    rintro rfl
    exact hkey ⟨entry, hentry, rfl⟩

theorem mem_of_lookup (h : entries.lookup key = some value) : (key, value) ∈ entries := by
  obtain ⟨before, after, rfl, -⟩ := List.lookup_eq_some_iff.mp h
  simp

theorem lookup_of_mem (hnodup : (entries.map Prod.fst).Nodup) (hmem : (key, value) ∈ entries) :
    entries.lookup key = some value := by
  obtain ⟨before, after, rfl⟩ := List.append_of_mem hmem
  rw [List.map_append, List.map_cons, List.nodup_append] at hnodup
  have hfresh : key ∉ before.map Prod.fst :=
    fun hbefore => hnodup.2.2 key hbefore key List.mem_cons_self rfl
  rw [List.lookup_append, lookup_eq_none_iff_not_mem.mpr hfresh, List.lookup_cons_self,
    Option.none_or]

theorem lookup_eq_some_iff_mem (hnodup : (entries.map Prod.fst).Nodup) :
    entries.lookup key = some value ↔ (key, value) ∈ entries :=
  ⟨mem_of_lookup, lookup_of_mem hnodup⟩

end Libromano.Foundation.Lookup
