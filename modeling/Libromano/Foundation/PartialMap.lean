/- Partial maps and the collections of pairs that list them. -/

import Mathlib.Data.Finset.Card
import Mathlib.Data.Multiset.AddSub
import Mathlib.Data.Multiset.MapFold
import Mathlib.Logic.Function.Basic

set_option autoImplicit false
set_option relaxedAutoImplicit false

namespace Libromano.Foundation.PartialMap

variable {K V : Type} {f : K → Option V} {s : Multiset (K × V)} {k : K} {v : V}

/-- `s` holds the pairs of `f`, each once. -/
structure Lists (s : Multiset (K × V)) (f : K → Option V) : Prop where
  once : (s.map Prod.fst).Nodup
  mem : ∀ {k v}, (k, v) ∈ s ↔ f k = some v

theorem lists_empty : Lists (0 : Multiset (K × V)) fun _ => none :=
  ⟨by simp, by simp⟩

theorem Lists.eq_none_iff (h : Lists s f) : f k = none ↔ k ∉ s.map Prod.fst := by
  rw [Option.eq_none_iff_forall_ne_some, Multiset.mem_map, not_exists]
  constructor
  · rintro hnone ⟨k', v⟩ ⟨hmem, rfl⟩
    exact hnone v (h.mem.mp hmem)
  · intro hnone v hv
    exact hnone (k, v) ⟨h.mem.mpr hv, rfl⟩

theorem Lists.exists_keys (h : Lists s f) :
    ∃ live : Finset K, (∀ k, k ∈ live ↔ (f k).isSome) ∧ live.card = s.card := by
  refine ⟨⟨s.map Prod.fst, h.once⟩, fun k => ?_, by simp⟩
  rw [Finset.mem_mk, ← not_iff_not, ← h.eq_none_iff]
  simp

variable [DecidableEq K]

def insertNew (f : K → Option V) (k : K) (v : V) : K → Option V :=
  if f k = none then Function.update f k (some v) else f

theorem Lists.insertNew (h : Lists s f) (hk : k ∉ s.map Prod.fst) (v : V) :
    Lists (s + {(k, v)}) (insertNew f k v) := by
  have hnone := h.eq_none_iff.mpr hk
  rw [PartialMap.insertNew, if_pos hnone]
  refine ⟨?_, fun {k' v'} => ?_⟩
  · rw [Multiset.map_add, Multiset.map_singleton, Multiset.add_comm, Multiset.singleton_add,
      Multiset.nodup_cons]
    exact ⟨hk, h.once⟩
  · rw [Multiset.mem_add, h.mem, Multiset.mem_singleton, Prod.mk.injEq]
    by_cases hkk : k' = k
    · subst hkk
      simp [hnone, eq_comm]
    · simp [hkk]

theorem Lists.insertNew_of_mem (h : Lists s f) (hk : k ∈ s.map Prod.fst) (v : V) :
    PartialMap.insertNew f k v = f := by
  rw [PartialMap.insertNew, if_neg]
  exact fun hnone => h.eq_none_iff.mp hnone hk

theorem Lists.erase (h : Lists (s + {(k, v)}) f) : Lists s (Function.update f k none) := by
  have honce := h.once
  rw [Multiset.map_add, Multiset.map_singleton, Multiset.add_comm, Multiset.singleton_add,
    Multiset.nodup_cons] at honce
  refine ⟨honce.2, fun {k' v'} => ?_⟩
  by_cases hkk : k' = k
  · subst hkk
    rw [Function.update_self]
    constructor
    · exact fun hmem => absurd (Multiset.mem_map_of_mem Prod.fst hmem) honce.1
    · simp
  · rw [Function.update_of_ne hkk, ← h.mem, Multiset.mem_add, Multiset.mem_singleton,
      Prod.mk.injEq]
    simp [hkk]

theorem Lists.erase_of_not_mem (h : Lists s f) (hk : k ∉ s.map Prod.fst) :
    Function.update f k none = f := by
  rw [← h.eq_none_iff.mpr hk, Function.update_eq_self]

end Libromano.Foundation.PartialMap
