/- The layout of the bucket array, read bucket by bucket. -/

import Libromano.Hashmap.Refinement
import Mathlib.Data.Int.ModEq

set_option autoImplicit false
set_option relaxedAutoImplicit false

namespace Libromano.Hashmap

open Libromano.Foundation.RobinHood

/-- What the buckets of a map look like. -/
structure Layout (m : HashMap) : Prop where
  capacity : ∃ k, 1 ≤ k ∧ m.capacity = 2 ^ k ∧ m.maxProbes = k
  length : m.buckets.length = m.capacity
  size : m.size = (m.buckets.filter fun b => !bucketIsEmpty b).length
  vacant : ∃ b ∈ m.buckets, bucketIsEmpty b = true
  distinct : ∀ (s t : ℕ) (b c : Bucket), m.buckets[s]? = some b → m.buckets[t]? = some c →
    bucketIsEmpty b = false → bucketIsEmpty c = false → b.key = c.key → s = t
  hashed : ∀ b ∈ m.buckets, bucketIsEmpty b = false → b.hash = hashmapHash m b.key
  probe : ∀ (s : ℕ) (b : Bucket), m.buckets[s]? = some b → bucketIsEmpty b = false →
    (b.probeLength.toNat : ℤ) = (s - b.hash.toNat % m.capacity) % m.capacity
  behind : ∀ (s : ℕ) (b : Bucket), m.buckets[s]? = some b → bucketIsEmpty b = false → 0 < b.probeLength.toNat →
    ∃ c, m.buckets[(s + (m.capacity - 1)) % m.capacity]? = some c ∧ bucketIsEmpty c = false ∧
      b.probeLength.toNat - 1 ≤ c.probeLength.toNat

variable {m : HashMap} {s : ℕ} {b : Bucket}

private theorem slots_at (hb : m.buckets[s]? = some b)
    (hne : bucketIsEmpty b = false) :
    slots m.buckets s = some (b.entry, b.probeLength.toNat) := by
  obtain ⟨hlt, rfl⟩ := List.getElem?_eq_some_iff.mp hb
  rw [slots, Nat.mod_eq_of_lt hlt, List.getD_eq_getElem _ _ hlt,
    slot_of_not_isEmpty (by simp [hne])]

private theorem probe_eq {n h p s : ℕ} (hp : p < n) (hplaced : (h + p) % n = s % n) :
    (p : ℤ) = (s - h % n) % n := by
  have hcast : ((h : ℤ) + p) ≡ s [ZMOD n] := by exact_mod_cast hplaced
  have hhome : (h : ℤ) % n ≡ h [ZMOD n] := Int.mod_modEq _ _
  have hdiff : (s : ℤ) - h % n ≡ p [ZMOD n] := by
    calc (s : ℤ) - h % n ≡ h + p - h [ZMOD n] := hcast.symm.sub hhome
      _ = p := by ring
  rw [hdiff.eq, Int.emod_eq_of_lt (by omega) (by omega)]

private theorem length_filter_eq_card (buckets : List Bucket) :
    (buckets.filter fun b => !bucketIsEmpty b).length = (entries buckets).card := by
  induction buckets with
  | nil => rfl
  | cons b buckets ih =>
    rw [entries_cons, Multiset.card_add, ← ih, List.filter_cons]
    by_cases hempty : bucketIsEmpty b = true
    · simp [hempty, slot_of_isEmpty]
    · simp [hempty, slot_of_not_isEmpty, Nat.add_comm]

theorem WellFormed.layout (hm : WellFormed m) (hs : Spare m) : Layout m where
  capacity := by
    obtain ⟨k, -, hk⟩ := hs.isCapacity hm.toSound
    refine ⟨k, ?_, hk, by rw [hm.maxProbes, hk, Nat.log2_two_pow]⟩
    have := hs.1
    rcases Nat.eq_zero_or_pos k with rfl | hpos
    · omega
    · exact hpos
  length := hm.length
  size := by rw [length_filter_eq_card, hm.size]
  vacant := exists_isEmpty_of_card_lt (by rw [hm.length]; exact hs.2)
  distinct s t b c hb hc hbe hce hkey := by
    have := slots_once hm.once (slots_at hb hbe) (slots_at hc hce) hkey
    rwa [Nat.mod_eq_of_lt (List.getElem?_eq_some_iff.mp hb).1,
      Nat.mod_eq_of_lt (List.getElem?_eq_some_iff.mp hc).1] at this
  hashed b hb hbe := hm.hashed b.entry (mem_entries.mpr ⟨b, hb, by simp [hbe], rfl⟩)
  probe s b hb hbe := by
    have hstanding := hm.ordered.standing (slots_at hb hbe)
    exact probe_eq hstanding.near hstanding.placed
  behind s b hb hbe hpos := by
    have hcap := hs.isCapacity hm.toSound
    obtain ⟨a, q, ha, hq⟩ := (hm.ordered.standing (slots_at hb hbe)).behind hpos
    obtain ⟨c, hc, hslot⟩ := exists_bucket_at hm.toSound hcap (s + (m.capacity - 1))
    obtain ⟨hne, -, rfl⟩ := slot_eq_some_iff.mp (hslot.symm.trans ha)
    exact ⟨c, hc, by simpa using hne, by omega⟩

/-- Every state that insertions and removals reach has the layout, unless the
initial capacity is `2 ^ 63` or more. -/
theorem runNew_layout (c : UInt64) :
    (∀ hashFunc hashkey ops, (∀ op ∈ ops, op.key ≠ [] ∧ op.isUpdate = false) →
      Yields (runNew c hashFunc hashkey ops) Layout) ↔ c.toNat < 2 ^ 63 := by
  constructor
  · intro h
    by_contra hc
    have hrun := h (fun _ _ => 0) 0 [] (by simp)
    rw [runNew, hashmapNew_wrapped hc, bind_ok] at hrun
    obtain ⟨b, hb, -⟩ := Layout.vacant hrun
    exact absurd hb (by simp [unallocated])
  · intro hc hashFunc hashkey ops hops
    exact (runNew_refines hc hashFunc hashkey hops).mono fun m _ h => h.wellFormed.layout h.spare

/-- Asked for `2 ^ 63` buckets, the map has none. -/
theorem runNew_not_layout :
    ¬ ∀ (c : UInt64) (hashFunc : Key → UInt32 → UInt32) (hashkey : UInt32) (ops : List Op),
      (∀ op ∈ ops, op.key ≠ [] ∧ op.isUpdate = false) →
        Yields (runNew c hashFunc hashkey ops) Layout := by
  intro h
  have hrun : Yields (runNew 9223372036854775808 (fun _ _ => 0) 0 []) Layout :=
    h _ _ _ _ (by simp)
  rw [runNew, hashmapNew_wrapped (by decide), bind_ok] at hrun
  obtain ⟨b, hb, -⟩ := Layout.vacant hrun
  exact absurd hb (by simp [unallocated])

end Libromano.Hashmap
