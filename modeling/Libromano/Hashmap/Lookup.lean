/- The walks that look for a key. On a well-formed map the probe lengths on the way to a stored
   key never fall below the length of the walk, so `hashmap_get` and `hashmap_remove` do not stop
   too early. On any map they stop, since 16-bit probe lengths cannot keep up with the count of
   probes. -/

import Libromano.Hashmap.Grow

set_option autoImplicit false
set_option relaxedAutoImplicit false

namespace Libromano.Hashmap

open Libromano.Foundation.RobinHood

def Stores (m : HashMap) (key : Key) : Prop := key ∈ (entries m.buckets).map Entry.key

theorem Stores.of_mem {m : HashMap} {a : Entry} (ha : a ∈ entries m.buckets) : Stores m a.key :=
  Multiset.mem_map_of_mem _ ha

variable {m : HashMap} {key : Key} {hash : UInt32}

theorem exists_bucket_at (hm : Sound m) (hcap : IsCapacity m.capacity) (j : ℕ) :
    ∃ bucket, m.buckets[j % m.capacity]? = some bucket ∧ slots m.buckets j = bucket.slot := by
  have := exists_bucket (show 0 < m.buckets.length by rw [hm.length]; exact hcap.pos) j
  rwa [hm.length] at this

structure Passed (key : Key) (hash : UInt32) (i : ℕ) (bucket : Bucket) : Prop where
  nonempty : ¬ bucketIsEmpty bucket = true
  other : ¬ bucketCompareKey bucket key hash = true
  far : ¬ bucket.probeLength.toNat < i

structure Reached (a : Entry) (p : ℕ) (bucket : Bucket) : Prop where
  nonempty : ¬ bucketIsEmpty bucket = true
  same : bucketCompareKey bucket a.key a.hash = true
  entry : bucket.entry = a
  probe : bucket.probeLength.toNat = p

theorem WellFormed.passed (hm : WellFormed m) (hcap : IsCapacity m.capacity) {a : Entry} {p i : ℕ}
    (hp : slots m.buckets (homeOf a + p) = some (a, p)) (hi : i < p) :
    ∃ bucket, m.buckets[(homeOf a + i) % m.capacity]? = some bucket ∧
      Passed a.key a.hash i bucket := by
  obtain ⟨bucket, hbucket, hslot⟩ := exists_bucket_at hm.toSound hcap (homeOf a + i)
  obtain ⟨b, q, hb, hq, hother⟩ :=
    path_to_key (by rw [hm.length]; exact hm.ordered) hm.once hp hi
  obtain ⟨hne, rfl, rfl⟩ := slot_eq_some_iff.mp (hslot.symm.trans hb)
  refine ⟨bucket, hbucket, hne, fun h => hother (compareKey_iff.mp h).2, by omega⟩

theorem Sound.reached (hm : Sound m) (hcap : IsCapacity m.capacity) {a : Entry} {p : ℕ}
    (hp : slots m.buckets (homeOf a + p) = some (a, p)) :
    ∃ bucket, m.buckets[(homeOf a + p) % m.capacity]? = some bucket ∧ Reached a p bucket := by
  obtain ⟨bucket, hbucket, hslot⟩ := exists_bucket_at hm hcap (homeOf a + p)
  obtain ⟨hne, rfl, rfl⟩ := slot_eq_some_iff.mp (hslot.symm.trans hp)
  exact ⟨bucket, hbucket, hne, compareKey_iff.mpr ⟨rfl, rfl⟩, rfl, rfl⟩

theorem Reached.probe_lt {a : Entry} {p : ℕ} {bucket : Bucket} (h : Reached a p bucket) :
    p < 65536 := by
  have := bucket.probeLength.toNat_lt
  have := h.probe
  omega

theorem not_compareKey (hkey : key ≠ []) (hnew : ¬ Stores m key) {i : ℕ} {bucket : Bucket}
    (hbucket : m.buckets[i]? = some bucket) : ¬ bucketCompareKey bucket key hash = true := by
  intro hfound
  obtain ⟨-, rfl⟩ := compareKey_iff.mp hfound
  exact hnew (Stores.of_mem (a := bucket.entry) (mem_entries.mpr
    ⟨bucket, List.mem_of_getElem? hbucket, mt isEmpty_iff.mp hkey, rfl⟩))

theorem WellFormed.isCapacity_of_stores (hm : Sound m) (h : Stores m key) :
    IsCapacity m.capacity := by
  rcases hm.capacity with h0 | hcap
  · have hnone := hm.card_le
    rw [h0, Nat.le_zero, Multiset.card_eq_zero] at hnone
    rw [Stores, hnone] at h
    simp at h
  · exact hcap

private theorem getLoop_stored (hm : WellFormed m) (hcap : IsCapacity m.capacity) {a : Entry}
    {p : ℕ} (hp : slots m.buckets (homeOf a + p) = some (a, p)) (fuel : ℕ) {i : ℕ} (hi : i ≤ p)
    (hfuel : p < fuel + i) :
    getLoop m.capacity m.buckets a.key a.hash fuel ((homeOf a + i) % m.capacity) i =
      .ok (some a.value) := by
  induction fuel generalizing i with
  | zero => omega
  | succ fuel ih =>
    rw [getLoop, nextIndex_eq hcap]
    rcases Nat.eq_or_lt_of_le hi with rfl | hi
    · obtain ⟨bucket, hbucket, h⟩ := hm.reached hcap hp
      simp only [hbucket, h.same, if_true]
      rw [← h.entry]
      rfl
    · obtain ⟨bucket, hbucket, h⟩ := hm.passed hcap hp hi
      simp only [hbucket, h.other, h.nonempty, h.far]
      exact ih (i := i + 1) hi (by omega)

theorem hashmapGet_stored (hm : WellFormed m) {a : Entry} (ha : a ∈ entries m.buckets) :
    hashmapGet m a.key = .ok (some a.value) := by
  have hcap := WellFormed.isCapacity_of_stores hm.toSound (Stores.of_mem ha)
  obtain ⟨p, hp⟩ := exists_place (by rw [hm.length]; exact hm.ordered) ha
  obtain ⟨bucket, -, hreached⟩ := hm.reached hcap hp
  have := hreached.probe_lt
  rw [hashmapGet, ← hm.hashed a ha, hashmapIndex_eq hcap]
  exact getLoop_stored hm hcap hp (i := 0) _ (Nat.zero_le p) (by rw [probeLengths]; omega)

private theorem getLoop_absent (hm : Sound m) (hcap : IsCapacity m.capacity) (hkey : key ≠ [])
    (hnew : ¬ Stores m key) (fuel : ℕ) {i j : ℕ} (hi : i ≤ 65536) (hfuel : 65536 < fuel + i) :
    getLoop m.capacity m.buckets key hash fuel (j % m.capacity) i = .ok none := by
  induction fuel generalizing i j with
  | zero => omega
  | succ fuel ih =>
    obtain ⟨bucket, hbucket, -⟩ := exists_bucket_at hm hcap j
    rw [getLoop, nextIndex_eq hcap]
    simp only [hbucket, not_compareKey hkey hnew hbucket]
    by_cases hstop : (bucketIsEmpty bucket || decide (bucket.probeLength.toNat < i)) = true
    · simp [hstop]
    · have hnear : ¬ bucket.probeLength.toNat < i := by
        intro h
        exact hstop (by simp [h])
      have := bucket.probeLength.toNat_lt
      rw [if_neg hstop]
      exact ih (by omega) (by omega)

theorem hashmapGet_absent (hm : Sound m) (hcap : IsCapacity m.capacity) (hkey : key ≠ [])
    (hnew : ¬ Stores m key) : hashmapGet m key = .ok none := by
  rw [hashmapGet, hashmapIndex_eq hcap]
  exact getLoop_absent hm hcap hkey hnew _ (by omega) (by rw [probeLengths]; omega)

theorem removeLoop_stored (hm : WellFormed m) (hcap : IsCapacity m.capacity) {a : Entry}
    {p : ℕ} (hp : slots m.buckets (homeOf a + p) = some (a, p)) (fuel : ℕ) {i : ℕ} (hi : i ≤ p)
    (hfuel : p < fuel + i) :
    removeLoop m.capacity m.buckets a.key a.hash fuel ((homeOf a + i) % m.capacity) i =
      .ok (some ((homeOf a + p) % m.capacity)) := by
  induction fuel generalizing i with
  | zero => omega
  | succ fuel ih =>
    rw [removeLoop, nextIndex_eq hcap]
    rcases Nat.eq_or_lt_of_le hi with rfl | hi
    · obtain ⟨bucket, hbucket, h⟩ := hm.reached hcap hp
      simp [hbucket, h.same, h.nonempty, h.probe]
    · obtain ⟨bucket, hbucket, h⟩ := hm.passed hcap hp hi
      simp only [hbucket, h.other, h.nonempty, h.far]
      exact ih (i := i + 1) hi (by omega)

theorem removeLoop_returns (hm : Sound m) (hcap : IsCapacity m.capacity) (key : Key)
    (hash : UInt32) (fuel : ℕ) {i j : ℕ}
    (hi : i ≤ 65536) (hfuel : 65536 < fuel + i) :
    removeLoop m.capacity m.buckets key hash fuel (j % m.capacity) i = .ok none ∨
      ∃ k bucket, removeLoop m.capacity m.buckets key hash fuel (j % m.capacity) i =
        .ok (some (k % m.capacity)) ∧ m.buckets[k % m.capacity]? = some bucket ∧
        ¬ bucketIsEmpty bucket = true ∧ bucket.key = key := by
  induction fuel generalizing i j with
  | zero => omega
  | succ fuel ih =>
    obtain ⟨bucket, hbucket, -⟩ := exists_bucket_at hm hcap j
    rw [removeLoop, nextIndex_eq hcap]
    simp only [hbucket]
    by_cases hstop : (bucketIsEmpty bucket || decide (bucket.probeLength.toNat < i)) = true
    · simp [hstop]
    rw [if_neg hstop]
    simp only [Bool.or_eq_true, decide_eq_true_eq, not_or] at hstop
    by_cases hfound : bucketCompareKey bucket key hash = true
    · rw [if_pos hfound]
      exact Or.inr ⟨j, bucket, rfl, hbucket, hstop.1, (compareKey_iff.mp hfound).2⟩
    · have := bucket.probeLength.toNat_lt
      rw [if_neg hfound]
      exact ih (by omega) (by omega)

end Libromano.Hashmap
