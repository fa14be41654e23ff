/- Removal. The backward shift moves a hole along the ring; each of its steps lowers the sum of
   the probe lengths, so it ends on every table, and where it ends the order is restored. -/

import Libromano.Hashmap.Lookup

set_option autoImplicit false
set_option relaxedAutoImplicit false

namespace Libromano.Hashmap

open Libromano.Foundation.RobinHood

variable {n : ℕ} {buckets : List Bucket} {j : ℕ}

def probeSum (buckets : List Bucket) : ℕ := (buckets.map fun b => b.probeLength.toNat).sum

private theorem probeSum_set {i : ℕ} {old : Bucket} (h : buckets[i]? = some old) (new : Bucket) :
    probeSum (buckets.set i new) + old.probeLength.toNat =
      probeSum buckets + new.probeLength.toNat := by
  induction buckets generalizing i with
  | nil => simp at h
  | cons bucket buckets ih =>
    cases i with
    | zero =>
      obtain rfl : bucket = old := by simpa using h
      simp only [probeSum, List.set_cons_zero, List.map_cons, List.sum_cons]
      omega
    | succ i =>
      have := ih (by simpa using h)
      simp only [probeSum, List.set_cons_succ, List.map_cons, List.sum_cons] at this ⊢
      omega

private theorem probeSum_le (buckets : List Bucket) :
    probeSum buckets ≤ 65535 * buckets.length := by
  induction buckets with
  | nil => simp [probeSum]
  | cons bucket buckets ih =>
    have := bucket.probeLength.toNat_lt
    simp only [probeSum, List.map_cons, List.sum_cons, List.length_cons] at ih ⊢
    omega

/-- The table with the bucket at position `j` emptied. -/
abbrev holeAt (buckets : List Bucket) (j : ℕ) : List Bucket :=
  buckets.set (j % buckets.length) bucketSetEmpty

private theorem slots_holeAt (hpos : 0 < buckets.length) :
    slots (holeAt buckets j) = put buckets.length (slots buckets) j none := by
  rw [slots_set hpos, slot_setEmpty]

/-- One step of the shift, seen on the table whose hole is at `j`: the bucket
after the hole is moved into it, and leaves a hole. -/
private theorem holeAt_shift (hpos : 0 < buckets.length) {shifted : Bucket}
    (hhole : slots buckets j = none)
    (hnext : buckets[(j + 1) % buckets.length]? = some shifted)
    (hne : ¬ bucketIsEmpty shifted = true) (p : UInt16) :
    let moved := buckets.set (j % buckets.length) (bucketSetProbeLength shifted p)
    entries (holeAt moved (j + 1)) = entries buckets ∧
      probeSum (holeAt moved (j + 1)) + shifted.probeLength.toNat ≤ probeSum buckets + p.toNat ∧
      slots (holeAt moved (j + 1)) = put buckets.length
        (put buckets.length (slots buckets) j (some (shifted.entry, p.toNat))) (j + 1) none := by
  intro moved
  have hlen : moved.length = buckets.length := List.length_set
  obtain ⟨bucket, hbucket, hslot⟩ := exists_bucket hpos j
  have hempty : bucketIsEmpty bucket = true :=
    slot_eq_none_iff.mp (hslot.symm.trans hhole)
  have hindex : j % buckets.length ≠ (j + 1) % buckets.length := by
    intro h
    rw [← h, hbucket] at hnext
    exact hne (Option.some.inj hnext ▸ hempty)
  have hmoved : moved[(j + 1) % moved.length]? = some shifted := by
    rw [hlen, List.getElem?_set_ne hindex, hnext]
  refine ⟨?_, ?_, ?_⟩
  · have hfill : entries moved = entries buckets + {shifted.entry} :=
      entries_fill hbucket hempty hne
    have htake := entries_set hmoved bucketSetEmpty
    rw [slot_of_not_isEmpty hne, single_some, slot_setEmpty, single_none, add_zero, hfill] at htake
    exact add_right_cancel htake
  · have hfill : probeSum moved + bucket.probeLength.toNat = probeSum buckets + p.toNat :=
      probeSum_set hbucket (bucketSetProbeLength shifted p)
    have htake : probeSum (holeAt moved (j + 1)) + shifted.probeLength.toNat = probeSum moved :=
      probeSum_set hmoved bucketSetEmpty
    omega
  · rw [slots_holeAt (by rw [hlen]; exact hpos), hlen, slots_set hpos,
      slot_of_not_isEmpty (by simpa using hne)]
    rfl

private theorem shiftLoop_returns (hn : IsCapacity n) (fuel : ℕ) (hlen : buckets.length = n)
    (hfuel : probeSum (holeAt buckets j) < fuel) :
    ∃ buckets', shiftLoop n fuel buckets (j % n) = .ok buckets' ∧ buckets'.length = n ∧
      entries buckets' = entries (holeAt buckets j) ∧
      (Shifting n homeOf (slots (holeAt buckets j)) j → Ordered n homeOf (slots buckets')) := by
  induction fuel generalizing buckets j with
  | zero => omega
  | succ fuel ih =>
    subst hlen
    have hlen' : (holeAt buckets j).length = buckets.length := List.length_set
    obtain ⟨shifted, hnext, hslot⟩ :=
      exists_bucket (show 0 < (holeAt buckets j).length by rw [hlen']; exact hn.pos) (j + 1)
    rw [hlen'] at hnext
    simp only [shiftLoop, nextIndex_eq hn, hnext]
    by_cases hstop : (bucketIsEmpty shifted || shifted.probeLength == 0) = true
    · rw [if_pos hstop]
      refine ⟨_, rfl, hlen', rfl, fun h => h.finish fun a p ha => ?_⟩
      obtain ⟨hne, -, rfl⟩ := slot_eq_some_iff.mp (hslot.symm.trans ha)
      rw [Bool.or_eq_true, or_iff_right hne, beq_iff_eq] at hstop
      rw [hstop]
      rfl
    rw [if_neg hstop]
    simp only [Bool.or_eq_true, beq_iff_eq, not_or] at hstop
    obtain ⟨hne, hprobe⟩ := hstop
    have hpos : 0 < shifted.probeLength.toNat := by
      rcases Nat.eq_zero_or_pos shifted.probeLength.toNat with h0 | hpos
      · exact absurd (UInt16.toNat_inj.mp h0) hprobe
      · exact hpos
    have hpred : (shifted.probeLength - 1).toNat = shifted.probeLength.toNat - 1 :=
      UInt16.toNat_sub_of_le _ _ (by
        rw [UInt16.le_iff_toNat_le]
        exact hpos)
    have hhole : slots (holeAt buckets j) j = none := by
      rw [slots_holeAt hn.pos, put_same _ rfl]
    have hpos' : 0 < (holeAt buckets j).length := hlen' ▸ hn.pos
    have hshift := holeAt_shift hpos' hhole (by rw [hlen']; exact hnext) hne (shifted.probeLength - 1)
    simp only [hlen'] at hshift
    obtain ⟨hent, hsum, hslots⟩ := hshift
    let moved := (holeAt buckets j).set (j % buckets.length)
      (bucketSetProbeLength shifted (shifted.probeLength - 1))
    have hmoved : moved.length = buckets.length := by simp [moved]
    have hless : probeSum (holeAt moved (j + 1)) < fuel := by
      show probeSum (holeAt ((holeAt buckets j).set _ _) (j + 1)) < fuel
      omega
    obtain ⟨buckets', hrun, hlen'', hent', hord⟩ := ih (j := j + 1) hmoved hless
    refine ⟨buckets', hrun, hlen'', hent'.trans hent, fun h => hord ?_⟩
    rw [hslots, hpred]
    exact h.step (hslot.trans (slot_of_not_isEmpty hne)) hpos

/-- What a removal of `key` makes of `m`. -/
structure Removed (m : HashMap) (key : Key) (m' : HashMap) : Prop where
  sameHash : m'.hashFunc = m.hashFunc ∧ m'.hashkey = m.hashkey
  sound : Sound m'
  sameCapacity : m'.capacity = m.capacity
  card_le : (entries m'.buckets).card ≤ (entries m.buckets).card
  stored : ∀ a, WellFormed m → a ∈ entries m.buckets → a.key = key →
    WellFormed m' ∧ entries m'.buckets + {a} = entries m.buckets
  absent : ¬ Stores m key → m' = m

private theorem removed_at {m : HashMap} (hm : Sound m) (hcap : IsCapacity m.capacity)
    {bucket : Bucket} (hbucket : m.buckets[j % m.capacity]? = some bucket)
    (hne : ¬ bucketIsEmpty bucket = true) :
    ∃ buckets', shiftLoop m.capacity (probeLengths * m.capacity + 1) m.buckets (j % m.capacity) =
        .ok buckets' ∧ Removed m bucket.key { m with buckets := buckets', size := m.size - 1 } := by
  have hlen := hm.length
  have hpos : 0 < m.buckets.length := hlen ▸ hcap.pos
  have hsum : probeSum (holeAt m.buckets j) < probeLengths * m.capacity + 1 := by
    have := probeSum_le (holeAt m.buckets j)
    rw [List.length_set, hlen] at this
    rw [probeLengths]
    omega
  obtain ⟨buckets', hrun, hlen', hent, hord⟩ := shiftLoop_returns hcap _ hlen hsum
  have hshared : entries buckets' + {bucket.entry} = entries m.buckets := by
    have := entries_set (hlen ▸ hbucket) bucketSetEmpty
    rwa [slot_of_not_isEmpty hne, single_some, slot_setEmpty, single_none, add_zero,
      ← hent] at this
  have hcard : (entries buckets').card + 1 = (entries m.buckets).card := by
    rw [← hshared, Multiset.card_add, Multiset.card_singleton]
  have hsound : Sound { m with buckets := buckets', size := m.size - 1 } :=
    ⟨hlen', hm.capacity, hm.maxProbes, by
      show m.size - 1 = (entries buckets').card
      rw [hm.size]
      omega⟩
  have hmem : bucket.entry ∈ entries m.buckets := by
    rw [← hshared]
    simp
  refine ⟨buckets', hrun, ⟨rfl, rfl⟩, hsound, rfl, Nat.le_of_succ_le hcard.le, ?_, ?_⟩
  · intro a hwf ha hkey
    obtain ⟨i, p, hi⟩ := mem_entries_iff_slots.mp ha
    obtain ⟨b, hb, hslot⟩ := exists_bucket_at hm hcap j
    obtain rfl : bucket = b := Option.some.inj (hbucket.symm.trans hb)
    have hj := hslot.trans (slot_of_not_isEmpty hne)
    have hij := slots_once hwf.once hi hj hkey
    rw [slots_periodic hij, hj] at hi
    obtain ⟨rfl, rfl⟩ := Prod.mk.inj (Option.some.inj hi)
    have hle : entries buckets' ≤ entries m.buckets := hshared ▸ Multiset.le_add_right _ _
    refine ⟨⟨hsound, fun c hc => hwf.hashed c (Multiset.mem_of_le hle hc),
      Multiset.nodup_of_le (Multiset.map_le_map hle) hwf.once, hord ?_⟩, hshared⟩
    rw [slots_holeAt hpos, hlen]
    exact hwf.ordered.take hj
  · intro hnew
    exact absurd (Stores.of_mem hmem) hnew

theorem Removed.of_absent {m : HashMap} {key : Key} (hm : Sound m) (hnew : ¬ Stores m key) :
    Removed m key m :=
  ⟨⟨rfl, rfl⟩, hm, rfl, le_rfl, fun _ _ ha hkey => absurd (Stores.of_mem ha) (hkey ▸ hnew),
    fun _ => rfl⟩

theorem hashmapRemove_stored {m : HashMap} (hm : WellFormed m) {a : Entry}
    (ha : a ∈ entries m.buckets) :
    ∃ m', hashmapRemove m a.key = .ok m' ∧ Removed m a.key m' := by
  have hcap := WellFormed.isCapacity_of_stores hm.toSound (Stores.of_mem ha)
  obtain ⟨p, hp⟩ := exists_place (by rw [hm.length]; exact hm.ordered) ha
  obtain ⟨bucket, hbucket, hreached⟩ := hm.reached hcap hp
  have hlt := hreached.probe_lt
  obtain ⟨buckets', hshift, hremoved⟩ := removed_at hm.toSound hcap hbucket hreached.nonempty
  have hsearch := removeLoop_stored hm hcap hp (i := 0) (probeLengths + 1) (Nat.zero_le p)
    (by rw [probeLengths]; omega)
  rw [add_zero, hm.hashed a ha, show homeOf a = (hashmapHash m a.key).toNat by
    rw [homeOf, hm.hashed a ha]] at hsearch
  rw [show homeOf a = (hashmapHash m a.key).toNat by rw [homeOf, hm.hashed a ha]] at hshift
  have hkey : bucket.key = a.key := by rw [← hreached.entry]; rfl
  rw [hkey] at hremoved
  refine ⟨_, ?_, hremoved⟩
  simp only [hashmapRemove, hashmapIndex_eq hcap, hsearch, bind_ok, hshift]

/-- `hashmap_remove` on any map with buckets: in a table out of order the key
may be missed, but what goes is one entry at most. -/
theorem hashmapRemove_returns {m : HashMap} (hm : Sound m) (hcap : IsCapacity m.capacity)
    (key : Key) :
    ∃ m', hashmapRemove m key = .ok m' ∧ (m' = m ∨ Removed m key m') := by
  have hsearch := removeLoop_returns hm hcap key (hashmapHash m key)
    (j := (hashmapHash m key).toNat) (i := 0) (probeLengths + 1) (by omega) (by rw [probeLengths]; omega)
  simp only [hashmapRemove, hashmapIndex_eq hcap]
  rcases hsearch with hnone | ⟨k, bucket, hsome, hbucket, hne, rfl⟩
  · exact ⟨m, by simp [hnone], Or.inl rfl⟩
  · obtain ⟨buckets', hshift, hremoved⟩ := removed_at hm hcap hbucket hne
    exact ⟨_, by simp [hsome, hshift], Or.inr hremoved⟩

theorem hashmapRemove_zero {m : HashMap} (hm : Sound m) (h0 : m.capacity = 0) (key : Key) :
    hashmapRemove m key = .error .outOfBounds := by
  have hnil : m.buckets = [] := List.eq_nil_of_length_eq_zero (hm.length.trans h0)
  simp [hashmapRemove, removeLoop, hnil]

end Libromano.Hashmap
