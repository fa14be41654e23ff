/- The two displacement loops. Both keep the stored entries together with the one in hand; on an
   ordered table both keep the Robin Hood order, as long as the 16-bit probe lengths do not wrap
   around. -/

import Libromano.Hashmap.Table

set_option autoImplicit false
set_option relaxedAutoImplicit false

namespace Libromano.Hashmap

open Libromano.Foundation.RobinHood

/-- The capacities that `calloc` can serve: powers of two with a table below
`2 ^ 64` bytes. -/
def IsCapacity (n : ℕ) : Prop := ∃ k ≤ 58, n = 2 ^ k

theorem IsCapacity.pos {n : ℕ} (hn : IsCapacity n) : 0 < n := by
  obtain ⟨k, -, rfl⟩ := hn
  exact Nat.two_pow_pos k

private theorem indexMask_eq {n : ℕ} (hn : IsCapacity n) : indexMask n = n - 1 := by
  obtain ⟨k, hk, rfl⟩ := hn
  have hlt : 2 ^ k < 2 ^ 64 := Nat.pow_lt_pow_right (by decide) (by omega)
  have hpos := Nat.two_pow_pos k
  rw [indexMask, UInt64.toNat_sub, UInt64.toNat_ofNat_of_lt' hlt]
  simp only [UInt64.toNat_one]
  omega

private theorem and_indexMask {n : ℕ} (hn : IsCapacity n) (x : ℕ) : x &&& indexMask n = x % n := by
  rw [indexMask_eq hn]
  obtain ⟨k, -, rfl⟩ := hn
  exact Nat.and_two_pow_sub_one_eq_mod x k

theorem hashmapIndex_eq {n : ℕ} (hn : IsCapacity n) (hash : UInt32) :
    hashmapIndex n hash = hash.toNat % n := and_indexMask hn _

theorem nextIndex_eq {n : ℕ} (hn : IsCapacity n) (j : ℕ) :
    nextIndex n (j % n) = (j + 1) % n := by
  rw [nextIndex, and_indexMask hn, Nat.mod_add_mod]

theorem toNat_succ {p : UInt16} (h : p.toNat + 1 < 65536) : (p + 1).toNat = p.toNat + 1 := by
  rw [UInt16.toNat_add, UInt16.toNat_one]
  omega

variable {n : ℕ} {buckets : List Bucket} {bucket entry : Bucket} {j : ℕ}

theorem vacant_set (hpos : 0 < buckets.length) {d : ℕ} (hj : slots buckets j ≠ none)
    (hd : slots buckets (j + d) = none) (new : Bucket) :
    slots (buckets.set (j % buckets.length) new) (j + d) = none := by
  rw [slots_set hpos, put_other, hd]
  intro h
  exact hj ((slots_periodic h).symm.trans hd)

theorem vacant_distance_pos {d : ℕ} (hj : slots buckets j ≠ none)
    (hd : slots buckets (j + d) = none) : ∃ d', d = d' + 1 := by
  cases d with
  | zero => exact absurd hd hj
  | succ d => exact ⟨d, rfl⟩

theorem slots_ne_none (hslot : slots buckets j = bucket.slot)
    (hne : ¬ bucketIsEmpty bucket = true) : slots buckets j ≠ none := by
  rw [hslot, ne_eq, slot_eq_none_iff]
  exact hne

theorem entries_fill (hbucket : buckets[j % n]? = some bucket)
    (hempty : bucketIsEmpty bucket = true) (hentry : ¬ bucketIsEmpty entry = true) :
    entries (buckets.set (j % n) entry) = entries buckets + {entry.entry} := by
  have h := entries_set hbucket entry
  rwa [slot_of_isEmpty hempty, slot_of_not_isEmpty hentry, single_none, single_some,
    add_zero] at h

theorem entries_swap (hbucket : buckets[j % n]? = some bucket)
    (hne : ¬ bucketIsEmpty bucket = true) (hentry : ¬ bucketIsEmpty entry = true) :
    entries (buckets.set (j % n) entry) + {bucket.entry} = entries buckets + {entry.entry} := by
  have h := entries_set hbucket entry
  rwa [slot_of_not_isEmpty hne, slot_of_not_isEmpty hentry, single_some, single_some] at h

/-- The loop of `hashmap_move_entry` ends at a vacant slot and has then stored
one entry more, whatever the order of the table. -/
theorem moveLoop_entries (hn : IsCapacity n) (fuel : ℕ) (entry : Bucket) {d : ℕ}
    (hlen : buckets.length = n) (hentry : ¬ bucketIsEmpty entry = true)
    (hd : slots buckets (j + d) = none) (hfuel : d < fuel) :
    ∃ buckets', moveLoop n fuel buckets entry (j % n) = .ok buckets' ∧ buckets'.length = n ∧
      entries buckets' = entries buckets + {entry.entry} := by
  induction fuel generalizing buckets entry j d with
  | zero => omega
  | succ fuel ih =>
    subst hlen
    obtain ⟨bucket, hbucket, hslot⟩ := exists_bucket hn.pos j
    simp only [moveLoop, hbucket, nextIndex_eq hn]
    by_cases hempty : bucketIsEmpty bucket = true
    · rw [if_pos hempty]
      exact ⟨_, rfl, by simp, entries_fill hbucket hempty hentry⟩
    rw [if_neg hempty]
    have hj := slots_ne_none hslot hempty
    obtain ⟨d, rfl⟩ := vacant_distance_pos hj hd
    split_ifs with hlt
    · have hvac := vacant_set hn.pos hj hd entry
      rw [show j + (d + 1) = j + 1 + d by omega] at hvac
      obtain ⟨buckets', hrun, hlen', hent⟩ := ih
        (bucketSetProbeLength bucket (bucket.probeLength + 1)) (by simp) hempty
        hvac (by omega)
      rw [entry_setProbeLength, entries_swap hbucket hempty hentry] at hent
      exact ⟨buckets', hrun, hlen', hent⟩
    · rw [show j + (d + 1) = j + 1 + d by omega] at hd
      exact ih (bucketSetProbeLength entry (entry.probeLength + 1)) rfl hentry hd (by omega)

/-- All probe lengths of the table are below `limit`. -/
def ProbesBelow (limit : ℕ) (buckets : List Bucket) : Prop :=
  ∀ b ∈ buckets, b.probeLength.toNat < limit

theorem ProbesBelow.set {limit i : ℕ} (h : ProbesBelow limit buckets)
    (hentry : entry.probeLength.toNat < limit) : ProbesBelow limit (buckets.set i entry) := by
  intro b hb
  rcases List.mem_or_eq_of_mem_set hb with hb | rfl
  · exact h b hb
  · exact hentry

theorem probesBelow_word (buckets : List Bucket) : ProbesBelow 65536 buckets :=
  fun b _ => b.probeLength.toNat_lt

/-- While the entries of an ordered table `old` are moved into a table whose
size is a multiple of the old one, no probe length outgrows those of `old`. -/
private theorem moved_probe_lt {old : List Bucket} {limit : ℕ} (hshort : ProbesBelow limit old)
    (hold : Ordered old.length homeOf (slots old)) (hdvd : old.length ∣ buckets.length)
    (hord : Ordered buckets.length homeOf (slots buckets)) {a : Entry} {p e : ℕ}
    (hc : Carried buckets.length homeOf (slots buckets) j a p) (he : slots buckets e = none)
    (hmem : ∀ b ∈ entries buckets + {a}, b ∈ entries old)
    (honce : ((entries buckets + {a}).map Entry.key).Nodup) : p < limit := by
  have hsplit : ((entries buckets).map Entry.key).Nodup ∧
      a.key ∉ (entries buckets).map Entry.key := by
    rw [Multiset.map_add, Multiset.map_singleton, add_comm, Multiset.singleton_add,
      Multiset.nodup_cons] at honce
    exact ⟨honce.2, honce.1⟩
  have hplace : ∀ b ∈ entries old, ∃ s r, slots old s = some (b, r) ∧ r < limit := by
    intro b hb
    obtain ⟨s, r, hs⟩ := mem_entries_iff_slots.mp hb
    have hposold : 0 < old.length := by
      have := (hold.standing hs).near
      omega
    obtain ⟨bucket, hbucket, hslot⟩ := exists_bucket hposold s
    obtain ⟨-, -, rfl⟩ := slot_eq_some_iff.mp (hslot.symm.trans hs)
    exact ⟨s, _, hs, hshort bucket (List.mem_of_getElem? hbucket)⟩
  have hle : p ≤ limit - 1 := by
    refine hc.le_of_moved (m := old.length) (slots old) hord he hdvd ?_ ?_ ?_ ?_
    · intro i k b q r hi hk
      exact slots_once hsplit.1 hi hk rfl
    · intro k q hk
      exact hsplit.2 (Multiset.mem_map_of_mem _ (mem_entries_iff_slots.mpr ⟨k, q, hk⟩))
    · exact slots_periodic
    · intro b hb
      have hbold : b ∈ entries old := by
        apply hmem
        rcases hb with rfl | hb
        · simp
        · exact Multiset.mem_add.mpr (Or.inl (mem_entries_iff_slots.mpr hb))
      obtain ⟨s, r, hs, hr⟩ := hplace b hbold
      exact ⟨s, r, hs, by omega, (hold.standing hs).placed⟩
  obtain ⟨-, r, -, hr⟩ := hplace a (hmem a (by simp))
  omega

/-- On an ordered table the loop of `hashmap_move_entry` keeps the order, when
all entries involved come from the ordered table `old`, and makes no probe
length longer than those of `old` are. -/
theorem moveLoop_moved (hn : IsCapacity n) (fuel : ℕ) (entry : Bucket) {d limit : ℕ}
    {buckets' old : List Bucket}
    (hlen : buckets.length = n) (hentry : ¬ bucketIsEmpty entry = true)
    (hd : slots buckets (j + d) = none) (hshort : ProbesBelow limit old)
    (hold : Ordered old.length homeOf (slots old)) (hdvd : old.length ∣ n)
    (hord : Ordered n homeOf (slots buckets))
    (hc : Carried n homeOf (slots buckets) j entry.entry entry.probeLength.toNat)
    (hmem : ∀ b ∈ entries buckets + {entry.entry}, b ∈ entries old)
    (honce : ((entries buckets + {entry.entry}).map Entry.key).Nodup)
    (hrun : moveLoop n fuel buckets entry (j % n) = .ok buckets') :
    Ordered n homeOf (slots buckets') ∧
      (ProbesBelow limit buckets → ProbesBelow limit buckets') := by
  induction fuel generalizing buckets entry j d with
  | zero => simp [moveLoop] at hrun
  | succ fuel ih =>
    subst hlen
    obtain ⟨bucket, hbucket, hslot⟩ := exists_bucket hn.pos j
    have hprobe := moved_probe_lt hshort hold hdvd hord hc hd hmem honce
    simp only [moveLoop, hbucket, nextIndex_eq hn] at hrun
    by_cases hempty : bucketIsEmpty bucket = true
    · rw [if_pos hempty] at hrun
      obtain rfl := Except.ok.inj hrun
      refine ⟨?_, fun hbelow => hbelow.set hprobe⟩
      rw [slots_set hn.pos, slot_of_not_isEmpty hentry]
      apply hord.put hc
      intro b q hb
      simp [hslot, slot_of_isEmpty hempty] at hb
    rw [if_neg hempty] at hrun
    have hj := slots_ne_none hslot hempty
    have hsome : slots buckets j = some (bucket.entry, bucket.probeLength.toNat) :=
      hslot.trans (slot_of_not_isEmpty hempty)
    obtain ⟨d, rfl⟩ := vacant_distance_pos hj hd
    split_ifs at hrun with hlt
    · have hvac := vacant_set hn.pos hj hd entry
      rw [show j + (d + 1) = j + 1 + d by omega] at hvac
      have hlt' : bucket.probeLength.toNat < entry.probeLength.toNat := hlt
      have hent := entries_swap hbucket hempty hentry
      have hset : slots (buckets.set (j % buckets.length) entry) =
          put buckets.length (slots buckets) j
            (some (entry.entry, entry.probeLength.toNat)) := by
        rw [slots_set hn.pos, slot_of_not_isEmpty hentry]
      have hrest := ih (bucketSetProbeLength bucket (bucket.probeLength + 1)) (by simp) hempty
        hvac ?_ ?_ ?_ ?_ hrun
      · exact ⟨hrest.1, fun hbelow => hrest.2 (hbelow.set hprobe)⟩
      · rw [hset]
        apply hord.put hc
        intro b q hb
        rw [hsome] at hb
        obtain ⟨-, rfl⟩ := Prod.mk.inj (Option.some.inj hb)
        exact hlt'.le
      · have hnowrap : (bucket.probeLength + 1).toNat = bucket.probeLength.toNat + 1 :=
          toNat_succ (by have := entry.probeLength.toNat_lt; omega)
        show Carried _ _ _ _ bucket.entry (bucket.probeLength + 1).toNat
        rw [hset, hnowrap]
        exact hc.displaced hord hsome hlt'
      · rw [entry_setProbeLength, hent]
        exact hmem
      · rw [entry_setProbeLength, hent]
        exact honce
    · have hpass := hc.passed hord hsome (Nat.le_of_not_lt hlt) hd
      have hbound := moved_probe_lt (probesBelow_word old) hold hdvd hord hpass hd hmem honce
      have hnowrap : (entry.probeLength + 1).toNat = entry.probeLength.toNat + 1 :=
        toNat_succ hbound
      rw [show j + (d + 1) = j + 1 + d by omega] at hd
      refine ih (bucketSetProbeLength entry (entry.probeLength + 1)) rfl hentry hd hord
        ?_ hmem honce hrun
      show Carried _ _ _ _ entry.entry (entry.probeLength + 1).toNat
      rw [hnowrap]
      exact hpass

end Libromano.Hashmap
