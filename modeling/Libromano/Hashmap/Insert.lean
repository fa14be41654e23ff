/- The probe loop of an insertion. It ends at the latest at a vacant slot, and between the table
   and the entry in hand nothing is lost. On an ordered table it never takes a displaced entry for
   the key that it inserts, and for a key that is stored it reaches that key's bucket without
   displacing any entry. -/

import Libromano.Hashmap.Walk

set_option autoImplicit false
set_option relaxedAutoImplicit false

namespace Libromano.Hashmap

open Libromano.Foundation.RobinHood

variable {n maxProbes : ℕ} {buckets : List Bucket} {bucket entry : Bucket} {j : ℕ}
  {sought : Bucket → Key} {hash : UInt32}

/-- The table, and the entry in hand where there is one left, hold `total`. -/
def Inserting.Kept (n : ℕ) (total : Multiset Entry) : Inserting → Prop
  | .present buckets => buckets.length = n ∧ ∃ a, entries buckets + {a} = total
  | .placed buckets => buckets.length = n ∧ entries buckets = total
  | .tooFar buckets entry => buckets.length = n ∧ ¬ bucketIsEmpty entry = true ∧
      entries buckets + {entry.entry} = total

theorem insertLoop_kept (maxProbes : ℕ) (sought : Bucket → Key) (hash : UInt32)
    (hn : IsCapacity n) (fuel : ℕ) (entry : Bucket) {d : ℕ} (hlen : buckets.length = n)
    (hentry : ¬ bucketIsEmpty entry = true) (hd : slots buckets (j + d) = none)
    (hfuel : d < fuel) :
    ∃ r, insertLoop n maxProbes sought hash fuel buckets entry (j % n) = .ok r ∧
      r.Kept n (entries buckets + {entry.entry}) := by
  induction fuel generalizing buckets entry j d with
  | zero => omega
  | succ fuel ih =>
    subst hlen
    obtain ⟨bucket, hbucket, hslot⟩ := exists_bucket hn.pos j
    simp only [insertLoop, hbucket, nextIndex_eq hn]
    by_cases hempty : bucketIsEmpty bucket = true
    · rw [if_pos hempty]
      exact ⟨_, rfl, by simp, entries_fill hbucket hempty hentry⟩
    rw [if_neg hempty]
    by_cases hfound : bucketCompareKey bucket (sought entry) hash = true
    · rw [if_pos hfound]
      exact ⟨_, rfl, rfl, entry.entry, rfl⟩
    rw [if_neg hfound]
    have hj := slots_ne_none hslot hempty
    obtain ⟨d, rfl⟩ := vacant_distance_pos hj hd
    by_cases hlt : bucket.probeLength < entry.probeLength
    · simp only [hlt, if_true]
      have hswap := entries_swap hbucket hempty hentry
      split_ifs with hfar
      · exact ⟨_, rfl, by simp, hempty, hswap⟩
      · have hvac := vacant_set hn.pos hj hd entry
        rw [show j + (d + 1) = j + 1 + d by omega] at hvac
        obtain ⟨r, hrun, hkept⟩ := ih
          (bucketSetProbeLength bucket (bucket.probeLength + 1)) (by simp) hempty hvac
          (by omega)
        rw [entry_setProbeLength, hswap] at hkept
        exact ⟨r, hrun, hkept⟩
    · simp only [hlt, if_false]
      split_ifs with hfar
      · exact ⟨_, rfl, rfl, hentry, rfl⟩
      · rw [show j + (d + 1) = j + 1 + d by omega] at hd
        exact ih (bucketSetProbeLength entry (entry.probeLength + 1)) rfl hentry hd
          (by omega)

/-- No bucket that the loop is going to look at holds the key it compares with:
either that is the key of the entry in hand, and all keys are different, or it
stays the same, and it is none of the keys ahead. -/
def Unseen (sought : Bucket → Key) (buckets : List Bucket) (entry : Bucket) (j d : ℕ) : Prop :=
  ((∀ e, sought e = e.key) ∧ ((entries buckets + {entry.entry}).map Entry.key).Nodup) ∨
    ∃ key, (∀ e, sought e = key) ∧ ∀ i ≤ d, ∀ b q, slots buckets (j + i) = some (b, q) →
      b.key ≠ key

private theorem Unseen.here {d : ℕ} (h : Unseen sought buckets entry j d)
    (hsome : slots buckets j = some (bucket.entry, bucket.probeLength.toNat)) :
    ¬ bucketCompareKey bucket (sought entry) hash = true := by
  intro hfound
  have hkey := (compareKey_iff.mp hfound).2
  rcases h with ⟨hown, honce⟩ | ⟨key, hconst, hahead⟩
  · rw [Multiset.map_add, Multiset.map_singleton, add_comm, Multiset.singleton_add,
      Multiset.nodup_cons] at honce
    have hmem := mem_entries_iff_slots.mpr ⟨j, _, hsome⟩
    apply honce.1
    rw [key_entry, ← hown entry, ← hkey]
    exact Multiset.mem_map_of_mem Entry.key hmem
  · rw [hconst entry] at hkey
    exact hahead 0 (Nat.zero_le d) _ _ hsome hkey

private theorem Unseen.swapped {d : ℕ} (hpos : 0 < buckets.length) (hd : d + 1 < buckets.length)
    (h : Unseen sought buckets entry j (d + 1))
    (hbucket : buckets[j % buckets.length]? = some bucket)
    (hempty : ¬ bucketIsEmpty bucket = true) (hentry : ¬ bucketIsEmpty entry = true)
    (p : UInt16) :
    Unseen sought (buckets.set (j % buckets.length) entry) (bucketSetProbeLength bucket p)
      (j + 1) d := by
  rcases h with ⟨hown, honce⟩ | ⟨key, hconst, hahead⟩
  · left
    rw [entry_setProbeLength, entries_swap hbucket hempty hentry]
    exact ⟨hown, honce⟩
  · right
    refine ⟨key, hconst, fun i hi b q hb => ?_⟩
    rw [slots_set hpos, put_other] at hb
    · exact hahead (i + 1) (by omega) b q (by rwa [show j + (i + 1) = j + 1 + i by omega])
    · intro hmod
      rw [show j + 1 + i = j + (i + 1) by omega] at hmod
      have := turn_injective (k := 0) (by omega : i + 1 < buckets.length) hpos hmod
      omega

private theorem Unseen.passed {d : ℕ} (h : Unseen sought buckets entry j (d + 1)) (p : UInt16) :
    Unseen sought buckets (bucketSetProbeLength entry p) (j + 1) d := by
  rcases h with hown | ⟨key, hconst, hahead⟩
  · exact Or.inl hown
  · refine Or.inr ⟨key, hconst, fun i hi b q hb => ?_⟩
    exact hahead (i + 1) (by omega) b q (by rwa [show j + (i + 1) = j + 1 + i by omega])

/-- On an ordered table the loop stores the new entry, or stops with an entry
too far from home; either way the table is ordered again. -/
theorem insertLoop_ordered (hn : IsCapacity n) (hmax : maxProbes ≤ 58) (fuel : ℕ)
    (entry : Bucket) {d : ℕ} {r : Inserting} (hlen : buckets.length = n)
    (hentry : ¬ bucketIsEmpty entry = true)
    (hd : slots buckets (j + d) = none) (hturn : d < n)
    (hord : Ordered n homeOf (slots buckets))
    (hc : Carried n homeOf (slots buckets) j entry.entry entry.probeLength.toNat)
    (hprobe : entry.probeLength.toNat ≤ 58) (hunseen : Unseen sought buckets entry j d)
    (hrun : insertLoop n maxProbes sought hash fuel buckets entry (j % n) = .ok r) :
    ∃ buckets', (r = .placed buckets' ∨ ∃ entry', r = .tooFar buckets' entry') ∧
      Ordered n homeOf (slots buckets') := by
  induction fuel generalizing buckets entry j d with
  | zero => simp [insertLoop] at hrun
  | succ fuel ih =>
    subst hlen
    obtain ⟨bucket, hbucket, hslot⟩ := exists_bucket hn.pos j
    simp only [insertLoop, hbucket, nextIndex_eq hn] at hrun
    by_cases hempty : bucketIsEmpty bucket = true
    · rw [if_pos hempty] at hrun
      obtain rfl := Except.ok.inj hrun
      refine ⟨_, Or.inl rfl, ?_⟩
      rw [slots_set hn.pos, slot_of_not_isEmpty hentry]
      apply hord.put hc
      intro b q hb
      simp [hslot, slot_of_isEmpty hempty] at hb
    have hj := slots_ne_none hslot hempty
    have hsome : slots buckets j = some (bucket.entry, bucket.probeLength.toNat) :=
      hslot.trans (slot_of_not_isEmpty hempty)
    rw [if_neg hempty, if_neg (hunseen.here hsome)] at hrun
    obtain ⟨d, rfl⟩ := vacant_distance_pos hj hd
    by_cases hlt : bucket.probeLength < entry.probeLength
    · simp only [hlt, if_true] at hrun
      have hlt' : bucket.probeLength.toNat < entry.probeLength.toNat := hlt
      have hset : slots (buckets.set (j % buckets.length) entry) =
          put buckets.length (slots buckets) j
            (some (entry.entry, entry.probeLength.toNat)) := by
        rw [slots_set hn.pos, slot_of_not_isEmpty hentry]
      have hord' : Ordered buckets.length homeOf
          (slots (buckets.set (j % buckets.length) entry)) := by
        rw [hset]
        apply hord.put hc
        intro b q hb
        rw [hsome] at hb
        obtain ⟨-, rfl⟩ := Prod.mk.inj (Option.some.inj hb)
        exact hlt'.le
      have hnowrap : (bucket.probeLength + 1).toNat = bucket.probeLength.toNat + 1 :=
        toNat_succ (by omega)
      split_ifs at hrun with hfar
      · obtain rfl := Except.ok.inj hrun
        exact ⟨_, Or.inr ⟨_, rfl⟩, hord'⟩
      · have hvac := vacant_set hn.pos hj hd entry
        rw [show j + (d + 1) = j + 1 + d by omega] at hvac
        refine ih (bucketSetProbeLength bucket (bucket.probeLength + 1)) (by simp) hempty
          hvac (by omega) hord' ?_ ?_
          (hunseen.swapped hn.pos hturn hbucket hempty hentry _) hrun
        · show Carried _ _ _ _ bucket.entry (bucket.probeLength + 1).toNat
          rw [hset, hnowrap]
          exact hc.displaced hord hsome hlt'
        · show (bucket.probeLength + 1).toNat ≤ 58
          omega
    · simp only [hlt, if_false] at hrun
      have hpass := hc.passed hord hsome (Nat.le_of_not_lt hlt) hd
      have hnowrap : (entry.probeLength + 1).toNat = entry.probeLength.toNat + 1 :=
        toNat_succ (by omega)
      split_ifs at hrun with hfar
      · obtain rfl := Except.ok.inj hrun
        exact ⟨_, Or.inr ⟨_, rfl⟩, hord⟩
      · rw [show j + (d + 1) = j + 1 + d by omega] at hd
        refine ih (bucketSetProbeLength entry (entry.probeLength + 1)) rfl hentry hd
          (by omega) hord ?_ ?_ (hunseen.passed _) hrun
        · show Carried _ _ _ _ entry.entry (entry.probeLength + 1).toNat
          rw [hnowrap]
          exact hpass
        · show (entry.probeLength + 1).toNat ≤ 58
          have hle : ¬ maxProbes ≤ (entry.probeLength + 1).toNat := hfar
          omega

/-- Between its home and its own slot a stored key is preceded by other keys,
none of them nearer to home than the walk is long. -/
theorem path_to_key (hord : Ordered buckets.length homeOf (slots buckets))
    (honce : ((entries buckets).map Entry.key).Nodup) {a : Entry} {p : ℕ}
    (ha : slots buckets (homeOf a + p) = some (a, p)) {i : ℕ} (hi : i < p) :
    ∃ b q, slots buckets (homeOf a + i) = some (b, q) ∧ i ≤ q ∧ b.key ≠ a.key := by
  obtain ⟨b, q, hb, hq⟩ := hord.back (p - i) (j := homeOf a + i)
    (by rw [show homeOf a + i + (p - i) = homeOf a + p by omega, ha]) (by omega)
  refine ⟨b, q, hb, by omega, fun hkey => ?_⟩
  have hnear := (hord.standing ha).near
  have := turn_injective (by omega) hnear (slots_once honce hb ha hkey)
  omega

theorem exists_place (hord : Ordered buckets.length homeOf (slots buckets)) {a : Entry}
    (ha : a ∈ entries buckets) : ∃ p, slots buckets (homeOf a + p) = some (a, p) := by
  obtain ⟨k, p, hk⟩ := mem_entries_iff_slots.mp ha
  exact ⟨p, (slots_periodic (hord.standing hk).placed).trans hk⟩

/-- Inserting a stored key writes nothing: the loop comes to its bucket or
gives up on the way, with the new entry still in hand. -/
theorem insertLoop_stored (hn : IsCapacity n) (hmax : maxProbes ≤ 58) (fuel : ℕ)
    (entry : Bucket)
    (hlen : buckets.length = n) (hord : Ordered n homeOf (slots buckets))
    (honce : ((entries buckets).map Entry.key).Nodup) {a : Entry} {p i : ℕ}
    (ha : slots buckets (homeOf a + p) = some (a, p)) (hi : i ≤ p) (hi58 : i ≤ 58)
    (hprobe : entry.probeLength.toNat = i) (hkey : entry.key = a.key) (hhash : a.hash = hash)
    (hsought : ∀ e : Bucket, e.key = a.key → sought e = a.key) (hfuel : p < fuel + i) :
    insertLoop n maxProbes sought hash fuel buckets entry ((homeOf a + i) % n) =
        .ok (.present buckets) ∨
      ∃ entry', entry'.entry = entry.entry ∧
        insertLoop n maxProbes sought hash fuel buckets entry ((homeOf a + i) % n) =
          .ok (.tooFar buckets entry') := by
  induction fuel generalizing entry i with
  | zero => omega
  | succ fuel ih =>
    subst hlen
    obtain ⟨bucket, hbucket, hslot⟩ := exists_bucket hn.pos (homeOf a + i)
    simp only [insertLoop, hbucket, nextIndex_eq hn, hsought entry hkey]
    rcases Nat.eq_or_lt_of_le hi with rfl | hi
    · obtain ⟨hne, hentry, -⟩ := slot_eq_some_iff.mp (hslot.symm.trans ha)
      have hfound : bucketCompareKey bucket a.key hash = true := by
        rw [compareKey_iff, ← hentry]
        exact ⟨by rw [← hhash, ← hentry]; rfl, rfl⟩
      rw [if_neg hne, if_pos hfound]
      exact Or.inl rfl
    · obtain ⟨b, q, hb, hq, hother⟩ := path_to_key hord honce ha hi
      obtain ⟨hne, hentry, hprobe'⟩ := slot_eq_some_iff.mp (hslot.symm.trans hb)
      have hnot : ¬ bucketCompareKey bucket a.key hash = true := by
        rw [compareKey_iff]
        rintro ⟨-, h⟩
        exact hother (by rw [← hentry, key_entry, h])
      have hstay : ¬ bucket.probeLength < entry.probeLength := by
        show ¬ bucket.probeLength.toNat < entry.probeLength.toNat
        omega
      have hnowrap : (entry.probeLength + 1).toNat = i + 1 := by
        rw [toNat_succ (by omega), hprobe]
      rw [if_neg hne, if_neg hnot]
      simp only [hstay, if_false]
      split_ifs with hfar
      · exact Or.inr ⟨_, entry_setProbeLength entry _, rfl⟩
      · have hle : ¬ maxProbes ≤ (entry.probeLength + 1).toNat := hfar
        exact ih (bucketSetProbeLength entry (entry.probeLength + 1)) (i := i + 1) hi
          (by omega) hnowrap hkey (by omega)

end Libromano.Hashmap
