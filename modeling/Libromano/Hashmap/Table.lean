/- The bucket array as a ring of slots, and its contents as a multiset. A write to one bucket is
   described once in each of the two views. -/

import Libromano.Foundation.RobinHood
import Libromano.Hashmap.Model
import Mathlib.Data.Multiset.Filter
import Mathlib.Data.Multiset.AddSub
import Mathlib.Tactic.Abel

set_option autoImplicit false
set_option relaxedAutoImplicit false

namespace Libromano.Hashmap

open Libromano.Foundation.RobinHood

structure Entry where
  key : Key
  value : Value
  hash : UInt32
  deriving DecidableEq

def Bucket.entry (bucket : Bucket) : Entry := ⟨bucket.key, bucket.value, bucket.hash⟩

def Bucket.slot (bucket : Bucket) : Option (Entry × ℕ) :=
  if bucketIsEmpty bucket then none else some (bucket.entry, bucket.probeLength.toNat)

/-- The home position of an entry, before reduction to the capacity. -/
def homeOf (entry : Entry) : ℕ := entry.hash.toNat

def slots (buckets : List Bucket) : Slots Entry :=
  fun j => (buckets.getD (j % buckets.length) bucketSetEmpty).slot

def entries (buckets : List Bucket) : Multiset Entry :=
  (buckets.filterMap fun bucket => bucket.slot.map Prod.fst : List Entry)

@[simp] theorem slot_setEmpty : bucketSetEmpty.slot = none := rfl

@[simp] theorem isEmpty_setProbeLength (bucket : Bucket) (p : UInt16) :
    bucketIsEmpty (bucketSetProbeLength bucket p) = bucketIsEmpty bucket := rfl

@[simp] theorem entry_setProbeLength (bucket : Bucket) (p : UInt16) :
    (bucketSetProbeLength bucket p).entry = bucket.entry := rfl

@[simp] theorem key_entry (bucket : Bucket) : bucket.entry.key = bucket.key := rfl

theorem slot_of_isEmpty {bucket : Bucket} (h : bucketIsEmpty bucket = true) :
    bucket.slot = none := if_pos h

theorem slot_of_not_isEmpty {bucket : Bucket} (h : ¬ bucketIsEmpty bucket = true) :
    bucket.slot = some (bucket.entry, bucket.probeLength.toNat) := if_neg h

theorem isEmpty_iff {bucket : Bucket} : bucketIsEmpty bucket = true ↔ bucket.key = [] := by
  simp [bucketIsEmpty]

theorem slot_eq_none_iff {bucket : Bucket} :
    bucket.slot = none ↔ bucketIsEmpty bucket = true := by
  unfold Bucket.slot
  split_ifs with h <;> simp [h]

theorem slot_eq_some_iff {bucket : Bucket} {a : Entry} {p : ℕ} :
    bucket.slot = some (a, p) ↔
      bucketIsEmpty bucket ≠ true ∧ bucket.entry = a ∧ bucket.probeLength.toNat = p := by
  unfold Bucket.slot
  split_ifs with h <;> simp [h]

theorem compareKey_iff {bucket : Bucket} {key : Key} {hash : UInt32} :
    bucketCompareKey bucket key hash = true ↔ bucket.hash = hash ∧ bucket.key = key := by
  simp only [bucketCompareKey, Bool.and_eq_true, beq_iff_eq]
  constructor
  · rintro ⟨⟨hhash, -⟩, hkey⟩
    exact ⟨hhash, hkey⟩
  · rintro ⟨hhash, hkey⟩
    exact ⟨⟨hhash, by rw [hkey]⟩, hkey⟩

variable {buckets : List Bucket} {j : ℕ}

theorem slots_periodic {i k : ℕ} (h : i % buckets.length = k % buckets.length) :
    slots buckets i = slots buckets k := by
  simp only [slots, h]

theorem exists_bucket (hpos : 0 < buckets.length) (j : ℕ) :
    ∃ bucket, buckets[j % buckets.length]? = some bucket ∧ slots buckets j = bucket.slot := by
  have hlt : j % buckets.length < buckets.length := Nat.mod_lt _ hpos
  refine ⟨buckets[j % buckets.length], List.getElem?_eq_getElem hlt, ?_⟩
  rw [slots, List.getD_eq_getElem _ _ hlt]

theorem slots_set (hpos : 0 < buckets.length) (j : ℕ) (bucket : Bucket) :
    slots (buckets.set (j % buckets.length) bucket) =
      put buckets.length (slots buckets) j bucket.slot := by
  funext k
  have hj : j % buckets.length < buckets.length := Nat.mod_lt _ hpos
  have hk : k % buckets.length < buckets.length := Nat.mod_lt _ hpos
  simp only [slots, put, List.length_set]
  by_cases h : k % buckets.length = j % buckets.length
  · rw [if_pos h, h, List.getD_eq_getElem _ _ (by simpa using hj), List.getElem_set_self]
  · rw [if_neg h, List.getD_eq_getElem _ _ (by simpa using hk),
      List.getElem_set_ne (Ne.symm h), List.getD_eq_getElem _ _ hk]

def single (slot : Option (Entry × ℕ)) : Multiset Entry := ↑(slot.map Prod.fst).toList

@[simp] theorem single_none : single none = 0 := rfl

@[simp] theorem single_some (a : Entry) (p : ℕ) : single (some (a, p)) = {a} := rfl

theorem entries_nil : entries [] = 0 := rfl

theorem entries_cons (bucket : Bucket) (buckets : List Bucket) :
    entries (bucket :: buckets) = single bucket.slot + entries buckets := by
  unfold entries single
  rw [List.filterMap_cons]
  cases bucket.slot <;> simp

theorem entries_set {i : ℕ} {old : Bucket} (h : buckets[i]? = some old) (new : Bucket) :
    entries (buckets.set i new) + single old.slot = entries buckets + single new.slot := by
  induction buckets generalizing i with
  | nil => simp at h
  | cons bucket buckets ih =>
    cases i with
    | zero =>
      obtain rfl : bucket = old := by simpa using h
      rw [List.set_cons_zero, entries_cons, entries_cons]
      abel
    | succ i =>
      rw [List.set_cons_succ, entries_cons, entries_cons, add_assoc, ih (by simpa using h),
        add_assoc]

theorem entries_replicate (n : ℕ) : entries (List.replicate n bucketSetEmpty) = 0 := by
  induction n with
  | zero => rfl
  | succ n ih => rw [List.replicate_succ, entries_cons, ih]; rfl

theorem card_entries_le (buckets : List Bucket) : (entries buckets).card ≤ buckets.length := by
  simpa [entries] using List.length_filterMap_le _ buckets

theorem mem_entries {a : Entry} :
    a ∈ entries buckets ↔ ∃ bucket ∈ buckets, bucketIsEmpty bucket ≠ true ∧ bucket.entry = a := by
  simp only [entries, Multiset.mem_coe, List.mem_filterMap, Option.map_eq_some_iff]
  constructor
  · rintro ⟨bucket, hmem, ⟨a', p⟩, hslot, rfl⟩
    obtain ⟨hne, hentry, -⟩ := slot_eq_some_iff.mp hslot
    exact ⟨bucket, hmem, hne, hentry⟩
  · rintro ⟨bucket, hmem, hne, rfl⟩
    exact ⟨bucket, hmem, _, slot_of_not_isEmpty hne, rfl⟩

theorem mem_entries_iff_slots {a : Entry} :
    a ∈ entries buckets ↔ ∃ j p, slots buckets j = some (a, p) := by
  rw [mem_entries]
  constructor
  · rintro ⟨bucket, hmem, hne, rfl⟩
    obtain ⟨i, hi, rfl⟩ := List.getElem_of_mem hmem
    refine ⟨i, buckets[i].probeLength.toNat, ?_⟩
    rw [slots, Nat.mod_eq_of_lt hi, List.getD_eq_getElem _ _ hi, slot_of_not_isEmpty hne]
  · rintro ⟨j, p, hj⟩
    have hpos : 0 < buckets.length := by
      by_contra hnil
      have : buckets = [] := List.eq_nil_of_length_eq_zero (by omega)
      subst this
      simp [slots] at hj
    obtain ⟨bucket, hbucket, hslot⟩ := exists_bucket hpos j
    obtain ⟨hne, hentry, -⟩ := slot_eq_some_iff.mp (hslot.symm.trans hj)
    exact ⟨bucket, List.mem_of_getElem? hbucket, hne, hentry⟩

theorem slots_once (honce : ((entries buckets).map Entry.key).Nodup) {i k : ℕ} {a b : Entry}
    {p q : ℕ} (hi : slots buckets i = some (a, p)) (hk : slots buckets k = some (b, q))
    (hkey : a.key = b.key) : i % buckets.length = k % buckets.length := by
  have hpos : 0 < buckets.length := by
    by_contra hnil
    have : buckets = [] := List.eq_nil_of_length_eq_zero (by omega)
    subst this
    simp [slots] at hi
  have hpair : buckets.Pairwise fun b c => ∀ a ∈ b.slot.map Prod.fst, ∀ a' ∈ c.slot.map Prod.fst,
      a.key ≠ a'.key := by
    have h := honce
    rw [entries, Multiset.map_coe, Multiset.coe_nodup, List.Nodup, List.pairwise_map,
      List.pairwise_filterMap] at h
    exact h
  rw [List.pairwise_iff_getElem] at hpair
  have hil := Nat.mod_lt i hpos
  have hkl := Nat.mod_lt k hpos
  rw [slots, List.getD_eq_getElem _ _ hil] at hi
  rw [slots, List.getD_eq_getElem _ _ hkl] at hk
  rcases Nat.lt_trichotomy (i % buckets.length) (k % buckets.length) with hlt | heq | hlt
  · exact absurd hkey (hpair _ _ hil hkl hlt a (by simp [hi]) b (by simp [hk]))
  · exact heq
  · exact absurd hkey.symm (hpair _ _ hkl hil hlt b (by simp [hk]) a (by simp [hi]))

theorem exists_isEmpty_of_card_lt (h : (entries buckets).card < buckets.length) :
    ∃ bucket ∈ buckets, bucketIsEmpty bucket = true := by
  by_contra hfull
  push Not at hfull
  have hall : (buckets.filterMap fun bucket => bucket.slot.map Prod.fst) =
      buckets.map Bucket.entry := by
    rw [← List.filterMap_eq_map]
    apply List.filterMap_congr
    intro bucket hmem
    simp [slot_of_not_isEmpty (hfull bucket hmem)]
  rw [entries, hall] at h
  simp at h

/-- With fewer entries than buckets, every walk comes to a vacant slot within
one turn. -/
theorem exists_vacant_ahead (h : (entries buckets).card < buckets.length) (j : ℕ) :
    ∃ d < buckets.length, slots buckets (j + d) = none := by
  obtain ⟨bucket, hmem, hempty⟩ := exists_isEmpty_of_card_lt h
  obtain ⟨i, hi, rfl⟩ := List.getElem_of_mem hmem
  obtain ⟨d, hd, hmod⟩ := exists_turn (by omega : 0 < buckets.length) j i
  refine ⟨d, hd, ?_⟩
  rw [slots_periodic hmod, slots, Nat.mod_eq_of_lt hi, List.getD_eq_getElem _ _ hi,
    slot_of_isEmpty hempty]

end Libromano.Hashmap
