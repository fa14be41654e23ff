/- `hashmap_update`. Its probe loop neither displaces nor stops early: it goes to the bucket of
   the key or to the first empty one. A key put there is found again only if no bucket on the way
   stands nearer to its home than the walk is long. -/

import Libromano.Hashmap.Refinement

set_option autoImplicit false
set_option relaxedAutoImplicit false

namespace Libromano.Hashmap

open Libromano.Foundation.RobinHood

variable {m : HashMap} {key : Key} {value : Value}

/-- `hashmap_update` comes to the bucket of a stored key, since it stops at no
other bucket on the way. -/
private theorem updateLoop_stored (hm : WellFormed m) (hcap : IsCapacity m.capacity) {a : Entry}
    {p : ℕ} (hp : slots m.buckets (homeOf a + p) = some (a, p)) (value : Value) (fuel : ℕ) {i : ℕ}
    (probe : UInt32) (hi : i ≤ p) (hfuel : p < fuel + i) :
    ∃ bucket, m.buckets[(homeOf a + p) % m.capacity]? = some bucket ∧ Reached a p bucket ∧
      updateLoop m.capacity a.key value a.hash fuel m.buckets ((homeOf a + i) % m.capacity) probe =
        (do
          let bucket ← bucketUpdateValue bucket value
          .ok (m.buckets.set ((homeOf a + p) % m.capacity) bucket, false)) := by
  induction fuel generalizing i probe with
  | zero => omega
  | succ fuel ih =>
    rw [updateLoop, nextIndex_eq hcap]
    rcases Nat.eq_or_lt_of_le hi with rfl | hi
    · obtain ⟨bucket, hbucket, h⟩ := hm.reached hcap hp
      exact ⟨bucket, hbucket, h, by simp [hbucket, h.nonempty, h.same]⟩
    · obtain ⟨bucket, hbucket, h⟩ := hm.passed hcap hp hi
      simp only [hbucket, h.other, h.nonempty]
      exact ih (i := i + 1) _ hi (by omega)

/-- The bucket `i` places after the home of `key`. -/
def bucketAt (m : HashMap) (key : Key) (i : ℕ) : Option Bucket :=
  m.buckets[((hashmapHash m key).toNat + i) % m.capacity]?

/-- The first empty bucket from the home of `key` on. -/
structure FirstEmpty (m : HashMap) (key : Key) (d : ℕ) : Prop where
  empty : ∃ b, bucketAt m key d = some b ∧ bucketIsEmpty b = true
  before : ∀ i < d, ∃ b, bucketAt m key i = some b ∧ bucketIsEmpty b = false

theorem FirstEmpty.lt (hcap : IsCapacity m.capacity) {d : ℕ} (h : FirstEmpty m key d) :
    d < m.capacity := by
  by_contra hge
  obtain ⟨b, hb, hempty⟩ := h.empty
  obtain ⟨c, hc, hne⟩ := h.before (d - m.capacity) (by have := hcap.pos; omega)
  have hsame : bucketAt m key (d - m.capacity) = bucketAt m key d := by
    rw [bucketAt, bucketAt]
    congr 1
    rw [show (hashmapHash m key).toNat + d =
      (hashmapHash m key).toNat + (d - m.capacity) + m.capacity by omega, Nat.add_mod_right]
  rw [hsame, hb] at hc
  rw [Option.some.inj hc, hne] at hempty
  exact Bool.false_ne_true hempty

theorem firstEmpty_or_full (hm : Sound m) (hcap : IsCapacity m.capacity) (key : Key) :
    (∃ d, FirstEmpty m key d) ∨ ∀ i, ∃ b, bucketAt m key i = some b ∧ bucketIsEmpty b = false := by
  have hsome : ∀ i, ∃ b, bucketAt m key i = some b := fun i => by
    obtain ⟨b, hb, -⟩ := exists_bucket_at hm hcap ((hashmapHash m key).toNat + i)
    exact ⟨b, hb⟩
  by_cases hex : ∃ i b, bucketAt m key i = some b ∧ bucketIsEmpty b = true
  · classical
    refine Or.inl ⟨Nat.find hex, Nat.find_spec hex, fun i hi => ?_⟩
    obtain ⟨b, hb⟩ := hsome i
    refine ⟨b, hb, ?_⟩
    by_contra hempty
    exact Nat.find_min hex hi ⟨b, hb, by simpa using hempty⟩
  · apply Or.inr
    intro i
    obtain ⟨b, hb⟩ := hsome i
    refine ⟨b, hb, ?_⟩
    by_contra hempty
    exact hex ⟨i, b, hb, by simpa using hempty⟩

/-- A key that is not stored goes to the first empty bucket, with the length
of the walk cut to 16 bits as its probe length. -/
private theorem updateLoop_fill (hcap : IsCapacity m.capacity) (hkey : key ≠ [])
    (hnew : ¬ Stores m key) {d : ℕ} (h : FirstEmpty m key d) (value : Value) (fuel : ℕ) {i : ℕ}
    (hi : i ≤ d) (hfuel : d < fuel + i) :
    updateLoop m.capacity key value (hashmapHash m key) fuel m.buckets
        (((hashmapHash m key).toNat + i) % m.capacity) (UInt32.ofNat i) =
      .ok (m.buckets.set (((hashmapHash m key).toNat + d) % m.capacity)
        (bucketNew key value (hashmapHash m key) (UInt32.ofNat d)), true) := by
  induction fuel generalizing i with
  | zero => omega
  | succ fuel ih =>
    rw [updateLoop, nextIndex_eq hcap]
    rcases Nat.eq_or_lt_of_le hi with rfl | hi
    · obtain ⟨b, hb, hempty⟩ := h.empty
      rw [bucketAt] at hb
      simp only [hb, hempty, if_true]
    · obtain ⟨b, hb, hne⟩ := h.before i hi
      rw [bucketAt] at hb
      have hnext : UInt32.ofNat i + 1 = UInt32.ofNat (i + 1) := by simp
      simp only [hb, hne, not_compareKey hkey hnew hb, Bool.false_eq_true, if_false, hnext]
      exact ih (i := i + 1) hi (by omega)

private theorem updateLoop_diverges (hcap : IsCapacity m.capacity) (hkey : key ≠ [])
    (hnew : ¬ Stores m key)
    (hfull : ∀ i, ∃ b, bucketAt m key i = some b ∧ bucketIsEmpty b = false) (value : Value)
    (fuel : ℕ) {i : ℕ} (probe : UInt32) :
    updateLoop m.capacity key value (hashmapHash m key) fuel m.buckets
      (((hashmapHash m key).toNat + i) % m.capacity) probe = .error .diverges := by
  induction fuel generalizing i probe with
  | zero => rfl
  | succ fuel ih =>
    rw [updateLoop, nextIndex_eq hcap]
    obtain ⟨b, hb, hne⟩ := hfull i
    rw [bucketAt] at hb
    simp only [hb, hne, not_compareKey hkey hnew hb, Bool.false_eq_true, if_false]
    exact ih (i := i + 1) _

/-- What `bucket_update_value` leaves in the value field. -/
def overwritten (old new : Value) : Except Fault Value :=
  if 0 < old.size ∧ 8 < new.size ∧ new.size = old.size then .error .nullPointer
  else if 0 < old.size ∧ new.size = 0 then .ok (.pointer 0)
  else .ok new

theorem bucketUpdateValue_eq (bucket : Bucket) (value : Value) :
    bucketUpdateValue bucket value =
      (overwritten bucket.value value).map fun value => { bucket with value } := by
  unfold bucketUpdateValue overwritten
  split_ifs <;> first | rfl | omega

/-- The update of a stored value that `bucket_update_value` gets right. -/
def Overwrites (old new : Value) : Prop :=
  0 < old.size → (8 < new.size → new.size ≠ old.size) ∧ (new.size = 0 → new = .pointer 0)

theorem overwritten_eq_ok_iff {old new : Value} :
    overwritten old new = .ok new ↔ Overwrites old new := by
  unfold overwritten Overwrites
  split_ifs with h1 h2
  · simp only [false_iff]
    exact fun h => (h h1.1).1 h1.2.1 h1.2.2
  · rw [Except.ok.injEq, eq_comm]
    exact ⟨fun h _ => ⟨fun h8 => by omega, fun _ => h⟩, fun h => (h h2.1).2 h2.2⟩
  · simp only [true_iff]
    exact fun h0 => ⟨fun h8 heq => h1 ⟨h0, h8, heq⟩, fun hz => absurd ⟨h0, hz⟩ h2⟩

/-- No bucket on the way to the first empty one is nearer to its home than
that way is long, and its length fits into 16 bits. -/
structure OpenPath (m : HashMap) (key : Key) (d : ℕ) : Prop extends FirstEmpty m key d where
  far : ∀ i < d, ∀ b, bucketAt m key i = some b → i ≤ b.probeLength.toNat
  short : d < 2 ^ 16

def filledAt (m : HashMap) (key : Key) (value : Value) (d : ℕ) : HashMap :=
  { m with
    buckets := m.buckets.set (((hashmapHash m key).toNat + d) % m.capacity)
      (bucketNew key value (hashmapHash m key) (UInt32.ofNat d))
    size := m.size + 1 }

theorem hashmapUpdate_fill (hcap : IsCapacity m.capacity) (hkey : key ≠ [])
    (hnew : ¬ Stores m key) {d : ℕ} (h : FirstEmpty m key d) (value : Value) :
    hashmapUpdate m key value = .ok (filledAt m key value d) := by
  have hlt := h.lt hcap
  have hrun := updateLoop_fill hcap hkey hnew h value (m.capacity + 1) (i := 0) (Nat.zero_le d)
    (by omega)
  rw [add_zero] at hrun
  simp only [hashmapUpdate, hashmapIndex_eq hcap]
  rw [show (0 : UInt32) = UInt32.ofNat 0 from rfl, hrun]
  rfl

theorem hashmapUpdate_diverges (hcap : IsCapacity m.capacity) (hkey : key ≠ [])
    (hnew : ¬ Stores m key)
    (hfull : ∀ i, ∃ b, bucketAt m key i = some b ∧ bucketIsEmpty b = false) (value : Value) :
    hashmapUpdate m key value = .error .diverges := by
  have hrun := updateLoop_diverges hcap hkey hnew hfull value (m.capacity + 1) (i := 0) 0
  rw [add_zero] at hrun
  simp only [hashmapUpdate, hashmapIndex_eq hcap, hrun, bind_error]

theorem filledAt_entries (hkey : key ≠ []) (value : Value) {d : ℕ} (h : FirstEmpty m key d) :
    entries (filledAt m key value d).buckets = entries m.buckets + {entryFor m key value} := by
  obtain ⟨b, hb, hempty⟩ := h.empty
  have hnew : ¬ bucketIsEmpty (bucketNew key value (hashmapHash m key) (UInt32.ofNat d)) = true :=
    mt isEmpty_iff.mp hkey
  exact entries_fill (n := m.capacity) hb hempty hnew

private theorem filledAt_sound (hm : Sound m) (hkey : key ≠ []) {d : ℕ} (h : FirstEmpty m key d) :
    Sound (filledAt m key value d) := by
  refine ⟨by simpa [filledAt] using hm.length, hm.capacity, hm.maxProbes, ?_⟩
  rw [filledAt_entries hkey value h, Multiset.card_add, Multiset.card_singleton, ← hm.size]
  rfl

private theorem carried_of_openPath (hm : Sound m) (hcap : IsCapacity m.capacity) {d : ℕ}
    (h : OpenPath m key d) (value : Value) :
    Carried m.capacity homeOf (slots m.buckets) ((hashmapHash m key).toNat + d)
      (entryFor m key value) d := by
  refine ⟨rfl, h.toFirstEmpty.lt hcap, fun hpos => ?_⟩
  obtain ⟨b, hb, hne⟩ := h.before (d - 1) (by omega)
  have hfar := h.far (d - 1) (by omega) b hb
  obtain ⟨c, hc, hslot⟩ := exists_bucket_at hm hcap ((hashmapHash m key).toNat + (d - 1))
  obtain rfl : b = c := Option.some.inj (hb.symm.trans hc)
  have hprev : ((hashmapHash m key).toNat + d + (m.capacity - 1)) % m.buckets.length =
      ((hashmapHash m key).toNat + (d - 1)) % m.buckets.length := by
    rw [hm.length, show (hashmapHash m key).toNat + d =
      (hashmapHash m key).toNat + (d - 1) + 1 by omega, mod_succ_pred hcap.pos]
  refine ⟨b.entry, b.probeLength.toNat, ?_, by omega⟩
  rw [slots_periodic hprev, hslot, slot_of_not_isEmpty (by simp [hne])]

theorem filledAt_wellFormed (hm : WellFormed m) (hcap : IsCapacity m.capacity) (hkey : key ≠ [])
    (hnew : ¬ Stores m key) (value : Value) {d : ℕ} (h : OpenPath m key d) :
    WellFormed (filledAt m key value d) := by
  have hent := filledAt_entries hkey value h.toFirstEmpty
  refine ⟨filledAt_sound hm.toSound hkey h.toFirstEmpty, fun a ha => ?_, ?_, ?_⟩
  · rw [hent] at ha
    rcases Multiset.mem_add.mp ha with ha | ha
    · exact hm.hashed a ha
    · rw [Multiset.mem_singleton.mp ha]
      rfl
  · rw [hent]
    exact Stores.of_add (a := entryFor m key value) hm.once hnew rfl
  · have hslots : slots (filledAt m key value d).buckets =
        put m.capacity (slots m.buckets) ((hashmapHash m key).toNat + d)
          (some (entryFor m key value, d)) := by
      have hprobe : (UInt32.ofNat d).toUInt16.toNat = d := by
        have := h.short
        rw [UInt32.toNat_toUInt16, UInt32.toNat_ofNat_of_lt' (by
          show d < 2 ^ 32
          omega), Nat.mod_eq_of_lt (by omega)]
      have := slots_set (show 0 < m.buckets.length by rw [hm.length]; exact hcap.pos)
        ((hashmapHash m key).toNat + d) (bucketNew key value (hashmapHash m key) (UInt32.ofNat d))
      rw [hm.length] at this
      rw [filledAt, this, slot_of_not_isEmpty (mt isEmpty_iff.mp hkey)]
      show put _ _ _ (some (_, (UInt32.ofNat d).toUInt16.toNat)) = _
      rw [hprobe]
      rfl
    show Ordered m.capacity homeOf _
    rw [hslots]
    apply hm.ordered.put (carried_of_openPath hm.toSound hcap h value)
    intro b q hb
    obtain ⟨b, hb', hempty⟩ := h.empty
    obtain ⟨c, hc, hslot⟩ := exists_bucket_at hm.toSound hcap ((hashmapHash m key).toNat + d)
    obtain rfl : b = c := Option.some.inj (hb'.symm.trans hc)
    rw [hslot, slot_of_isEmpty hempty] at hb
    simp at hb

/-- What an update of the stored entry `a` to the value `v` makes of `m`. -/
structure Overwritten (m : HashMap) (a : Entry) (v : Value) (m' : HashMap) : Prop where
  wellFormed : WellFormed m'
  sameHash : m'.hashFunc = m.hashFunc ∧ m'.hashkey = m.hashkey
  sameCapacity : m'.capacity = m.capacity
  sameSize : m'.size = m.size
  shared : entries m'.buckets + {a} = entries m.buckets + {{ a with value := v }}

private theorem overwritten_at (hm : WellFormed m) (hcap : IsCapacity m.capacity) {a : Entry}
    {p : ℕ} (hp : slots m.buckets (homeOf a + p) = some (a, p)) {bucket : Bucket}
    (hbucket : m.buckets[(homeOf a + p) % m.capacity]? = some bucket)
    (hreached : Reached a p bucket) (v : Value) :
    Overwritten m a v { m with
      buckets := m.buckets.set ((homeOf a + p) % m.capacity) { bucket with value := v } } := by
  let bucket' : Bucket := { bucket with value := v }
  have hentry' : bucket'.entry = { a with value := v } := by rw [← hreached.entry]; rfl
  have hne' : ¬ bucketIsEmpty bucket' = true := hreached.nonempty
  have hshared : entries (m.buckets.set ((homeOf a + p) % m.capacity) bucket') + {a} =
      entries m.buckets + {{ a with value := v }} := by
    have := entries_swap (n := m.capacity) hbucket hreached.nonempty hne'
    rwa [hreached.entry, hentry'] at this
  have hsound : Sound { m with
      buckets := m.buckets.set ((homeOf a + p) % m.capacity) bucket' } := by
    refine ⟨by simpa using hm.length, hm.capacity, hm.maxProbes, ?_⟩
    have hcard := congrArg Multiset.card hshared
    simp only [Multiset.card_add, Multiset.card_singleton] at hcard
    show m.size = _
    rw [hm.size]
    exact (Nat.add_right_cancel hcard).symm
  refine ⟨⟨hsound, fun b hb => ?_, ?_, ?_⟩, ⟨rfl, rfl⟩, rfl, rfl, hshared⟩
  · have hmem : b ∈ entries m.buckets + {{ a with value := v }} := by
      rw [← hshared]
      exact Multiset.mem_add.mpr (Or.inl hb)
    rcases Multiset.mem_add.mp hmem with hb | hb
    · exact hm.hashed b hb
    · rw [Multiset.mem_singleton.mp hb]
      exact hm.hashed a (mem_entries_iff_slots.mpr ⟨_, _, hp⟩)
  · have hkeys := congrArg (Multiset.map Entry.key) hshared
    simp only [Multiset.map_add, Multiset.map_singleton] at hkeys
    show ((entries (m.buckets.set _ bucket')).map Entry.key).Nodup
    rw [add_right_cancel hkeys]
    exact hm.once
  · have hslots := slots_set (show 0 < m.buckets.length by rw [hm.length]; exact hcap.pos)
      (homeOf a + p) bucket'
    rw [hm.length, slot_of_not_isEmpty hne', hentry'] at hslots
    show Ordered m.capacity homeOf (slots (m.buckets.set _ bucket'))
    rw [hslots, show bucket'.probeLength.toNat = p from hreached.probe]
    have hstanding := hm.ordered.standing hp
    refine hm.ordered.put ⟨hstanding.placed, hstanding.near, hstanding.behind⟩ fun b q hb => ?_
    rw [hp] at hb
    obtain ⟨-, rfl⟩ := Prod.mk.inj (Option.some.inj hb)
    exact le_rfl

theorem hashmapUpdate_stored (hm : WellFormed m) {a : Entry} (ha : a ∈ entries m.buckets)
    (value : Value) :
    ∃ m' : Value → HashMap, (∀ v, Overwritten m a v (m' v)) ∧
      hashmapUpdate m a.key value = (overwritten a.value value).map m' := by
  have hcap := WellFormed.isCapacity_of_stores hm.toSound (Stores.of_mem ha)
  obtain ⟨p, hp⟩ := exists_place (by rw [hm.length]; exact hm.ordered) ha
  have hnear := (hm.ordered.standing hp).near
  obtain ⟨bucket, hbucket, hreached, hrun⟩ := updateLoop_stored hm hcap hp value (m.capacity + 1)
    (i := 0) 0 (Nat.zero_le p) (by omega)
  refine ⟨_, fun v => overwritten_at hm hcap hp hbucket hreached v, ?_⟩
  have hvalue : bucket.value = a.value := by rw [← hreached.entry]; rfl
  rw [add_zero, homeOf, hm.hashed a ha] at hrun
  simp only [hashmapUpdate, hashmapIndex_eq hcap, hrun, bucketUpdateValue_eq, hvalue]
  cases overwritten a.value value with
  | error e => rfl
  | ok v =>
    simp only [Except.map, bind_ok, homeOf, hm.hashed a ha]
    rfl

end Libromano.Hashmap
