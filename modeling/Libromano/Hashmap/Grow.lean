/- The invariant of the map, and growing. `Sound` is the bookkeeping, which holds on every path
   through the code; `WellFormed` adds what lookups rely on. The capacity zero is what
   `hashmap_new` computes from a request of `2 ^ 63` or more. -/

import Libromano.Hashmap.Insert

set_option autoImplicit false
set_option relaxedAutoImplicit false

namespace Libromano.Hashmap

open Libromano.Bit Libromano.Foundation Libromano.Foundation.RobinHood

structure Sound (m : HashMap) : Prop where
  length : m.buckets.length = m.capacity
  capacity : m.capacity = 0 ∨ IsCapacity m.capacity
  maxProbes : m.maxProbes = m.capacity.log2
  size : m.size = (entries m.buckets).card

structure WellFormed (m : HashMap) : Prop extends Sound m where
  hashed : ∀ a ∈ entries m.buckets, a.hash = hashmapHash m a.key
  once : ((entries m.buckets).map Entry.key).Nodup
  ordered : Ordered m.capacity homeOf (slots m.buckets)

def Spare (m : HashMap) : Prop := 2 ≤ m.capacity ∧ (entries m.buckets).card < m.capacity

/-- The map `m'` holds what `m` holds, in a table that is no smaller. -/
structure Grown (m m' : HashMap) : Prop where
  sameHash : m'.hashFunc = m.hashFunc ∧ m'.hashkey = m.hashkey
  sound : Sound m'
  larger : m.capacity ≤ m'.capacity
  kept : entries m'.buckets = entries m.buckets
  wellFormed : WellFormed m → WellFormed m'

theorem Sound.card_le {m : HashMap} (hm : Sound m) :
    (entries m.buckets).card ≤ m.capacity := by
  rw [← hm.length]
  exact card_entries_le m.buckets

theorem IsCapacity.log2_le {n : ℕ} (hn : IsCapacity n) : n.log2 ≤ 58 := by
  obtain ⟨k, hk, rfl⟩ := hn
  simpa using hk

private theorem maxProbesOf_eq {n : ℕ} (hn : IsCapacity n) : maxProbesOf n = n.log2 := by
  obtain ⟨k, -, rfl⟩ := hn
  rw [maxProbesOf, Significand.round_two_pow (by decide)]

theorem hashmapGetNewCapacity_two_pow {k : ℕ} (hk : k ≤ 58) :
    hashmapGetNewCapacity (2 ^ k) = 2 ^ (k + 1) := by
  have hlt : 2 ^ k < 2 ^ 64 := Nat.pow_lt_pow_right (by decide) (by omega)
  have hpos := Nat.two_pow_pos k
  have hback : UInt64.ofNat (2 ^ k) + 1 - 1 = UInt64.ofNat (2 ^ k) := by simp
  have hne : (UInt64.ofNat (2 ^ k) + 1 - 1).toNat ≠ 0 := by
    rw [hback, UInt64.toNat_ofNat_of_lt' hlt]
    omega
  have hround := roundU64ToNextPow2_toNat hne
  rw [hback, UInt64.toNat_ofNat_of_lt' hlt, Nat.log2_two_pow] at hround
  have hle : 2 ^ (k + 1) ≤ 2 ^ 59 := Nat.pow_le_pow_right (by decide) (by omega)
  rw [hashmapGetNewCapacity, UInt64.toNat_add, hround, UInt64.toNat_one,
    Nat.sub_add_cancel (Nat.two_pow_pos _), Nat.mod_eq_of_lt (by omega)]

private theorem hashmapGetNewCapacity_zero : hashmapGetNewCapacity 0 = 1 := by decide

theorem isCapacity_double {k : ℕ} (hk : k ≤ 58) (h : ¬ 2 ^ 64 ≤ 2 ^ (k + 1) * sizeofBucket) :
    k + 1 ≤ 58 := by
  by_contra hlt
  obtain rfl : k = 58 := by omega
  exact h (by decide)

private theorem succ_lt_of_not_overMaxLoad {n size : ℕ} (hn : IsCapacity n)
    (h : ¬ overMaxLoad size n = true) : size + 1 < n := by
  obtain ⟨k, -, rfl⟩ := hn
  by_contra hge
  apply h
  have hload : Significand.round 24 (2 ^ k * maxLoadSignificand) = 2 ^ k * maxLoadSignificand :=
    Significand.round_shifted k (by decide)
  have hsize : 2 ^ k ≤ Significand.round 24 (size + 1) := by
    have := Significand.round_mono (b := 24) (by decide) (Nat.le_of_not_lt hge)
    rwa [Significand.round_two_pow (by decide)] at this
  rw [overMaxLoad, decide_eq_true_eq, Significand.round_two_pow (by decide), hload]
  calc 2 ^ k * maxLoadSignificand < 2 ^ k * 2 ^ 24 :=
        Nat.mul_lt_mul_of_pos_left (by decide) (Nat.two_pow_pos k)
    _ ≤ Significand.round 24 (size + 1) * 2 ^ 24 := Nat.mul_le_mul_right _ hsize

private theorem overMaxLoad_zero (size : ℕ) : overMaxLoad size 0 = true := by
  have hpos : 0 < Significand.round 24 (size + 1) := by
    have h := Significand.round_mono (b := 24) (by decide) (Nat.le_add_left 1 size)
    have h1 : Significand.round 24 1 = 1 := by decide
    omega
  have h0 : Significand.round 24 (Significand.round 24 0 * maxLoadSignificand) = 0 := by decide
  rw [overMaxLoad, decide_eq_true_eq, h0]
  omega

/-- What holds of the new table while the entries of `rest` are still to be
moved out of `old`. -/
structure Moving (m : HashMap) (n : ℕ) (old rest : List Bucket) (grown : HashMap) : Prop where
  sameHash : grown.hashFunc = m.hashFunc ∧ grown.hashkey = m.hashkey
  capacity : grown.capacity = n
  maxProbes : grown.maxProbes = maxProbesOf n
  length : grown.buckets.length = n
  size : grown.size = (entries grown.buckets).card
  shared : entries grown.buckets + entries rest = entries old
  ordered : Ordered old.length homeOf (slots old) → ((entries old).map Entry.key).Nodup →
    old.length ∣ n → Ordered n homeOf (slots grown.buckets)

/-- Besides, no probe length has become longer than those of an ordered `old`. -/
structure MovingShort (m : HashMap) (n : ℕ) (old rest : List Bucket) (grown : HashMap) : Prop
    extends Moving m n old rest grown where
  short : Ordered old.length homeOf (slots old) → ((entries old).map Entry.key).Nodup →
    old.length ∣ n → ∀ limit, 0 < limit → ProbesBelow limit old → ProbesBelow limit grown.buckets

private theorem MovingShort.step {m grown : HashMap} {n : ℕ} {old rest : List Bucket}
    {bucket : Bucket} (hn : IsCapacity n) (hroom : (entries old).card ≤ n)
    (h : MovingShort m n old (bucket :: rest) grown) :
    Yields (if bucketIsEmpty bucket then .ok grown else hashmapMoveEntry grown bucket false)
      (MovingShort m n old rest) := by
  by_cases hempty : bucketIsEmpty bucket = true
  · rw [if_pos hempty, Yields.ok_iff]
    have hshared := h.shared
    rw [entries_cons, slot_of_isEmpty hempty, single_none, zero_add] at hshared
    exact { h with shared := hshared }
  rw [if_neg hempty]
  let entry := bucketSetProbeLength bucket 0
  have hshared : entries grown.buckets + {entry.entry} + entries rest = entries old := by
    have := h.shared
    rwa [entries_cons, slot_of_not_isEmpty hempty, single_some, ← add_assoc] at this
  have hcard : (entries grown.buckets).card < grown.buckets.length := by
    have := congrArg Multiset.card hshared
    simp only [Multiset.card_add, Multiset.card_singleton] at this
    rw [h.length]
    omega
  obtain ⟨d, hd, hvac⟩ := exists_vacant_ahead hcard (homeOf entry.entry)
  obtain ⟨buckets', hrun, hlen, hent⟩ := moveLoop_entries hn (n + 1) entry h.length
    hempty hvac (by rw [h.length] at hd; omega)
  have hmove : hashmapMoveEntry grown bucket false =
      .ok { grown with buckets := buckets', size := grown.size + 1 } := by
    have hindex : hashmapIndex grown.capacity entry.hash = homeOf entry.entry % n := by
      rw [h.capacity, hashmapIndex_eq hn]
      rfl
    simp only [hashmapMoveEntry, Bool.false_eq_true, if_false]
    rw [hindex, h.capacity, hrun]
    rfl
  have hsub : entries grown.buckets + {entry.entry} ≤ entries old :=
    hshared ▸ Multiset.le_add_right _ _
  have hmoved : ∀ limit, ProbesBelow limit old → Ordered old.length homeOf (slots old) →
      ((entries old).map Entry.key).Nodup → old.length ∣ n →
      Ordered n homeOf (slots buckets') ∧
        (ProbesBelow limit grown.buckets → ProbesBelow limit buckets') := by
    intro limit hshort hold honce hdvd
    exact moveLoop_moved hn (n + 1) entry h.length hempty hvac hshort hold hdvd
      (h.ordered hold honce hdvd) (Carried.at_home hn.pos rfl)
      (fun b hb => Multiset.mem_of_le hsub hb)
      (Multiset.nodup_of_le (Multiset.map_le_map hsub) honce) hrun
  rw [hmove, Yields.ok_iff]
  refine ⟨⟨h.sameHash, h.capacity, h.maxProbes, hlen, ?_, ?_, ?_⟩, ?_⟩
  · rw [hent, Multiset.card_add, Multiset.card_singleton, h.size]
  · rw [hent, hshared]
  · intro hold honce hdvd
    exact (hmoved 65536 (probesBelow_word old) hold honce hdvd).1
  · intro hold honce hdvd limit hpos hshort
    exact (hmoved limit hshort hold honce hdvd).2 (h.short hold honce hdvd limit hpos hshort)

private theorem MovingShort.start {m : HashMap} {n : ℕ} (grown : HashMap)
    (hgrown : grown = { m with
      buckets := List.replicate n bucketSetEmpty, size := 0, capacity := n,
      maxProbes := maxProbesOf n }) : MovingShort m n m.buckets m.buckets grown := by
  subst hgrown
  refine ⟨⟨⟨rfl, rfl⟩, rfl, rfl, List.length_replicate, ?_, ?_, fun _ _ _ => ?_⟩,
    fun _ _ _ limit hpos _ b hb => ?_⟩
  · simp [entries_replicate]
  · simp [entries_replicate]
  · have hvacant : ∀ j, slots (List.replicate n bucketSetEmpty) j = none := by
      intro j
      simp [slots]
    refine ⟨fun _ => ?_, fun {j a p} hj => ?_⟩
    · rw [hvacant, hvacant]
    · rw [hvacant] at hj
      simp at hj
  · rw [List.eq_of_mem_replicate hb]
    exact hpos

theorem hashmapGrow_moving {m : HashMap} (hm : Sound m) {n : ℕ} (hn : IsCapacity n)
    (hle : m.capacity ≤ n) :
    Yields (hashmapGrow m n none) (MovingShort m n m.buckets []) := by
  unfold hashmapGrow
  split_ifs with hfull
  · exact Yields.noMemory
  exact Yields.foldlM (MovingShort m n m.buckets) (fun bucket rest grown h =>
    h.step hn (hm.card_le.trans hle)) (MovingShort.start _ rfl)

theorem hashmapGrow_yields {m : HashMap} (hm : Sound m) {n : ℕ} (hn : IsCapacity n)
    (hle : m.capacity ≤ n) (hdvd : m.capacity ∣ n ∨ entries m.buckets = 0) :
    Yields (hashmapGrow m n none) fun m' => Grown m m' ∧ m'.capacity = n := by
  refine (hashmapGrow_moving hm hn hle).mono fun m' _ h => ?_
  have hent : entries m'.buckets = entries m.buckets := by
    simpa [entries_nil] using h.shared
  have hsound : Sound m' :=
    { length := h.length.trans h.capacity.symm
      capacity := Or.inr (h.capacity ▸ hn)
      maxProbes := by rw [h.maxProbes, maxProbesOf_eq hn, h.capacity]
      size := h.size }
  refine ⟨⟨h.sameHash, hsound, by rw [h.capacity]; exact hle, hent, fun hwf => ?_⟩, h.capacity⟩
  refine ⟨hsound, ?_, by rw [hent]; exact hwf.once, ?_⟩
  · intro a ha
    rw [hashmapHash, h.sameHash.1, h.sameHash.2]
    exact hwf.hashed a (hent ▸ ha)
  · rw [h.capacity]
    rcases hdvd with hdvd | hnone
    · refine h.ordered ?_ hwf.once (by rw [hm.length]; exact hdvd)
      rw [hm.length]
      exact hwf.ordered
    · refine ⟨fun hjk => ?_, fun {j a p} hj => ?_⟩
      · exact slots_periodic (by rw [h.length]; exact hjk)
      · have := mem_entries_iff_slots.mpr ⟨j, p, hj⟩
        simp [hent, hnone] at this

theorem hashmapGrow_next {m : HashMap} (hm : Sound m) :
    Yields (hashmapGrow m (hashmapGetNewCapacity m.capacity) none) fun m' =>
      Grown m m' ∧ m.capacity < m'.capacity ∧ m'.capacity.log2 = m.capacity.log2 +
        if m.capacity = 0 then 0 else 1 := by
  rcases hm.capacity with h0 | ⟨k, hk, hcap⟩
  · rw [h0, hashmapGetNewCapacity_zero]
    have hnone : entries m.buckets = 0 := by
      rw [← Multiset.card_eq_zero]
      have := hm.card_le
      omega
    refine (hashmapGrow_yields hm ⟨0, by decide, rfl⟩ (by omega) (Or.inr hnone)).mono ?_
    rintro m' - ⟨hgrown, hcap'⟩
    exact ⟨hgrown, by omega, by rw [hcap']; rfl⟩
  · rw [hcap, hashmapGetNewCapacity_two_pow hk]
    by_cases hfull : 2 ^ 64 ≤ 2 ^ (k + 1) * sizeofBucket
    · rw [hashmapGrow, if_pos hfull]
      exact Yields.noMemory
    have hlt : 2 ^ k < 2 ^ (k + 1) := Nat.pow_lt_pow_right (by decide) (by omega)
    refine (hashmapGrow_yields hm ⟨k + 1, isCapacity_double hk hfull, rfl⟩ (by omega)
      (Or.inl (by rw [hcap]; exact Nat.pow_dvd_pow 2 (by omega)))).mono ?_
    rintro m' - ⟨hgrown, hcap'⟩
    refine ⟨hgrown, by omega, ?_⟩
    rw [hcap', if_neg (Nat.two_pow_pos k).ne', Nat.log2_two_pow, Nat.log2_two_pow]

/-- After the load check there is room for the new entry, with a bucket to
spare if there was one before. -/
structure Loaded (m m' : HashMap) : Prop extends Grown m m' where
  isCapacity : IsCapacity m'.capacity
  room : (entries m'.buckets).card < m'.capacity
  spare : Spare m → (entries m'.buckets).card + 1 < m'.capacity

private theorem Grown.refl {m : HashMap} (hm : Sound m) : Grown m m :=
  ⟨⟨rfl, rfl⟩, hm, le_rfl, rfl, id⟩

theorem growIfLoaded_yields {m : HashMap} (hm : Sound m) :
    Yields (growIfLoaded m) (Loaded m) := by
  unfold growIfLoaded
  split_ifs with hload
  · apply (hashmapGrow_next hm).mono
    rintro m' _ ⟨hgrown, hlt, _⟩
    have hcard := hm.card_le
    have hent := hgrown.kept
    refine ⟨hgrown, ?_, by rw [hent]; omega, fun hspare => ?_⟩
    · rcases hgrown.sound.capacity with h0 | hcap
      · omega
      · exact hcap
    · have := hspare.2
      rw [hent]
      omega
  · rw [Yields.ok_iff]
    have hcap : IsCapacity m.capacity := by
      rcases hm.capacity with h0 | hcap
      · rw [h0] at hload
        exact absurd (overMaxLoad_zero m.size) hload
      · exact hcap
    have hroom := succ_lt_of_not_overMaxLoad hcap hload
    rw [hm.size] at hroom
    exact ⟨Grown.refl hm, hcap, by omega, fun _ => hroom⟩

end Libromano.Hashmap
