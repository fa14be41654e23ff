/- A whole insertion: the load check, the probe loop, and growing and inserting again when an
   entry gets too far from home. On every sound map it returns a sound map; on a well-formed one
   it adds the new entry exactly when its key is not stored. -/

import Libromano.Hashmap.Lookup

set_option autoImplicit false
set_option relaxedAutoImplicit false

namespace Libromano.Hashmap

open Libromano.Foundation.RobinHood

/-- The entry that an insertion of `key` makes. -/
def entryFor (m : HashMap) (key : Key) (value : Value) : Entry :=
  ⟨key, value, hashmapHash m key⟩

/-- What an insertion of `a` makes of `m`. -/
structure Inserted (m : HashMap) (a : Entry) (m' : HashMap) : Prop where
  sameHash : m'.hashFunc = m.hashFunc ∧ m'.hashkey = m.hashkey
  sound : Sound m'
  card_le : (entries m'.buckets).card ≤ (entries m.buckets).card + 1
  spare : Spare m → Spare m'
  fresh : WellFormed m → ¬ Stores m a.key →
    WellFormed m' ∧ entries m'.buckets = entries m.buckets + {a}
  stored : WellFormed m → Stores m a.key →
    WellFormed m' ∧ entries m'.buckets = entries m.buckets

private theorem Grown.hash_eq {m m' : HashMap} (h : Grown m m') (key : Key) :
    hashmapHash m' key = hashmapHash m key := by
  rw [hashmapHash, hashmapHash, h.sameHash.1, h.sameHash.2]

private theorem Grown.stores_iff {m m' : HashMap} (h : Grown m m') {key : Key} :
    Stores m' key ↔ Stores m key := by
  rw [Stores, Stores, h.kept]

private theorem Inserted.of_grown {m m₁ m' : HashMap} {a : Entry} (hg : Grown m m₁)
    (h : Inserted m₁ a m') : Inserted m a m' where
  sameHash := ⟨h.sameHash.1.trans hg.sameHash.1, h.sameHash.2.trans hg.sameHash.2⟩
  sound := h.sound
  card_le := by rw [← hg.kept]; exact h.card_le
  spare hm := h.spare ⟨hm.1.trans hg.larger, by
    rw [hg.kept]
    exact lt_of_lt_of_le hm.2 hg.larger⟩
  fresh hm hnew := by
    rw [← hg.kept]
    exact h.fresh (hg.wellFormed hm) (mt hg.stores_iff.mp hnew)
  stored hm hold := by
    rw [← hg.kept]
    exact h.stored (hg.wellFormed hm) (hg.stores_iff.mpr hold)

/-- What the map is when the loop stops with `entry'` too far from home. -/
structure Displaced (m : HashMap) (a : Entry) (m₁ : HashMap) (entry' : Bucket) : Prop where
  sameHash : m₁.hashFunc = m.hashFunc ∧ m₁.hashkey = m.hashkey
  sound : Sound m₁
  sameCapacity : m₁.capacity = m.capacity
  nonempty : ¬ bucketIsEmpty entry' = true
  shared : entries m₁.buckets + {entry'.entry} = entries m.buckets + {a}
  fresh : WellFormed m → ¬ Stores m a.key → WellFormed m₁
  stored : WellFormed m → Stores m a.key → m₁ = m ∧ entry'.entry = a

/-- `m` is a map that has passed the load check. -/
def Inserting.Outcome (m : HashMap) (a : Entry) : Inserting → Prop
  | .present buckets => Inserted m a { m with buckets }
  | .placed buckets => ∀ m₀, Loaded m₀ m → Inserted m₀ a { m with buckets, size := m.size + 1 }
  | .tooFar buckets entry' => Displaced m a { m with buckets } entry'

theorem Stores.of_add {m : HashMap} {buckets : List Bucket} {a b : Entry}
    (honce : ((entries m.buckets).map Entry.key).Nodup) (hnew : ¬ Stores m a.key)
    (hshared : entries buckets + {b} = entries m.buckets + {a}) :
    ((entries buckets + {b}).map Entry.key).Nodup := by
  rw [hshared, Multiset.map_add, Multiset.map_singleton, add_comm, Multiset.singleton_add,
    Multiset.nodup_cons]
  exact ⟨hnew, honce⟩

private theorem wellFormed_of_shared {m : HashMap} (hm : WellFormed m) {a : Entry}
    (ha : a.hash = hashmapHash m a.key) (hnew : ¬ Stores m a.key) {buckets : List Bucket}
    {size : ℕ} {rest : Multiset Entry} (hsound : Sound { m with buckets, size })
    (hord : Ordered m.capacity homeOf (slots buckets))
    (hshared : entries buckets + rest = entries m.buckets + {a}) :
    WellFormed { m with buckets, size } where
  toSound := hsound
  hashed b hb := by
    have hmem : b ∈ entries m.buckets + {a} :=
      hshared ▸ Multiset.mem_add.mpr (Or.inl hb)
    rcases Multiset.mem_add.mp hmem with hb | hb
    · exact hm.hashed b hb
    · rw [Multiset.mem_singleton.mp hb]
      exact ha
  once := by
    have h := Stores.of_add (b := a) hm.once hnew rfl
    rw [← hshared, Multiset.map_add] at h
    exact Multiset.nodup_of_le (Multiset.le_add_right _ _) h
  ordered := hord

section Loop

variable {m : HashMap} {entry : Bucket} {sought : Bucket → Key} {r : Inserting} {d : ℕ}

/-- A key that is not stored is not met on the walk, whichever of the two keys
is compared. -/
private theorem insertLoop_fresh (hcap : IsCapacity m.capacity) (hwf : WellFormed m)
    (hentry : ¬ bucketIsEmpty entry = true) (hprobe : entry.probeLength = 0)
    (hsought : (∀ e, sought e = e.key) ∨ ∀ e, sought e = entry.key)
    (hvac : slots m.buckets (homeOf entry.entry + d) = none) (hd : d < m.capacity)
    (hrun : insertLoop m.capacity m.maxProbes sought entry.hash (m.capacity + 1) m.buckets entry
      (homeOf entry.entry % m.capacity) = .ok r)
    (hnew : ¬ Stores m entry.key) :
    ∃ buckets', (r = .placed buckets' ∨ ∃ entry', r = .tooFar buckets' entry') ∧
      Ordered m.capacity homeOf (slots buckets') := by
  refine insertLoop_ordered hcap (hwf.maxProbes ▸ hcap.log2_le) (m.capacity + 1) entry hwf.length hentry
    hvac hd hwf.ordered ?_ ?_ ?_ hrun
  · rw [hprobe]
    exact Carried.at_home hcap.pos rfl
  · rw [hprobe]
    exact Nat.zero_le _
  · rcases hsought with hown | hconst
    · exact Or.inl ⟨hown, Stores.of_add hwf.once hnew rfl⟩
    · refine Or.inr ⟨entry.key, hconst, fun i _ b q hb hkey => hnew ?_⟩
      rw [Stores, ← hkey]
      exact Multiset.mem_map_of_mem _ (mem_entries_iff_slots.mpr ⟨_, _, hb⟩)

private theorem insertLoop_found (hcap : IsCapacity m.capacity) (hwf : WellFormed m)
    (hprobe : entry.probeLength = 0) (hhash : entry.hash = hashmapHash m entry.key)
    (hsought : (∀ e, sought e = e.key) ∨ ∀ e, sought e = entry.key)
    (hrun : insertLoop m.capacity m.maxProbes sought entry.hash (m.capacity + 1) m.buckets entry
      (homeOf entry.entry % m.capacity) = .ok r)
    (hold : Stores m entry.key) :
    r = .present m.buckets ∨
      ∃ entry', entry'.entry = entry.entry ∧ r = .tooFar m.buckets entry' := by
  obtain ⟨a, ha, hkey⟩ := Multiset.mem_map.mp hold
  have hsame : a.hash = entry.hash := by rw [hwf.hashed a ha, hkey, hhash]
  have hhome : homeOf entry.entry = homeOf a := by rw [homeOf, homeOf, hsame]; rfl
  obtain ⟨p, hp⟩ := exists_place (by rw [hwf.length]; exact hwf.ordered) ha
  have hnear := (hwf.ordered.standing hp).near
  have hsought' : ∀ e : Bucket, e.key = a.key → sought e = a.key := by
    intro e he
    rcases hsought with hown | hconst
    · rw [hown, he]
    · rw [hconst, hkey]
  have hloop := insertLoop_stored (i := 0) hcap (hwf.maxProbes ▸ hcap.log2_le)
    (m.capacity + 1) entry hwf.length hwf.ordered hwf.once hp (Nat.zero_le p) (by omega)
    (by rw [hprobe]; rfl) hkey.symm hsame hsought' (by omega)
  rw [add_zero, ← hhome, hrun] at hloop
  simpa using hloop

theorem insertLoop_outcome (entry : Bucket) (sought : Bucket → Key) (hm : Sound m)
    (hcap : IsCapacity m.capacity)
    (hroom : (entries m.buckets).card < m.capacity)
    (hentry : ¬ bucketIsEmpty entry = true) (hprobe : entry.probeLength = 0)
    (hhash : entry.hash = hashmapHash m entry.key)
    (hsought : (∀ e, sought e = e.key) ∨ ∀ e, sought e = entry.key) :
    ∃ r, insertLoop m.capacity m.maxProbes sought entry.hash (m.capacity + 1) m.buckets entry
        (hashmapIndex m.capacity entry.hash) = .ok r ∧ r.Outcome m entry.entry := by
  rw [hashmapIndex_eq hcap, show entry.hash.toNat = homeOf entry.entry from rfl]
  obtain ⟨d, hd, hvac⟩ := exists_vacant_ahead (hm.length ▸ hroom) (homeOf entry.entry)
  rw [hm.length] at hd
  obtain ⟨r, hrun, hkept⟩ := insertLoop_kept m.maxProbes sought entry.hash hcap
    (m.capacity + 1) entry hm.length hentry hvac (by omega)
  refine ⟨r, hrun, ?_⟩
  have hfresh := fun hwf hnew =>
    insertLoop_fresh hcap hwf hentry hprobe hsought hvac hd hrun hnew
  have hstored := fun hwf hold => insertLoop_found hcap hwf hprobe hhash hsought hrun hold
  have hsound : ∀ {buckets : List Bucket} {size : ℕ}, buckets.length = m.capacity →
      size = (entries buckets).card → Sound { m with buckets, size } :=
    fun hlen hsize => ⟨hlen, hm.capacity, hm.maxProbes, hsize⟩
  cases r with
  | present buckets =>
    obtain ⟨hlen, a, hshared⟩ := hkept
    have hcard : (entries buckets).card = (entries m.buckets).card := by
      have := congrArg Multiset.card hshared
      simpa using this
    refine ⟨⟨rfl, rfl⟩, hsound hlen (hm.size.trans hcard.symm), ?_, fun hs => ⟨hs.1, ?_⟩,
      fun hwf hnew => ?_, fun hwf hold => ?_⟩
    · exact hcard.le.trans (Nat.le_succ _)
    · exact hcard.trans_lt hs.2
    · obtain ⟨b, hb | ⟨e, hb⟩, -⟩ := hfresh hwf hnew <;> cases hb
    · rcases hstored hwf hold with hb | ⟨e, -, hb⟩
      · obtain rfl := Inserting.present.inj hb
        exact ⟨hwf, rfl⟩
      · cases hb
  | placed buckets =>
    obtain ⟨hlen, hshared⟩ := hkept
    have hcard : (entries buckets).card = (entries m.buckets).card + 1 := by
      rw [hshared, Multiset.card_add, Multiset.card_singleton]
    have hs' : Sound { m with buckets, size := m.size + 1 } :=
      hsound hlen (by rw [hm.size, hcard])
    intro m₀ hload
    refine ⟨hload.sameHash, hs', ?_, fun hs => ⟨hs.1.trans hload.larger, ?_⟩,
      fun hwf₀ hnew₀ => ?_, fun hwf₀ hold₀ => ?_⟩
    · rw [hcard, hload.kept]
    · exact hcard.trans_lt (hload.spare hs)
    · have hnew : ¬ Stores m entry.key := mt hload.stores_iff.mp hnew₀
      have hwf := hload.wellFormed hwf₀
      obtain ⟨b, hb, hord⟩ := hfresh hwf hnew
      obtain rfl : buckets = b := by
        rcases hb with hb | ⟨e, hb⟩
        · exact Inserting.placed.inj hb
        · cases hb
      rw [← hload.kept]
      have hshared₀ : entries buckets + 0 = entries m.buckets + {entry.entry} := by
        rw [add_zero, hshared]
      exact ⟨wellFormed_of_shared hwf hhash hnew hs' hord hshared₀, hshared⟩
    · rcases hstored (hload.wellFormed hwf₀) (hload.stores_iff.mpr hold₀) with hb | ⟨e, -, hb⟩ <;>
        cases hb
  | tooFar buckets entry' =>
    obtain ⟨hlen, hne, hshared⟩ := hkept
    have hcard : (entries buckets).card = (entries m.buckets).card := by
      have := congrArg Multiset.card hshared
      simpa using this
    have hs' : Sound { m with buckets } := hsound hlen (hm.size.trans hcard.symm)
    refine ⟨⟨rfl, rfl⟩, hs', rfl, hne, hshared, fun hwf hnew => ?_, fun hwf hold => ?_⟩
    · obtain ⟨b, hb, hord⟩ := hfresh hwf hnew
      obtain rfl : buckets = b := by
        rcases hb with hb | ⟨e, hb⟩
        · cases hb
        · exact (Inserting.tooFar.inj hb).1
      exact wellFormed_of_shared hwf hhash hnew hs' hord hshared
    · rcases hstored hwf hold with hb | ⟨e, he, hb⟩
      · cases hb
      · obtain ⟨rfl, rfl⟩ := Inserting.tooFar.inj hb
        exact ⟨rfl, he⟩

end Loop

/-- The displaced entry is hashed anew, which on a well-formed map changes
nothing. -/
private theorem Displaced.inserted {m m₁ m₂ m' : HashMap} {a : Entry} {entry' : Bucket}
    (ha : a.hash = hashmapHash m a.key) (h : Displaced m a m₁ entry') (hg : Grown m₁ m₂)
    (hins : Inserted m₂ (entryFor m₂ entry'.key entry'.value) m') : Inserted m a m' := by
  have hcard : (entries m₁.buckets).card = (entries m.buckets).card := by
    have := congrArg Multiset.card h.shared
    simpa using this
  have hins₁ := Inserted.of_grown hg hins
  have hhash : ∀ key, hashmapHash m₂ key = hashmapHash m key := by
    intro key
    rw [hg.hash_eq, hashmapHash, h.sameHash.1, h.sameHash.2, hashmapHash]
  have hentry : entry'.hash = hashmapHash m entry'.key →
      entryFor m₂ entry'.key entry'.value = entry'.entry := by
    intro heq
    rw [entryFor, hhash, ← heq]
    rfl
  refine ⟨⟨hins₁.sameHash.1.trans h.sameHash.1, hins₁.sameHash.2.trans h.sameHash.2⟩,
    hins.sound, by rw [← hcard]; exact hins₁.card_le, fun hs => hins₁.spare ?_,
    fun hwf hnew => ?_, fun hwf hold => ?_⟩
  · exact ⟨h.sameCapacity ▸ hs.1, by rw [hcard, h.sameCapacity]; exact hs.2⟩
  · have hwf₁ := h.fresh hwf hnew
    have hrehash : entry'.hash = hashmapHash m entry'.key := by
      have hmem : entry'.entry ∈ entries m.buckets + {a} := by
        rw [← h.shared]
        simp
      rcases Multiset.mem_add.mp hmem with hb | hb
      · exact hwf.hashed _ hb
      · have hab := Multiset.mem_singleton.mp hb
        rw [← hab] at ha
        exact ha
    have honce := Stores.of_add hwf.once hnew h.shared
    have hnew₁ : ¬ Stores m₁ entry'.key := by
      rw [Multiset.map_add, Multiset.map_singleton, add_comm, Multiset.singleton_add,
        Multiset.nodup_cons] at honce
      exact honce.1
    obtain ⟨hwf', hent⟩ := hins₁.fresh hwf₁ hnew₁
    rw [hentry hrehash, h.shared] at hent
    exact ⟨hwf', hent⟩
  · obtain ⟨rfl, hsame⟩ := h.stored hwf hold
    exact hins₁.stored hwf (by rw [← hsame] at hold; exact hold)

private theorem Inserting.Outcome.continue {m m₁ : HashMap} (hload : Loaded m m₁) {a : Entry}
    (ha : a.hash = hashmapHash m₁ a.key) {next : HashMap → Bucket → Except Fault HashMap}
    (hnext : ∀ m₂ entry', m₁.capacity.log2 < m₂.capacity.log2 → Sound m₂ →
      ¬ bucketIsEmpty entry' = true →
      Yields (next m₂ entry') (Inserted m₂ (entryFor m₂ entry'.key entry'.value)))
    {r : Inserting} (hr : r.Outcome m₁ a) :
    Yields (match r with
      | .present buckets => .ok { m₁ with buckets }
      | .placed buckets => .ok { m₁ with buckets, size := m₁.size + 1 }
      | .tooFar buckets entry' => do
        let m ← hashmapGrow { m₁ with buckets } (hashmapGetNewCapacity m₁.capacity) none
        next m entry') (Inserted m a) := by
  have hgrown := hload.toGrown
  cases r with
  | present buckets => exact Inserted.of_grown hgrown hr
  | placed buckets => exact hr m hload
  | tooFar buckets entry' =>
    have hd : Displaced m₁ a { m₁ with buckets } entry' := hr
    refine (hashmapGrow_next hd.sound).bind ?_
    rintro m₂ ⟨hg, hlt, hlog⟩
    have h0 : m₁.capacity ≠ 0 := hload.isCapacity.pos.ne'
    have hlog' : m₁.capacity.log2 < m₂.capacity.log2 := by
      rw [hlog, if_neg h0]
      exact Nat.lt_succ_self _
    apply (hnext m₂ entry' hlog' hg.sound hd.nonempty).mono
    intro m' _ hins
    exact Inserted.of_grown hgrown (hd.inserted ha hg hins)

private theorem hashmapInsertBucket_yields (fuel : ℕ) {m : HashMap} {entry : Bucket} (hm : Sound m)
    (hentry : ¬ bucketIsEmpty entry = true) (hfuel : 58 < m.capacity.log2 + fuel) :
    Yields (hashmapInsertBucket fuel m entry)
      (Inserted m (entryFor m entry.key entry.value)) := by
  induction fuel generalizing m entry with
  | zero =>
    rcases hm.capacity with h0 | hcap
    · rw [h0, Nat.log2_zero] at hfuel
      omega
    · have := hcap.log2_le
      omega
  | succ fuel ih =>
    apply (growIfLoaded_yields hm).bind
    intro m₁ hload
    have hlog : m.capacity.log2 ≤ m₁.capacity.log2 := by
      rw [Nat.log2_eq_log_two, Nat.log2_eq_log_two]
      exact Nat.log_mono_right hload.larger
    let entry₁ : Bucket := { entry with hash := hashmapHash m₁ entry.key, probeLength := 0 }
    obtain ⟨r, hrun, hr⟩ := insertLoop_outcome entry₁ (·.key) hload.sound
      hload.isCapacity hload.room hentry rfl rfl (Or.inl fun _ => rfl)
    have ha : entry₁.entry = entryFor m entry.key entry.value := by
      rw [entryFor, ← hload.hash_eq]
      rfl
    have hrun' : insertLoop m₁.capacity m₁.maxProbes (·.key) (hashmapHash m₁ entry.key)
        (m₁.capacity + 1) m₁.buckets
        { entry with hash := hashmapHash m₁ entry.key, probeLength := 0 }
        (hashmapIndex m₁.capacity (hashmapHash m₁ entry.key)) = .ok r := hrun
    simp only [hrun', bind_ok]
    rw [← ha]
    exact Inserting.Outcome.continue hload rfl
      (fun m₂ entry' hlt hs hne => ih hs hne (by omega)) hr

theorem hashmapInsert_yields {m : HashMap} (hm : Sound m) {key : Key} (hkey : key ≠ [])
    (value : Value) : Yields (hashmapInsert m key value) (Inserted m (entryFor m key value)) := by
  apply (growIfLoaded_yields hm).bind
  intro m₁ hload
  let entry := bucketNew key value (hashmapHash m₁ key) 0
  obtain ⟨r, hrun, hr⟩ := insertLoop_outcome entry (fun _ => key) hload.sound
    hload.isCapacity hload.room (mt isEmpty_iff.mp hkey) rfl rfl (Or.inr fun _ => rfl)
  have ha : entry.entry = entryFor m key value := by
    rw [entryFor, ← hload.hash_eq]
    rfl
  have hrun' : insertLoop m₁.capacity m₁.maxProbes (fun _ => key) (hashmapHash m₁ key)
      (m₁.capacity + 1) m₁.buckets (bucketNew key value (hashmapHash m₁ key) 0)
      (hashmapIndex m₁.capacity (hashmapHash m₁ key)) = .ok r := hrun
  simp only [hrun', bind_ok]
  rw [← ha]
  exact Inserting.Outcome.continue hload rfl
    (fun m₂ entry' _ hs hne => hashmapInsertBucket_yields 64 hs hne (by omega)) hr

end Libromano.Hashmap
