/- The probe limit. `hashmap_grow` moves the entries without asking for it, and still no probe
   length comes up to `max_probes`: a table of twice the size does not make the longest of them
   longer. -/

import Libromano.Hashmap.Layout
import Libromano.Hashmap.UpdateContract

set_option autoImplicit false
set_option relaxedAutoImplicit false

namespace Libromano.Hashmap

open Libromano.Foundation.RobinHood

/-- A map with a spare bucket in which all probe lengths are below the limit. -/
structure Limited (m : HashMap) : Prop extends WellFormed m where
  spare : Spare m
  below : ProbesBelow m.maxProbes m.buckets

section Growing

variable {m g : HashMap} {limit limit' : ℕ} {buckets : List Bucket}

private theorem ProbesBelow.mono (h : ProbesBelow limit buckets) (hle : limit ≤ limit') :
    ProbesBelow limit' buckets := fun b hb => (h b hb).trans_le hle

private theorem maxProbes_pos (hm : Sound m) (hs : Spare m) : 0 < m.maxProbes := by
  have htwo := hs.1
  rw [hm.maxProbes, Nat.log2_eq_log_two]
  exact Nat.log_pos (by decide) htwo

private theorem Grown.spare (h : Grown m g) (hs : Spare m) : Spare g :=
  ⟨hs.1.trans h.larger, h.kept ▸ hs.2.trans_le h.larger⟩

private theorem Limited.grow (h : Limited m)
    (hrun : hashmapGrow m (hashmapGetNewCapacity m.capacity) none = .ok g) : Limited g := by
  obtain ⟨k, hk, hcap⟩ := h.spare.isCapacity h.toSound
  rw [hcap, hashmapGetNewCapacity_two_pow hk] at hrun
  by_cases hfull : 2 ^ 64 ≤ 2 ^ (k + 1) * sizeofBucket
  · rw [hashmapGrow, if_pos hfull] at hrun
    cases hrun
  have hn : IsCapacity (2 ^ (k + 1)) := ⟨k + 1, isCapacity_double hk hfull, rfl⟩
  have hdvd : m.capacity ∣ 2 ^ (k + 1) := hcap ▸ Nat.pow_dvd_pow 2 (Nat.le_succ k)
  have hle : m.capacity ≤ 2 ^ (k + 1) := Nat.le_of_dvd (Nat.two_pow_pos _) hdvd
  obtain ⟨hgrown, hcap'⟩ := (hashmapGrow_yields h.toSound hn hle (Or.inl hdvd)).of_ok hrun
  have hmoving := (hashmapGrow_moving h.toSound hn hle).of_ok hrun
  have hlimit : m.maxProbes ≤ g.maxProbes := by
    rw [h.maxProbes, hgrown.sound.maxProbes, hcap, hcap', Nat.log2_two_pow, Nat.log2_two_pow]
    exact Nat.le_succ k
  refine ⟨hgrown.wellFormed h.toWellFormed, hgrown.spare h.spare, ?_⟩
  have hlength := h.length
  exact (hmoving.short (by rw [hlength]; exact h.ordered) h.once (by rw [hlength]; exact hdvd)
    m.maxProbes (maxProbes_pos h.toSound h.spare) h.below).mono hlimit

private theorem Limited.growIfLoaded (h : Limited m) (hrun : growIfLoaded m = .ok g) :
    Limited g := by
  unfold Hashmap.growIfLoaded at hrun
  split_ifs at hrun
  · exact h.grow hrun
  · obtain rfl := Except.ok.inj hrun
    exact h

end Growing

def Inserting.buckets : Inserting → List Bucket
  | .present buckets => buckets
  | .placed buckets => buckets
  | .tooFar buckets _ => buckets

def probe (m : HashMap) (sought : Bucket → Key) (entry : Bucket) : Except Fault Inserting :=
  let hash := hashmapHash m entry.key
  insertLoop m.capacity m.maxProbes sought hash (m.capacity + 1) m.buckets
    { entry with hash, probeLength := 0 } (hashmapIndex m.capacity hash)

/-- `g` is a map that a call of `hashmap_grow` leaves in the course of an insertion of `entry`: the
call for the load, the one for an entry too far from home, or one in the insertion of that
entry. -/
inductive Grows : (Bucket → Key) → HashMap → Bucket → HashMap → Prop
  | loaded {sought : Bucket → Key} {m g : HashMap} {entry : Bucket}
      (hload : overMaxLoad m.size m.capacity = true)
      (hgrow : hashmapGrow m (hashmapGetNewCapacity m.capacity) none = .ok g) :
      Grows sought m entry g
  | tooFar {sought : Bucket → Key} {m m₁ g : HashMap} {entry entry' : Bucket}
      {buckets : List Bucket} (hload : growIfLoaded m = .ok m₁)
      (hprobe : probe m₁ sought entry = .ok (.tooFar buckets entry'))
      (hgrow : hashmapGrow { m₁ with buckets } (hashmapGetNewCapacity m₁.capacity) none = .ok g) :
      Grows sought m entry g
  | again {sought : Bucket → Key} {m m₁ m₂ g : HashMap} {entry entry' : Bucket}
      {buckets : List Bucket} (hload : growIfLoaded m = .ok m₁)
      (hprobe : probe m₁ sought entry = .ok (.tooFar buckets entry'))
      (hgrow : hashmapGrow { m₁ with buckets } (hashmapGetNewCapacity m₁.capacity) none = .ok m₂)
      (hagain : Grows (·.key) m₂ entry' g) : Grows sought m entry g

/-- The maps that `hashmap_grow` leaves in the course of `hashmap_insert`. -/
def InsertGrows (m : HashMap) (key : Key) (value : Value) (g : HashMap) : Prop :=
  Grows (fun _ => key) m (bucketNew key value 0 0) g

section Courses

variable {m m₁ m' : HashMap} {entry : Bucket} {sought : Bucket → Key} {r : Inserting} {key : Key}
  {value : Value}

/-- The capacity is the old one or that of a map which `hashmap_grow` has left on the way. -/
def GrownThrough (sought : Bucket → Key) (m : HashMap) (entry : Bucket) (m' : HashMap) : Prop :=
  m'.capacity = m.capacity ∨ ∃ g, Grows sought m entry g ∧ m'.capacity = g.capacity

private theorem growIfLoaded_through (sought : Bucket → Key) (entry : Bucket)
    (hload : growIfLoaded m = .ok m₁) : GrownThrough sought m entry m₁ := by
  rw [growIfLoaded] at hload
  split_ifs at hload with hover
  · exact Or.inr ⟨m₁, .loaded hover hload, rfl⟩
  · obtain rfl := Except.ok.inj hload
    exact Or.inl rfl

private theorem GrownThrough.finish (next : HashMap → Bucket → Except Fault HashMap)
    (hload : growIfLoaded m = .ok m₁)
    (hnext : ∀ m₂ entry' m', next m₂ entry' = .ok m' → GrownThrough (·.key) m₂ entry' m')
    (hrun : (match r with
      | .present buckets => .ok { m₁ with buckets }
      | .placed buckets => .ok { m₁ with buckets, size := m₁.size + 1 }
      | .tooFar buckets entry' => do
        let m ← hashmapGrow { m₁ with buckets } (hashmapGetNewCapacity m₁.capacity) none
        next m entry' : Except Fault HashMap) = .ok m')
    (hprobe : probe m₁ sought entry = .ok r) : GrownThrough sought m entry m' := by
  have hthrough := growIfLoaded_through sought entry hload
  cases r with
  | present buckets =>
    obtain rfl := Except.ok.inj hrun
    exact hthrough
  | placed buckets =>
    obtain rfl := Except.ok.inj hrun
    exact hthrough
  | tooFar buckets entry' =>
    obtain ⟨m₂, hgrow, hagain⟩ := bind_eq_ok.mp hrun
    rcases hnext m₂ entry' m' hagain with hsame | ⟨g, hgrows, hsame⟩
    · exact Or.inr ⟨m₂, .tooFar hload hprobe hgrow, hsame⟩
    · exact Or.inr ⟨g, .again hload hprobe hgrow hgrows, hsame⟩

private theorem hashmapInsertBucket_through (fuel : ℕ)
    (hrun : hashmapInsertBucket fuel m entry = .ok m') :
    GrownThrough (·.key) m entry m' := by
  induction fuel generalizing m m' entry with
  | zero => cases hrun
  | succ fuel ih =>
    obtain ⟨m₁, hload, hrun⟩ := bind_eq_ok.mp hrun
    obtain ⟨r, hprobe, hrun⟩ := bind_eq_ok.mp hrun
    exact .finish (hashmapInsertBucket fuel) hload
      (fun m₂ entry' m' hagain => ih hagain) hrun hprobe

theorem hashmapInsert_through (hrun : hashmapInsert m key value = .ok m') :
    m'.capacity = m.capacity ∨ ∃ g, InsertGrows m key value g ∧ m'.capacity = g.capacity := by
  obtain ⟨m₁, hload, hrun⟩ := bind_eq_ok.mp hrun
  obtain ⟨r, hprobe, hrun⟩ := bind_eq_ok.mp hrun
  exact GrownThrough.finish (hashmapInsertBucket 64) hload
    (fun m₂ entry' m' hagain => hashmapInsertBucket_through 64 hagain) hrun hprobe

end Courses

section Inserting

variable {m m' g : HashMap} {entry entry' : Bucket} {sought : Bucket → Key} {hash : UInt32}
  {buckets : List Bucket} {r : Inserting} {key : Key} {value : Value}

private theorem insertLoop_below {n maxProbes index : ℕ} (fuel : ℕ)
    (hbelow : ProbesBelow maxProbes buckets) (hentry : entry.probeLength.toNat < maxProbes)
    (hrun : insertLoop n maxProbes sought hash fuel buckets entry index = .ok r) :
    ProbesBelow maxProbes r.buckets := by
  induction fuel generalizing buckets entry index with
  | zero => cases hrun
  | succ fuel ih =>
    rw [insertLoop] at hrun
    split at hrun
    · cases hrun
    · next bucket hbucket =>
      have hstored := hbelow bucket (List.mem_of_getElem? hbucket)
      by_cases hlt : bucket.probeLength < entry.probeLength
      · have hset := hbelow.set (i := index) hentry
        simp only [hlt, if_true] at hrun
        split_ifs at hrun with hempty hfound hfar
        · obtain rfl := Except.ok.inj hrun
          exact hset
        · obtain rfl := Except.ok.inj hrun
          exact hbelow
        · obtain rfl := Except.ok.inj hrun
          exact hset
        · exact ih hset (Nat.lt_of_not_le hfar) hrun
      · simp only [hlt, if_false] at hrun
        split_ifs at hrun with hempty hfound hfar
        · obtain rfl := Except.ok.inj hrun
          exact hbelow.set hentry
        · obtain rfl := Except.ok.inj hrun
          exact hbelow
        · obtain rfl := Except.ok.inj hrun
          exact hbelow
        · exact ih hbelow (Nat.lt_of_not_le hfar) hrun

private theorem Limited.probe_tooFar (h : Limited m) (hentry : ¬ bucketIsEmpty entry = true)
    (hsought : (∀ e, sought e = e.key) ∨ ∀ e, sought e = entry.key)
    (hprobe : probe m sought entry = .ok (.tooFar buckets entry')) :
    Limited { m with buckets } ∧ ¬ bucketIsEmpty entry' = true := by
  let entry₁ : Bucket := { entry with hash := hashmapHash m entry.key, probeLength := 0 }
  obtain ⟨r, hrun, hr⟩ := insertLoop_outcome entry₁ sought h.toSound
    (h.spare.isCapacity h.toSound) h.spare.2 hentry rfl rfl hsought
  obtain rfl : r = .tooFar buckets entry' := Except.ok.inj (hrun.symm.trans hprobe)
  have hd : Displaced m entry₁.entry { m with buckets } entry' := hr
  have hwf : WellFormed { m with buckets } := by
    by_cases hstored : Stores m entry₁.entry.key
    · rw [(hd.stored h.toWellFormed hstored).1]
      exact h.toWellFormed
    · exact hd.fresh h.toWellFormed hstored
  have hcard : (entries buckets).card = (entries m.buckets).card := by
    have hshared := congrArg Multiset.card hd.shared
    simpa using hshared
  have hzero : (0 : UInt16).toNat < m.maxProbes := maxProbes_pos h.toSound h.spare
  exact ⟨⟨hwf, ⟨h.spare.1, hcard.trans_lt h.spare.2⟩, insertLoop_below _ h.below hzero hprobe⟩,
    hd.nonempty⟩

private theorem Limited.grows (hgrows : Grows sought m entry g) (h : Limited m)
    (hentry : ¬ bucketIsEmpty entry = true)
    (hsought : (∀ e, sought e = e.key) ∨ ∀ e, sought e = entry.key) : Limited g := by
  induction hgrows with
  | loaded hload hgrow => exact h.grow hgrow
  | tooFar hload hprobe hgrow =>
    exact ((h.growIfLoaded hload).probe_tooFar hentry hsought hprobe).1.grow hgrow
  | again hload hprobe hgrow hagain ih =>
    obtain ⟨hfar, hentry'⟩ := (h.growIfLoaded hload).probe_tooFar hentry hsought hprobe
    exact ih (hfar.grow hgrow) hentry' (Or.inl fun _ => rfl)

private theorem Limited.finish (next : HashMap → Bucket → Except Fault HashMap) (h : Limited m)
    (hentry : ¬ bucketIsEmpty entry = true)
    (hsought : (∀ e, sought e = e.key) ∨ ∀ e, sought e = entry.key)
    (hnext : ∀ m₂ entry' m', Limited m₂ → ¬ bucketIsEmpty entry' = true → next m₂ entry' = .ok m' →
      ProbesBelow m'.maxProbes m'.buckets)
    (hrun : (match r with
      | .present buckets => .ok { m with buckets }
      | .placed buckets => .ok { m with buckets, size := m.size + 1 }
      | .tooFar buckets entry' => do
        let m ← hashmapGrow { m with buckets } (hashmapGetNewCapacity m.capacity) none
        next m entry' : Except Fault HashMap) = .ok m')
    (hprobe : probe m sought entry = .ok r) : ProbesBelow m'.maxProbes m'.buckets := by
  have hzero : (0 : UInt16).toNat < m.maxProbes := maxProbes_pos h.toSound h.spare
  have hbelow := insertLoop_below _ h.below hzero hprobe
  cases r with
  | present buckets =>
    obtain rfl := Except.ok.inj hrun
    exact hbelow
  | placed buckets =>
    obtain rfl := Except.ok.inj hrun
    exact hbelow
  | tooFar buckets entry' =>
    obtain ⟨hfar, hentry'⟩ := h.probe_tooFar hentry hsought hprobe
    obtain ⟨m₂, hgrow, hagain⟩ := bind_eq_ok.mp hrun
    exact hnext m₂ entry' m' (hfar.grow hgrow) hentry' hagain

private theorem hashmapInsertBucket_below (fuel : ℕ) (h : Limited m)
    (hentry : ¬ bucketIsEmpty entry = true)
    (hrun : hashmapInsertBucket fuel m entry = .ok m') : ProbesBelow m'.maxProbes m'.buckets := by
  induction fuel generalizing m m' entry with
  | zero => cases hrun
  | succ fuel ih =>
    obtain ⟨m₁, hload, hrun⟩ := bind_eq_ok.mp hrun
    obtain ⟨r, hprobe, hrun⟩ := bind_eq_ok.mp hrun
    exact (h.growIfLoaded hload).finish (hashmapInsertBucket fuel) hentry
      (Or.inl fun _ => rfl) (fun m₂ entry' m' hm₂ hentry' hagain => ih hm₂ hentry' hagain) hrun
      hprobe

private theorem Limited.insert (h : Limited m) (hkey : key ≠ [])
    (hrun : hashmapInsert m key value = .ok m') : Limited m' := by
  have hinserted := (hashmapInsert_yields h.toSound hkey value).of_ok hrun
  refine ⟨hinserted.wellFormed h.toWellFormed, hinserted.spare h.spare, ?_⟩
  obtain ⟨m₁, hload, hrun⟩ := bind_eq_ok.mp hrun
  obtain ⟨r, hprobe, hrun⟩ := bind_eq_ok.mp hrun
  have hentry : ¬ bucketIsEmpty (bucketNew key value 0 0) = true := mt isEmpty_iff.mp hkey
  exact (h.growIfLoaded hload).finish (hashmapInsertBucket 64) hentry (Or.inr fun _ => rfl)
    (fun m₂ entry' m' hm₂ hentry' hagain => hashmapInsertBucket_below 64 hm₂ hentry' hagain) hrun
    hprobe

private theorem Limited.insertGrows (h : Limited m) (hkey : key ≠ [])
    (hgrows : InsertGrows m key value g) :
    Limited g :=
  Limited.grows hgrows h (mt isEmpty_iff.mp hkey) (Or.inr fun _ => rfl)

end Inserting

section Removing

variable {m m' : HashMap} {key : Key} {buckets buckets' : List Bucket}

private theorem shiftLoop_below {n limit index : ℕ} (fuel : ℕ) (hpos : 0 < limit)
    (hbelow : ProbesBelow limit buckets) (hrun : shiftLoop n fuel buckets index = .ok buckets') :
    ProbesBelow limit buckets' := by
  induction fuel generalizing buckets index with
  | zero => cases hrun
  | succ fuel ih =>
    have hhole : ProbesBelow limit (buckets.set index bucketSetEmpty) := hbelow.set hpos
    rw [shiftLoop] at hrun
    split at hrun
    · cases hrun
    · next shifted hshifted =>
      split_ifs at hrun with hstop
      · obtain rfl := Except.ok.inj hrun
        exact hhole
      · simp only [Bool.or_eq_true, beq_iff_eq, not_or] at hstop
        have hone : (1 : UInt16) ≤ shifted.probeLength := by
          rw [UInt16.le_iff_toNat_le, UInt16.toNat_one]
          exact Nat.pos_of_ne_zero fun h0 => hstop.2 (UInt16.toNat_inj.mp h0)
        have hprobe : (shifted.probeLength - 1).toNat < limit := by
          rw [UInt16.toNat_sub_of_le _ _ hone]
          exact (Nat.sub_le _ _).trans_lt (hhole shifted (List.mem_of_getElem? hshifted))
        have hset : ProbesBelow limit ((buckets.set index bucketSetEmpty).set index
            (bucketSetProbeLength shifted (shifted.probeLength - 1))) := hhole.set hprobe
        exact ih hset hrun

private theorem Limited.remove (h : Limited m) (hrun : hashmapRemove m key = .ok m') :
    Limited m' := by
  obtain ⟨m₁, hrun₁, hremoved⟩ := hashmapRemove_wellFormed h.toWellFormed
    (h.spare.isCapacity h.toSound) key
  obtain rfl : m₁ = m' := Except.ok.inj (hrun₁.symm.trans hrun)
  have hpos := maxProbes_pos h.toSound h.spare
  refine ⟨hremoved.wellFormed h.toWellFormed, hremoved.spare h.spare, ?_⟩
  obtain ⟨found, -, hrun⟩ := bind_eq_ok.mp hrun
  cases found with
  | none =>
    obtain rfl := Except.ok.inj hrun
    exact h.below
  | some index =>
    obtain ⟨buckets, hshift, hrun⟩ := bind_eq_ok.mp hrun
    obtain rfl := Except.ok.inj hrun
    exact shiftLoop_below _ hpos h.below hshift

end Removing

/-- `hashmap_get` looks at no more than `n` buckets: its loop, which looks at one in each round, is
over after `n` rounds. -/
def GetInspects (m : HashMap) (key : Key) (n : ℕ) : Prop :=
  getLoop m.capacity m.buckets key (hashmapHash m key) n
    (hashmapIndex m.capacity (hashmapHash m key)) 0 ≠ .error .diverges

/-- The search of `hashmap_remove` looks at no more than `n` buckets. -/
def SearchInspects (m : HashMap) (key : Key) (n : ℕ) : Prop :=
  removeLoop m.capacity m.buckets key (hashmapHash m key) n
    (hashmapIndex m.capacity (hashmapHash m key)) 0 ≠ .error .diverges

/-- `hashmap_remove` looks at no more than `n` buckets, those of the backward shift included. -/
def RemoveInspects (m : HashMap) (key : Key) (n : ℕ) : Prop :=
  ∃ searched shifted, searched + shifted ≤ n ∧ SearchInspects m key searched ∧
    ∀ index, removeLoop m.capacity m.buckets key (hashmapHash m key) searched
        (hashmapIndex m.capacity (hashmapHash m key)) 0 = .ok (some index) →
      shiftLoop m.capacity shifted m.buckets index ≠ .error .diverges

section Lookups

variable {m : HashMap}

private theorem getLoop_ends (hm : Sound m) (hcap : IsCapacity m.capacity)
    (hbelow : ProbesBelow m.maxProbes m.buckets) (key : Key) (hash : UInt32) (fuel : ℕ) {i j : ℕ}
    (hi : i ≤ m.maxProbes) (hfuel : m.maxProbes < fuel + i) :
    getLoop m.capacity m.buckets key hash fuel (j % m.capacity) i ≠ .error .diverges := by
  induction fuel generalizing i j with
  | zero => omega
  | succ fuel ih =>
    obtain ⟨bucket, hbucket, -⟩ := exists_bucket_at hm hcap j
    have hprobe := hbelow bucket (List.mem_of_getElem? hbucket)
    simp only [getLoop, hbucket, nextIndex_eq hcap]
    split_ifs with hfound hstop
    · simp
    · simp
    · have hnear : ¬ bucket.probeLength.toNat < i := by
        intro hlt
        exact hstop (by simp [hlt])
      exact ih (by omega) (by omega)

private theorem removeLoop_ends (hm : Sound m) (hcap : IsCapacity m.capacity)
    (hbelow : ProbesBelow m.maxProbes m.buckets) (key : Key) (hash : UInt32) (fuel : ℕ) {i j : ℕ}
    (hi : i ≤ m.maxProbes) (hfuel : m.maxProbes < fuel + i) :
    removeLoop m.capacity m.buckets key hash fuel (j % m.capacity) i ≠ .error .diverges := by
  induction fuel generalizing i j with
  | zero => omega
  | succ fuel ih =>
    obtain ⟨bucket, hbucket, -⟩ := exists_bucket_at hm hcap j
    have hprobe := hbelow bucket (List.mem_of_getElem? hbucket)
    simp only [removeLoop, hbucket, nextIndex_eq hcap]
    split_ifs with hstop hfound
    · simp
    · simp
    · have hnear : ¬ bucket.probeLength.toNat < i := by
        intro hlt
        exact hstop (by simp [hlt])
      exact ih (by omega) (by omega)

end Lookups

/-- What the limit means for a map: no 16-bit field has wrapped around, and no search is longer
than one bucket more. -/
structure WithinLimit (m : HashMap) : Prop where
  below : ∀ b ∈ m.buckets, b.probeLength.toNat < m.maxProbes
  fits : m.maxProbes < 2 ^ 16
  distance : ∀ (s : ℕ) (b : Bucket), m.buckets[s]? = some b → bucketIsEmpty b = false →
    (b.probeLength.toNat : ℤ) = (s - b.hash.toNat % m.capacity) % m.capacity
  get : ∀ key, GetInspects m key (m.maxProbes + 1)
  search : ∀ key, SearchInspects m key (m.maxProbes + 1)

private theorem Limited.withinLimit {m : HashMap} (h : Limited m) : WithinLimit m where
  below := h.below
  fits := by
    rw [h.maxProbes]
    exact (h.spare.isCapacity h.toSound).log2_le.trans_lt (by decide)
  distance := (h.toWellFormed.layout h.spare).probe
  get key := by
    have hcap := h.spare.isCapacity h.toSound
    rw [GetInspects, hashmapIndex_eq hcap]
    exact getLoop_ends h.toSound hcap h.below key _ _ (Nat.zero_le _) (Nat.lt_succ_self _)
  search key := by
    have hcap := h.spare.isCapacity h.toSound
    rw [SearchInspects, hashmapIndex_eq hcap]
    exact removeLoop_ends h.toSound hcap h.below key _ _ (Nat.zero_le _) (Nat.lt_succ_self _)

private theorem hashmapGrow_unallocated {m g : HashMap} {n : ℕ} (hnone : m.buckets = [])
    (hrun : hashmapGrow m n none = .ok g) : g.buckets = List.replicate n bucketSetEmpty := by
  rw [hashmapGrow, hnone] at hrun
  split_ifs at hrun
  obtain rfl := Except.ok.inj hrun
  rfl

private theorem hashmapNew_limited {c : UInt64} (hc : c.toNat < 2 ^ 63)
    (hashFunc : Key → UInt32 → UInt32) (hashkey : UInt32) :
    Yields (hashmapNew c hashFunc hashkey) Limited := by
  apply (hashmapNew_yields hc hashFunc hashkey).mono
  rintro m hnew ⟨hwf, hspare, -⟩
  refine ⟨hwf, hspare, ?_⟩
  rw [ProbesBelow, hashmapGrow_unallocated rfl hnew]
  intro b hb
  rw [List.eq_of_mem_replicate hb]
  exact maxProbes_pos hwf.toSound hspare

private theorem Limited.step {m : HashMap} (h : Limited m) {op : Op} (hkey : op.key ≠ [])
    (hop : op.isUpdate = false) : Yields (step m op) Limited := by
  cases op with
  | insert key value =>
    apply (hashmapInsert_yields h.toSound hkey value).mono
    intro m' hrun _
    exact h.insert hkey hrun
  | update key value => cases hop
  | remove key =>
    obtain ⟨m', hrun, -⟩ := hashmapRemove_wellFormed h.toWellFormed
      (h.spare.isCapacity h.toSound) key
    rw [Hashmap.step, hrun, Yields.ok_iff]
    exact h.remove hrun

private theorem Limited.run {ops : List Op} {m : HashMap} (h : Limited m)
    (hops : ∀ op ∈ ops, op.key ≠ [] ∧ op.isUpdate = false) : Yields (run m ops) Limited := by
  induction ops generalizing m with
  | nil => exact h
  | cons op ops ih =>
    have hop := hops op (by simp)
    rw [Hashmap.run, List.foldlM_cons]
    exact (h.step hop.1 hop.2).bind fun m' hm' => ih hm' fun op' hmem => hops op' (by simp [hmem])

/-- Every map that insertions and removals reach, and every one that `hashmap_grow` leaves in the
course of an insertion, keeps within the limit. -/
theorem runNew_withinLimit (c : UInt64) (hc : c.toNat < 2 ^ 63)
    (hashFunc : Key → UInt32 → UInt32) (hashkey : UInt32) (ops : List Op)
    (hops : ∀ op ∈ ops, op.key ≠ [] ∧ op.isUpdate = false) :
    Yields (runNew c hashFunc hashkey ops) fun m =>
      WithinLimit m ∧ ∀ key value g, key ≠ [] → InsertGrows m key value g → WithinLimit g := by
  apply ((hashmapNew_limited hc hashFunc hashkey).bind fun m hm => hm.run hops).mono
  intro m _ hm
  exact ⟨hm.withinLimit, fun key value g hkey hgrows => (hm.insertGrows hkey hgrows).withinLimit⟩

theorem runNew_withinLimit_crowded :
    ∃ m, runNew 4 firstByte 0 crowded = .ok m ∧ WithinLimit m := by
  have hrun : (runNew 4 firstByte 0 crowded >>= fun m => hashmapGet m [8]) =
      .ok (some (.bytes 1 [])) := by decide
  obtain ⟨m, hm, -⟩ := bind_eq_ok.mp hrun
  exact ⟨m, hm, ((runNew_withinLimit 4 (by decide) firstByte 0 crowded (by decide)).of_ok hm).1⟩

/-- Six of eight buckets in a row, all but the first one off their homes. -/
def shifted : List Op :=
  [.insert [8] (.bytes 1 []), .insert [16] (.bytes 2 []), .insert [1] (.bytes 3 []),
    .insert [2] (.bytes 4 []), .insert [3] (.bytes 5 []), .insert [4] (.bytes 6 [])]

/-- Removing the first key of a row shifts all the others back, past `max_probes + 1` buckets; and
a map asked for `2 ^ 63` buckets grows to a single one, where `max_probes` is zero. -/
theorem runNew_not_withinLimit :
    (∃ m, runNew 4 firstByte 0 shifted = .ok m ∧ ¬RemoveInspects m [8] (m.maxProbes + 1)) ∧
      ∃ m, runNew 9223372036854775808 firstByte 0 [.insert [8] (.bytes 1 [])] = .ok m ∧
        ∃ b ∈ m.buckets, ¬b.probeLength.toNat < m.maxProbes := by
  constructor
  · have hrun : (runNew 4 firstByte 0 shifted >>= fun m => .ok (m.maxProbes,
        (List.range 4).all fun k => removeLoop m.capacity m.buckets [8] (hashmapHash m [8]) (k + 1)
          (hashmapIndex m.capacity (hashmapHash m [8])) 0 = .ok (some 0),
        (List.range 5).all fun k => shiftLoop m.capacity k m.buckets 0 = .error .diverges)) =
        .ok (3, true, true) := by decide
    obtain ⟨m, hm, hfacts⟩ := bind_eq_ok.mp hrun
    simp only [Except.ok.injEq, Prod.mk.injEq, List.all_eq_true, decide_eq_true_eq,
      List.mem_range] at hfacts
    obtain ⟨hlimit, hsearch, hshift⟩ := hfacts
    refine ⟨m, hm, ?_⟩
    rintro ⟨searched, shifted, hle, hends, hrest⟩
    rw [hlimit] at hle
    cases searched with
    | zero => exact hends rfl
    | succ searched => exact hrest 0 (hsearch searched (by omega)) (hshift shifted (by omega))
  · have hrun : (runNew 9223372036854775808 firstByte 0 [.insert [8] (.bytes 1 [])] >>= fun m =>
        .ok (decide (∃ b ∈ m.buckets, ¬b.probeLength.toNat < m.maxProbes))) = .ok true := by
      rw [runNew, hashmapNew_wrapped (by decide), bind_ok]
      decide
    obtain ⟨m, hm, hfacts⟩ := bind_eq_ok.mp hrun
    exact ⟨m, hm, by simpa using hfacts⟩

end Libromano.Hashmap
