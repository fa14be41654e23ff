/- When an update does what it is for: the new value is found, nothing else changes, and a removal
   takes it out again. On the states that insertions and removals reach this is decided by the way
   from the home of the key to the first empty bucket, and for a stored key by the two value
   sizes. -/

import Libromano.Hashmap.Update

set_option autoImplicit false
set_option relaxedAutoImplicit false

namespace Libromano.Hashmap

open Libromano.Foundation.RobinHood

variable {m : HashMap} {key : Key} {value : Value}

structure UpdateMeets (m : HashMap) (key : Key) (value : Value) (m' : HashMap) : Prop where
  get : hashmapGet m' key = .ok (some value)
  others : ∀ other, other ≠ key → other ≠ [] → hashmapGet m' other = hashmapGet m other
  size : m'.size = if hashmapGet m key = .ok none then m.size + 1 else m.size
  remove : ∃ m'', hashmapRemove m' key = .ok m'' ∧ hashmapGet m'' key = .ok none ∧
    m''.size + 1 = m'.size

def UpdateCorrect (m : HashMap) (key : Key) (value : Value) : Prop :=
  ∃ m', hashmapUpdate m key value = .ok m' ∧ UpdateMeets m key value m'

/-- The key is stored and its value can be written over, or it is not stored
and the way to the first empty bucket is open. -/
def Updatable (m : HashMap) (key : Key) (value : Value) : Prop :=
  (∃ b ∈ m.buckets, b.key = key ∧ Overwrites b.value value) ∨
    (∀ b ∈ m.buckets, b.key ≠ key) ∧ ∃ d, OpenPath m key d

theorem stores_iff (hkey : key ≠ []) : Stores m key ↔ ∃ b ∈ m.buckets, b.key = key := by
  rw [Stores, Multiset.mem_map]
  constructor
  · rintro ⟨a, ha, rfl⟩
    obtain ⟨b, hb, -, rfl⟩ := mem_entries.mp ha
    exact ⟨b, hb, rfl⟩
  · rintro ⟨b, hb, rfl⟩
    exact ⟨b.entry, mem_entries.mpr ⟨b, hb, mt isEmpty_iff.mp hkey, rfl⟩, rfl⟩

private theorem WellFormed.get_congr {m' : HashMap} (hm : WellFormed m) (hm' : WellFormed m')
    (hcap : IsCapacity m.capacity) (hcap' : IsCapacity m'.capacity) (hkey : key ≠ [])
    (hsame : ∀ a : Entry, a.key = key → (a ∈ entries m'.buckets ↔ a ∈ entries m.buckets)) :
    hashmapGet m' key = hashmapGet m key := by
  by_cases hold : Stores m key
  · obtain ⟨a, ha, rfl⟩ := Multiset.mem_map.mp hold
    rw [hashmapGet_stored hm ha, hashmapGet_stored hm' ((hsame a rfl).mpr ha)]
  · have hold' : ¬ Stores m' key := by
      intro h
      obtain ⟨a, ha, rfl⟩ := Multiset.mem_map.mp h
      exact hold (Stores.of_mem ((hsame a rfl).mp ha))
    rw [hashmapGet_absent hm.toSound hcap hkey hold, hashmapGet_absent hm'.toSound hcap' hkey hold']

private theorem remove_meets (hm : WellFormed m) {a : Entry} (ha : a ∈ entries m.buckets)
    (hkey : a.key ≠ []) :
    ∃ m', hashmapRemove m a.key = .ok m' ∧ hashmapGet m' a.key = .ok none ∧
      m'.size + 1 = m.size := by
  obtain ⟨m', hrun, hrem⟩ := hashmapRemove_stored hm ha
  obtain ⟨hm', hshared⟩ := hrem.stored a hm ha rfl
  have hcap : IsCapacity m'.capacity :=
    hrem.sameCapacity ▸ WellFormed.isCapacity_of_stores hm.toSound (Stores.of_mem ha)
  have hgone : ¬ Stores m' a.key := by
    have honce := hm.once
    rw [← hshared, Multiset.map_add, Multiset.map_singleton, add_comm, Multiset.singleton_add,
      Multiset.nodup_cons] at honce
    exact honce.1
  refine ⟨m', hrun, hashmapGet_absent hm'.toSound hcap hkey hgone, ?_⟩
  rw [hm'.size, hm.size, ← hshared, Multiset.card_add, Multiset.card_singleton]

private theorem updateCorrect_stored (hm : WellFormed m) {a : Entry} (ha : a ∈ entries m.buckets)
    (hkey : a.key ≠ []) : UpdateCorrect m a.key value ↔ Overwrites a.value value := by
  obtain ⟨m', hover, hrun⟩ := hashmapUpdate_stored hm ha value
  have hcap := WellFormed.isCapacity_of_stores hm.toSound (Stores.of_mem ha)
  have hmem : ∀ v, { a with value := v } ∈ entries (m' v).buckets := by
    intro v
    have h : { a with value := v } ∈ entries (m' v).buckets + {a} := by
      rw [(hover v).shared]
      simp
    rcases Multiset.mem_add.mp h with h | h
    · exact h
    · have hsame : entries (m' v).buckets = entries m.buckets := by
        have hshared := (hover v).shared
        rw [Multiset.mem_singleton.mp h] at hshared
        exact add_right_cancel hshared
      rw [Multiset.mem_singleton.mp h, hsame]
      exact ha
  constructor
  · rintro ⟨m₁, hm₁, hmeets⟩
    rw [hrun] at hm₁
    cases hv : overwritten a.value value with
    | error e => simp [hv, Except.map] at hm₁
    | ok v =>
      rw [hv] at hm₁
      obtain rfl := Except.ok.inj hm₁
      have hget := hashmapGet_stored (hover v).wellFormed (hmem v)
      have := hget.symm.trans hmeets.get
      simp only [Except.ok.injEq, Option.some.injEq] at this
      subst this
      exact overwritten_eq_ok_iff.mp hv
  · intro hok
    rw [← overwritten_eq_ok_iff] at hok
    have h := hover value
    have hcap' : IsCapacity (m' value).capacity := h.sameCapacity ▸ hcap
    refine ⟨m' value, by rw [hrun, hok]; rfl, hashmapGet_stored h.wellFormed (hmem value),
      fun other hother hne => ?_, ?_,
      remove_meets (a := { a with value := value }) h.wellFormed (hmem value) hkey⟩
    · apply hm.get_congr h.wellFormed hcap hcap' hne
      intro b hb
      have hab : b ≠ a := by
        rintro rfl
        exact hother hb.symm
      have hab' : b ≠ { a with value := value } := by
        rintro rfl
        exact hother hb.symm
      have hiff := congrArg (b ∈ ·) h.shared
      simpa [hab, hab'] using hiff
    · rw [hashmapGet_stored hm ha, h.sameSize]
      simp

private theorem getLoop_fails (hcap : IsCapacity m.capacity) {i₀ : ℕ}
    (hother : ∀ i ≤ i₀, ∃ b, bucketAt m key i = some b ∧
      ¬ bucketCompareKey b key (hashmapHash m key) = true)
    (hnear : ∃ b, bucketAt m key i₀ = some b ∧ b.probeLength.toNat < i₀) (fuel : ℕ) {i : ℕ}
    (hi : i ≤ i₀) (hfuel : i₀ < fuel + i) :
    getLoop m.capacity m.buckets key (hashmapHash m key) fuel
      (((hashmapHash m key).toNat + i) % m.capacity) i = .ok none := by
  induction fuel generalizing i with
  | zero => omega
  | succ fuel ih =>
    obtain ⟨b, hb, hne⟩ := hother i hi
    have hb' := hb
    rw [bucketAt] at hb'
    rw [getLoop, nextIndex_eq hcap]
    simp only [hb']
    rw [if_neg hne]
    rcases Nat.eq_or_lt_of_le hi with rfl | hi
    · obtain ⟨c, hc, hlt⟩ := hnear
      obtain rfl : b = c := Option.some.inj (hb.symm.trans hc)
      simp [hlt]
    · split_ifs with hstop
      · rfl
      · exact ih (i := i + 1) hi (by omega)

private theorem removeLoop_fails (hcap : IsCapacity m.capacity) {i₀ : ℕ}
    (hother : ∀ i < i₀, ∃ b, bucketAt m key i = some b ∧
      ¬ bucketCompareKey b key (hashmapHash m key) = true)
    (hnear : ∃ b, bucketAt m key i₀ = some b ∧ b.probeLength.toNat < i₀) (fuel : ℕ) {i : ℕ}
    (hi : i ≤ i₀) (hfuel : i₀ < fuel + i) :
    removeLoop m.capacity m.buckets key (hashmapHash m key) fuel
      (((hashmapHash m key).toNat + i) % m.capacity) i = .ok none := by
  induction fuel generalizing i with
  | zero => omega
  | succ fuel ih =>
    rw [removeLoop, nextIndex_eq hcap]
    rcases Nat.eq_or_lt_of_le hi with rfl | hi
    · obtain ⟨b, hb, hlt⟩ := hnear
      rw [bucketAt] at hb
      simp [hb, hlt]
    · obtain ⟨b, hb, hne⟩ := hother i hi
      rw [bucketAt] at hb
      simp only [hb]
      split_ifs with hstop
      · rfl
      · exact ih (i := i + 1) hi (by omega)

private theorem hash_filledAt (d : ℕ) (other : Key) :
    hashmapHash (filledAt m key value d) other = hashmapHash m other := rfl

private theorem bucketAt_filledAt {d i : ℕ} (hd : d < m.capacity)
    (hi : i < d) : bucketAt (filledAt m key value d) key i = bucketAt m key i := by
  rw [bucketAt, bucketAt, hash_filledAt]
  refine List.getElem?_set_ne fun h => ?_
  have := turn_injective hd (by omega) h
  omega

private theorem bucketAt_filled (hm : Sound m) (hcap : IsCapacity m.capacity) (d : ℕ) :
    bucketAt (filledAt m key value d) key d =
      some (bucketNew key value (hashmapHash m key) (UInt32.ofNat d)) := by
  rw [bucketAt, hash_filledAt]
  refine List.getElem?_set_self ?_
  rw [hm.length]
  exact Nat.mod_lt _ hcap.pos

/-- If lookups and removals find the key where the update has put it, the way
there was open. -/
private theorem openPath_of_meets (hm : Sound m) (hcap : IsCapacity m.capacity) (hkey : key ≠ [])
    (hnew : ¬ Stores m key) {d : ℕ} (h : FirstEmpty m key d)
    (hmeets : UpdateMeets m key value (filledAt m key value d)) : OpenPath m key d := by
  have hd := h.lt hcap
  have hother : ∀ i < d, ∃ b, bucketAt (filledAt m key value d) key i = some b ∧
      ¬ bucketCompareKey b key (hashmapHash m key) = true := by
    intro i hi
    obtain ⟨b, hb, -⟩ := h.before i hi
    exact ⟨b, by rw [bucketAt_filledAt hd hi, hb], not_compareKey hkey hnew hb⟩
  have hlookup : ∀ i₀ < d, i₀ ≤ 65536 → ∀ b, bucketAt m key i₀ = some b →
      i₀ ≤ b.probeLength.toNat := by
    intro i₀ hi₀ hle b hb
    by_contra hlt
    have hfail := getLoop_fails (m := filledAt m key value d) hcap
      (fun i (hi : i ≤ i₀) => hother i (by omega))
      ⟨b, by rw [bucketAt_filledAt hd hi₀, hb], by omega⟩ (probeLengths + 1) (i := 0)
      (Nat.zero_le _) (by rw [probeLengths]; omega)
    have hget := hmeets.get
    rw [hashmapGet, hashmapIndex_eq (show IsCapacity (filledAt m key value d).capacity from hcap)]
      at hget
    rw [add_zero, hget] at hfail
    simp at hfail
  have hshort : d ≤ 65536 := by
    by_contra hlong
    obtain ⟨b, hb, -⟩ := h.before 65536 (by omega)
    have := hlookup 65536 (by omega) le_rfl b hb
    have := b.probeLength.toNat_lt
    omega
  refine ⟨h, fun i hi b hb => hlookup i hi (by omega) b hb, ?_⟩
  by_contra hlong
  -- at 65536 places the probe length has become zero, and the removal stops there
  obtain ⟨m'', hrem, -, hsize⟩ := hmeets.remove
  have hfail := removeLoop_fails (m := filledAt m key value d) hcap hother
    ⟨_, bucketAt_filled hm hcap d, by
      have := (bucketNew key value (hashmapHash m key) (UInt32.ofNat d)).probeLength.toNat_lt
      omega⟩ (probeLengths + 1) (i := 0) (Nat.zero_le _) (by rw [probeLengths]; omega)
  rw [add_zero] at hfail
  rw [hashmapRemove, hashmapIndex_eq (show IsCapacity (filledAt m key value d).capacity from hcap)]
    at hrem
  simp only [hfail, bind_ok] at hrem
  obtain rfl := Except.ok.inj hrem
  omega

private theorem updateCorrect_absent (hm : WellFormed m) (hkey : key ≠ [])
    (hnew : ¬ Stores m key) : UpdateCorrect m key value ↔ ∃ d, OpenPath m key d := by
  rcases hm.capacity with h0 | hcap
  · have hnil : m.buckets = [] := List.eq_nil_of_length_eq_zero (hm.length.trans h0)
    constructor
    · rintro ⟨m', hrun, -⟩
      simp [hashmapUpdate, updateLoop, hnil] at hrun
    · rintro ⟨d, h⟩
      obtain ⟨b, hb, -⟩ := h.empty
      simp [bucketAt, hnil] at hb
  constructor
  · rintro ⟨m', hrun, hmeets⟩
    rcases firstEmpty_or_full hm.toSound hcap key with ⟨d, h⟩ | hfull
    · rw [hashmapUpdate_fill hcap hkey hnew h] at hrun
      obtain rfl := Except.ok.inj hrun
      exact ⟨d, openPath_of_meets hm.toSound hcap hkey hnew h hmeets⟩
    · rw [hashmapUpdate_diverges hcap hkey hnew hfull] at hrun
      simp at hrun
  · rintro ⟨d, h⟩
    have hwf := filledAt_wellFormed hm hcap hkey hnew value h
    have hent := filledAt_entries hkey value h.toFirstEmpty
    have hmem : entryFor m key value ∈ entries (filledAt m key value d).buckets := by
      rw [hent]
      simp
    refine ⟨_, hashmapUpdate_fill hcap hkey hnew h.toFirstEmpty value,
      hashmapGet_stored hwf hmem, fun other hother hne => ?_, ?_, remove_meets hwf hmem hkey⟩
    · apply hm.get_congr hwf hcap hcap hne
      intro b hb
      have hab : b ≠ entryFor m key value := by
        rintro rfl
        exact hother hb.symm
      rw [hent, Multiset.mem_add, Multiset.mem_singleton, or_iff_left hab]
    · rw [hashmapGet_absent hm.toSound hcap hkey hnew]
      simp [filledAt]

private theorem WellFormed.updateCorrect_iff (hm : WellFormed m) (hkey : key ≠ []) :
    UpdateCorrect m key value ↔ Updatable m key value := by
  by_cases hold : Stores m key
  · obtain ⟨a, ha, rfl⟩ := Multiset.mem_map.mp hold
    rw [updateCorrect_stored hm ha hkey]
    constructor
    · intro hok
      obtain ⟨b, hb, -, rfl⟩ := mem_entries.mp ha
      exact Or.inl ⟨b, hb, rfl, hok⟩
    · rintro (⟨b, hb, hbkey, hok⟩ | ⟨hnone, -⟩)
      · have hmem : b.entry ∈ entries m.buckets := by
          refine mem_entries.mpr ⟨b, hb, ?_, rfl⟩
          rw [ne_eq, isEmpty_iff, hbkey]
          exact hkey
        obtain rfl : b.entry = a := by
          refine Multiset.inj_on_of_nodup_map hm.once _ hmem _ ha ?_
          exact hbkey
        exact hok
      · obtain ⟨b, hb, hbkey⟩ := (stores_iff hkey).mp hold
        exact absurd hbkey (hnone b hb)
  · rw [updateCorrect_absent hm hkey hold, Updatable]
    have hnone : ∀ b ∈ m.buckets, b.key ≠ key := by
      intro b hb hbkey
      exact hold ((stores_iff hkey).mpr ⟨b, hb, hbkey⟩)
    constructor
    · exact fun h => Or.inr ⟨hnone, h⟩
    · rintro (⟨b, hb, hbkey, -⟩ | ⟨-, h⟩)
      · exact absurd hbkey (hnone b hb)
      · exact h

private theorem run_wellFormed {ops : List Op} {m m' : HashMap} (hm : WellFormed m)
    (hops : ∀ op ∈ ops, op.key ≠ [] ∧ op.isUpdate = false) (hrun : run m ops = .ok m') :
    WellFormed m' := by
  induction ops generalizing m with
  | nil =>
    obtain rfl := Except.ok.inj hrun
    exact hm
  | cons op ops ih =>
    obtain ⟨hkey, hop⟩ := hops op (by simp)
    rw [run, List.foldlM_cons, bind_eq_ok] at hrun
    obtain ⟨m₁, hstep, hrest⟩ := hrun
    refine ih ?_ (fun op' hmem => hops op' (by simp [hmem])) hrest
    cases op with
    | insert key value =>
      exact ((hashmapInsert_yields hm.toSound (show key ≠ [] from hkey) value).of_ok hstep).wellFormed hm
    | update key value => exact absurd hop (by simp [Op.isUpdate])
    | remove key =>
      rcases hm.capacity with h0 | hcap
      · rw [step, hashmapRemove_zero hm.toSound h0] at hstep
        simp at hstep
      · obtain ⟨m₂, hrem, hremoved⟩ := hashmapRemove_wellFormed hm hcap key
        rw [step, hrem] at hstep
        obtain rfl := Except.ok.inj hstep
        exact hremoved.wellFormed hm

/-- In every state that insertions and removals reach, an update does what it
is for exactly when the key is updatable. -/
theorem hashmapUpdate_correct_iff (c : UInt64) (hashFunc : Key → UInt32 → UInt32)
    (hashkey : UInt32) (ops : List Op) (hops : ∀ op ∈ ops, op.key ≠ [] ∧ op.isUpdate = false)
    (m : HashMap) (hrun : runNew c hashFunc hashkey ops = .ok m) (key : Key) (hkey : key ≠ [])
    (value : Value) : UpdateCorrect m key value ↔ Updatable m key value := by
  obtain ⟨m₀, hnew, hrest⟩ := bind_eq_ok.mp hrun
  exact (run_wellFormed (hashmapNew_wellFormed hnew) hops hrest).updateCorrect_iff hkey

def firstByte (key : Key) (_ : UInt32) : UInt32 := (key.headD 0).toUInt32

/-- Of eight buckets the first two are taken, by keys that are at home. -/
def crowded : List Op := [.insert [8] (.bytes 1 []), .insert [1] (.bytes 2 [])]

theorem hashmapUpdate_correct_iff_crowded :
    ∃ m, runNew 4 firstByte 0 crowded = .ok m ∧
      (UpdateCorrect m [16] (.bytes 3 []) ↔ Updatable m [16] (.bytes 3 [])) := by
  have hrun : (runNew 4 firstByte 0 crowded >>= fun m => hashmapGet m [8]) =
      .ok (some (.bytes 1 [])) := by decide
  obtain ⟨m, hm, -⟩ := bind_eq_ok.mp hrun
  exact ⟨m, hm, hashmapUpdate_correct_iff 4 firstByte 0 crowded (by decide) m hm [16] (by decide) _⟩

/-- The key 16 is put behind the key 1, where no lookup gets. -/
theorem hashmapUpdate_not_correct :
    ¬ ∀ (c : UInt64) (hashFunc : Key → UInt32 → UInt32) (hashkey : UInt32) (ops : List Op),
      (∀ op ∈ ops, op.key ≠ [] ∧ op.isUpdate = false) →
      ∀ m, runNew c hashFunc hashkey ops = .ok m →
      ∀ key, key ≠ [] → ∀ value, UpdateCorrect m key value := by
  intro h
  have hrun : (runNew 4 firstByte 0 crowded >>= fun m => hashmapUpdate m [16] (.bytes 3 []) >>=
      fun m => hashmapGet m [16]) = .ok none := by decide
  obtain ⟨m, hm, hrest⟩ := bind_eq_ok.mp hrun
  obtain ⟨m₁, hupdate, hlost⟩ := bind_eq_ok.mp hrest
  obtain ⟨m₂, hm₂, hmeets⟩ :=
    h 4 firstByte 0 crowded (by decide) m hm [16] (by decide) (.bytes 3 [])
  obtain rfl : m₁ = m₂ := Except.ok.inj (hupdate.symm.trans hm₂)
  rw [hmeets.get] at hlost
  simp at hlost

end Libromano.Hashmap
