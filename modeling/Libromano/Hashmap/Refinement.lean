/- The map as a finite map: `hashmap_new`, runs of insertions and removals, and what
   `hashmap_get`, `hashmap_size` and `hashmap_iterate` tell about them. -/

import Libromano.Foundation.PartialMap
import Libromano.Hashmap.Place
import Libromano.Hashmap.Remove

set_option autoImplicit false
set_option relaxedAutoImplicit false

namespace Libromano.Hashmap

open Libromano.Bit Libromano.Foundation.RobinHood Libromano.Foundation.PartialMap

def unallocated (hashFunc : Key → UInt32 → UInt32) (hashkey : UInt32) : HashMap :=
  ⟨[], 0, 0, hashFunc, hashkey, 0⟩

private theorem Sound.wellFormed_of_empty {m : HashMap} (hm : Sound m)
    (hnone : entries m.buckets = 0) :
    WellFormed m where
  toSound := hm
  hashed a ha := by simp [hnone] at ha
  once := by simp [hnone]
  ordered := by
    refine ⟨fun hjk => slots_periodic (by rw [hm.length]; exact hjk), fun {j a p} hj => ?_⟩
    have := mem_entries_iff_slots.mpr ⟨j, p, hj⟩
    simp [hnone] at this

private theorem sound_unallocated (hashFunc : Key → UInt32 → UInt32) (hashkey : UInt32) :
    Sound (unallocated hashFunc hashkey) :=
  ⟨rfl, Or.inl rfl, by simp [unallocated], rfl⟩

/-- The capacity that `hashmap_new` asks for is a power of two, of 64 bits
only as long as the request is below `2 ^ 63`. -/
private theorem requested_capacity {c : UInt64} (hc : c ≠ 0) :
    (roundU64ToNextPow2 (c + 1) + 1).toNat =
      if c.toNat < 2 ^ 63 then 2 ^ (c.toNat.log2 + 1) else 0 := by
  have hpos : c.toNat ≠ 0 := fun h => hc (UInt64.toNat_inj.mp h)
  have hback : c + 1 - 1 = c := by simp
  have hround := roundU64ToNextPow2_toNat (x := c + 1) (by rw [hback]; exact hpos)
  rw [hback] at hround
  have hlog : c.toNat.log2 < 64 := (Nat.log2_lt hpos).mpr c.toNat_lt
  rw [UInt64.toNat_add, hround, UInt64.toNat_one, Nat.sub_add_cancel (Nat.two_pow_pos _)]
  split_ifs with hlt
  · have : c.toNat.log2 < 63 := (Nat.log2_lt hpos).mpr hlt
    exact Nat.mod_eq_of_lt (Nat.pow_lt_pow_right (by decide) (by omega))
  · have : ¬ c.toNat.log2 < 63 := fun h => hlt ((Nat.log2_lt hpos).mp h)
    obtain h63 : c.toNat.log2 = 63 := by omega
    rw [h63]

theorem hashmapNew_yields {c : UInt64} (hc : c.toNat < 2 ^ 63)
    (hashFunc : Key → UInt32 → UInt32) (hashkey : UInt32) :
    Yields (hashmapNew c hashFunc hashkey) fun m =>
      WellFormed m ∧ Spare m ∧ entries m.buckets = 0 := by
  obtain ⟨k, hk⟩ : ∃ k, (if c = 0 then initialCapacityDefault
      else (roundU64ToNextPow2 (c + 1) + 1).toNat) = 2 ^ (k + 1) := by
    split_ifs with h0
    · exact ⟨9, rfl⟩
    · exact ⟨_, by rw [requested_capacity h0, if_pos hc]⟩
  rw [hashmapNew, hk]
  by_cases hfull : 2 ^ 64 ≤ 2 ^ (k + 1) * sizeofBucket
  · rw [hashmapGrow, if_pos hfull]
    exact Yields.noMemory
  have hcap : IsCapacity (2 ^ (k + 1)) := by
    refine ⟨k + 1, ?_, rfl⟩
    by_contra hlarge
    apply hfull
    calc 2 ^ 64 = 2 ^ 59 * sizeofBucket := by decide
      _ ≤ 2 ^ (k + 1) * sizeofBucket :=
        Nat.mul_le_mul_right _ (Nat.pow_le_pow_right (by decide) (by omega))
  refine (hashmapGrow_yields (sound_unallocated hashFunc hashkey) hcap (Nat.zero_le _)
    (Or.inr rfl)).mono ?_
  rintro m - ⟨hgrown, hcap'⟩
  have hnone : entries m.buckets = 0 := hgrown.kept
  have htwo : 2 ≤ m.capacity := by
    rw [hcap', Nat.pow_succ]
    have := Nat.two_pow_pos k
    omega
  refine ⟨hgrown.sound.wellFormed_of_empty hnone, ⟨htwo, ?_⟩, hnone⟩
  rw [hnone, Multiset.card_zero]
  omega

/-- From `2 ^ 63` on the requested capacity wraps around to zero, and no
bucket is allocated. -/
theorem hashmapNew_wrapped {c : UInt64} (hc : ¬ c.toNat < 2 ^ 63)
    (hashFunc : Key → UInt32 → UInt32) (hashkey : UInt32) :
    hashmapNew c hashFunc hashkey = .ok (unallocated hashFunc hashkey) := by
  have h0 : c ≠ 0 := by
    rintro rfl
    exact hc (by decide)
  have hcap : (if c = 0 then initialCapacityDefault
      else (roundU64ToNextPow2 (c + 1) + 1).toNat) = 0 := by
    rw [if_neg h0, requested_capacity h0, if_neg hc]
  rw [hashmapNew, hcap]
  rfl

theorem hashmapNew_wellFormed {c : UInt64} {hashFunc : Key → UInt32 → UInt32} {hashkey : UInt32}
    {m : HashMap} (h : hashmapNew c hashFunc hashkey = .ok m) : WellFormed m := by
  by_cases hc : c.toNat < 2 ^ 63
  · exact ((hashmapNew_yields hc hashFunc hashkey).of_ok h).1
  · rw [hashmapNew_wrapped hc] at h
    obtain rfl := Except.ok.inj h
    exact (sound_unallocated hashFunc hashkey).wellFormed_of_empty rfl

def pairList (buckets : List Bucket) : List (Key × Value) :=
  buckets.filterMap fun b => if bucketIsEmpty b then none else some (b.key, b.value)

def pairs (m : HashMap) : Multiset (Key × Value) :=
  (entries m.buckets).map fun a => (a.key, a.value)

theorem coe_pairList (m : HashMap) : (pairList m.buckets : Multiset (Key × Value)) = pairs m := by
  rw [pairs, entries, Multiset.map_coe, List.map_filterMap, pairList]
  congr 1
  apply List.filterMap_congr
  intro b _
  rw [Bucket.slot]
  split_ifs <;> rfl

theorem stores_iff_pairs {m : HashMap} {key : Key} :
    Stores m key ↔ key ∈ (pairs m).map Prod.fst := by
  rw [pairs, Multiset.map_map]
  rfl

private theorem iterateLoop_eq {m : HashMap} (hm : Sound m) (hcap : m.capacity < 2 ^ 32) (fuel : ℕ)
    {i : ℕ} (hi : i ≤ m.capacity) (hfuel : m.capacity < fuel + i) :
    (iterateLoop m fuel i = .ok none ∧ pairList (m.buckets.drop i) = []) ∨
      ∃ pair it, iterateLoop m fuel i = .ok (some (pair, it)) ∧ i < it ∧ it ≤ m.capacity ∧
        pairList (m.buckets.drop i) = pair :: pairList (m.buckets.drop it) := by
  induction fuel generalizing i with
  | zero => omega
  | succ fuel ih =>
    rw [iterateLoop]
    split_ifs with hlt
    · have hlt' : i < m.buckets.length := hm.length ▸ hlt
      have hsucc : (i + 1) % 2 ^ 32 = i + 1 := Nat.mod_eq_of_lt (by omega)
      rw [List.getElem?_eq_getElem hlt', List.drop_eq_getElem_cons hlt', hsucc]
      dsimp only
      by_cases hempty : bucketIsEmpty m.buckets[i] = true
      · have hskip : pairList (m.buckets[i] :: m.buckets.drop (i + 1)) =
            pairList (m.buckets.drop (i + 1)) := by
          rw [pairList, List.filterMap_cons, if_pos hempty]
          rfl
        rw [if_pos hempty, hskip]
        rcases ih (i := i + 1) (by omega) (by omega) with h | ⟨pair, it, h, hlt, hle, hcons⟩
        · exact Or.inl h
        · exact Or.inr ⟨pair, it, h, by omega, hle, hcons⟩
      · rw [if_neg hempty]
        refine Or.inr ⟨_, i + 1, rfl, by omega, by omega, ?_⟩
        rw [pairList, List.filterMap_cons, if_neg hempty]
        rfl
    · refine Or.inl ⟨rfl, ?_⟩
      rw [List.drop_eq_nil_of_le (by rw [hm.length]; omega)]
      rfl

private theorem iteratePass_eq {m : HashMap} (hm : Sound m) (hcap : m.capacity < 2 ^ 32) (fuel : ℕ)
    {i : ℕ} (hi : i ≤ m.capacity) (hfuel : m.capacity < fuel + i) :
    iteratePass m fuel i = .ok (pairList (m.buckets.drop i)) := by
  induction fuel generalizing i with
  | zero => omega
  | succ fuel ih =>
    rw [iteratePass, hashmapIterate]
    rcases iterateLoop_eq hm hcap (2 ^ 32 + 1) hi (by omega) with
      ⟨hend, hnil⟩ | ⟨pair, it, hnext, hlt, hle, hcons⟩
    · rw [hend, hnil]
      rfl
    · rw [hnext, hcons]
      simp only [bind_ok]
      rw [ih hle (by omega)]
      rfl

theorem fullPass_eq {m : HashMap} (hm : Sound m) (hcap : m.capacity < 2 ^ 32) :
    fullPass m = .ok (pairList m.buckets) := by
  rw [fullPass, iteratePass_eq hm hcap _ (Nat.zero_le _) (by omega), List.drop_zero]

def record (f : Key → Option Value) : Op → Key → Option Value
  | .insert key value => insertNew f key value
  | .update key value => Function.update f key (some value)
  | .remove key => Function.update f key none

/-- For each key the value of its first insertion since its last removal. -/
def recorded (ops : List Op) : Key → Option Value := ops.foldl record fun _ => none

/-- What a caller can tell from `f` being the content of the map. -/
structure ActsAs (m : HashMap) (f : Key → Option Value) : Prop where
  get : ∀ key, key ≠ [] → hashmapGet m key = .ok (f key)
  size : ∃ live : Finset Key, (∀ key, key ∈ live ↔ (f key).isSome) ∧ m.size = live.card
  pass : m.capacity < 2 ^ 32 → ∃ pairs, fullPass m = .ok pairs ∧ pairs.Nodup ∧
    ∀ key value, (key, value) ∈ pairs ↔ f key = some value

/-- The refinement relation between the table and the finite map. -/
structure Refines (m : HashMap) (f : Key → Option Value) : Prop where
  wellFormed : WellFormed m
  spare : Spare m
  lists : Lists (pairs m) f

theorem Spare.isCapacity {m : HashMap} (hs : Spare m) (hm : Sound m) : IsCapacity m.capacity := by
  have := hs.1
  rcases hm.capacity with h0 | hcap
  · omega
  · exact hcap

private theorem Refines.actsAs {m : HashMap} {f : Key → Option Value} (h : Refines m f) :
    ActsAs m f where
  get key hkey := by
    cases hf : f key with
    | none =>
      refine hashmapGet_absent h.wellFormed.toSound (h.spare.isCapacity h.wellFormed.toSound) hkey ?_
      rw [stores_iff_pairs]
      exact h.lists.eq_none_iff.mp hf
    | some value =>
      obtain ⟨a, ha, heq⟩ := Multiset.mem_map.mp (h.lists.mem.mpr hf)
      obtain ⟨rfl, rfl⟩ := Prod.mk.inj heq
      exact hashmapGet_stored h.wellFormed ha
  size := by
    obtain ⟨live, hlive, hcard⟩ := h.lists.exists_keys
    refine ⟨live, hlive, ?_⟩
    rw [hcard, h.wellFormed.size, pairs, Multiset.card_map]
  pass hcap := by
    refine ⟨_, fullPass_eq h.wellFormed.toSound hcap, ?_, fun key value => ?_⟩
    · have := h.lists.once
      rw [← coe_pairList, Multiset.map_coe, Multiset.coe_nodup] at this
      exact List.Nodup.of_map _ this
    · rw [← h.lists.mem, ← coe_pairList, Multiset.mem_coe]

theorem Inserted.pairs_fresh {m m' : HashMap} {key : Key} {value : Value}
    (h : Inserted m (entryFor m key value) m') (hm : WellFormed m) (hnew : ¬ Stores m key) :
    pairs m' = pairs m + {(key, value)} := by
  rw [pairs, (h.fresh hm hnew).2, Multiset.map_add, Multiset.map_singleton]
  rfl

theorem Inserted.pairs_stored {m m' : HashMap} {key : Key} {value : Value}
    (h : Inserted m (entryFor m key value) m') (hm : WellFormed m) (hold : Stores m key) :
    pairs m' = pairs m := by
  rw [pairs, (h.stored hm hold).2, pairs]

theorem Inserted.wellFormed {m m' : HashMap} {a : Entry} (h : Inserted m a m')
    (hm : WellFormed m) : WellFormed m' := by
  by_cases hkey : Stores m a.key
  · exact (h.stored hm hkey).1
  · exact (h.fresh hm hkey).1

private theorem Removed.pairs_stored {m m' : HashMap} {a : Entry} (h : Removed m a.key m')
    (hm : WellFormed m) (ha : a ∈ entries m.buckets) :
    pairs m' + {(a.key, a.value)} = pairs m := by
  rw [pairs, pairs, ← (h.stored a hm ha rfl).2, Multiset.map_add, Multiset.map_singleton]

theorem hashmapRemove_wellFormed {m : HashMap} (hm : WellFormed m) (hcap : IsCapacity m.capacity)
    (key : Key) : ∃ m', hashmapRemove m key = .ok m' ∧ Removed m key m' := by
  by_cases hkey : Stores m key
  · obtain ⟨a, ha, rfl⟩ := Multiset.mem_map.mp hkey
    exact hashmapRemove_stored hm ha
  · obtain ⟨m', hrun, rfl | hremoved⟩ := hashmapRemove_returns hm.toSound hcap key
    · exact ⟨m', hrun, Removed.of_absent hm.toSound hkey⟩
    · exact ⟨m', hrun, hremoved⟩

theorem Removed.wellFormed {m m' : HashMap} {key : Key} (h : Removed m key m')
    (hm : WellFormed m) : WellFormed m' := by
  by_cases hkey : Stores m key
  · obtain ⟨a, ha, rfl⟩ := Multiset.mem_map.mp hkey
    exact (h.stored a hm ha rfl).1
  · rw [h.absent hkey]
    exact hm

theorem Removed.spare {m m' : HashMap} {key : Key} (h : Removed m key m') (hs : Spare m) :
    Spare m' :=
  ⟨h.sameCapacity ▸ hs.1, h.sameCapacity ▸ h.card_le.trans_lt hs.2⟩

theorem Refines.step {m : HashMap} {f : Key → Option Value} (h : Refines m f) {op : Op}
    (hkey : op.key ≠ []) (hop : op.isUpdate = false) :
    Yields (step m op) fun m' => Refines m' (record f op) := by
  have hm := h.wellFormed
  cases op with
  | insert key value =>
    apply (hashmapInsert_yields hm.toSound hkey value).mono
    intro m' _ hins
    refine ⟨hins.wellFormed hm, hins.spare h.spare, ?_⟩
    by_cases hold : Stores m key
    · rw [record, h.lists.insertNew_of_mem (stores_iff_pairs.mp hold), hins.pairs_stored hm hold]
      exact h.lists
    · rw [record, hins.pairs_fresh hm hold]
      exact h.lists.insertNew (mt stores_iff_pairs.mpr hold) value
  | update key value => exact absurd hop (by simp [Op.isUpdate])
  | remove key =>
    obtain ⟨m', hrun, hrem⟩ := hashmapRemove_wellFormed hm (h.spare.isCapacity hm.toSound) key
    rw [Hashmap.step, hrun, Yields.ok_iff]
    refine ⟨hrem.wellFormed hm, hrem.spare h.spare, ?_⟩
    by_cases hold : Stores m key
    · obtain ⟨a, ha, rfl⟩ := Multiset.mem_map.mp hold
      have hl := h.lists
      rw [← hrem.pairs_stored hm ha] at hl
      exact hl.erase
    · rw [hrem.absent hold, record, h.lists.erase_of_not_mem (mt stores_iff_pairs.mpr hold)]
      exact h.lists

private theorem Refines.run {ops : List Op} {m : HashMap} {f : Key → Option Value} (h : Refines m f)
    (hops : ∀ op ∈ ops, op.key ≠ [] ∧ op.isUpdate = false) :
    Yields (run m ops) fun m' => Refines m' (ops.foldl record f) := by
  induction ops generalizing m f with
  | nil => exact h
  | cons op ops ih =>
    have hop := hops op (by simp)
    rw [Hashmap.run, List.foldlM_cons]
    exact (h.step hop.1 hop.2).bind fun m' hm' => ih hm' fun op' hmem => hops op' (by simp [hmem])

/-- A run of calls on a new map. -/
def runNew (c : UInt64) (hashFunc : Key → UInt32 → UInt32) (hashkey : UInt32) (ops : List Op) :
    Except Fault HashMap := do
  let m ← hashmapNew c hashFunc hashkey
  run m ops

theorem runNew_refines {c : UInt64} (hc : c.toNat < 2 ^ 63) (hashFunc : Key → UInt32 → UInt32)
    (hashkey : UInt32) {ops : List Op} (hops : ∀ op ∈ ops, op.key ≠ [] ∧ op.isUpdate = false) :
    Yields (runNew c hashFunc hashkey ops) fun m => Refines m (recorded ops) := by
  refine (hashmapNew_yields hc hashFunc hashkey).bind ?_
  rintro m ⟨hwf, hspare, hnone⟩
  refine Refines.run ⟨hwf, hspare, ?_⟩ hops
  rw [pairs, hnone, Multiset.map_zero]
  exact lists_empty

/-- Insertions and removals make the map act as the finite map of what they
record, unless the initial capacity is `2 ^ 63` or more. -/
theorem runNew_actsAs_recorded (c : UInt64) :
    (∀ hashFunc hashkey ops, (∀ op ∈ ops, op.key ≠ [] ∧ op.isUpdate = false) →
      Yields (runNew c hashFunc hashkey ops) fun m => ActsAs m (recorded ops)) ↔
    c.toNat < 2 ^ 63 := by
  constructor
  · intro h
    by_contra hc
    have hget := h (fun _ _ => 0) 0 [] (by simp)
    rw [runNew, hashmapNew_wrapped hc, bind_ok] at hget
    have := hget.get [0] (by decide)
    simp [hashmapGet, getLoop, unallocated] at this
  · intro hc hashFunc hashkey ops hops
    exact (runNew_refines hc hashFunc hashkey hops).mono fun m _ h => h.actsAs

/-- Asked for `2 ^ 63` buckets, the map has none to look into. -/
theorem runNew_not_actsAs_recorded :
    ¬ ∀ (c : UInt64) (hashFunc : Key → UInt32 → UInt32) (hashkey : UInt32) (ops : List Op),
      (∀ op ∈ ops, op.key ≠ [] ∧ op.isUpdate = false) →
        Yields (runNew c hashFunc hashkey ops) fun m => ActsAs m (recorded ops) := by
  intro h
  have hrun : Yields (runNew 9223372036854775808 (fun _ _ => 0) 0 []) fun m => ActsAs m (recorded []) :=
    h _ _ _ _ (by simp)
  rw [runNew, hashmapNew_wrapped (by decide), bind_ok] at hrun
  have hget := hrun.get [0] (by decide)
  simp [hashmapGet, getLoop, unallocated] at hget

end Libromano.Hashmap
