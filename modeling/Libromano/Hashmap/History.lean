/- What a table tells about the calls that led to it. Two tables of one capacity that store the
   same keys differ at most in which of the keys with one home comes first. -/

import Libromano.Foundation.RobinHoodLayout
import Libromano.Hashmap.Refinement

set_option autoImplicit false
set_option relaxedAutoImplicit false

namespace Libromano.Hashmap

open Libromano.Foundation.RobinHood

/-- The home of the key in a bucket and its distance from there. -/
def Bucket.place (capacity : ℕ) (b : Bucket) : Option (ℕ × ℕ) :=
  b.slot.map fun x => (hashmapIndex capacity x.1.hash, x.2)

/-- The buckets at which `hashmap_get` starts to look for the keys of some pairs. -/
def homesOf (m : HashMap) (pairs : List (Key × Value)) : List ℕ :=
  pairs.map fun pair => hashmapIndex m.capacity (hashmapHash m pair.1)

private theorem held_slots (buckets : List Bucket) :
    held buckets.length (slots buckets) = entries buckets := by
  have hbuckets : buckets = (List.range buckets.length).map fun k =>
      buckets.getD (k % buckets.length) bucketSetEmpty := by
    apply List.ext_getElem (by simp)
    intro k hk hk'
    rw [List.getElem_map, List.getElem_range, Nat.mod_eq_of_lt hk, List.getD_eq_getElem _ _ hk]
  rw [held, entries]
  conv_rhs => rw [hbuckets, List.filterMap_map]
  rfl

section Places

variable {m m' : HashMap}

private theorem WellFormed.homes_eq (hm : WellFormed m) :
    homes m.capacity homeOf (slots m.buckets) =
    ((entries m.buckets).map Entry.key).map fun key => (hashmapHash m key).toNat % m.capacity := by
  rw [homes, ← hm.length, held_slots, Multiset.map_map]
  apply Multiset.map_congr rfl
  intro a ha
  rw [Function.comp_apply, homeOf, hm.hashed a ha]

private theorem Spare.exists_vacant (hs : Spare m) (hm : Sound m) :
    ∃ e, slots m.buckets e = none := by
  obtain ⟨d, -, hd⟩ := exists_vacant_ahead (by rw [hm.length]; exact hs.2 :
    (entries m.buckets).card < m.buckets.length) 0
  exact ⟨_, hd⟩

/-- The keys and the capacity decide which bucket is taken, for which home, and at what distance
from there. -/
private theorem WellFormed.places_eq (hm : WellFormed m) (hm' : WellFormed m') (hs : Spare m)
    (hs' : Spare m') (hcap : m.capacity = m'.capacity)
    (hhash : ∀ key, hashmapHash m key = hashmapHash m' key)
    (hkeys : ∀ key, Stores m key ↔ Stores m' key) :
    m.buckets.map (Bucket.place m.capacity) = m'.buckets.map (Bucket.place m'.capacity) := by
  have hsame : (entries m.buckets).map Entry.key = (entries m'.buckets).map Entry.key :=
    (hm.once.ext hm'.once).mpr hkeys
  have hhomes : homes m.capacity homeOf (slots m.buckets) =
      homes m.capacity homeOf (slots m'.buckets) := by
    rw [hm.homes_eq, hcap, hm'.homes_eq, hsame]
    simp only [hhash]
  have hordered' : Ordered m.capacity homeOf (slots m'.buckets) := hcap ▸ hm'.ordered
  obtain ⟨e, he⟩ := hs.exists_vacant hm.toSound
  obtain ⟨e', he'⟩ := hs'.exists_vacant hm'.toSound
  have hpow := hs.isCapacity hm.toSound
  have hlength : m.buckets.length = m'.buckets.length := by rw [hm.length, hm'.length, hcap]
  rw [← hcap]
  apply List.ext_getElem (by simpa using hlength)
  intro i hi hi'
  rw [List.length_map] at hi
  rw [List.length_map] at hi'
  have hslot : slots m.buckets i = m.buckets[i].slot := by
    rw [slots, Nat.mod_eq_of_lt hi, List.getD_eq_getElem _ _ hi]
  have hslot' : slots m'.buckets i = m'.buckets[i].slot := by
    rw [slots, Nat.mod_eq_of_lt hi', List.getD_eq_getElem _ _ hi']
  have hdistance := hm.ordered.distances_eq hordered' hhomes he he' i
  rw [List.getElem_map, List.getElem_map, Bucket.place, Bucket.place, ← hslot, ← hslot']
  cases hx : slots m.buckets i with
  | none =>
    rw [hx, Option.map_none] at hdistance
    rw [Option.map_eq_none_iff.mp hdistance.symm]
  | some x =>
    rw [hx, Option.map_some] at hdistance
    obtain ⟨y, hy, hdist⟩ := Option.map_eq_some_iff.mp hdistance.symm
    have hplaced := (hm.ordered.standing hx).placed
    have hplaced' := (hordered'.standing hy).placed
    rw [hdist] at hplaced'
    have hhome : homeOf x.1 % m.capacity = homeOf y.1 % m.capacity :=
      Nat.ModEq.add_right_cancel' x.2 (hplaced.trans hplaced'.symm)
    rw [hy, Option.map_some, Option.map_some, hashmapIndex_eq hpow, hashmapIndex_eq hpow, hdist]
    exact congrArg (fun h => some (h, x.2)) hhome

private theorem WellFormed.homesOf_pairList (hm : WellFormed m) : homesOf m (pairList m.buckets) =
    (m.buckets.map (Bucket.place m.capacity)).filterMap (Option.map Prod.fst) := by
  rw [homesOf, pairList, List.map_filterMap, List.filterMap_map]
  apply List.filterMap_congr
  intro b hb
  by_cases hempty : bucketIsEmpty b = true
  · simp [hempty, Bucket.place, slot_of_isEmpty hempty]
  · have hhashed := hm.hashed b.entry (mem_entries.mpr ⟨b, hb, hempty, rfl⟩)
    simp only [hempty, Bucket.place, slot_of_not_isEmpty hempty, Function.comp_apply,
      Option.map_some, hhashed]
    rfl

end Places

private theorem hashmapNew_hash {c : UInt64} {hashFunc : Key → UInt32 → UInt32} {hashkey : UInt32}
    {m : HashMap} (h : hashmapNew c hashFunc hashkey = .ok m) (key : Key) :
    hashmapHash m key = hashFunc key hashkey := by
  rw [hashmapNew, hashmapGrow] at h
  split_ifs at h <;> cases h <;> rfl

private theorem step_hash {m m' : HashMap} {f : Key → Option Value} (hm : Refines m f) {op : Op}
    (hop : op.key ≠ [] ∧ op.isUpdate = false) (hrun : step m op = .ok m') (key : Key) :
    hashmapHash m' key = hashmapHash m key := by
  have hwf := hm.wellFormed
  have hsame : m'.hashFunc = m.hashFunc ∧ m'.hashkey = m.hashkey := by
    cases op with
    | insert k value => exact ((hashmapInsert_yields hwf.toSound hop.1 value).of_ok hrun).sameHash
    | update k value => cases hop.2
    | remove k =>
      obtain ⟨m'', hrun', hremoved⟩ := hashmapRemove_wellFormed hwf
        (hm.spare.isCapacity hwf.toSound) k
      cases hrun.symm.trans hrun'
      exact hremoved.sameHash
  rw [hashmapHash, hashmapHash, hsame.1, hsame.2]

private theorem run_hash {ops : List Op} {m m' : HashMap} {f : Key → Option Value}
    (hm : Refines m f)
    (hops : ∀ op ∈ ops, op.key ≠ [] ∧ op.isUpdate = false) (hrun : run m ops = .ok m')
    (key : Key) : hashmapHash m' key = hashmapHash m key := by
  induction ops generalizing m f with
  | nil =>
    cases hrun
    rfl
  | cons op ops ih =>
    rw [run, List.foldlM_cons] at hrun
    obtain ⟨m₁, hstep, hrest⟩ := bind_eq_ok.mp hrun
    obtain ⟨hop, hops⟩ := List.forall_mem_cons.mp hops
    have hm₁ := (hm.step hop.1 hop.2).of_ok hstep
    rw [ih hm₁ hops hrest, step_hash hm hop hstep]

private theorem runNew_reached {c : UInt64} (hc : c.toNat < 2 ^ 63)
    {hashFunc : Key → UInt32 → UInt32}
    {hashkey : UInt32} {ops : List Op} (hops : ∀ op ∈ ops, op.key ≠ [] ∧ op.isUpdate = false)
    {m : HashMap} (hrun : runNew c hashFunc hashkey ops = .ok m) :
    Refines m (recorded ops) ∧ ∀ key, hashmapHash m key = hashFunc key hashkey := by
  refine ⟨(runNew_refines hc hashFunc hashkey hops).of_ok hrun, fun key => ?_⟩
  obtain ⟨m₀, hnew, hrest⟩ := bind_eq_ok.mp hrun
  have hm₀ : Refines m₀ fun _ => none := by
    obtain ⟨hwf, hspare, hnone⟩ := (hashmapNew_yields hc hashFunc hashkey).of_ok hnew
    refine ⟨hwf, hspare, ?_⟩
    rw [pairs, hnone, Multiset.map_zero]
    exact Foundation.PartialMap.lists_empty
  rw [run_hash hm₀ hops hrest, hashmapNew_hash hnew]

private theorem Refines.stores_iff {m : HashMap} {f : Key → Option Value} (h : Refines m f)
    (key : Key) :
    Stores m key ↔ (f key).isSome := by
  rw [stores_iff_pairs, ← not_iff_not, ← h.lists.eq_none_iff]
  simp

/-- Whatever insertions and removals led to two maps with the same keys and of one capacity, their
tables agree bucket by bucket up to keys of one home, and so do the orders in which
`hashmap_iterate` goes through them. -/
theorem runNew_historyFree {c c' : UInt64} (hc : c.toNat < 2 ^ 63) (hc' : c'.toNat < 2 ^ 63)
    {hashFunc : Key → UInt32 → UInt32} {hashkey : UInt32} {ops ops' : List Op}
    (hops : ∀ op ∈ ops, op.key ≠ [] ∧ op.isUpdate = false)
    (hops' : ∀ op ∈ ops', op.key ≠ [] ∧ op.isUpdate = false) {m m' : HashMap}
    (hrun : runNew c hashFunc hashkey ops = .ok m)
    (hrun' : runNew c' hashFunc hashkey ops' = .ok m')
    (hkeys : ∀ key, (recorded ops key).isSome = (recorded ops' key).isSome)
    (hcap : m.capacity = m'.capacity) :
    m.buckets.map (Bucket.place m.capacity) = m'.buckets.map (Bucket.place m'.capacity) ∧
      (m.capacity < 2 ^ 32 → ∃ pairs pairs', fullPass m = .ok pairs ∧ fullPass m' = .ok pairs' ∧
        homesOf m pairs = homesOf m' pairs') := by
  obtain ⟨hm, hhash⟩ := runNew_reached hc hops hrun
  obtain ⟨hm', hhash'⟩ := runNew_reached hc' hops' hrun'
  have hplaces := hm.wellFormed.places_eq hm'.wellFormed hm.spare hm'.spare hcap
    (fun key => (hhash key).trans (hhash' key).symm)
    (fun key => by rw [hm.stores_iff, hm'.stores_iff, hkeys])
  refine ⟨hplaces, fun hsmall => ⟨_, _, fullPass_eq hm.wellFormed.toSound hsmall,
    fullPass_eq hm'.wellFormed.toSound (hcap ▸ hsmall), ?_⟩⟩
  rw [hm.wellFormed.homesOf_pairList, hm'.wellFormed.homesOf_pairList, hplaces]

/-- Two keys with one home stand in the order in which they came. -/
theorem runNew_historyFree_swapped :
    ∃ m m', runNew 4 (fun _ _ => 0) 0 [.insert [1] (.bytes 1 []), .insert [2] (.bytes 2 [])] = .ok m ∧
      runNew 4 (fun _ _ => 0) 0 [.insert [2] (.bytes 2 []), .insert [1] (.bytes 1 [])] = .ok m' ∧
      m.buckets ≠ m'.buckets ∧
      m.buckets.map (Bucket.place m.capacity) = m'.buckets.map (Bucket.place m'.capacity) := by
  have hrun : (runNew 4 (fun _ _ => 0) 0 [.insert [1] (.bytes 1 []), .insert [2] (.bytes 2 [])] >>=
      fun m => .ok (m.capacity, m.buckets.map Bucket.key)) =
        .ok (8, [[1], [2], [], [], [], [], [], []]) := by decide
  have hrun' : (runNew 4 (fun _ _ => 0) 0 [.insert [2] (.bytes 2 []), .insert [1] (.bytes 1 [])] >>=
      fun m => .ok (m.capacity, m.buckets.map Bucket.key)) =
        .ok (8, [[2], [1], [], [], [], [], [], []]) := by decide
  obtain ⟨m, hm, hshape⟩ := bind_eq_ok.mp hrun
  obtain ⟨m', hm', hshape'⟩ := bind_eq_ok.mp hrun'
  obtain ⟨hcap, hbuckets⟩ := Prod.mk.inj (Except.ok.inj hshape)
  obtain ⟨hcap', hbuckets'⟩ := Prod.mk.inj (Except.ok.inj hshape')
  refine ⟨m, m', hm, hm', fun hsame => ?_, ?_⟩
  · rw [hsame, hbuckets'] at hbuckets
    exact absurd hbuckets (by decide)
  · refine (runNew_historyFree (by decide) (by decide) (by decide) (by decide) hm hm' ?_
      (hcap.trans hcap'.symm)).1
    intro key
    simp only [recorded, record, Foundation.PartialMap.insertNew, List.foldl_cons, List.foldl_nil]
    by_cases h₁ : key = [1] <;> by_cases h₂ : key = [2] <;> simp [Function.update, h₁, h₂]

end Libromano.Hashmap
