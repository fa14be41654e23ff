/- Runs that mix all three calls. As long as every update keeps the order, no insertion loses an
   entry; as long as every update leaves room, the next one ends. -/

import Libromano.Hashmap.UpdateContract

set_option autoImplicit false
set_option relaxedAutoImplicit false

namespace Libromano.Hashmap

open Libromano.Foundation.RobinHood

variable {m m' : HashMap} {key : Key} {value : Value}

/-- Every step of the run is taken in a state where `P` allows it. -/
def Along (P : HashMap → Op → Prop) : HashMap → List Op → Prop
  | _, [] => True
  | m, op :: ops => P m op ∧ ∀ m', step m op = .ok m' → Along P m' ops

private theorem run_along {P : HashMap → Op → Prop} {I : HashMap → Prop}
    (hstep : ∀ m op m', I m → P m op → op.key ≠ [] → step m op = .ok m' → I m') {ops : List Op}
    {m m' : HashMap} (hm : I m) (halong : Along P m ops) (hkeys : ∀ op ∈ ops, op.key ≠ [])
    (hrun : run m ops = .ok m') : I m' := by
  induction ops generalizing m with
  | nil =>
    obtain rfl := Except.ok.inj hrun
    exact hm
  | cons op ops ih =>
    rw [run, List.foldlM_cons, bind_eq_ok] at hrun
    obtain ⟨m₁, hop, hrest⟩ := hrun
    exact ih (hstep m op m₁ hm halong.1 (hkeys op (by simp)) hop) (halong.2 m₁ hop)
      (fun op' hmem => hkeys op' (by simp [hmem])) hrest

/-- An update that keeps the order: its key is stored, or is put at the end of
an open path. -/
def KeepsOrder (m : HashMap) : Op → Prop
  | .update key _ => (∃ b ∈ m.buckets, b.key = key) ∨ ∃ d, OpenPath m key d
  | _ => True

private theorem hashmapRemove_step (hm : WellFormed m) (hrun : hashmapRemove m key = .ok m') :
    Removed m key m' := by
  rcases hm.capacity with h0 | hcap
  · rw [hashmapRemove_zero hm.toSound h0] at hrun
    simp at hrun
  · obtain ⟨m₁, hrem, hremoved⟩ := hashmapRemove_wellFormed hm hcap key
    obtain rfl : m₁ = m' := Except.ok.inj (hrem.symm.trans hrun)
    exact hremoved

private theorem WellFormed.step_keepsOrder (hm : WellFormed m) {op : Op} (hop : KeepsOrder m op)
    (hkey : op.key ≠ []) (hstep : step m op = .ok m') : WellFormed m' := by
  cases op with
  | insert key value =>
    exact ((hashmapInsert_yields hm.toSound (show key ≠ [] from hkey) value).of_ok hstep).wellFormed hm
  | remove key => exact (hashmapRemove_step hm hstep).wellFormed hm
  | update key value =>
    by_cases hold : Stores m key
    · obtain ⟨a, ha, rfl⟩ := Multiset.mem_map.mp hold
      obtain ⟨m₁, hover, hrun⟩ := hashmapUpdate_stored hm ha value
      rw [step, hrun] at hstep
      cases hv : overwritten a.value value with
      | error e => simp [hv, Except.map] at hstep
      | ok v =>
        rw [hv] at hstep
        obtain rfl := Except.ok.inj hstep
        exact (hover v).wellFormed
    · rcases hop with hmem | ⟨d, h⟩
      · exact absurd ((stores_iff hkey).mpr hmem) hold
      · have hcap : IsCapacity m.capacity := by
          rcases hm.capacity with h0 | hcap
          · obtain ⟨b, hb, -⟩ := h.empty
            have hnil : m.buckets = [] := List.eq_nil_of_length_eq_zero (hm.length.trans h0)
            simp [bucketAt, hnil] at hb
          · exact hcap
        rw [step, hashmapUpdate_fill hcap (show key ≠ [] from hkey) hold h.toFirstEmpty] at hstep
        obtain rfl := Except.ok.inj hstep
        exact filledAt_wellFormed hm hcap hkey hold value h

/-- The insertion keeps every stored pair and adds its own exactly when its
key is not stored. -/
def InsertExact (m : HashMap) (key : Key) (value : Value) : Prop :=
  Yields (hashmapInsert m key value) fun m' =>
    ((∃ b ∈ m.buckets, b.key = key) → pairs m' = pairs m) ∧
      ((∀ b ∈ m.buckets, b.key ≠ key) → pairs m' = pairs m + {(key, value)})

private theorem WellFormed.insertExact (hm : WellFormed m) (hkey : key ≠ []) :
    InsertExact m key value := by
  refine (hashmapInsert_yields hm.toSound hkey value).mono fun m' _ h => ⟨fun hmem => ?_,
    fun hnone => ?_⟩
  · exact h.pairs_stored hm ((stores_iff hkey).mpr hmem)
  · apply h.pairs_fresh hm
    intro hold
    obtain ⟨b, hb, hbkey⟩ := (stores_iff hkey).mp hold
    exact hnone b hb hbkey

/-- After any run whose updates keep the order, no insertion loses an entry. -/
theorem run_insertExact (c : UInt64) (hashFunc : Key → UInt32 → UInt32) (hashkey : UInt32)
    (m₀ : HashMap) (hnew : hashmapNew c hashFunc hashkey = .ok m₀) (ops : List Op)
    (hkeys : ∀ op ∈ ops, op.key ≠ []) (halong : Along KeepsOrder m₀ ops) (m : HashMap)
    (hrun : run m₀ ops = .ok m) (key : Key) (hkey : key ≠ []) (value : Value) :
    InsertExact m key value :=
  (run_along (fun _ _ _ hm hop hne hstep => hm.step_keepsOrder hop hne hstep)
    (hashmapNew_wellFormed hnew) halong hkeys hrun).insertExact hkey

private theorem openPath_of_new {c : UInt64} (hc : c.toNat < 2 ^ 63)
    {hashFunc : Key → UInt32 → UInt32}
    {hashkey : UInt32} (hnew : hashmapNew c hashFunc hashkey = .ok m) (key : Key) :
    OpenPath m key 0 := by
  obtain ⟨hwf, hspare, hnone⟩ := (hashmapNew_yields hc hashFunc hashkey).of_ok hnew
  have hcap := hspare.isCapacity hwf.toSound
  obtain ⟨b, hb, -⟩ := exists_bucket_at hwf.toSound hcap ((hashmapHash m key).toNat + 0)
  refine ⟨⟨⟨b, hb, ?_⟩, by simp⟩, by simp, by simp⟩
  by_contra hempty
  have hmem := mem_entries.mpr ⟨b, List.mem_of_getElem? hb, hempty, rfl⟩
  simp [hnone] at hmem

theorem run_insertExact_update :
    ∃ m₀ m, hashmapNew 4 firstByte 0 = .ok m₀ ∧
      run m₀ [.update [3] (.bytes 1 []), .insert [11] (.bytes 2 [])] = .ok m ∧
      InsertExact m [19] (.bytes 3 []) := by
  have hrun : (hashmapNew 4 firstByte 0 >>= fun m₀ =>
      run m₀ [.update [3] (.bytes 1 []), .insert [11] (.bytes 2 [])] >>= fun m =>
      hashmapGet m [3]) = .ok (some (.bytes 1 [])) := by decide
  obtain ⟨m₀, hnew, hrest⟩ := bind_eq_ok.mp hrun
  obtain ⟨m, hm, -⟩ := bind_eq_ok.mp hrest
  have halong : Along KeepsOrder m₀ [.update [3] (.bytes 1 []), .insert [11] (.bytes 2 [])] :=
    ⟨Or.inr ⟨0, openPath_of_new (by decide) hnew [3]⟩, fun _ _ => ⟨trivial, fun _ _ => trivial⟩⟩
  exact ⟨m₀, m, hnew, hm,
    run_insertExact 4 firstByte 0 m₀ hnew _ (by decide) halong m hm [19] (by decide) _⟩

/-- With the key 16 put behind the key 1 by an update, inserting 16 again takes
the place of the key 1, and then meets the old 16. -/
theorem run_not_insertExact :
    ¬ ∀ (c : UInt64) (hashFunc : Key → UInt32 → UInt32) (hashkey : UInt32) (m₀ : HashMap),
      hashmapNew c hashFunc hashkey = .ok m₀ → ∀ ops, (∀ op ∈ ops, op.key ≠ []) →
      ∀ m, run m₀ ops = .ok m → ∀ key, key ≠ [] → ∀ value, InsertExact m key value := by
  intro h
  have hrun : (hashmapNew 4 firstByte 0 >>= fun m₀ =>
      run m₀ (crowded ++ [.update [16] (.bytes 3 [])]) >>= fun m =>
      hashmapInsert m [16] (.bytes 4 []) >>= fun m' =>
      .ok (pairList m.buckets, pairList m'.buckets)) =
      .ok ([([8], .bytes 1 []), ([1], .bytes 2 []), ([16], .bytes 3 [])],
        [([8], .bytes 1 []), ([16], .bytes 4 []), ([16], .bytes 3 [])]) := by decide
  obtain ⟨m₀, hnew, hrest⟩ := bind_eq_ok.mp hrun
  obtain ⟨m, hm, hrest⟩ := bind_eq_ok.mp hrest
  obtain ⟨m', hinsert, hpairs⟩ := bind_eq_ok.mp hrest
  obtain ⟨hbefore, hafter⟩ := Prod.mk.inj (Except.ok.inj hpairs)
  have hmem : ∃ b ∈ m.buckets, b.key = [16] := by
    have hpair : (([16], .bytes 3 []) : Key × Value) ∈ pairList m.buckets := by
      rw [hbefore]
      decide
    rw [← Multiset.mem_coe, coe_pairList] at hpair
    exact (stores_iff (by decide)).mp (stores_iff_pairs.mpr (Multiset.mem_map_of_mem _ hpair))
  have hexact : InsertExact m [16] (.bytes 4 []) :=
    h 4 firstByte 0 m₀ hnew _ (by decide) m hm [16] (by decide) _
  have hsame := (hexact.of_ok hinsert).1 hmem
  rw [← coe_pairList, ← coe_pairList, hbefore, hafter] at hsame
  exact absurd hsame (by decide)

/-- An update that leaves an empty bucket: its key is met before the first
empty one, or there are two of them. -/
def KeepsRoom (m : HashMap) : Op → Prop
  | .update key _ =>
    (∃ i b, bucketAt m key i = some b ∧ bucketCompareKey b key (hashmapHash m key) = true ∧
      ∀ k ≤ i, ∀ c, bucketAt m key k = some c → bucketIsEmpty c = false) ∨
    m.size + 2 ≤ m.capacity
  | _ => True

private theorem bucketUpdateValue_key {bucket bucket' : Bucket}
    (h : bucketUpdateValue bucket value = .ok bucket') : bucket'.key = bucket.key := by
  rw [bucketUpdateValue_eq] at h
  cases hv : overwritten bucket.value value with
  | error e => simp [hv, Except.map] at h
  | ok v =>
    rw [hv] at h
    obtain rfl := Except.ok.inj h
    rfl

/-- An update in whatever order of the table fills one bucket or none; with an
empty bucket within reach of the fuel it does not run on. -/
private theorem updateLoop_card {n : ℕ} (hn : IsCapacity n) {hash : UInt32} (hkey : key ≠ [])
    (fuel : ℕ) {buckets buckets' : List Bucket} {j : ℕ} {probe : UInt32} {filled : Bool}
    (hlen : buckets.length = n)
    (hrun : updateLoop n key value hash fuel buckets (j % n) probe = .ok (buckets', filled)) :
    buckets'.length = n ∧
      (entries buckets').card = (entries buckets).card + (if filled then 1 else 0) ∧
      ∀ i b, buckets[(j + i) % n]? = some b → bucketCompareKey b key hash = true →
        (∀ k ≤ i, ∀ c, buckets[(j + k) % n]? = some c → bucketIsEmpty c = false) →
        filled = false := by
  induction fuel generalizing j probe with
  | zero => simp [updateLoop] at hrun
  | succ fuel ih =>
    subst hlen
    obtain ⟨bucket, hbucket, -⟩ := exists_bucket hn.pos j
    simp only [updateLoop, hbucket, nextIndex_eq hn] at hrun
    by_cases hempty : bucketIsEmpty bucket = true
    · rw [if_pos hempty] at hrun
      obtain ⟨rfl, rfl⟩ := Prod.mk.inj (Except.ok.inj hrun)
      refine ⟨by simp, ?_, fun i b _ _ hbefore => ?_⟩
      · rw [entries_fill hbucket hempty (mt isEmpty_iff.mp hkey)]
        simp
      · have := hbefore 0 (Nat.zero_le i) bucket hbucket
        rw [hempty] at this
        simp at this
    rw [if_neg hempty] at hrun
    by_cases hfound : bucketCompareKey bucket key hash = true
    · rw [if_pos hfound, bind_eq_ok] at hrun
      obtain ⟨bucket', hupdate, hset⟩ := hrun
      obtain ⟨rfl, rfl⟩ := Prod.mk.inj (Except.ok.inj hset)
      refine ⟨by simp, ?_, fun _ _ _ _ _ => rfl⟩
      have hne' : ¬ bucketIsEmpty bucket' = true := by
        rw [isEmpty_iff, bucketUpdateValue_key hupdate, ← isEmpty_iff]
        exact hempty
      have := congrArg Multiset.card (entries_swap hbucket hempty hne')
      simpa using this
    · rw [if_neg hfound] at hrun
      obtain ⟨hlen', hcard, hreach⟩ := ih hrun
      refine ⟨hlen', hcard, fun i b hb hcompare hbefore => ?_⟩
      cases i with
      | zero =>
        obtain rfl : bucket = b := Option.some.inj (hbucket.symm.trans hb)
        exact absurd hcompare hfound
      | succ i =>
        refine hreach i b (by rwa [show j + 1 + i = j + (i + 1) by omega]) hcompare
          fun k hk c hc => hbefore (k + 1) (by omega) c ?_
        rwa [show j + (k + 1) = j + 1 + k by omega]

private theorem updateLoop_ends {n : ℕ} (hn : IsCapacity n) (key : Key) (value : Value)
    (hash : UInt32)
    (fuel : ℕ) {buckets : List Bucket} {j d : ℕ} (probe : UInt32) (hlen : buckets.length = n)
    (hd : slots buckets (j + d) = none) (hfuel : d < fuel) :
    updateLoop n key value hash fuel buckets (j % n) probe ≠ .error .diverges := by
  induction fuel generalizing j d probe with
  | zero => omega
  | succ fuel ih =>
    subst hlen
    obtain ⟨bucket, hbucket, hslot⟩ := exists_bucket hn.pos j
    simp only [updateLoop, hbucket, nextIndex_eq hn]
    by_cases hempty : bucketIsEmpty bucket = true
    · simp [hempty]
    rw [if_neg hempty]
    split_ifs with hfound
    · rw [bucketUpdateValue_eq]
      unfold overwritten
      split_ifs <;> simp [Except.map]
    · obtain ⟨d, rfl⟩ := vacant_distance_pos (slots_ne_none hslot hempty) hd
      rw [show j + (d + 1) = j + 1 + d by omega] at hd
      exact ih _ hd (by omega)

def Roomy (m : HashMap) : Prop := Sound m ∧ Spare m

private theorem Roomy.step_keepsRoom (hm : Roomy m) {op : Op} (hop : KeepsRoom m op)
    (hkey : op.key ≠ []) (hstep : step m op = .ok m') : Roomy m' := by
  obtain ⟨hs, hspare⟩ := hm
  have hcap := hspare.isCapacity hs
  cases op with
  | insert key value =>
    have hins := (hashmapInsert_yields hs (show key ≠ [] from hkey) value).of_ok hstep
    exact ⟨hins.sound, hins.spare hspare⟩
  | remove key =>
    obtain ⟨m₁, hrun, hrem⟩ := hashmapRemove_returns hs hcap key
    obtain rfl : m₁ = m' := Except.ok.inj (hrun.symm.trans hstep)
    rcases hrem with rfl | hrem
    · exact ⟨hs, hspare⟩
    · exact ⟨hrem.sound, hrem.spare hspare⟩
  | update key value =>
    rw [step, hashmapUpdate, bind_eq_ok] at hstep
    obtain ⟨⟨buckets, filled⟩, hrun, hresult⟩ := hstep
    rw [hashmapIndex_eq hcap] at hrun
    obtain ⟨hlen, hcard, hreach⟩ := updateLoop_card hcap hkey _ hs.length hrun
    obtain rfl := Except.ok.inj hresult
    refine ⟨⟨hlen, hs.capacity, hs.maxProbes, ?_⟩, hspare.1, ?_⟩
    · show (if filled then m.size + 1 else m.size) = (entries buckets).card
      rw [hcard, hs.size]
      split_ifs <;> rfl
    · show (entries buckets).card < m.capacity
      have hlt := hspare.2
      rcases hop with ⟨i, b, hb, hcompare, hbefore⟩ | hroom
      · have := hreach i b hb hcompare hbefore
        rw [hcard, this]
        exact hlt
      · rw [hs.size] at hroom
        rw [hcard]
        split_ifs <;> omega

/-- There is an empty bucket, and whatever its key, the next update ends. -/
def UpdateEnds (m : HashMap) : Prop :=
  (∃ b ∈ m.buckets, bucketIsEmpty b = true) ∧
    ∀ key value, hashmapUpdate m key value ≠ .error .diverges

private theorem Roomy.updateEnds (hm : Roomy m) : UpdateEnds m := by
  obtain ⟨hs, hspare⟩ := hm
  have hcap := hspare.isCapacity hs
  have hcard : (entries m.buckets).card < m.buckets.length := hs.length ▸ hspare.2
  refine ⟨exists_isEmpty_of_card_lt hcard, fun key value h => ?_⟩
  obtain ⟨d, hd, hvac⟩ := exists_vacant_ahead hcard (hashmapHash m key).toNat
  have hends := updateLoop_ends hcap key value (hashmapHash m key) (m.capacity + 1) 0 hs.length hvac
    (by rw [hs.length] at hd; omega)
  simp only [hashmapUpdate, hashmapIndex_eq hcap] at h
  cases hrun : updateLoop m.capacity key value (hashmapHash m key) (m.capacity + 1) m.buckets
      ((hashmapHash m key).toNat % m.capacity) 0 with
  | ok r =>
    rw [hrun] at h
    simp at h
  | error e =>
    rw [hrun] at h
    rw [hrun] at hends
    exact hends (by simpa using h)

/-- After any run on a map that has buckets and whose updates leave room, the
next update ends. -/
theorem run_updateEnds (c : UInt64) (hc : c.toNat < 2 ^ 63) (hashFunc : Key → UInt32 → UInt32)
    (hashkey : UInt32) (m₀ : HashMap) (hnew : hashmapNew c hashFunc hashkey = .ok m₀)
    (ops : List Op) (hkeys : ∀ op ∈ ops, op.key ≠ []) (halong : Along KeepsRoom m₀ ops)
    (m : HashMap) (hrun : run m₀ ops = .ok m) : UpdateEnds m := by
  obtain ⟨hwf, hspare, -⟩ := (hashmapNew_yields hc hashFunc hashkey).of_ok hnew
  exact (run_along (fun _ _ _ hm hop hne hstep => hm.step_keepsRoom hop hne hstep)
    (I := Roomy) ⟨hwf.toSound, hspare⟩ halong hkeys hrun).updateEnds

theorem run_updateEnds_update :
    ∃ m₀ m, hashmapNew 4 firstByte 0 = .ok m₀ ∧
      run m₀ [.update [3] (.bytes 1 []), .insert [11] (.bytes 2 [])] = .ok m ∧ UpdateEnds m := by
  have hrun : (hashmapNew 4 firstByte 0 >>= fun m₀ =>
      run m₀ [.update [3] (.bytes 1 []), .insert [11] (.bytes 2 [])] >>= fun m =>
      hashmapGet m [3]) = .ok (some (.bytes 1 [])) := by decide
  obtain ⟨m₀, hnew, hrest⟩ := bind_eq_ok.mp hrun
  obtain ⟨m, hm, -⟩ := bind_eq_ok.mp hrest
  obtain ⟨hwf, hspare, hnone⟩ := (hashmapNew_yields (by decide) firstByte 0).of_ok hnew
  have hroom : m₀.size + 2 ≤ m₀.capacity := by
    rw [hwf.size, hnone]
    exact hspare.1
  have halong : Along KeepsRoom m₀ [.update [3] (.bytes 1 []), .insert [11] (.bytes 2 [])] :=
    ⟨Or.inr hroom, fun _ _ => ⟨trivial, fun _ _ => trivial⟩⟩
  exact ⟨m₀, m, hnew, hm, run_updateEnds 4 (by decide) firstByte 0 m₀ hnew _ (by decide) halong
    m hm⟩

/-- Two updates fill a map of two buckets, and the third never ends. -/
theorem run_not_updateEnds :
    ¬ ∀ (c : UInt64) (hashFunc : Key → UInt32 → UInt32) (hashkey : UInt32) (m₀ : HashMap),
      hashmapNew c hashFunc hashkey = .ok m₀ → ∀ ops, (∀ op ∈ ops, op.key ≠ []) →
      ∀ m, run m₀ ops = .ok m → UpdateEnds m := by
  intro h
  have hrun : (hashmapNew 1 firstByte 0 >>= fun m₀ =>
      run m₀ [.update [1] (.bytes 1 []), .update [2] (.bytes 2 [])] >>= fun m =>
      .ok (m.buckets.all fun b => !bucketIsEmpty b)) = .ok true := by decide
  obtain ⟨m₀, hnew, hrest⟩ := bind_eq_ok.mp hrun
  obtain ⟨m, hm, hfull⟩ := bind_eq_ok.mp hrest
  have hfull := List.all_eq_true.mp (Except.ok.inj hfull)
  obtain ⟨b, hb, hempty⟩ := (h 1 firstByte 0 m₀ hnew _ (by decide) m hm).1
  simpa [hempty] using hfull b hb

end Libromano.Hashmap
