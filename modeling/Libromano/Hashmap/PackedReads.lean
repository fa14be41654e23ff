/- What `bucket_new` puts into the bytes of a bucket is read back from them, wherever the bytes
   are moved. -/

import Libromano.Hashmap.Packed

set_option autoImplicit false
set_option relaxedAutoImplicit false

namespace Libromano.Hashmap.Packed

open Libromano.Foundation Libromano.Foundation.Heap

variable {A : Allocator} {h h' h₁ h₂ : Heap} {b p q n m offset w : ℕ}
  {data before old new after k v : List UInt8} {key : Key} {value : Value}

structure ChangesOnly (h h' : Heap) (p n : ℕ) : Prop where
  live : h'.live = h.live
  bytes : ∀ q, q < p ∨ p + n ≤ q → h'.bytes q = h.bytes q

structure Frame (b : ℕ) (h h' : Heap) : Prop where
  live : h.live ⊆ h'.live
  holds : ∀ p data, h.Holds p data → Extent.Apart ⟨p, data.length⟩ ⟨b, sizeofBucket⟩ →
    h'.Holds p data

private theorem Frame.trans (hleft : Frame b h h₁) (hright : Frame b h₁ h₂) : Frame b h h₂ where
  live := List.Subset.trans hleft.live hright.live
  holds p data hdata hapart := hright.holds p data (hleft.holds p data hdata hapart) hapart

theorem ChangesOnly.frame (hchange : ChangesOnly h h' (b + offset) n)
    (hinside : offset + n ≤ sizeofBucket) : Frame b h h' where
  live := by rw [hchange.live]; exact List.Subset.refl h.live
  holds p data hdata hapart := by
    refine ⟨hdata.valid.mono (by rw [hchange.live]; exact List.Subset.refl h.live), ?_⟩
    refine (peek_congr fun i hi => hchange.bytes (p + i) ?_).trans hdata.peek
    rcases hapart with hlow | hhigh
    · left
      dsimp only at hlow
      omega
    · right
      dsimp only at hhigh
      omega

theorem memcpy_within (hb : b ≠ 0) (hat : h.Holds b (before ++ (old ++ after)))
    (hoffset : before.length = offset) (hlength : new.length = old.length) :
    ∃ h', h.memcpy (b + offset) new = .ok h' ∧ h'.Holds b (before ++ (new ++ after)) ∧
      ChangesOnly h h' (b + offset) new.length := by
  subst hoffset
  refine ⟨h.write (b + before.length) new, ?_, hat.write_within hlength, rfl, fun q hq => ?_⟩
  · exact memcpy_eq_ok (by omega) (hlength ▸ hat.valid_within)
  · exact poke_outside hq

private theorem setField_within {u : ℕ} (hb : b ≠ 0)
    (hat : h.Holds b (before ++ (littleEndian n u ++ after))) (hoffset : before.length = offset)
    (w : ℕ) : ∃ h', setField h b offset n w = .ok h' ∧
      h'.Holds b (before ++ (littleEndian n w ++ after)) ∧ ChangesOnly h h' (b + offset) n := by
  have hlength : (littleEndian n w).length = (littleEndian n u).length := by simp
  obtain ⟨h', hset, hat', hchange⟩ := memcpy_within hb hat hoffset hlength
  rw [length_littleEndian] at hchange
  exact ⟨h', hset, hat', hchange⟩

theorem field_within (hat : h.Holds b (before ++ (old ++ after))) (hoffset : before.length = offset)
    (hn : old.length = n) : field h b offset n = ofLittleEndian old := by
  subst hoffset hn
  rw [field, hat.peek_eq]

def layout (k v : List UInt8) (valueSize hash probeLength flags : ℕ) : List UInt8 :=
  k ++ (v ++ (littleEndian 4 valueSize ++ (littleEndian 4 hash ++
    (littleEndian 2 probeLength ++ littleEndian 2 flags))))

def packedKey (key : Key) (p : ℕ) : List UInt8 :=
  if key.length < internedSize then
    key ++ (List.replicate (internedSize - key.length) 0 ++ [UInt8.ofNat key.length])
  else littleEndian 8 p ++ (littleEndian 4 key.length).reverse

def packedValue (value : Value) (p : ℕ) : List UInt8 :=
  if value.size ≤ 8 then value.content ++ List.replicate (8 - value.content.length) 0
  else littleEndian 8 p

def keyFlags (key : Key) : ℕ := if key.length < internedSize then 1 else 0

theorem length_packedKey (key : Key) (p : ℕ) : (packedKey key p).length = 12 := by
  unfold packedKey
  split_ifs with hshort
  · simp only [List.length_append, List.length_replicate, List.length_singleton]
    unfold internedSize at hshort ⊢
    omega
  · simp

theorem length_content (hvalue : value.size ≠ 0) : value.content.length = value.size := by
  cases value with
  | pointer address => exact absurd rfl hvalue
  | bytes first rest => rfl

private theorem length_content_le (hvalue : value.size ≤ 8) : value.content.length ≤ 8 := by
  cases value with
  | pointer address => exact (length_littleEndian 8 _).le
  | bytes first rest => exact hvalue

theorem length_packedValue (value : Value) (p : ℕ) : (packedValue value p).length = 8 := by
  unfold packedValue
  split_ifs with hshort
  · have hle := length_content_le hshort
    rw [List.length_append, List.length_replicate]
    omega
  · simp

section Layout

variable {valueSize hash probeLength flags : ℕ}

private theorem length_layout (hk : k.length = 12) (hv : v.length = 8) :
    (layout k v valueSize hash probeLength flags).length = sizeofBucket := by
  simp [layout, hk, hv, sizeofBucket]

theorem layout_valueSize : layout k v valueSize hash probeLength flags = (k ++ v) ++
    (littleEndian 4 valueSize ++ (littleEndian 4 hash ++
      (littleEndian 2 probeLength ++ littleEndian 2 flags))) := by
  simp [layout]

private theorem layout_hash : layout k v valueSize hash probeLength flags =
    (k ++ (v ++ littleEndian 4 valueSize)) ++ (littleEndian 4 hash ++
      (littleEndian 2 probeLength ++ littleEndian 2 flags)) := by
  simp [layout]

private theorem layout_probeLength : layout k v valueSize hash probeLength flags =
    (k ++ (v ++ (littleEndian 4 valueSize ++ littleEndian 4 hash))) ++
      (littleEndian 2 probeLength ++ littleEndian 2 flags) := by
  simp [layout]

private theorem layout_flags : layout k v valueSize hash probeLength flags =
    (k ++ (v ++ (littleEndian 4 valueSize ++ (littleEndian 4 hash ++
      littleEndian 2 probeLength)))) ++ (littleEndian 2 flags ++ []) := by
  simp [layout]

variable (hb : b ≠ 0) (hk : k.length = 12) (hv : v.length = 8)
  (hat : h.Holds b (layout k v valueSize hash probeLength flags))

include hb hk hv hat

theorem setField_valueSize (w : ℕ) : ∃ h', setField h b offsetValueSize 4 w = .ok h' ∧
    h'.Holds b (layout k v w hash probeLength flags) ∧
    ChangesOnly h h' (b + offsetValueSize) 4 := by
  rw [layout_valueSize] at hat ⊢
  exact setField_within hb hat (by simp [hk, hv, offsetValueSize]) w

private theorem setField_hash (w : ℕ) : ∃ h', setField h b offsetHash 4 w = .ok h' ∧
    h'.Holds b (layout k v valueSize w probeLength flags) ∧
    ChangesOnly h h' (b + offsetHash) 4 := by
  rw [layout_hash] at hat ⊢
  exact setField_within hb hat (by simp [hk, hv, offsetHash]) w

private theorem setField_probeLength (w : ℕ) : ∃ h', setField h b offsetProbeLength 2 w = .ok h' ∧
    h'.Holds b (layout k v valueSize hash w flags) ∧
    ChangesOnly h h' (b + offsetProbeLength) 2 := by
  rw [layout_probeLength] at hat ⊢
  exact setField_within hb hat (by simp [hk, hv, offsetProbeLength]) w

private theorem setField_flags (w : ℕ) : ∃ h', setField h b offsetFlags 2 w = .ok h' ∧
    h'.Holds b (layout k v valueSize hash probeLength w) ∧
    ChangesOnly h h' (b + offsetFlags) 2 := by
  rw [layout_flags] at hat ⊢
  exact setField_within hb hat (by simp [hk, hv, offsetFlags]) w

end Layout

structure OwnsBlock (h : Heap) (b : ℕ) (data : List UInt8) (p : ℕ) : Prop where
  address : p < 256 ^ 8
  holds : h.Holds p data
  apart : Extent.Apart ⟨p, data.length⟩ ⟨b, sizeofBucket⟩

theorem OwnsBlock.frame (howns : OwnsBlock h b data p) (hframe : Frame b h h') :
    OwnsBlock h' b data p :=
  { howns with holds := hframe.holds p data howns.holds howns.apart }

def keyBlocks (key : Key) (p : ℕ) : List Extent :=
  if key.length < internedSize then [] else [⟨p, key.length⟩]

def valueBlocks (value : Value) (p : ℕ) : List Extent :=
  if value.size ≤ 8 then [] else [⟨p, value.size⟩]

private theorem storeBlock_yields (hb : b ≠ 0) (hat : h.Holds b (before ++ (old ++ after)))
    (hoffset : before.length = offset) (hold : old.length = 8)
    (hsize : (before ++ (old ++ after)).length = sizeofBucket) (hdata : 0 < data.length) :
    Yields (storeBlock (malloc A h data.length) b offset data) fun h' => ∃ p,
      h'.Holds b (before ++ (littleEndian 8 p ++ after)) ∧ OwnsBlock h' b data p ∧
        h'.live = ⟨p, data.length⟩ :: h.live ∧ Frame b h h' := by
  rw [storeBlock]
  apply (malloc_yields A h data.length).bind
  intro r hr
  obtain ⟨p, h₁⟩ := r
  obtain ⟨hp, hend, hh₁, hfresh⟩ := hr
  dsimp only at hp hend hh₁ hfresh ⊢
  have hlive₁ : h₁.live = ⟨p, data.length⟩ :: h.live := by rw [hh₁]
  have hmono : h.live ⊆ h₁.live := by
    rw [hlive₁]
    exact List.subset_cons_self _ _
  have hbytes₁ : h₁.bytes = h.bytes := by rw [hh₁]
  have haddress : p < 256 ^ 8 := by omega
  have hlength : (littleEndian 8 p).length = old.length := by rw [hold, length_littleEndian]
  obtain ⟨h₂, hset, hat₂, hchange⟩ :=
    memcpy_within hb (hat.mono hmono hbytes₁) hoffset hlength
  have hlive₂ := hchange.live
  have hvalid : h₂.Valid p data.length := by
    refine ⟨⟨p, data.length⟩, ?_, Nat.le_refl _, Nat.le_refl _⟩
    rw [hlive₂, hlive₁]
    exact List.mem_cons_self
  have hinside : offset + (littleEndian 8 p).length ≤ sizeofBucket := by
    rw [List.length_append, List.length_append] at hsize
    omega
  have hbucket : Extent.Apart ⟨b, sizeofBucket⟩ ⟨p, data.length⟩ := by
    rw [← hsize]
    exact hfresh b _ hat.valid
  rw [setField, hset, bind_ok, field_within hat₂ hoffset (length_littleEndian 8 p),
    ofLittleEndian_littleEndian haddress, memcpy_eq_ok hp hvalid, Yields.ok_iff]
  refine ⟨p, hat₂.write_apart ?_, ⟨haddress, Holds.of_write hvalid, hbucket.symm⟩, ?_, ?_, ?_⟩
  · rw [List.length_append, List.length_append, hlength, ← List.length_append,
      ← List.length_append, hsize]
    exact hbucket
  · rw [write_live, hlive₂, hlive₁]
  · rw [write_live, hlive₂]
    exact hmono
  · intro q other hother hapart
    have hother₂ := (hchange.frame hinside).holds q other (hother.mono hmono hbytes₁) hapart
    exact hother₂.write_apart (hfresh q _ hother.valid)

private theorem littleEndian_memBswapu32 (x : UInt32) :
    littleEndian 4 (memBswapu32 x).toNat = (littleEndian 4 x.toNat).reverse := by
  have hlength : (littleEndian 4 x.toNat).reverse.length = 4 := by simp
  have hlt := ofLittleEndian_lt (littleEndian 4 x.toNat).reverse
  rw [hlength, show 256 ^ 4 = 2 ^ 32 from rfl] at hlt
  have hback := littleEndian_ofLittleEndian (littleEndian 4 x.toNat).reverse
  rw [hlength] at hback
  rw [memBswapu32, UInt32.toNat_ofNat', Nat.mod_eq_of_lt hlt, hback]

private theorem bucketFlags_layout {valueSize hash probeLength : ℕ} (hk : k.length = 12)
    (hv : v.length = 8) {flags : UInt16}
    (hat : h.Holds b (layout k v valueSize hash probeLength flags.toNat)) :
    bucketFlags h b = flags := by
  rw [layout_flags] at hat
  rw [bucketFlags, field_within hat (by simp [hk, hv, offsetFlags]) (length_littleEndian 2 _),
    ofLittleEndian_littleEndian flags.toNat_lt, UInt16.ofNat_toNat]

private theorem storeKey_yields (hb : b ≠ 0) (hv : v.length = 8) (hlength : key.length < 2 ^ 32)
    (hat : h.Holds b (layout (List.replicate 12 0) v 0 0 0 0)) :
    Yields (storeKey A h b key) fun h' => ∃ p,
      h'.Holds b (layout (packedKey key p) v 0 0 0 (keyFlags key)) ∧
        (internedSize ≤ key.length → OwnsBlock h' b key p) ∧
        h'.live = keyBlocks key p ++ h.live ∧ Frame b h h' := by
  unfold storeKey packedKey keyFlags keyBlocks
  split_ifs with hshort
  · have hsplit : List.replicate 12 (0 : UInt8) =
        List.replicate key.length 0 ++ (List.replicate (internedSize - key.length) 0 ++ [0]) := by
      rw [← List.replicate_one, List.replicate_append_replicate, List.replicate_append_replicate]
      congr 1
      unfold internedSize at hshort ⊢
      omega
    have hmask : key.length &&& 0xFF = key.length := by
      rw [Nat.and_two_pow_sub_one_eq_mod key.length 8, Nat.mod_eq_of_lt]
      unfold internedSize at hshort
      omega
    have hsize : (key ++ List.replicate (internedSize - key.length) 0).length = internedSize := by
      rw [List.length_append, List.length_replicate]
      omega
    rw [layout, hsplit, List.append_assoc, List.append_assoc] at hat
    obtain ⟨h₁, hset₁, hat₁, hchange₁⟩ :=
      memcpy_within hb (show h.Holds b ([] ++ (List.replicate key.length 0 ++ _)) from hat)
        List.length_nil List.length_replicate.symm
    rw [List.nil_append, ← List.append_assoc] at hat₁
    have hone : [UInt8.ofNat (key.length &&& 0xFF)].length = [(0 : UInt8)].length := rfl
    obtain ⟨h₂, hset₂, hat₂, hchange₂⟩ := memcpy_within hb hat₁ hsize hone
    rw [hmask, List.append_assoc, ← List.append_assoc _ [_], ← List.append_assoc key] at hat₂
    have hk : (key ++ (List.replicate (internedSize - key.length) 0 ++
        [UInt8.ofNat key.length])).length = 12 := by
      rw [← List.append_assoc, List.length_append, hsize]
      rfl
    have hflags : bucketFlags h₂ b = 0 := bucketFlags_layout hk hv hat₂
    obtain ⟨h₃, hset₃, hat₃, hchange₃⟩ := setField_flags hb hk hv hat₂ 1
    have hset₃' : setField h₂ b offsetFlags 2 (0 ||| bucketFlagKeyInterned).toNat = .ok h₃ := hset₃
    rw [Nat.add_zero] at hset₁
    rw [hset₁, bind_ok, hset₂, bind_ok, bucketSetFlag, hflags, hset₃', Yields.ok_iff]
    refine ⟨0, hat₃, fun hlong => absurd hlong (by omega), ?_, ?_⟩
    · rw [List.nil_append, hchange₃.live, hchange₂.live, hchange₁.live]
    · have hfirst : 0 + key.length ≤ sizeofBucket := by
        unfold internedSize at hshort
        unfold sizeofBucket
        omega
      rw [List.length_singleton] at hchange₂
      exact (hchange₁.frame hfirst).trans ((hchange₂.frame (by decide)).trans
        (hchange₃.frame (by decide)))
  · have hsplit : List.replicate 12 (0 : UInt8) = List.replicate 8 0 ++ littleEndian 4 0 := by
      decide
    have hlong : 0 < key.length := by
      unfold internedSize at hshort
      omega
    have hsize : (layout (List.replicate 12 0) v 0 0 0 0).length = sizeofBucket :=
      length_layout rfl hv
    have hswap : littleEndian 4 (memBswapu32 (UInt32.ofNat key.length)).toNat =
        (littleEndian 4 key.length).reverse := by
      rw [littleEndian_memBswapu32, UInt32.toNat_ofNat', Nat.mod_eq_of_lt hlength]
    rw [layout, hsplit, List.append_assoc] at hat hsize
    refine (storeBlock_yields hb
      (show h.Holds b ([] ++ (List.replicate 8 0 ++ (littleEndian 4 0 ++ _))) from hat)
      List.length_nil rfl hsize hlong).bind fun h₁ hpost => ?_
    obtain ⟨p, hat₁, howns, hlive, hframe⟩ := hpost
    rw [List.nil_append] at hat₁
    obtain ⟨h₂, hset₂, hat₂, hchange₂⟩ := setField_within hb hat₁ (length_littleEndian 8 p)
      (memBswapu32 (UInt32.ofNat key.length)).toNat
    rw [hswap, ← List.append_assoc] at hat₂
    have hk : (littleEndian 8 p ++ (littleEndian 4 key.length).reverse).length = 12 := by simp
    have hflags : bucketFlags h₂ b = 0 := bucketFlags_layout hk hv hat₂
    obtain ⟨h₃, hset₃, hat₃, hchange₃⟩ := setField_flags hb hk hv hat₂ 0
    have hset₃' : setField h₂ b offsetFlags 2 (0 &&& ~~~bucketFlagKeyInterned).toNat = .ok h₃ :=
      hset₃
    have hframe₃ : Frame b h₁ h₃ :=
      (hchange₂.frame (by decide)).trans (hchange₃.frame (by decide))
    rw [show offsetKeySize = 8 from rfl, hset₂, bind_ok, bucketUnsetFlag, hflags, hset₃',
      Yields.ok_iff]
    refine ⟨p, hat₃, fun _ => howns.frame hframe₃, ?_, hframe.trans hframe₃⟩
    rw [hchange₃.live, hchange₂.live, hlive, List.singleton_append]

section Value

variable {valueSize hash probeLength flags : ℕ}

theorem storePointer (hb : b ≠ 0) (hk : k.length = 12) (hempty : value.size = 0)
    (hat : h.Holds b (layout k (List.replicate 8 0) valueSize hash probeLength flags)) :
    ∃ h', setField h b offsetValue 8 value.address.toNat = .ok h' ∧
      h'.Holds b (layout k (packedValue value 0) valueSize hash probeLength flags) ∧
        ChangesOnly h h' (b + offsetValue) 8 := by
  cases value with
  | bytes first rest => exact absurd hempty (Nat.succ_ne_zero _)
  | pointer address =>
    have hpacked : packedValue (.pointer address) 0 = littleEndian 8 address.toNat := by
      simp [packedValue, Value.size, Value.content]
    rw [hpacked]
    exact setField_within hb (show h.Holds b (k ++ (littleEndian 8 0 ++ _)) from hat) hk _

theorem storeShort (hb : b ≠ 0) (hk : k.length = 12) (hshort : value.size ≤ 8)
    (hat : h.Holds b (layout k (List.replicate 8 0) valueSize hash probeLength flags)) :
    ∃ h', h.memcpy (b + offsetValue) value.data = .ok h' ∧
      h'.Holds b (layout k (value.data ++ List.replicate (8 - value.size) 0) valueSize hash
        probeLength flags) ∧
        ChangesOnly h h' (b + offsetValue) value.size := by
  have hsplit : List.replicate 8 (0 : UInt8) =
      List.replicate value.size 0 ++ List.replicate (8 - value.size) 0 := by
    rw [List.replicate_append_replicate]
    congr 1
    omega
  have hlength : value.data.length = (List.replicate value.size (0 : UInt8)).length := by simp
  rw [layout, hsplit, List.append_assoc] at hat
  obtain ⟨h', hset, hat', hchange⟩ := memcpy_within hb hat hk hlength
  rw [← List.append_assoc value.data] at hat'
  rw [Value.length_data] at hchange
  exact ⟨h', hset, hat', hchange⟩

theorem storeLong (hb : b ≠ 0) (hk : k.length = 12) (hlong : 8 < value.size)
    (hat : h.Holds b (layout k (List.replicate 8 0) valueSize hash probeLength flags)) :
    Yields (storeBlock (malloc A h value.size) b offsetValue value.data) fun h' => ∃ p,
      h'.Holds b (layout k (packedValue value p) valueSize hash probeLength flags) ∧
        OwnsBlock h' b value.data p ∧ h'.live = ⟨p, value.size⟩ :: h.live ∧ Frame b h h' := by
  have hsize : (layout k (List.replicate 8 0) valueSize hash probeLength flags).length =
      sizeofBucket := length_layout hk List.length_replicate
  have hdata : 0 < value.data.length := by
    rw [Value.length_data]
    omega
  rw [← Value.length_data]
  apply (storeBlock_yields hb hat hk List.length_replicate hsize hdata).mono
  intro h' _ hpost
  obtain ⟨p, hat', howns⟩ := hpost
  refine ⟨p, ?_, howns⟩
  rw [packedValue, if_neg (by omega)]
  exact hat'

theorem data_packed (hempty : value.size ≠ 0) (hshort : value.size ≤ 8) :
    value.data ++ List.replicate (8 - value.size) 0 = packedValue value p := by
  cases value with
  | pointer address => exact absurd rfl hempty
  | bytes first rest =>
    rw [packedValue, if_pos hshort]
    rfl

private theorem storeValue_yields (hb : b ≠ 0) (hk : k.length = 12)
    (hat : h.Holds b (layout k (List.replicate 8 0) valueSize hash probeLength flags)) :
    Yields (storeValue A h b value) fun h' => ∃ p,
      h'.Holds b (layout k (packedValue value p) valueSize hash probeLength flags) ∧
        (8 < value.size → OwnsBlock h' b value.data p) ∧
        h'.live = valueBlocks value p ++ h.live ∧ Frame b h h' := by
  unfold storeValue valueBlocks
  split_ifs with hempty hshort hshort'
  · obtain ⟨h', hset, hat', hchange⟩ := storePointer hb hk hempty hat
    rw [hset]
    refine ⟨0, hat', fun hlong => absurd hlong (by omega), hchange.live, ?_⟩
    exact hchange.frame (by decide)
  · omega
  · obtain ⟨h', hset, hat', hchange⟩ := storeShort hb hk hshort' hat
    rw [data_packed hempty hshort'] at hat'
    rw [hset]
    refine ⟨0, hat', fun hlong => absurd hlong (by omega), hchange.live, ?_⟩
    refine hchange.frame ?_
    unfold offsetValue sizeofBucket
    omega
  · apply (storeLong hb hk (by omega) hat).mono
    intro h' _ hpost
    obtain ⟨p, hat', howns, hlive, hframe⟩ := hpost
    exact ⟨p, hat', fun _ => howns, hlive, hframe⟩

end Value

structure Stored (h : Heap) (b : ℕ) (key : Key) (value : Value) (hash : UInt32)
    (probeLength : UInt16) (kp vp : ℕ) : Prop where
  bytes : h.Holds b (layout (packedKey key kp) (packedValue value vp) value.size hash.toNat
    probeLength.toNat (keyFlags key))
  keyBlock : internedSize ≤ key.length → OwnsBlock h b key kp
  valueBlock : 8 < value.size → OwnsBlock h b value.data vp

theorem bucketNew_yields (hb : b ≠ 0) (hvalid : h.Valid b sizeofBucket)
    (hlength : key.length < 2 ^ 32) (hash probeLength : UInt32) :
    Yields (bucketNew A h b key value hash probeLength) fun h' => ∃ kp vp,
      Stored h' b key value hash probeLength.toUInt16 kp vp ∧
        h'.live = valueBlocks value vp ++ (keyBlocks key kp ++ h.live) ∧ Frame b h h' := by
  have hzeros : (List.replicate sizeofBucket (0 : UInt8)).length = sizeofBucket :=
    List.length_replicate
  have hmemset := memcpy_eq_ok hb (show h.Valid b (List.replicate sizeofBucket 0).length by
    rwa [hzeros])
  have hat₀ : (h.write b (List.replicate sizeofBucket 0)).Holds b
      (layout (List.replicate 12 0) (List.replicate 8 0) 0 0 0 0) :=
    Holds.of_write (show h.Valid b (List.replicate sizeofBucket 0).length by rwa [hzeros])
  have hframe₀ : Frame b h (h.write b (List.replicate sizeofBucket 0)) := by
    refine ⟨List.Subset.refl _, fun p data hdata hapart => hdata.write_apart ?_⟩
    rwa [hzeros]
  rw [bucketNew, hmemset, bind_ok]
  apply (storeKey_yields hb List.length_replicate hlength hat₀).bind
  intro h₁ hkey
  obtain ⟨kp, hat₁, hkeyBlock, hlive₁, hframe₁⟩ := hkey
  apply (storeValue_yields hb (length_packedKey key kp) hat₁).bind
  intro h₂ hvalue
  obtain ⟨vp, hat₂, hvalueBlock, hlive₂, hframe₂⟩ := hvalue
  have hk := length_packedKey key kp
  have hv := length_packedValue value vp
  obtain ⟨h₃, hset₃, hat₃, hchange₃⟩ := setField_valueSize hb hk hv hat₂ value.size
  obtain ⟨h₄, hset₄, hat₄, hchange₄⟩ := setField_hash hb hk hv hat₃ hash.toNat
  obtain ⟨h₅, hset₅, hat₅, hchange₅⟩ :=
    setField_probeLength hb hk hv hat₄ probeLength.toUInt16.toNat
  rw [hset₃, bind_ok, bucketSetHash, hset₄, bind_ok, bucketSetProbeLength, hset₅, Yields.ok_iff]
  have hframe₅ : Frame b h₂ h₅ := (hchange₃.frame (by decide)).trans
    ((hchange₄.frame (by decide)).trans (hchange₅.frame (by decide)))
  refine ⟨kp, vp, ⟨hat₅, fun hlong => ?_, fun hlong => (hvalueBlock hlong).frame hframe₅⟩, ?_, ?_⟩
  · exact ((hkeyBlock hlong).frame hframe₂).frame hframe₅
  · rw [hchange₅.live, hchange₄.live, hchange₃.live, hlive₂, hlive₁]
    rfl
  · exact hframe₀.trans (hframe₁.trans (hframe₂.trans hframe₅))

/-- `malloc` refuses a block that the bucket asks for. -/
def Refused (A : Allocator) (h : Heap) (key : Key) (value : Value) : Prop :=
  internedSize ≤ key.length ∧ A.grant h.live key.length = none ∨
    8 < value.size ∧ ∃ kp, (internedSize ≤ key.length → A.grant h.live key.length = some kp) ∧
      A.grant (keyBlocks key kp ++ h.live) value.size = none

private theorem storeBlock_eq_ok {n : ℕ}
    (hstore : storeBlock (malloc A h n) b offset data = .ok h') :
    ∃ p, A.grant h.live n = some p ∧ h'.live = ⟨p, n⟩ :: h.live := by
  obtain ⟨⟨p, h₁⟩, hmalloc, hstore⟩ := bind_eq_ok.mp hstore
  obtain ⟨h₂, hset, hcopy⟩ := bind_eq_ok.mp hstore
  obtain ⟨hgrant, hlive⟩ := malloc_eq_ok A hmalloc
  exact ⟨p, hgrant, ((memcpy_live hcopy).trans (memcpy_live hset)).trans hlive⟩

private theorem storeBlock_refused {n : ℕ}
    (hstore : storeBlock (malloc A h n) b offset data = .error .outOfMemory) :
    A.grant h.live n = none := by
  rcases bind_eq_error.mp hstore with hmalloc | ⟨r, -, hstore⟩
  · exact malloc_eq_outOfMemory A hmalloc
  · rcases bind_eq_error.mp hstore with hset | ⟨h₂, -, hcopy⟩
    · exact absurd hset memcpy_ne_outOfMemory
    · exact absurd hcopy memcpy_ne_outOfMemory

private theorem storeKey_eq_ok (hstore : storeKey A h b key = .ok h') :
    ∃ kp, (internedSize ≤ key.length → A.grant h.live key.length = some kp) ∧
      h'.live = keyBlocks key kp ++ h.live := by
  rw [storeKey] at hstore
  split_ifs at hstore with hshort
  · obtain ⟨h₁, hkey, hstore⟩ := bind_eq_ok.mp hstore
    obtain ⟨h₂, hlength, hflag⟩ := bind_eq_ok.mp hstore
    rw [bucketSetFlag] at hflag
    refine ⟨0, fun hlong => absurd hshort (Nat.not_lt.mpr hlong), ?_⟩
    rw [keyBlocks, if_pos hshort, memcpy_live hflag, memcpy_live hlength, memcpy_live hkey]
    rfl
  · obtain ⟨h₁, hblock, hstore⟩ := bind_eq_ok.mp hstore
    obtain ⟨h₂, hsize, hflag⟩ := bind_eq_ok.mp hstore
    rw [bucketUnsetFlag] at hflag
    obtain ⟨p, hgrant, hlive⟩ := storeBlock_eq_ok hblock
    refine ⟨p, fun _ => hgrant, ?_⟩
    rw [keyBlocks, if_neg hshort, memcpy_live hflag, memcpy_live hsize, hlive]
    rfl

private theorem storeKey_refused (hstore : storeKey A h b key = .error .outOfMemory) :
    internedSize ≤ key.length ∧ A.grant h.live key.length = none := by
  rw [storeKey] at hstore
  split_ifs at hstore with hshort
  · rcases bind_eq_error.mp hstore with hkey | ⟨h₁, -, hstore⟩
    · exact absurd hkey memcpy_ne_outOfMemory
    · rcases bind_eq_error.mp hstore with hlength | ⟨h₂, -, hflag⟩
      · exact absurd hlength memcpy_ne_outOfMemory
      · rw [bucketSetFlag] at hflag
        exact absurd hflag memcpy_ne_outOfMemory
  · rcases bind_eq_error.mp hstore with hblock | ⟨h₁, -, hstore⟩
    · exact ⟨Nat.not_lt.mp hshort, storeBlock_refused hblock⟩
    · rcases bind_eq_error.mp hstore with hsize | ⟨h₂, -, hflag⟩
      · exact absurd hsize memcpy_ne_outOfMemory
      · rw [bucketUnsetFlag] at hflag
        exact absurd hflag memcpy_ne_outOfMemory

private theorem storeValue_refused (hstore : storeValue A h b value = .error .outOfMemory) :
    8 < value.size ∧ A.grant h.live value.size = none := by
  rw [storeValue] at hstore
  split_ifs at hstore with hempty hshort
  · exact absurd hstore memcpy_ne_outOfMemory
  · exact absurd hstore memcpy_ne_outOfMemory
  · exact ⟨Nat.not_le.mp hshort, storeBlock_refused hstore⟩

private theorem bucketNew_refused {hash probeLength : UInt32}
    (hnew : bucketNew A h b key value hash probeLength = .error .outOfMemory) :
    Refused A h key value := by
  rcases bind_eq_error.mp hnew with hmemset | ⟨h₀, hmemset, hnew⟩
  · exact absurd hmemset memcpy_ne_outOfMemory
  have hlive := memcpy_live hmemset
  rcases bind_eq_error.mp hnew with hkey | ⟨h₁, hkey, hnew⟩
  · exact .inl (hlive ▸ storeKey_refused hkey)
  obtain ⟨kp, hgrant, hblocks⟩ := storeKey_eq_ok hkey
  rw [hlive] at hgrant hblocks
  rcases bind_eq_error.mp hnew with hvalue | ⟨h₂, -, hnew⟩
  · obtain ⟨hlong, hrefused⟩ := storeValue_refused hvalue
    exact .inr ⟨hlong, kp, hgrant, hblocks ▸ hrefused⟩
  rcases bind_eq_error.mp hnew with hsize | ⟨h₃, -, hnew⟩
  · exact absurd hsize memcpy_ne_outOfMemory
  rcases bind_eq_error.mp hnew with hhash | ⟨h₄, -, hprobe⟩
  · rw [bucketSetHash] at hhash
    exact absurd hhash memcpy_ne_outOfMemory
  · rw [bucketSetProbeLength] at hprobe
    exact absurd hprobe memcpy_ne_outOfMemory

private theorem not_refused_of_short (hkey : key.length < internedSize) (hvalue : value.size ≤ 8) :
    ¬Refused A h key value := by
  rintro (⟨hlong, -⟩ | ⟨hlong, -⟩)
  · exact absurd hkey (Nat.not_lt.mpr hlong)
  · exact absurd hvalue (Nat.not_le.mpr hlong)

private theorem bucketNew_returns (hb : b ≠ 0) (hvalid : h.Valid b sizeofBucket)
    (hlength : key.length < 2 ^ 32) (hash probeLength : UInt32) (hgranted : ¬Refused A h key value) :
    ∃ h', bucketNew A h b key value hash probeLength = .ok h' := by
  have hyields : Yields (bucketNew A h b key value hash probeLength) _ :=
    bucketNew_yields hb hvalid hlength hash probeLength
  cases hnew : bucketNew A h b key value hash probeLength with
  | ok h' => exact ⟨h', rfl⟩
  | error e =>
    rw [hnew] at hyields
    obtain rfl : e = .outOfMemory := hyields
    exact absurd (bucketNew_refused hnew) hgranted

private theorem memBswapu32_back (hlength : key.length < 2 ^ 32) :
    memBswapu32 (UInt32.ofNat (ofLittleEndian (littleEndian 4 key.length).reverse)) =
      UInt32.ofNat key.length := by
  have hlt := ofLittleEndian_lt (littleEndian 4 key.length).reverse
  have hsize : (littleEndian 4 key.length).reverse.length = 4 := by simp
  have hback := littleEndian_ofLittleEndian (littleEndian 4 key.length).reverse
  rw [hsize] at hlt hback
  rw [show 256 ^ 4 = 2 ^ 32 from rfl] at hlt
  rw [memBswapu32, UInt32.toNat_ofNat', Nat.mod_eq_of_lt hlt, hback, List.reverse_reverse,
    ofLittleEndian_littleEndian hlength]

private theorem signedSize :
    ∀ n < internedSize, ((UInt8.ofNat n).toInt8.toInt32.toUInt32).toNat = n := by
  decide

namespace Stored

variable {hash : UInt32} {probeLength : UInt16} {kp vp : ℕ}

private theorem hasFlag (hstored : Stored h b key value hash probeLength kp vp) :
    bucketHasFlag h b bucketFlagKeyInterned = decide (key.length < internedSize) := by
  have hk := length_packedKey key kp
  have hv := length_packedValue value vp
  have hlayout := hstored.bytes
  unfold keyFlags at hlayout
  by_cases hshort : key.length < internedSize
  · rw [if_pos hshort] at hlayout
    have hflags : bucketFlags h b = 1 := bucketFlags_layout hk hv hlayout
    rw [bucketHasFlag, hflags, decide_eq_true hshort]
    rfl
  · rw [if_neg hshort] at hlayout
    have hflags : bucketFlags h b = 0 := bucketFlags_layout hk hv hlayout
    rw [bucketHasFlag, hflags, decide_eq_false hshort]
    rfl

private theorem keySize (hstored : Stored h b key value hash probeLength kp vp)
    (hlength : key.length < 2 ^ 32) : (bucketGetKeySize h b).toNat = key.length := by
  have hlayout := hstored.bytes
  rw [bucketGetKeySize, hstored.hasFlag]
  unfold layout packedKey at hlayout
  by_cases hshort : key.length < internedSize
  · have hsize : (key ++ List.replicate (internedSize - key.length) 0).length = internedSize := by
      rw [List.length_append, List.length_replicate]
      omega
    rw [if_pos hshort, ← List.append_assoc key, List.append_assoc] at hlayout
    have hpeek := hlayout.peek_eq
    rw [hsize] at hpeek
    have hbyte : h.bytes (b + internedSize) = UInt8.ofNat key.length := by simpa [peek] using hpeek
    rw [decide_eq_true hshort, if_pos rfl, hbyte]
    exact signedSize _ hshort
  · rw [if_neg hshort, List.append_assoc] at hlayout
    have hfield : field h b offsetKeySize 4 = ofLittleEndian (littleEndian 4 key.length).reverse :=
      field_within hlayout (length_littleEndian 8 kp) (by simp)
    rw [decide_eq_false hshort, if_neg Bool.false_ne_true, hfield, memBswapu32_back hlength,
      UInt32.toNat_ofNat', Nat.mod_eq_of_lt hlength]

private theorem getKey (hstored : Stored h b key value hash probeLength kp vp) :
    bucketGetKey h b = if key.length < internedSize then b else kp := by
  have hlayout := hstored.bytes
  rw [bucketGetKey, hstored.hasFlag]
  unfold layout packedKey at hlayout
  by_cases hshort : key.length < internedSize
  · rw [decide_eq_true hshort, if_pos rfl, if_pos hshort]
  · rw [if_neg hshort, List.append_assoc] at hlayout
    have hfield : field h b 0 8 = ofLittleEndian (littleEndian 8 kp) :=
      field_within (show h.Holds b ([] ++ (littleEndian 8 kp ++ _)) from hlayout) List.length_nil
        (length_littleEndian 8 kp)
    rw [decide_eq_false hshort, if_neg Bool.false_ne_true, if_neg hshort, hfield]
    exact ofLittleEndian_littleEndian (hstored.keyBlock (by omega)).address

private theorem keyAt (hstored : Stored h b key value hash probeLength kp vp) :
    h.Holds (bucketGetKey h b) key := by
  have hlayout := hstored.bytes
  rw [hstored.getKey]
  unfold layout packedKey at hlayout
  by_cases hshort : key.length < internedSize
  · rw [if_pos hshort, List.append_assoc] at hlayout
    rw [if_pos hshort]
    exact Holds.part (show h.Holds b ([] ++ (key ++ _)) from hlayout)
  · rw [if_neg hshort]
    exact (hstored.keyBlock (by omega)).holds

theorem valueSize (hstored : Stored h b key value hash probeLength kp vp)
    (hsize : value.size < 2 ^ 32) : (bucketGetValueSize h b).toNat = value.size := by
  have hk := length_packedKey key kp
  have hv := length_packedValue value vp
  have hlayout := hstored.bytes
  rw [layout_valueSize] at hlayout
  rw [bucketGetValueSize, field_within hlayout (by simp [hk, hv, offsetValueSize]) (by simp),
    ofLittleEndian_littleEndian hsize, UInt32.toNat_ofNat', Nat.mod_eq_of_lt hsize]

private theorem shortValue (hstored : Stored h b key value hash probeLength kp vp)
    (hsize : value.size < 2 ^ 32) : bucketGetValueSize h b ≤ 8 ↔ value.size ≤ 8 := by
  rw [UInt32.le_iff_toNat_le, hstored.valueSize hsize]
  rfl

private theorem getValue (hstored : Stored h b key value hash probeLength kp vp)
    (hsize : value.size < 2 ^ 32) :
    bucketGetValue h b = if value.size ≤ 8 then b + offsetValue else vp := by
  have hlayout := hstored.bytes
  rw [bucketGetValue]
  unfold layout packedValue at hlayout
  by_cases hshort : value.size ≤ 8
  · rw [if_pos ((hstored.shortValue hsize).mpr hshort), if_pos hshort]
  · rw [if_neg hshort] at hlayout
    have hfield : field h b offsetValue 8 = ofLittleEndian (littleEndian 8 vp) :=
      field_within hlayout (length_packedKey key kp) (length_littleEndian 8 vp)
    rw [if_neg (mt (hstored.shortValue hsize).mp hshort), if_neg hshort, hfield]
    exact ofLittleEndian_littleEndian (hstored.valueBlock (by omega)).address

theorem readsValue (hstored : Stored h b key value hash probeLength kp vp)
    (hsize : value.size < 2 ^ 32) : ReadsValue h b value where
  valueSize := hstored.valueSize hsize
  valueAt := by
    have hlayout := hstored.bytes
    rw [hstored.getValue hsize]
    unfold layout packedValue at hlayout
    by_cases hshort : value.size ≤ 8
    · rw [if_pos hshort, List.append_assoc] at hlayout
      have hpart := hlayout.part
      rw [length_packedKey] at hpart
      rw [if_pos hshort]
      exact hpart
    · have hblock := (hstored.valueBlock (by omega)).holds
      rw [if_neg hshort]
      cases value with
      | pointer address => exact absurd (Nat.zero_le 8) hshort
      | bytes first rest => exact hblock

private theorem getHash (hstored : Stored h b key value hash probeLength kp vp) :
    bucketGetHash h b = hash := by
  have hk := length_packedKey key kp
  have hv := length_packedValue value vp
  have hlayout := hstored.bytes
  rw [layout_hash] at hlayout
  rw [bucketGetHash, field_within hlayout (by simp [hk, hv, offsetHash]) (by simp),
    ofLittleEndian_littleEndian hash.toNat_lt, UInt32.ofNat_toNat]

private theorem getProbeLength (hstored : Stored h b key value hash probeLength kp vp) :
    bucketGetProbeLength h b = probeLength.toUInt32 := by
  have hk := length_packedKey key kp
  have hv := length_packedValue value vp
  have hlayout := hstored.bytes
  rw [layout_probeLength] at hlayout
  rw [bucketGetProbeLength, field_within hlayout (by simp [hk, hv, offsetProbeLength]) (by simp),
    ofLittleEndian_littleEndian probeLength.toNat_lt]
  apply UInt32.toNat_inj.mp
  simp

private theorem reads (hstored : Stored h b key value hash probeLength kp vp) (hempty : key ≠ [])
    (hlength : key.length < 2 ^ 32) (hsize : value.size < 2 ^ 32) :
    Reads h b key value hash probeLength.toUInt32 where
  toReadsValue := hstored.readsValue hsize
  keyAt := hstored.keyAt
  keySize := hstored.keySize hlength
  getHash := hstored.getHash
  getProbeLength := hstored.getProbeLength
  nonempty := by
    rw [bucketIsEmpty, beq_eq_false_iff_ne]
    intro hzero
    have hkeySize := hstored.keySize hlength
    rw [hzero] at hkeySize
    exact hempty (List.eq_nil_of_length_eq_zero hkeySize.symm)

theorem blocks (hstored : Stored h b key value hash probeLength kp vp)
    (hlength : key.length < 2 ^ 32) (hsize : value.size < 2 ^ 32) :
    bucketBlocks h b = keyBlocks key kp ++ valueBlocks value vp := by
  rw [bucketBlocks, hstored.hasFlag, hstored.getKey, hstored.keySize hlength,
    hstored.getValue hsize, hstored.valueSize hsize, keyBlocks, valueBlocks]
  congr 1
  · by_cases hshort : key.length < internedSize
    · rw [decide_eq_true hshort, if_pos rfl, if_pos hshort]
    · rw [decide_eq_false hshort, if_neg Bool.false_ne_true, if_neg hshort, if_neg hshort]
  · by_cases hshort : value.size ≤ 8
    · rw [if_pos ((hstored.shortValue hsize).mpr hshort), if_pos hshort]
    · rw [if_neg (mt (hstored.shortValue hsize).mp hshort), if_neg hshort, if_neg hshort]

private theorem setHash (hb : b ≠ 0) (hstored : Stored h b key value hash probeLength kp vp)
    (x : UInt32) : ∃ h', bucketSetHash h b x = .ok h' ∧
      Stored h' b key value x probeLength kp vp ∧ ChangesOnly h h' (b + offsetHash) 4 := by
  obtain ⟨h', hset, hat, hchange⟩ := setField_hash hb (length_packedKey key kp)
    (length_packedValue value vp) hstored.bytes x.toNat
  have hframe : Frame b h h' := hchange.frame (by decide)
  exact ⟨h', hset, ⟨hat, fun hlong => (hstored.keyBlock hlong).frame hframe,
    fun hlong => (hstored.valueBlock hlong).frame hframe⟩, hchange⟩

private theorem setProbeLength (hb : b ≠ 0) (hstored : Stored h b key value hash probeLength kp vp)
    (x : UInt32) : ∃ h', bucketSetProbeLength h b x = .ok h' ∧
      Stored h' b key value hash x.toUInt16 kp vp ∧ ChangesOnly h h' (b + offsetProbeLength) 2 := by
  obtain ⟨h', hset, hat, hchange⟩ := setField_probeLength hb (length_packedKey key kp)
    (length_packedValue value vp) hstored.bytes x.toUInt16.toNat
  have hframe : Frame b h h' := hchange.frame (by decide)
  exact ⟨h', hset, ⟨hat, fun hlong => (hstored.keyBlock hlong).frame hframe,
    fun hlong => (hstored.valueBlock hlong).frame hframe⟩, hchange⟩

end Stored

/-- Some memory is still in use and has not been written to. -/
def Keeps (h h' : Heap) (e : Extent) : Prop := h'.Holds e.address (peek h.bytes e.address e.size)

private theorem OwnsBlock.moved (howns : OwnsBlock h b data p)
    (hkeeps : Keeps h h' ⟨p, data.length⟩)
    (hnew : new.length = sizeofBucket) {b' : ℕ}
    (hapart : Extent.Apart ⟨p, data.length⟩ ⟨b', sizeofBucket⟩) :
    OwnsBlock (h'.write b' new) b' data p where
  address := howns.address
  holds := by
    unfold Keeps at hkeeps
    rw [howns.holds.peek] at hkeeps
    refine hkeeps.write_apart ?_
    rwa [hnew]
  apart := hapart

private theorem Stored.moved {hash : UInt32} {probeLength : UInt16} {kp vp b' : ℕ}
    (hstored : Stored h b key value hash probeLength kp vp) (hlength : key.length < 2 ^ 32)
    (hsize : value.size < 2 ^ 32) (hb' : b' ≠ 0) (hvalid : h'.Valid b' sizeofBucket)
    (hbucket : Keeps h h' ⟨b, sizeofBucket⟩)
    (hblocks : ∀ e ∈ bucketBlocks h b, Keeps h h' e ∧ e.Apart ⟨b', sizeofBucket⟩) :
    ∃ h₂, bucketCopy h' b b' = .ok h₂ ∧ Stored h₂ b' key value hash probeLength kp vp := by
  have hlayout : (layout (packedKey key kp) (packedValue value vp) value.size hash.toNat
      probeLength.toNat (keyFlags key)).length = sizeofBucket :=
    length_layout (length_packedKey key kp) (length_packedValue value vp)
  have hpeek := hstored.bytes.peek
  rw [hlayout] at hpeek
  have hpeek' := hbucket.peek
  rw [length_peek] at hpeek'
  dsimp only at hpeek'
  rw [hpeek] at hpeek'
  rw [hstored.blocks hlength hsize] at hblocks
  have hvalid' := hvalid
  rw [← hlayout] at hvalid'
  rw [bucketCopy, hpeek']
  refine ⟨_, memcpy_eq_ok hb' hvalid', Holds.of_write hvalid', fun hlong => ?_, fun hlong => ?_⟩
  · obtain ⟨hkeeps, hapart⟩ := hblocks ⟨kp, key.length⟩ (by
      rw [keyBlocks, if_neg (by omega)]
      exact List.mem_append_left _ List.mem_cons_self)
    exact (hstored.keyBlock hlong).moved hkeeps hlayout hapart
  · obtain ⟨hkeeps, hapart⟩ := hblocks ⟨vp, value.size⟩ (by
      rw [valueBlocks, if_neg (by omega)]
      exact List.mem_append_right _ List.mem_cons_self)
    rw [← Value.length_data] at hkeeps hapart
    exact (hstored.valueBlock hlong).moved hkeeps hlayout hapart

/-- A bucket that is read as what was put into it, and whose two setters change their
own field and nothing else. -/
structure Faithful (h : Heap) (b : ℕ) (key : Key) (value : Value) (hash probeLength : UInt32) :
    Prop extends Reads h b key value hash probeLength where
  setHash : ∀ x, ∃ h', bucketSetHash h b x = .ok h' ∧ Reads h' b key value x probeLength ∧
    ChangesOnly h h' (b + offsetHash) 4
  setProbeLength : ∀ x : UInt32, x.toNat < 65536 → ∃ h', bucketSetProbeLength h b x = .ok h' ∧
    Reads h' b key value hash x ∧ ChangesOnly h h' (b + offsetProbeLength) 2

private theorem toUInt16_toUInt32 {x : UInt32} (hx : x.toNat < 65536) :
    x.toUInt16.toUInt32 = x := by
  apply UInt32.toNat_inj.mp
  rw [UInt16.toNat_toUInt32, UInt32.toNat_toUInt16]
  exact Nat.mod_eq_of_lt hx

private theorem Stored.faithful {hash probeLength : UInt32} {kp vp : ℕ} (hb : b ≠ 0)
    (hstored : Stored h b key value hash probeLength.toUInt16 kp vp) (hempty : key ≠ [])
    (hlength : key.length < 2 ^ 32) (hsize : value.size < 2 ^ 32)
    (hprobe : probeLength.toNat < 65536) : Faithful h b key value hash probeLength where
  toReads := by
    have hreads := hstored.reads hempty hlength hsize
    rwa [toUInt16_toUInt32 hprobe] at hreads
  setHash x := by
    obtain ⟨h', hset, hstored', hchange⟩ := hstored.setHash hb x
    have hreads := hstored'.reads hempty hlength hsize
    rw [toUInt16_toUInt32 hprobe] at hreads
    exact ⟨h', hset, hreads, hchange⟩
  setProbeLength x hx := by
    obtain ⟨h', hset, hstored', hchange⟩ := hstored.setProbeLength hb x
    have hreads := hstored'.reads hempty hlength hsize
    rw [toUInt16_toUInt32 hx] at hreads
    exact ⟨h', hset, hreads, hchange⟩

/-- Where `malloc` grants what is asked for `bucket_new` returns. What it stores is read back where it
was stored, and wherever the bytes of the bucket are copied to while the blocks that it points to are
left alone. -/
theorem bucketNew_faithful (A : Allocator) (hb : b ≠ 0) (hvalid : h.Valid b sizeofBucket)
    (hempty : key ≠ []) (hlength : key.length < 2 ^ 32) (hsize : value.size < 2 ^ 32)
    (hash probeLength : UInt32) (hprobe : probeLength.toNat < 65536) :
    (¬Refused A h key value → ∃ h₁, bucketNew A h b key value hash probeLength = .ok h₁) ∧
    Yields (bucketNew A h b key value hash probeLength) fun h₁ =>
      Faithful h₁ b key value hash probeLength ∧
        ∀ h₂ b₂, b₂ ≠ 0 → h₂.Valid b₂ sizeofBucket → Keeps h₁ h₂ ⟨b, sizeofBucket⟩ →
          (∀ e ∈ bucketBlocks h₁ b, Keeps h₁ h₂ e ∧ e.Apart ⟨b₂, sizeofBucket⟩) →
          ∃ h₃, bucketCopy h₂ b b₂ = .ok h₃ ∧ Faithful h₃ b₂ key value hash probeLength := by
  refine ⟨bucketNew_returns hb hvalid hlength hash probeLength, ?_⟩
  apply (bucketNew_yields hb hvalid hlength hash probeLength).mono
  intro h₁ _ hpost
  obtain ⟨kp, vp, hstored, -, -⟩ := hpost
  refine ⟨hstored.faithful hb hempty hlength hsize hprobe, ?_⟩
  intro h₂ b₂ hb₂ hvalid₂ hkeeps hblocks
  obtain ⟨h₃, hcopy, hmoved⟩ := hstored.moved hlength hsize hb₂ hvalid₂ hkeeps hblocks
  exact ⟨h₃, hcopy, hmoved.faithful hb₂ hempty hlength hsize hprobe⟩

def room : Heap := ⟨fun _ => 0, [⟨64, 64⟩]⟩

/-- A key and a value with blocks of their own, and a short key with a short value, for which nothing
is allocated. -/
theorem bucketNew_faithful_long_short :
    (∃ h₁, bucketNew Allocator.bump room 64 (List.replicate 11 107)
      (.bytes 1 (List.replicate 8 2)) 77 3 = .ok h₁ ∧
      Faithful h₁ 64 (List.replicate 11 107) (.bytes 1 (List.replicate 8 2)) 77 3) ∧
    ∀ A : Allocator, ∃ h₁, bucketNew A room 64 [107, 101, 121] (.bytes 1 [2]) 77 3 = .ok h₁ ∧
      Faithful h₁ 64 [107, 101, 121] (.bytes 1 [2]) 77 3 := by
  have hroom : room.Valid 64 sizeofBucket := by decide
  constructor
  · have hnew : (bucketNew Allocator.bump room 64 (List.replicate 11 107)
        (.bytes 1 (List.replicate 8 2)) 77 3).isOk = true := rfl
    have hfaithful := (bucketNew_faithful Allocator.bump (show 64 ≠ 0 by decide) hroom
      (show List.replicate 11 107 ≠ [] by decide) (by decide)
      (show (Value.bytes 1 (List.replicate 8 2)).size < 2 ^ 32 by decide) 77 3 (by decide)).2
    generalize bucketNew _ _ _ _ _ _ _ = outcome at hnew hfaithful ⊢
    cases outcome with
    | error e => exact absurd hnew Bool.false_ne_true
    | ok h₁ => exact ⟨h₁, rfl, hfaithful.1⟩
  · intro A
    obtain ⟨hreturns, hfaithful⟩ := bucketNew_faithful A (show 64 ≠ 0 by decide) hroom
      (show [107, 101, 121] ≠ [] by decide) (by decide)
      (show (Value.bytes 1 [2]).size < 2 ^ 32 by decide) 77 3 (by decide)
    obtain ⟨h₁, hnew⟩ := hreturns (not_refused_of_short (by decide) (by decide))
    exact ⟨h₁, hnew, (hfaithful.of_ok hnew).1⟩

end Libromano.Hashmap.Packed
