/- What `bucket_update_value` does to the bytes and the blocks of a bucket. It writes over the
   pointer before it looks at it, so the block of a long value is neither reused nor freed. -/

import Libromano.Foundation.Objects
import Libromano.Hashmap.PackedReads
import Libromano.Hashmap.Update

set_option autoImplicit false
set_option relaxedAutoImplicit false

namespace Libromano.Hashmap.Packed

open Libromano.Foundation Libromano.Foundation.Heap Libromano.Foundation.Objects

variable {A : Allocator} {h h' : Heap} {b kp vp : ℕ} {key : Key} {old new value : Value}
  {hash : UInt32} {probeLength : UInt16}

private theorem address_eq_zero (hempty : value.size = 0) :
    value.address = 0 ↔ value = .pointer 0 := by
  cases value with
  | pointer address => simp [Value.address]
  | bytes first rest => exact absurd hempty (Nat.succ_ne_zero _)

private theorem overwriteValue_eq (hzero : field h b offsetValue 8 = 0)
    (hsize : (bucketGetValueSize h b).toNat = old.size) (value : Value) :
    overwriteValue A h b value =
      if 8 < value.size then
        if 0 < old.size ∧ value.size = old.size then .error .nullPointer
        else storeBlock (malloc A h value.size) b offsetValue value.data
      else if old.size = 0 ∧ value.size = 0 then setField h b offsetValue 8 value.address.toNat
      else h.memcpy (b + offsetValue) value.data := by
  have hpos : 0 < bucketGetValueSize h b ↔ 0 < old.size := by
    rw [UInt32.lt_iff_toNat_lt, hsize]
    rfl
  rw [overwriteValue, hzero, hsize, memcpy_null, free_null, realloc_null, bind_ok, bind_ok]
  by_cases hold : 0 < old.size
  · rw [if_pos (hpos.mpr hold)]
    by_cases hlong : 8 < value.size
    · rw [if_pos hlong, if_pos hlong, if_neg (by omega : ¬value.size = 0)]
      by_cases hsame : value.size = old.size
      · rw [if_pos hsame, if_pos ⟨hold, hsame⟩]
      · rw [if_neg hsame, if_neg fun h => hsame h.2]
    · rw [if_neg hlong, if_neg hlong, if_neg (by omega : ¬(old.size = 0 ∧ value.size = 0)),
        ite_self, ite_self]
  · rw [if_neg (mt hpos.mp hold)]
    by_cases hlong : 8 < value.size
    · rw [if_pos (by omega : 0 < value.size), if_pos hlong, if_pos hlong,
        if_neg fun h => hold h.1]
    · rw [if_neg hlong, if_neg hlong]
      by_cases hempty : value.size = 0
      · rw [if_neg (by omega : ¬0 < value.size), if_pos ⟨by omega, hempty⟩]
      · rw [if_pos (by omega : 0 < value.size), if_neg fun h => hempty h.2]

private theorem zeroValue (hb : b ≠ 0) (hstored : Stored h b key old hash probeLength kp vp) :
    ∃ h', setField h b offsetValue 8 0 = .ok h' ∧
      h'.Holds b (layout (packedKey key kp) (List.replicate 8 0) old.size hash.toNat
        probeLength.toNat (keyFlags key)) ∧ ChangesOnly h h' (b + offsetValue) 8 := by
  have hlength : (littleEndian 8 0).length = (packedValue old vp).length := by
    rw [length_packedValue, length_littleEndian]
  obtain ⟨h', hset, hat, hchange⟩ :=
    memcpy_within hb hstored.bytes (length_packedKey key kp) hlength
  exact ⟨h', hset, hat, hchange⟩

private theorem stored_of_layout {valueSize : ℕ} (hb : b ≠ 0)
    (hat : h.Holds b (layout (packedKey key kp) (packedValue value vp) valueSize hash.toNat
      probeLength.toNat (keyFlags key)))
    (hkey : internedSize ≤ key.length → OwnsBlock h b key kp)
    (hvalue : 8 < value.size → OwnsBlock h b value.data vp) :
    ∃ h', setField h b offsetValueSize 4 value.size = .ok h' ∧
      Stored h' b key value hash probeLength kp vp ∧ h'.live = h.live := by
  obtain ⟨h', hset, hat', hchange⟩ := setField_valueSize hb (length_packedKey key kp)
    (length_packedValue value vp) hat value.size
  have hframe : Frame b h h' := hchange.frame (by decide)
  exact ⟨h', hset, ⟨hat', fun hlong => (hkey hlong).frame hframe,
    fun hlong => (hvalue hlong).frame hframe⟩, hchange.live⟩

private theorem data_packed_empty (hempty : value.size = 0) :
    value.data ++ List.replicate (8 - value.size) 0 = packedValue (.pointer 0) 0 := by
  cases value with
  | pointer address => exact show [] ++ List.replicate 8 0 = packedValue (.pointer 0) 0 by decide
  | bytes first rest => exact absurd hempty (Nat.succ_ne_zero _)

/-- The bytes afterwards are those of the value that the map's `bucket_update_value` leaves, and
no block has been given back. -/
private theorem bucketUpdateValue_stored (A : Allocator) (hb : b ≠ 0)
    (hstored : Stored h b key old hash probeLength kp vp) (hold : old.size < 2 ^ 32)
    (new : Value) :
    (∃ e, overwritten old new = .error e ∧ bucketUpdateValue A h b new = .error e) ∨
      ∃ v, overwritten old new = .ok v ∧ Yields (bucketUpdateValue A h b new) fun h' => ∃ vp,
        Stored h' b key v hash probeLength kp vp ∧ h'.live = valueBlocks v vp ++ h.live := by
  obtain ⟨h₁, hzeroed, hat₁, hchange₁⟩ := zeroValue hb hstored
  have hk := length_packedKey key kp
  have hzero : field h₁ b offsetValue 8 = 0 :=
    field_within hat₁ hk List.length_replicate
  have hsize : (bucketGetValueSize h₁ b).toNat = old.size := by
    have hat := hat₁
    rw [layout_valueSize] at hat
    rw [bucketGetValueSize, field_within hat (by simp [hk, offsetValueSize]) (by simp),
      ofLittleEndian_littleEndian hold, UInt32.toNat_ofNat', Nat.mod_eq_of_lt hold]
  have hframe₁ : Frame b h h₁ := hchange₁.frame (by decide)
  rw [bucketUpdateValue, hzeroed, bind_ok, overwriteValue_eq hzero hsize, overwritten]
  by_cases hlong : 8 < new.size
  · rw [if_pos hlong]
    by_cases hsame : 0 < old.size ∧ new.size = old.size
    · rw [if_pos hsame, if_pos ⟨hsame.1, hlong, hsame.2⟩]
      exact Or.inl ⟨.nullPointer, rfl, rfl⟩
    · rw [if_neg hsame, if_neg fun h => hsame ⟨h.1, h.2.2⟩, if_neg (by omega)]
      refine Or.inr ⟨new, rfl, (storeLong hb hk hlong hat₁).bind fun h₂ hpost => ?_⟩
      obtain ⟨p, hat₂, howns, hlive, hframe⟩ := hpost
      obtain ⟨h₃, hset, hstored', hlive'⟩ := stored_of_layout hb hat₂
        (fun hkey => ((hstored.keyBlock hkey).frame hframe₁).frame hframe) fun _ => howns
      rw [hset]
      refine ⟨p, hstored', ?_⟩
      rw [hlive', hlive, hchange₁.live, valueBlocks, if_neg (by omega), List.singleton_append]
  · rw [if_neg hlong, if_neg fun h => hlong h.2.1]
    by_cases hempty : old.size = 0 ∧ new.size = 0
    · rw [if_pos hempty, if_neg (by omega)]
      obtain ⟨h₂, hpointer, hat₂, hchange₂⟩ := storePointer hb hk hempty.2 hat₁
      obtain ⟨h₃, hset, hstored', hlive'⟩ := stored_of_layout hb hat₂
        (fun hkey => ((hstored.keyBlock hkey).frame hframe₁).frame (hchange₂.frame (by decide)))
        fun h => absurd h hlong
      refine Or.inr ⟨new, rfl, ?_⟩
      rw [hpointer, bind_ok, hset]
      refine ⟨0, hstored', ?_⟩
      rw [hlive', hchange₂.live, hchange₁.live, valueBlocks, if_pos (by omega), List.nil_append]
    · obtain ⟨h₂, hcopied, hat₂, hchange₂⟩ := storeShort hb hk (show new.size ≤ 8 by omega) hat₁
      have hinside : offsetValue + new.size ≤ sizeofBucket := by
        unfold offsetValue sizeofBucket
        omega
      have hkeyBlock := fun hkey => ((hstored.keyBlock hkey).frame hframe₁).frame
        (hchange₂.frame hinside)
      rw [if_neg hempty, hcopied, bind_ok]
      by_cases hnew : new.size = 0
      · rw [data_packed_empty hnew] at hat₂
        obtain ⟨h₃, hset, hstored', hlive'⟩ := stored_of_layout hb hat₂ hkeyBlock
          fun h => absurd h (by decide)
        have hset' : setField h₂ b offsetValueSize 4 0 = .ok h₃ := hset
        rw [if_pos (by omega), hnew, hset']
        refine Or.inr ⟨.pointer 0, rfl, 0, hstored', ?_⟩
        rw [hlive', hchange₂.live, hchange₁.live]
        rfl
      · rw [data_packed hnew (by omega)] at hat₂
        obtain ⟨h₃, hset, hstored', hlive'⟩ := stored_of_layout hb hat₂ hkeyBlock
          fun h => absurd h hlong
        rw [if_neg fun h => hnew h.2, hset]
        refine Or.inr ⟨new, rfl, 0, hstored', ?_⟩
        rw [hlive', hchange₂.live, hchange₁.live, valueBlocks, if_pos (by omega),
          List.nil_append]

/-- What the two getters of a value let see: its size, and the bytes at its address. -/
def observed (h : Heap) (bucket : ℕ) : ℕ × List UInt8 :=
  let size := (bucketGetValueSize h bucket).toNat
  (size, peek h.bytes (bucketGetValue h bucket) (if size = 0 then 8 else size))

private theorem ReadsValue.observed (hreads : ReadsValue h b value) :
    observed h b = (value.size, value.content) := by
  have hpeek := hreads.valueAt.peek
  have hlength : (if value.size = 0 then 8 else value.size) = value.content.length := by
    split_ifs with hempty
    · cases value with
      | pointer address => exact (length_littleEndian 8 _).symm
      | bytes first rest => exact absurd hempty (Nat.succ_ne_zero _)
    · exact (length_content hempty).symm
  rw [Packed.observed, hreads.valueSize, hlength, hpeek]

/-- The value lies in memory that is in use and looks as in a new bucket, and the bucket
points to every block that was not there before it. -/
structure Right (others : List Extent) (b : ℕ) (key : Key) (h : Heap) (value : Value) :
    Prop extends ReadsValue h b value where
  fresh : ∀ A h₀ b₀ hash probeLength, b₀ ≠ 0 → h₀.Valid b₀ sizeofBucket →
    Yields (bucketNew A h₀ b₀ key value hash probeLength) fun h₁ => observed h b = observed h₁ b₀
  owned : h.live.Perm (bucketBlocks h b ++ others)

def updates (others : List Extent) (b : ℕ) (key : Key) : Spec Heap Value Value where
  Shows := Right others b key
  apply _ value _ := value
  Effect _ _ _ := True

def update (A : Allocator) (b : ℕ) (h : Heap) (value : Value) : Except Fault Heap :=
  bucketUpdateValue A h b value

/-- The value that is written over has no block, and no pointer but null takes the place of
some bytes. -/
def Fits (b : ℕ) (h : Heap) (value : Value) : Prop :=
  (bucketGetValueSize h b).toNat ≤ 8 ∧
    (value.size = 0 → (bucketGetValueSize h b).toNat = 0 ∨ value.address = 0)

/-- The value is one that can be passed, and there is memory for it. -/
def Allowed (A : Allocator) (b : ℕ) (h : Heap) (value : Value) : Prop :=
  value.size < 2 ^ 32 ∧ update A b h value ≠ .error .outOfMemory

structure Held (others : List Extent) (b : ℕ) (key : Key) (hash : UInt32) (probeLength : UInt16)
    (h : Heap) (value : Value) : Prop where
  size : value.size < 2 ^ 32
  stored : ∃ kp vp, Stored h b key value hash probeLength kp vp ∧
    h.live.Perm (valueBlocks value vp ++ (keyBlocks key kp ++ others))

section Runs

variable {others : List Extent}

private theorem Held.right (hlength : key.length < 2 ^ 32)
    (hheld : Held others b key hash probeLength h value) : Right others b key h value := by
  obtain ⟨hsize, kp, vp, hstored, hlive⟩ := hheld
  have hreads := hstored.readsValue hsize
  refine ⟨hreads, fun A h₀ b₀ hash₀ probeLength₀ hb₀ hvalid₀ => ?_, ?_⟩
  · apply (bucketNew_yields hb₀ hvalid₀ hlength hash₀ probeLength₀).mono
    intro h₁ _ hpost
    obtain ⟨kp₁, vp₁, hstored₁, -, -⟩ := hpost
    rw [hreads.observed, (hstored₁.readsValue hsize).observed]
  · rw [hstored.blocks hlength hsize, List.append_assoc]
    exact hlive.trans (List.perm_append_comm_assoc _ _ _)

private theorem overwritten_of_fits (hshort : old.size ≤ 8)
    (hpointer : new.size = 0 → old.size = 0 ∨ new.address = 0) : overwritten old new = .ok new := by
  refine overwritten_eq_ok_iff.mpr fun hpos => ⟨fun hlong => by omega, fun hempty => ?_⟩
  exact (address_eq_zero hempty).mp ((hpointer hempty).resolve_left (by omega))

private theorem Held.fitting (hb : b ≠ 0) (hheld : Held others b key hash probeLength h old)
    (hallowed : Allowed A b h new) (hfits : Fits b h new) :
    ∃ h', update A b h new = .ok h' ∧ Held others b key hash probeLength h' new := by
  obtain ⟨hsize, kp, vp, hstored, hlive⟩ := hheld
  obtain ⟨hnew, hmemory⟩ := hallowed
  obtain ⟨hshort, hpointer⟩ := hfits
  rw [hstored.valueSize hsize] at hshort hpointer
  have hright := overwritten_of_fits hshort hpointer
  rcases bucketUpdateValue_stored A hb hstored hsize new with ⟨e, he, -⟩ | ⟨v, hv, hyields⟩
  · rw [hright] at he
    exact absurd he (by simp)
  · rw [hright] at hv
    obtain rfl := Except.ok.inj hv
    obtain ⟨h', hstep, vp', hstored', hlive'⟩ := hyields.exists_ok hmemory
    refine ⟨h', hstep, hnew, kp, vp', hstored', ?_⟩
    rw [valueBlocks, if_pos hshort, List.nil_append] at hlive
    rw [hlive']
    exact hlive.append_left _

private theorem overwritten_cases {v : Value} (hv : overwritten old new = .ok v) :
    v = new ∨ new.size = 0 ∧ v = .pointer 0 := by
  unfold overwritten at hv
  split_ifs at hv with hsame hempty
  · exact Or.inr ⟨hempty.2, (Except.ok.inj hv).symm⟩
  · exact Or.inl (Except.ok.inj hv).symm

private theorem content_injective (hempty : new.size = 0)
    (hsame : new.content = Value.content (.pointer 0)) : new.address = 0 := by
  cases new with
  | bytes first rest => exact absurd hempty (Nat.succ_ne_zero _)
  | pointer address =>
    have hback := congrArg ofLittleEndian hsame
    rw [Value.content, Value.content, ofLittleEndian_littleEndian address.toNat_lt,
      ofLittleEndian_littleEndian (UInt64.toNat_lt 0)] at hback
    exact UInt64.toNat_inj.mp hback

private theorem Held.not_right (hb : b ≠ 0) (hlength : key.length < 2 ^ 32)
    (hheld : Held others b key hash probeLength h old) (hfits : ¬Fits b h new)
    (hnew : new.size < 2 ^ 32) (hstep : update A b h new = .ok h') :
    ¬Right others b key h' new := by
  obtain ⟨hsize, kp, vp, hstored, hlive⟩ := hheld
  rcases bucketUpdateValue_stored A hb hstored hsize new with ⟨e, -, he⟩ | ⟨v, hv, hyields⟩
  · rw [update, he] at hstep
    exact absurd hstep (by simp)
  · obtain ⟨vp', hstored', hlive'⟩ := hyields.of_ok hstep
    have hvsize : v.size < 2 ^ 32 := by
      rcases overwritten_cases hv with rfl | ⟨-, rfl⟩
      · exact hnew
      · decide
    rintro ⟨hreads, -, howned⟩
    by_cases hlong : 8 < old.size
    · have hcount := howned.length_eq
      have hcount₀ := hlive.length_eq
      rw [hlive', hstored'.blocks hlength hvsize] at hcount
      rw [valueBlocks, if_neg (by omega)] at hcount₀
      simp only [List.length_append, List.length_cons, List.length_nil] at hcount hcount₀
      omega
    · have hmisfit : new.size = 0 ∧ old.size ≠ 0 ∧ new.address ≠ 0 := by
        rw [Fits, hstored.valueSize hsize] at hfits
        by_contra hother
        refine hfits ⟨by omega, fun hempty => ?_⟩
        by_contra hboth
        exact hother ⟨hempty, fun h => hboth (Or.inl h), fun h => hboth (Or.inr h)⟩
      obtain ⟨hempty, hpos, hpointer⟩ := hmisfit
      rw [overwritten, if_neg (by omega), if_pos ⟨by omega, hempty⟩] at hv
      obtain rfl := Except.ok.inj hv
      have hsame := hreads.observed.symm.trans (hstored'.readsValue hvsize).observed
      exact hpointer (content_injective hempty (Prod.ext_iff.mp hsame).2)

/-- The runs of updates that leave a bucket like a new one in each state are those in which no
value with a block is written over, and no pointer but null is stored in place of some bytes. -/
theorem bucketUpdateValue_right_iff (A : Allocator) {h₀ : Heap} (hb : b ≠ 0)
    (hvalid : h₀.Valid b sizeofBucket) (hlength : key.length < 2 ^ 32) {first : Value}
    (hfirst : first.size < 2 ^ 32) (hash probeLength : UInt32)
    (hnew : bucketNew A h₀ b key first hash probeLength = .ok h) {values : List Value}
    (hallowed : Along (update A b) (Allowed A b) h values) :
    Behaves (update A b) (updates h₀.live b key) h first values ↔
      Along (update A b) (Fits b) h values := by
  obtain ⟨kp, vp, hstored, hlive, -⟩ :=
    (bucketNew_yields hb hvalid hlength hash probeLength).of_ok hnew
  have hheld : Held h₀.live b key hash probeLength.toUInt16 h first :=
    ⟨hfirst, kp, vp, hstored, List.Perm.of_eq hlive⟩
  refine behaves_iff (I := Held h₀.live b key hash probeLength.toUInt16) ?_ ?_ ?_ hheld hallowed
  · intro s t hs
    exact hs.right hlength
  · intro s t op hs hop hfits
    obtain ⟨s', hstep, hs'⟩ := hs.fitting hb hop hfits
    exact ⟨s', hstep, trivial, hs'⟩
  · intro s t op hs hop hfits s' hstep
    exact hs.not_right hb hlength hfits hop.1 hstep

def bucketHeap : Heap := ⟨fun _ => 0, [⟨64, 64⟩]⟩

/-- Two bytes, one byte, and a value that is given a block. -/
theorem bucketUpdateValue_right_iff_short : ∃ h,
    bucketNew Allocator.bump bucketHeap 64 [107] (.bytes 1 [2]) 0 0 = .ok h ∧
      Behaves (update Allocator.bump 64) (updates bucketHeap.live 64 [107]) h (.bytes 1 [2])
        [.bytes 3 [], .bytes 1 (List.replicate 8 0)] := by
  refine ⟨_, rfl, (bucketUpdateValue_right_iff Allocator.bump (by decide) (by decide) (by decide)
    (by decide) 0 0 rfl ?_).mpr ?_⟩
  · refine ⟨⟨by decide, fun h => ?_⟩, fun h' hstep => ?_⟩
    · cases h
    · cases hstep
      refine ⟨⟨by decide, fun h => ?_⟩, fun _ _ => trivial⟩
      cases h
  · refine ⟨⟨by decide, by decide⟩, fun h' hstep => ?_⟩
    cases hstep
    exact ⟨⟨by decide, by decide⟩, fun _ _ => trivial⟩

/-- Nine bytes over nine bytes are copied to null. -/
theorem bucketUpdateValue_not_right : ∃ h,
    bucketNew Allocator.bump bucketHeap 64 [107] (.bytes 1 (List.replicate 8 2)) 0 0 = .ok h ∧
      update Allocator.bump 64 h (.bytes 3 (List.replicate 8 4)) = .error .nullPointer ∧
      ¬Behaves (update Allocator.bump 64) (updates bucketHeap.live 64 [107]) h
        (.bytes 1 (List.replicate 8 2)) [.bytes 3 (List.replicate 8 4)] := by
  refine ⟨_, rfl, rfl, ?_⟩
  rintro ⟨-, h', hstep, -⟩
  cases hstep

end Runs

end Libromano.Hashmap.Packed
