/- The Robin Hood hash map of `hashmap.c`. A bucket keeps the key bytes wherever they are stored
   (inline or on the heap); it is empty when its key size is zero.

   The hash function is a parameter: `hashmap_new` installs `hash_murmur3` and
   `hashmap_set_hash_func` replaces it. The word that `hashmap_new` leaves in `hashkey` is
   arbitrary. A `while(1)` loop is given as many steps as its state can change in; running out of
   them is `Fault.diverges`. -/

import Libromano.Bit
import Libromano.Fault
import Libromano.Foundation.Significand

set_option autoImplicit false
set_option relaxedAutoImplicit false

namespace Libromano.Hashmap

open Libromano.Bit Libromano.Foundation

abbrev Key := List UInt8

/-- A value argument. With `value_size` zero the pointer itself is stored. -/
inductive Value
  | pointer (address : UInt64)
  | bytes (first : UInt8) (rest : List UInt8)
  deriving DecidableEq

def Value.size : Value → ℕ
  | .pointer _ => 0
  | .bytes _ rest => rest.length + 1

structure Bucket where
  key : Key
  value : Value
  hash : UInt32
  probeLength : UInt16
  deriving DecidableEq

def bucketNew (key : Key) (value : Value) (hash probeLength : UInt32) : Bucket :=
  ⟨key, value, hash, probeLength.toUInt16⟩

/-- The bucket after `memset(bucket, 0, sizeof(Bucket))`. -/
def bucketSetEmpty : Bucket := ⟨[], .pointer 0, 0, 0⟩

def bucketIsEmpty (bucket : Bucket) : Bool := bucket.key.length == 0

def bucketCompareKey (bucket : Bucket) (key : Key) (hash : UInt32) : Bool :=
  bucket.hash == hash && bucket.key.length == key.length && bucket.key == key

def bucketSetProbeLength (bucket : Bucket) (probeLength : UInt16) : Bucket :=
  { bucket with probeLength }

/-- `bucket_update_value`. The pointer field is zeroed first, so a heap block
of the old value is out of reach from there on. -/
def bucketUpdateValue (bucket : Bucket) (value : Value) : Except Fault Bucket :=
  if 0 < bucket.value.size then
    if 8 < value.size then
      -- equal sizes skip the allocation and copy to the zeroed pointer
      if value.size = bucket.value.size then .error .nullPointer
      else .ok { bucket with value }
    else if value.size = 0 then
      -- `memcpy` of no bytes: the zeroed field stays, the pointer is not stored
      .ok { bucket with value := .pointer 0 }
    else .ok { bucket with value }
  else .ok { bucket with value }

structure HashMap where
  buckets : List Bucket
  size : ℕ
  capacity : ℕ
  hashFunc : Key → UInt32 → UInt32
  hashkey : UInt32
  maxProbes : ℕ

def sizeofBucket : ℕ := 32

def initialCapacityDefault : ℕ := 1024

/-- The significand of `HASHMAP_MAX_LOAD`, the float nearest to 0.9, in units
of `2 ^ (-24)`. -/
def maxLoadSignificand : ℕ := 15099494

/-- `(size + 1) > capacity * HASHMAP_MAX_LOAD` in single precision, both sides
in units of `2 ^ (-24)`. -/
def overMaxLoad (size capacity : ℕ) : Bool :=
  decide (Significand.round 24 (Significand.round 24 capacity * maxLoadSignificand) <
    Significand.round 24 (size + 1) * 2 ^ 24)

/-- `(uint32_t)mathf_log2((float)capacity)`. For capacity zero the C conversion
of minus infinity is undefined; the zero taken here is what x86-64 yields. -/
def maxProbesOf (capacity : ℕ) : ℕ := (Significand.round 24 capacity).log2

def hashmapHash (m : HashMap) (key : Key) : UInt32 := m.hashFunc key m.hashkey

/-- `capacity - 1` as a `size_t`. -/
def indexMask (capacity : ℕ) : ℕ := (UInt64.ofNat capacity - 1).toNat

def hashmapIndex (capacity : ℕ) (hash : UInt32) : ℕ := hash.toNat &&& indexMask capacity

def nextIndex (capacity index : ℕ) : ℕ := (index + 1) &&& indexMask capacity

def hashmapGetNewCapacity (capacity : ℕ) : ℕ :=
  (roundU64ToNextPow2 (UInt64.ofNat capacity + 1) + 1).toNat

/-- The loop of `hashmap_move_entry`: there is no probe limit and no key is
compared. -/
def moveLoop (capacity : ℕ) : ℕ → List Bucket → Bucket → ℕ → Except Fault (List Bucket)
  | 0, _, _, _ => .error .diverges
  | fuel + 1, buckets, newEntry, index =>
    match buckets[index]? with
    | none => .error .outOfBounds
    | some bucket =>
      if bucketIsEmpty bucket then .ok (buckets.set index newEntry)
      else if bucket.probeLength < newEntry.probeLength then
        moveLoop capacity fuel (buckets.set index newEntry)
          (bucketSetProbeLength bucket (bucket.probeLength + 1)) (nextIndex capacity index)
      else
        moveLoop capacity fuel buckets
          (bucketSetProbeLength newEntry (newEntry.probeLength + 1)) (nextIndex capacity index)

def hashmapMoveEntry (m : HashMap) (entry : Bucket) (rehash : Bool) : Except Fault HashMap := do
  let newEntry := bucketSetProbeLength entry 0
  let newEntry :=
    if rehash then { newEntry with hash := hashmapHash m newEntry.key } else newEntry
  let buckets ← moveLoop m.capacity (m.capacity + 1) m.buckets newEntry
    (hashmapIndex m.capacity newEntry.hash)
  .ok { m with buckets, size := m.size + 1 }

/-- `hashmap_grow`; `rehash` carries the random word drawn when rehashing,
which no caller asks for. `calloc` fails on a request of `2 ^ 64` bytes. -/
def hashmapGrow (m : HashMap) (capacity : ℕ) (rehash : Option UInt32) : Except Fault HashMap :=
  if 2 ^ 64 ≤ capacity * sizeofBucket then .error .outOfMemory
  else
    let grown := { m with
      buckets := List.replicate capacity bucketSetEmpty
      size := 0
      capacity
      hashkey := match rehash with
        | some word => m.hashkey ^^^ word
        | none => m.hashkey
      maxProbes := maxProbesOf capacity }
    m.buckets.foldlM (fun m bucket =>
      if bucketIsEmpty bucket then .ok m else hashmapMoveEntry m bucket rehash.isSome) grown

def hashmapNew (initialCapacity : UInt64) (hashFunc : Key → UInt32 → UInt32)
    (hashkey : UInt32) : Except Fault HashMap :=
  let capacity :=
    if initialCapacity = 0 then initialCapacityDefault
    else (roundU64ToNextPow2 (initialCapacity + 1) + 1).toNat
  hashmapGrow ⟨[], 0, 0, hashFunc, hashkey, 0⟩ capacity none

/-- How the probe loop of an insertion ends. The table may have been written
to in each case. -/
inductive Inserting
  | present (buckets : List Bucket)
  | placed (buckets : List Bucket)
  | tooFar (buckets : List Bucket) (entry : Bucket)

/-- The probe loop that `hashmap_insert` and `hashmap_insert_bucket` share:
`sought` is the key a bucket is compared with while `entry` is in hand. -/
def insertLoop (capacity maxProbes : ℕ) (sought : Bucket → Key) (hash : UInt32) :
    ℕ → List Bucket → Bucket → ℕ → Except Fault Inserting
  | 0, _, _, _ => .error .diverges
  | fuel + 1, buckets, entry, index =>
    match buckets[index]? with
    | none => .error .outOfBounds
    | some bucket =>
      if bucketIsEmpty bucket then .ok (.placed (buckets.set index entry))
      else if bucketCompareKey bucket (sought entry) hash then .ok (.present buckets)
      else
        let swapped := bucket.probeLength < entry.probeLength
        let buckets' := if swapped then buckets.set index entry else buckets
        let entry' := if swapped then bucket else entry
        let entry' := bucketSetProbeLength entry' (entry'.probeLength + 1)
        if maxProbes ≤ entry'.probeLength.toNat then .ok (.tooFar buckets' entry')
        else insertLoop capacity maxProbes sought hash fuel buckets' entry'
          (nextIndex capacity index)

def growIfLoaded (m : HashMap) : Except Fault HashMap :=
  if overMaxLoad m.size m.capacity then hashmapGrow m (hashmapGetNewCapacity m.capacity) none
  else .ok m

/-- `hashmap_insert_bucket`. The capacity at least doubles on each recursive
call, so a 64-bit capacity leaves no room for more than 64 of them. -/
def hashmapInsertBucket : ℕ → HashMap → Bucket → Except Fault HashMap
  | 0, _, _ => .error .diverges
  | fuel + 1, m, entry => do
    let m ← growIfLoaded m
    let hash := hashmapHash m entry.key
    let entry := { entry with hash, probeLength := 0 }
    match ← insertLoop m.capacity m.maxProbes (·.key) hash (m.capacity + 1) m.buckets entry
      (hashmapIndex m.capacity hash) with
    | .present buckets => .ok { m with buckets }
    | .placed buckets => .ok { m with buckets, size := m.size + 1 }
    | .tooFar buckets entry =>
      let m ← hashmapGrow { m with buckets } (hashmapGetNewCapacity m.capacity) none
      hashmapInsertBucket fuel m entry

def hashmapInsert (m : HashMap) (key : Key) (value : Value) : Except Fault HashMap := do
  let m ← growIfLoaded m
  let hash := hashmapHash m key
  let entry := bucketNew key value hash 0
  match ← insertLoop m.capacity m.maxProbes (fun _ => key) hash (m.capacity + 1) m.buckets entry
    (hashmapIndex m.capacity hash) with
  | .present buckets => .ok { m with buckets }
  | .placed buckets => .ok { m with buckets, size := m.size + 1 }
  | .tooFar buckets entry =>
    let m ← hashmapGrow { m with buckets } (hashmapGetNewCapacity m.capacity) none
    hashmapInsertBucket 64 m entry

/-- The loop of `hashmap_update`, with no probe limit and no displacement. It
returns whether a bucket was filled. -/
def updateLoop (capacity : ℕ) (key : Key) (value : Value) (hash : UInt32) :
    ℕ → List Bucket → ℕ → UInt32 → Except Fault (List Bucket × Bool)
  | 0, _, _, _ => .error .diverges
  | fuel + 1, buckets, index, probeLength =>
    match buckets[index]? with
    | none => .error .outOfBounds
    | some bucket =>
      if bucketIsEmpty bucket then
        .ok (buckets.set index (bucketNew key value hash probeLength), true)
      else if bucketCompareKey bucket key hash then do
        let bucket ← bucketUpdateValue bucket value
        .ok (buckets.set index bucket, false)
      else updateLoop capacity key value hash fuel buckets (nextIndex capacity index)
        (probeLength + 1)

def hashmapUpdate (m : HashMap) (key : Key) (value : Value) : Except Fault HashMap := do
  let hash := hashmapHash m key
  let (buckets, filled) ← updateLoop m.capacity key value hash (m.capacity + 1) m.buckets
    (hashmapIndex m.capacity hash) 0
  .ok { m with buckets, size := if filled then m.size + 1 else m.size }

/-- The loop of `hashmap_get`. It stops at the latest when the count of probes
is beyond every 16-bit probe length. -/
def getLoop (capacity : ℕ) (buckets : List Bucket) (key : Key) (hash : UInt32) :
    ℕ → ℕ → ℕ → Except Fault (Option Value)
  | 0, _, _ => .error .diverges
  | fuel + 1, index, probeLength =>
    match buckets[index]? with
    | none => .error .outOfBounds
    | some bucket =>
      if bucketCompareKey bucket key hash then .ok (some bucket.value)
      else if bucketIsEmpty bucket || decide (bucket.probeLength.toNat < probeLength) then .ok none
      else getLoop capacity buckets key hash fuel (nextIndex capacity index) (probeLength + 1)

def probeLengths : ℕ := 2 ^ 16

def hashmapGet (m : HashMap) (key : Key) : Except Fault (Option Value) :=
  let hash := hashmapHash m key
  getLoop m.capacity m.buckets key hash (probeLengths + 1) (hashmapIndex m.capacity hash) 0

/-- The backward shift at the end of `hashmap_remove`: the bucket at `index`
is emptied and takes the next one, whose probe length drops by one. The sum
of all probe lengths bounds the number of steps. -/
def shiftLoop (capacity : ℕ) : ℕ → List Bucket → ℕ → Except Fault (List Bucket)
  | 0, _, _ => .error .diverges
  | fuel + 1, buckets, index =>
    let buckets := buckets.set index bucketSetEmpty
    let next := nextIndex capacity index
    match buckets[next]? with
    | none => .error .outOfBounds
    | some shifted =>
      if bucketIsEmpty shifted || shifted.probeLength == 0 then .ok buckets
      else shiftLoop capacity fuel
        (buckets.set index (bucketSetProbeLength shifted (shifted.probeLength - 1))) next

/-- The search loop of `hashmap_remove`; unlike `hashmap_get` it looks at the
probe length before it compares the key. -/
def removeLoop (capacity : ℕ) (buckets : List Bucket) (key : Key) (hash : UInt32) :
    ℕ → ℕ → ℕ → Except Fault (Option ℕ)
  | 0, _, _ => .error .diverges
  | fuel + 1, index, probeLength =>
    match buckets[index]? with
    | none => .error .outOfBounds
    | some bucket =>
      if bucketIsEmpty bucket || decide (bucket.probeLength.toNat < probeLength) then .ok none
      else if bucketCompareKey bucket key hash then .ok (some index)
      else removeLoop capacity buckets key hash fuel (nextIndex capacity index) (probeLength + 1)

def hashmapRemove (m : HashMap) (key : Key) : Except Fault HashMap := do
  let hash := hashmapHash m key
  match ← removeLoop m.capacity m.buckets key hash (probeLengths + 1)
    (hashmapIndex m.capacity hash) 0 with
  | none => .ok m
  | some index =>
    let buckets ← shiftLoop m.capacity (probeLengths * m.capacity + 1) m.buckets index
    .ok { m with buckets, size := m.size - 1 }

/-- `hashmap_iterate`: the entry found and the new iterator, a `uint32_t`. -/
def iterateLoop (m : HashMap) : ℕ → ℕ → Except Fault (Option ((Key × Value) × ℕ))
  | 0, _ => .error .diverges
  | fuel + 1, i =>
    if i < m.capacity then
      match m.buckets[i]? with
      | none => .error .outOfBounds
      | some bucket =>
        if bucketIsEmpty bucket then iterateLoop m fuel ((i + 1) % 2 ^ 32)
        else .ok (some ((bucket.key, bucket.value), (i + 1) % 2 ^ 32))
    else .ok none

def hashmapIterate (m : HashMap) (it : ℕ) : Except Fault (Option ((Key × Value) × ℕ)) :=
  iterateLoop m (2 ^ 32 + 1) it

/-- What a caller sees who calls `hashmap_iterate` until it returns false. -/
def iteratePass (m : HashMap) : ℕ → ℕ → Except Fault (List (Key × Value))
  | 0, _ => .error .diverges
  | fuel + 1, it => do
    match ← hashmapIterate m it with
    | none => .ok []
    | some (entry, it) =>
      let entries ← iteratePass m fuel it
      .ok (entry :: entries)

def fullPass (m : HashMap) : Except Fault (List (Key × Value)) :=
  iteratePass m (m.capacity + 1) 0

/-- A call that changes the map. -/
inductive Op
  | insert (key : Key) (value : Value)
  | update (key : Key) (value : Value)
  | remove (key : Key)

def Op.key : Op → Key
  | .insert key _ => key
  | .update key _ => key
  | .remove key => key

def Op.isUpdate : Op → Bool
  | .update _ _ => true
  | _ => false

def step (m : HashMap) : Op → Except Fault HashMap
  | .insert key value => hashmapInsert m key value
  | .update key value => hashmapUpdate m key value
  | .remove key => hashmapRemove m key

def run (m : HashMap) (ops : List Op) : Except Fault HashMap := ops.foldlM step m

end Libromano.Hashmap
