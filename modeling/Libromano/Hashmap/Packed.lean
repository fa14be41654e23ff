/- The 32 bytes of a bucket. A key of up to ten bytes lies in the bucket itself, over the key
   pointer and most of the key size; a value of up to eight bytes lies over the value pointer. -/

import Libromano.Foundation.Heap
import Libromano.Hashmap.Model

set_option autoImplicit false
set_option relaxedAutoImplicit false

namespace Libromano.Hashmap

open Libromano.Foundation Libromano.Foundation.Heap

def Value.data : Value → List UInt8
  | .pointer _ => []
  | .bytes first rest => first :: rest

@[simp] theorem Value.length_data (value : Value) : value.data.length = value.size := by
  cases value with
  | pointer address => rfl
  | bytes first rest => rfl

def Value.address : Value → UInt64
  | .pointer address => address
  | .bytes _ _ => 0

def Value.content : Value → List UInt8
  | .pointer address => littleEndian 8 address.toNat
  | .bytes first rest => first :: rest

namespace Packed

def offsetKeySize : ℕ := 8
def offsetValue : ℕ := 12
def offsetValueSize : ℕ := 20
def offsetHash : ℕ := 24
def offsetProbeLength : ℕ := 28
def offsetFlags : ℕ := 30

def internedSize : ℕ := 11

def bucketFlagKeyInterned : UInt16 := 0x1

/-- A field of `n` bytes of the bucket. -/
def field (h : Heap) (bucket offset n : ℕ) : ℕ := ofLittleEndian (peek h.bytes (bucket + offset) n)

def setField (h : Heap) (bucket offset n word : ℕ) : Except Fault Heap :=
  h.memcpy (bucket + offset) (littleEndian n word)

def memBswapu32 (x : UInt32) : UInt32 :=
  UInt32.ofNat (ofLittleEndian (littleEndian 4 x.toNat).reverse)

def bucketFlags (h : Heap) (bucket : ℕ) : UInt16 := UInt16.ofNat (field h bucket offsetFlags 2)

def bucketSetFlag (h : Heap) (bucket : ℕ) (flag : UInt16) : Except Fault Heap :=
  setField h bucket offsetFlags 2 (bucketFlags h bucket ||| flag).toNat

def bucketUnsetFlag (h : Heap) (bucket : ℕ) (flag : UInt16) : Except Fault Heap :=
  setField h bucket offsetFlags 2 (bucketFlags h bucket &&& ~~~flag).toNat

def bucketHasFlag (h : Heap) (bucket : ℕ) (flag : UInt16) : Bool :=
  bucketFlags h bucket &&& flag != 0

def bucketGetValueSize (h : Heap) (bucket : ℕ) : UInt32 :=
  UInt32.ofNat (field h bucket offsetValueSize 4)

def bucketGetValue (h : Heap) (bucket : ℕ) : ℕ :=
  if bucketGetValueSize h bucket ≤ 8 then bucket + offsetValue else field h bucket offsetValue 8

/-- The size of a short key is read as a signed `char`. -/
def bucketGetKeySize (h : Heap) (bucket : ℕ) : UInt32 :=
  if bucketHasFlag h bucket bucketFlagKeyInterned then
    (h.bytes (bucket + internedSize)).toInt8.toInt32.toUInt32
  else memBswapu32 (UInt32.ofNat (field h bucket offsetKeySize 4))

def bucketGetKey (h : Heap) (bucket : ℕ) : ℕ :=
  if bucketHasFlag h bucket bucketFlagKeyInterned then bucket else field h bucket 0 8

def bucketGetHash (h : Heap) (bucket : ℕ) : UInt32 := UInt32.ofNat (field h bucket offsetHash 4)

def bucketGetProbeLength (h : Heap) (bucket : ℕ) : UInt32 :=
  UInt32.ofNat (field h bucket offsetProbeLength 2)

def bucketIsEmpty (h : Heap) (bucket : ℕ) : Bool := bucketGetKeySize h bucket == 0

def bucketSetHash (h : Heap) (bucket : ℕ) (hash : UInt32) : Except Fault Heap :=
  setField h bucket offsetHash 4 hash.toNat

def bucketSetProbeLength (h : Heap) (bucket : ℕ) (probeLength : UInt32) : Except Fault Heap :=
  setField h bucket offsetProbeLength 2 probeLength.toUInt16.toNat

/-- A block of its own for a key or a value, with its address in the bucket. -/
def storeBlock (block : Except Fault (ℕ × Heap)) (bucket offset : ℕ) (data : List UInt8) :
    Except Fault Heap := do
  let (p, h) ← block
  let h ← setField h bucket offset 8 p
  h.memcpy (field h bucket offset 8) data

/-- The part of `bucket_new` that is about the key. -/
def storeKey (A : Allocator) (h : Heap) (bucket : ℕ) (key : Key) : Except Fault Heap :=
  if key.length < internedSize then do
    let h ← h.memcpy bucket key
    let h ← h.memcpy (bucket + internedSize) [UInt8.ofNat (key.length &&& 0xFF)]
    bucketSetFlag h bucket bucketFlagKeyInterned
  else do
    let h ← storeBlock (malloc A h key.length) bucket 0 key
    let h ← setField h bucket offsetKeySize 4 (memBswapu32 (UInt32.ofNat key.length)).toNat
    bucketUnsetFlag h bucket bucketFlagKeyInterned

/-- The part of `bucket_new` that is about the value. -/
def storeValue (A : Allocator) (h : Heap) (bucket : ℕ) (value : Value) : Except Fault Heap :=
  if value.size = 0 then setField h bucket offsetValue 8 value.address.toNat
  else if value.size ≤ 8 then h.memcpy (bucket + offsetValue) value.data
  else storeBlock (malloc A h value.size) bucket offsetValue value.data

/-- A block that `malloc` refuses ends the call: the code writes through the null pointer. -/
def bucketNew (A : Allocator) (h : Heap) (bucket : ℕ) (key : Key) (value : Value)
    (hash probeLength : UInt32) : Except Fault Heap := do
  let h ← h.memcpy bucket (List.replicate sizeofBucket 0)
  let h ← storeKey A h bucket key
  let h ← storeValue A h bucket value
  let h ← setField h bucket offsetValueSize 4 value.size
  let h ← bucketSetHash h bucket hash
  bucketSetProbeLength h bucket probeLength

/-- The cases of `bucket_update_value`, by the size that the bucket still has. -/
def overwriteValue (A : Allocator) (h : Heap) (bucket : ℕ) (value : Value) : Except Fault Heap :=
  if 0 < bucketGetValueSize h bucket then
    if 8 < value.size then
      if value.size = (bucketGetValueSize h bucket).toNat then
        h.memcpy (field h bucket offsetValue 8) value.data
      else if value.size = 0 then do
        let h ← h.free (field h bucket offsetValue 8)
        setField h bucket offsetValue 8 value.address.toNat
      else
        storeBlock (realloc A h (field h bucket offsetValue 8) value.size) bucket offsetValue
          value.data
    else if value.size = (bucketGetValueSize h bucket).toNat then
      h.memcpy (bucket + offsetValue) value.data
    else if 8 < bucketGetValueSize h bucket then do
      let h ← h.free (field h bucket offsetValue 8)
      h.memcpy (bucket + offsetValue) value.data
    else h.memcpy (bucket + offsetValue) value.data
  else if 0 < value.size then
    if 8 < value.size then
      storeBlock (malloc A h value.size) bucket offsetValue value.data
    else h.memcpy (bucket + offsetValue) value.data
  else setField h bucket offsetValue 8 value.address.toNat

/-- `bucket_update_value`. The pointer field is zeroed first. -/
def bucketUpdateValue (A : Allocator) (h : Heap) (bucket : ℕ) (value : Value) :
    Except Fault Heap := do
  let h ← setField h bucket offsetValue 8 0
  let h ← overwriteValue A h bucket value
  setField h bucket offsetValueSize 4 value.size

/-- The bytes of a bucket at another address. -/
def bucketCopy (h : Heap) (bucket bucket' : ℕ) : Except Fault Heap :=
  h.memcpy bucket' (peek h.bytes bucket sizeofBucket)

/-- The blocks of its own that a bucket points to. -/
def bucketBlocks (h : Heap) (bucket : ℕ) : List Extent :=
  (if bucketHasFlag h bucket bucketFlagKeyInterned then []
    else [⟨bucketGetKey h bucket, (bucketGetKeySize h bucket).toNat⟩]) ++
  (if bucketGetValueSize h bucket ≤ 8 then []
    else [⟨bucketGetValue h bucket, (bucketGetValueSize h bucket).toNat⟩])

structure ReadsValue (h : Heap) (bucket : ℕ) (value : Value) : Prop where
  valueAt : h.Holds (bucketGetValue h bucket) value.content
  valueSize : (bucketGetValueSize h bucket).toNat = value.size

structure Reads (h : Heap) (bucket : ℕ) (key : Key) (value : Value) (hash probeLength : UInt32) :
    Prop extends ReadsValue h bucket value where
  keyAt : h.Holds (bucketGetKey h bucket) key
  keySize : (bucketGetKeySize h bucket).toNat = key.length
  getHash : bucketGetHash h bucket = hash
  getProbeLength : bucketGetProbeLength h bucket = probeLength
  nonempty : bucketIsEmpty h bucket = false

end Packed

end Libromano.Hashmap
