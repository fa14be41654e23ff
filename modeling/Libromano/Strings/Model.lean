/- The strings of `string.c`. Sizes are `size_t`. A string is given by the two words of its header
   and by what is allocated behind them. A C string that is passed is given by its bytes up to the
   null byte that ends it. -/

import Libromano.Bytes
import Libromano.Vectors.Model

set_option autoImplicit false
set_option relaxedAutoImplicit false

namespace Libromano.Strings

open Bytes (bytesAt writeBytes)
open Foundation
open Vectors (malloc)

structure String where
  capacity : ℕ
  size : ℕ
  /-- All that is allocated behind the header. -/
  bytes : List UInt8
  deriving DecidableEq

def headerSize : ℕ := 16

/-- `STRING_SIZE(capacity) + HEADER_SIZE`. -/
def allocationSize (capacity : ℕ) : ℕ := (capacity + 1 + headerSize) % 2 ^ 64

/-- `n * LIBROMANO_STRING_GROWTH_RATE`, rounded down. Its conversion to a `size_t`
is undefined from `2 ^ 64` on; the residue stands for it. -/
def grown (n : ℕ) : ℕ := n * 161 / 100 % 2 ^ 64

/-- A new allocation, with what stands in it behind the header. The words of the
header are written in any case. -/
def allocate (fresh : ℕ → UInt8) (capacity : ℕ) : Except Fault (List UInt8) := do
  let n ← malloc (allocationSize capacity)
  if n < headerSize then .error .outOfBounds
  else .ok ((List.range (n - headerSize)).map fresh)

namespace String

def setNullTerminator (s : String) : Except Fault String := do
  let bytes ← writeBytes s.bytes s.size [0]
  .ok { s with bytes }

/-- Bytes are copied into the string, which then has the given size. -/
def copyIn (s : String) (start : ℕ) (source : List UInt8) (n size : ℕ) : Except Fault String := do
  let data ← bytesAt source 0 n
  let bytes ← writeBytes s.bytes start data
  setNullTerminator { s with size, bytes }

/-- `memmove((*string) + n, *string, STRING_SIZE(string_sz))`. -/
def shift (s : String) (n : ℕ) : Except Fault String := do
  let data ← bytesAt s.bytes 0 (s.size + 1)
  let bytes ← writeBytes s.bytes n data
  .ok { s with bytes }

def content (s : String) : List UInt8 := s.bytes.take s.size

end String

def stringNew (data : List UInt8) : Except Fault String := do
  let sz := grown data.length
  let block ← allocate (fun _ => 0) sz
  let bytes ← writeBytes block 0 (data ++ [0])
  .ok ⟨sz, data.length, bytes⟩

def stringNewz (length : ℕ) : Except Fault String := do
  let sz := grown length
  let block ← allocate (fun _ => 0) sz
  let bytes ← writeBytes block 0 (List.replicate (length + 1) 0)
  .ok ⟨sz, length, bytes⟩

def stringLength (s : String) : ℕ := s.size

def stringCapacity (s : String) : ℕ := s.capacity

def stringResize (fresh : ℕ → UInt8) (s : String) (newSize : ℕ) : Except Fault String :=
  if newSize < s.capacity then .ok s
  else do
    let block ← allocate fresh newSize
    let data ← bytesAt s.bytes 0 s.size
    let bytes ← writeBytes block 0 data
    String.setNullTerminator ⟨newSize, s.size, bytes⟩

def stringCopy (fresh : ℕ → UInt8) (other : String) : Except Fault String := do
  let block ← allocate fresh other.capacity
  let data ← bytesAt other.bytes 0 (other.capacity + 1)
  let bytes ← writeBytes block 0 data
  .ok ⟨other.capacity, other.size, bytes⟩

def reserve (fresh : ℕ → UInt8) (s : String) (needed newCapacity : ℕ) : Except Fault String :=
  if s.capacity ≤ needed % 2 ^ 64 then stringResize fresh s newCapacity else .ok s

/-- What the functions for C strings and for strings have in common: `source` has
at least one byte more than is said. -/
def set (fresh : ℕ → UInt8) (s : String) (source : List UInt8) (dataSz : ℕ) :
    Except Fault String := do
  let s' ← reserve fresh s dataSz dataSz
  s'.copyIn 0 source (dataSz + 1) dataSz

def append (fresh : ℕ → UInt8) (s : String) (source : List UInt8) (dataSz : ℕ) :
    Except Fault String := do
  let s' ← reserve fresh s (s.size + dataSz) (grown (s.capacity + dataSz))
  s'.copyIn s.size source (dataSz + 1) ((s.size + dataSz) % 2 ^ 64)

def prepend (fresh : ℕ → UInt8) (s : String) (source : List UInt8) (dataSz : ℕ) :
    Except Fault String := do
  let s' ← reserve fresh s (s.size + dataSz) (grown (s.capacity + dataSz))
  let s' ← s'.shift dataSz
  s'.copyIn 0 source dataSz ((s.size + dataSz) % 2 ^ 64)

def stringSetc (fresh : ℕ → UInt8) (s : String) (data : List UInt8) : Except Fault String :=
  set fresh s (data ++ [0]) data.length

def stringSets (fresh : ℕ → UInt8) (s other : String) : Except Fault String :=
  set fresh s other.bytes (stringLength other)

def stringAppendc (fresh : ℕ → UInt8) (s : String) (data : List UInt8) : Except Fault String :=
  append fresh s (data ++ [0]) data.length

def stringAppends (fresh : ℕ → UInt8) (s other : String) : Except Fault String :=
  append fresh s other.bytes (stringLength other)

def stringPrependc (fresh : ℕ → UInt8) (s : String) (data : List UInt8) : Except Fault String :=
  prepend fresh s (data ++ [0]) data.length

def stringPrepends (fresh : ℕ → UInt8) (s other : String) : Except Fault String :=
  prepend fresh s other.bytes (stringLength other)

def stringClear (s : String) : Except Fault String := do
  let bytes ← writeBytes s.bytes 0 (List.replicate (stringLength s + 1) 0)
  .ok { s with size := 0, bytes }

/-- `LIBROMANO_STRING_MAX_FMT_SIZE`. -/
def maxFmtSize : ℕ := 8192

/-- The buffer after `vsnprintf` wrote a text to it. What it does not write is left
as it was. -/
def formatBuffer (stack : ℕ → UInt8) (text : List UInt8) : List UInt8 :=
  let written := text.take (maxFmtSize - 1) ++ [0]
  written ++ (List.range' written.length (maxFmtSize - written.length)).map stack

/-- The functions with a format give `false` beside the string when `vsnprintf`
has said that nothing was to be written. -/
def stringSetf (fresh stack : ℕ → UInt8) (s : String) (text : List UInt8) :
    Except Fault (Bool × String) := do
  let formatSz := text.length + 1
  if formatSz ≤ 0 then .ok (false, s)
  else
    let s' ← reserve fresh s formatSz formatSz
    let s' ← s'.copyIn 0 (formatBuffer stack text) formatSz formatSz
    .ok (true, s')

def stringAppendf (fresh stack : ℕ → UInt8) (s : String) (text : List UInt8) :
    Except Fault (Bool × String) := do
  let formatSz := text.length + 1
  if formatSz ≤ 0 then .ok (false, s)
  else
    let s' ← reserve fresh s (s.size + formatSz) (grown (s.capacity + formatSz))
    let s' ← s'.copyIn s.size (formatBuffer stack text) formatSz
      ((s.size + formatSz - 1) % 2 ^ 64)
    .ok (true, s')

def stringPrependf (fresh stack : ℕ → UInt8) (s : String) (text : List UInt8) :
    Except Fault (Bool × String) := do
  let formatSz := text.length
  if formatSz ≤ 0 then .ok (false, s)
  else
    let s' ← reserve fresh s (s.size + (formatSz + 1)) (grown (s.capacity + (formatSz + 1)))
    let s' ← s'.shift formatSz
    let s' ← s'.copyIn 0 (formatBuffer stack text) formatSz ((s.size + formatSz) % 2 ^ 64)
    .ok (true, s')

/-- The functions that change a string. -/
inductive Op
  | setc (data : List UInt8)
  | sets (other : String)
  | appendc (data : List UInt8)
  | appends (other : String)
  | prependc (data : List UInt8)
  | prepends (other : String)
  | resize (newSize : ℕ)
  | clear

def step (fresh : ℕ → UInt8) (s : String) : Op → Except Fault String
  | .setc data => stringSetc fresh s data
  | .sets other => stringSets fresh s other
  | .appendc data => stringAppendc fresh s data
  | .appends other => stringAppends fresh s other
  | .prependc data => stringPrependc fresh s data
  | .prepends other => stringPrepends fresh s other
  | .resize newSize => stringResize fresh s newSize
  | .clear => stringClear s

/-- The functions that make a string. -/
inductive Start
  | new (data : List UInt8)
  | newz (length : ℕ)
  | copy (other : String)

def start (fresh : ℕ → UInt8) : Start → Except Fault String
  | .new data => stringNew data
  | .newz length => stringNewz length
  | .copy other => stringCopy fresh other

end Libromano.Strings
