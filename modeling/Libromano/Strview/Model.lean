/- The string views of `strview.c`. A view points into the object that is passed along with it,
   and a pointer is a place in that object. -/

import Libromano.Bytes
import Mathlib.Algebra.Order.Ring.Int
import Mathlib.Data.Int.DivMod

set_option autoImplicit false
set_option relaxedAutoImplicit false

namespace Libromano.Strview

open Bytes

/-- `none` is the null pointer. -/
structure StringView where
  size : ℕ
  data : Option ℕ
  deriving DecidableEq

def strviewNull : StringView := ⟨0, none⟩

def StringView.bytes (s : StringView) (object : List UInt8) : Option (List UInt8) :=
  s.data.map fun data => (object.drop data).take s.size

/-- `memcmp(p + i, s, n) == 0`. -/
def sameBytes (p : List UInt8) (i : ℕ) (s : List UInt8) (n : ℕ) : Except Fault Bool := do
  let bytes ← bytesAt p i n
  let bytes' ← bytesAt s 0 n
  .ok (bytes == bytes')

/-- `(int)n` for a size. -/
def toInt (n : ℕ) : ℤ := (n : ℤ).bmod (2 ^ 32)

/-- The loop of `strview_find`, with its `offset`. -/
def findLoop (object : List UInt8) (s : StringView) (substr : List UInt8) (substrLen : ℤ) :
    ℕ → ℤ → Except Fault ℤ
  | 0, _ => .error .diverges
  | fuel + 1, offset =>
    if toSize (substrLen - 1 + offset) < s.size then
      match s.data with
      | none => .error .nullPointer
      | some data => do
        let same ← sameBytes object (data + offset.toNat) substr (toSize substrLen)
        if same then .ok offset else findLoop object s substr substrLen fuel (offset + 1)
    else .ok (-1)

def strviewFind (object : List UInt8) (s : StringView) (substr : List UInt8) (substrLen : ℤ) :
    Except Fault ℤ := do
  let substrLen ← (if substrLen < 1 then do
      let n ← strlen substr
      .ok (toInt n)
    else .ok substrLen)
  if s.size < toSize substrLen then .ok (-1)
  else findLoop object s substr substrLen (s.size + 1) 0

def strviewStartswith (object : List UInt8) (s : StringView) (substr : List UInt8) (substrLen : ℤ) :
    Except Fault Bool := do
  let substrLen ← (if substrLen < 1 then strlen substr else .ok (toSize substrLen))
  if s.size < substrLen then .ok false
  else
    match s.data with
    | none => .error .nullPointer
    | some data => sameBytes object data substr substrLen

/-- The loop of `strview_split`, with its `iter_ptr` and `steps`. -/
def splitLoop (data : List UInt8) (separator : UInt8) : ℕ → ℕ → ℕ → Except Fault ℕ
  | 0, _, _ => .error .diverges
  | fuel + 1, iterPtr, steps => do
    let c ← byteAt data iterPtr
    if c = separator ∨ c = 0 then .ok steps
    else splitLoop data separator fuel (iterPtr + 1) (steps + 1)

def strviewSplit (data separator : List UInt8) (stringView : StringView) :
    Except Fault (Bool × StringView) := do
  let actualPtr := match stringView.data with
    | some place => place + stringView.size
    | none => 0
  let c ← byteAt data actualPtr
  if c = 0 then .ok (false, stringView)
  else do
    let first ← byteAt separator 0
    let actualPtr := if c = first then actualPtr + 1 else actualPtr
    let steps ← splitLoop data first (data.length + 1) actualPtr 0
    .ok (true, ⟨steps, some actualPtr⟩)

/-- The loop of `strview_lsplit`, with its `size`, which is also how far `data` has come. -/
def lsplitLoop (data separator : List UInt8) (separatorLen : ℕ) : ℕ → ℕ → Except Fault ℕ
  | 0, _ => .error .diverges
  | fuel + 1, size => do
    let c ← byteAt data size
    if c = 0 then .ok size
    else do
      let same ← sameBytes data size separator separatorLen
      if same then .ok size else lsplitLoop data separator separatorLen fuel (size + 1)

/-- The view that is returned, and the one that is written to `stringview`. -/
def strviewLsplit (data separator : List UInt8) : Except Fault (StringView × StringView) := do
  let separatorLen ← strlen separator
  let size ← lsplitLoop data separator separatorLen (data.length + 1) 0
  let rest ← strlen (data.drop size)
  .ok (⟨size, some 0⟩, ⟨rest, some size⟩)

/-- The loop of `strview_rsplit`, with its `i` and `size`. The test that a size is not
negative passes always; one that has wrapped around is a place before the string. -/
def rsplitLoop (data separator : List UInt8) (separatorLen : ℕ) :
    ℕ → ℤ → ℕ → Except Fault (ℤ × ℕ)
  | 0, _, _ => .error .diverges
  | fuel + 1, i, size =>
    if i - separatorLen < 0 then .error .outOfBounds
    else do
      let same ← sameBytes data (i - separatorLen).toNat separator separatorLen
      if same then .ok (i, size) else rsplitLoop data separator separatorLen fuel (i - 1) (size + 1)

def strviewRsplit (data separator : List UInt8) : Except Fault (StringView × StringView) := do
  let stringSize ← strlen data
  let separatorLen ← strlen separator
  let (i, size) ← rsplitLoop data separator separatorLen (stringSize + 1) ((stringSize : ℤ) - 1) 0
  .ok (⟨size + 1, some i.toNat⟩, ⟨i.toNat, some 0⟩)

def skipSpaces (data : List UInt8) : ℕ → ℕ → Except Fault ℕ
  | 0, _ => .error .diverges
  | fuel + 1, place => do
    let c ← byteAt data place
    if isspace c then skipSpaces data fuel (place + 1) else .ok place

/-- The loop at the end, with `result.data` and `result.size`, which wraps around. -/
def trimLoop (data : List UInt8) (place : ℕ) : ℕ → ℕ → Except Fault ℕ
  | 0, _ => .error .diverges
  | fuel + 1, size => do
    let (spaced, size) ← (if 0 < size then do
        let c ← byteAt data (place + size)
        .ok (isspace c, size - 1)
      else .ok (false, size))
    if spaced then trimLoop data place fuel size
    else do
      let c ← byteAt data (place + size)
      let size := if size = 0 then 2 ^ 64 - 1 else size - 1
      if c = 0 then trimLoop data place fuel size else .ok size

def strviewTrim (data : List UInt8) : Except Fault StringView := do
  let place ← skipSpaces data (data.length + 1) 0
  let c ← byteAt data place
  if c = 0 then .ok strviewNull
  else do
    let size ← strlen (data.drop place)
    let size ← trimLoop data place (data.length + 1) size
    .ok ⟨size, some place⟩

end Libromano.Strview
