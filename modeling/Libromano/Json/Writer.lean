/- The writer of `json.c`. Every function first asks for room, with a size that it has computed
   beforehand, and then writes; a write past the capacity is a fault. -/

import Libromano.Fmt
import Libromano.Json.Parser

set_option autoImplicit false
set_option relaxedAutoImplicit false

namespace Libromano.Json

open Bytes (cString)

/-- The bytes written so far and the room that there is for them. -/
structure JsonBuffer where
  str : List UInt8
  strCapacity : ℕ

structure JsonWriter extends JsonBuffer where
  indentSize : UInt64
  indent : UInt64

/-- The loop that doubles a capacity of 64 bits. When it has come to zero it
stays there and the loop never ends. -/
def growCapacity : ℕ → ℕ → ℕ → Except Stop ℕ
  | 0, _, _ => .error (.fault .diverges)
  | fuel + 1, totalNeededSize, newCapacity =>
    if newCapacity ≤ totalNeededSize then
      growCapacity fuel totalNeededSize (2 * newCapacity % 2 ^ 64)
    else .ok newCapacity

/-- `realloc` gives no block of more than `PTRDIFF_MAX` bytes. -/
def jsonWriteRealloc (buffer : JsonBuffer) (neededSize : ℕ) : Except Stop JsonBuffer := do
  let totalNeededSize := (buffer.str.length + neededSize) % 2 ^ 64
  if totalNeededSize < buffer.strCapacity then .ok buffer
  else do
    let newCapacity ← growCapacity 65 totalNeededSize buffer.strCapacity
    if 2 ^ 63 ≤ newCapacity then .error (.null (some .memAllocError))
    else .ok { buffer with strCapacity := newCapacity }

def JsonBuffer.put (buffer : JsonBuffer) (bytes : List UInt8) : Except Stop JsonBuffer :=
  if buffer.str.length + bytes.length ≤ buffer.strCapacity then
    .ok { buffer with str := buffer.str ++ bytes }
  else .error (.fault .outOfBounds)

def JsonBuffer.write (buffer : JsonBuffer) (neededSize : ℕ) (bytes : List UInt8) :
    Except Stop JsonBuffer := do
  let buffer ← jsonWriteRealloc buffer neededSize
  buffer.put bytes

def JsonWriter.write (writer : JsonWriter) (neededSize : ℕ) (bytes : List UInt8) :
    Except Stop JsonWriter := do
  let buffer ← writer.toJsonBuffer.write neededSize bytes
  .ok { writer with toJsonBuffer := buffer }

def jsonWriteChar (writer : JsonWriter) (c : UInt8) : Except Stop JsonWriter := writer.write 1 [c]

def jsonWriteIndent (writer : JsonWriter) : Except Stop JsonWriter :=
  writer.write writer.indent.toNat (List.replicate writer.indent.toNat 32)

def jsonWriteLiteral (writer : JsonWriter) (lit : List UInt8) : Except Stop JsonWriter :=
  writer.write lit.length lit

/-- The body of the functions that write a number. The formatter writes what it
writes; the size moves on by what was asked for. -/
def writeFormatted (writer : JsonWriter) (bufferSz : ℤ) (format : Except Fault (List UInt8)) :
    Except Stop JsonWriter :=
  if bufferSz < 0 then .error (.null (some .formattingError))
  else do
    let buffer ← jsonWriteRealloc writer.toJsonBuffer bufferSz.toNat
    match format with
    | .error fault => .error (.fault fault)
    | .ok bytes => do
      let _ ← buffer.put bytes
      if bytes.length < bufferSz.toNat then .error (.fault .uninitialised)
      else do
        let buffer ← buffer.put (bytes.take bufferSz.toNat)
        .ok { writer with toJsonBuffer := buffer }

def jsonWriteU64 (writer : JsonWriter) (u64 : UInt64) : Except Stop JsonWriter :=
  writeFormatted writer (Fmt.fmtSizeU64 u64) (Fmt.fmtU64 u64)

def jsonWriteI64 (writer : JsonWriter) (i64 : Int64) : Except Stop JsonWriter :=
  writeFormatted writer (Fmt.fmtSizeI64 i64) (Fmt.fmtI64 i64)

def jsonWriteF64 {F : Type} [Float64 F] (writer : JsonWriter) (f64 : F) : Except Stop JsonWriter :=
  writeFormatted writer (Fmt.fmtSizeF64 f64 3) (Prod.fst <$> Fmt.fmtF64 f64 3)

def jsonCharIsEscaped (c : UInt8) : Bool :=
  c = 39 || c = 34 || c = 92 || c = 10 || c = 13 || c = 9 || c = 8 || c = 12 || c = 11

def jsonEscapedToChar (c : UInt8) : UInt8 :=
  if c = 39 then 39
  else if c = 34 then 34
  else if c = 92 then 92
  else if c = 10 then 110
  else if c = 13 then 114
  else if c = 9 then 116
  else if c = 8 then 98
  else if c = 12 then 102
  else if c = 11 then 118
  else c

/-- What `json_write_str` writes for one character. -/
def escapeChar (c : UInt8) : List UInt8 :=
  if jsonCharIsEscaped c then
    if c ≠ 39 then [92, jsonEscapedToChar c] else [jsonEscapedToChar c]
  else [c]

def escapedSize (str : List UInt8) : ℕ :=
  (str.map fun c => if jsonCharIsEscaped c then 3 else 1).sum

def jsonWriteStr (writer : JsonWriter) (str : List UInt8) : Except Stop JsonWriter :=
  writer.write (escapedSize (cString str) + 2) (34 :: ((cString str).flatMap escapeChar ++ [34]))

/-- The opening bracket of `json_write_array` and `json_write_dict`. -/
def writeOpen (writer : JsonWriter) (bracket : UInt8) : Except Stop JsonWriter := do
  let writer ← jsonWriteChar writer bracket
  if 0 < writer.indentSize then .ok { writer with indent := writer.indent + writer.indentSize }
  else .ok writer

def writeComma (writer : JsonWriter) (i : ℕ) : Except Stop JsonWriter :=
  if 0 < i then jsonWriteChar writer 44 else .ok writer

def writeNewline (writer : JsonWriter) : Except Stop JsonWriter :=
  if 0 < writer.indentSize then do
    let writer ← jsonWriteChar writer 10
    jsonWriteIndent writer
  else .ok writer

/-- What their loops write before the element number `i`. -/
def writeSeparator (writer : JsonWriter) (i : ℕ) : Except Stop JsonWriter := do
  let writer ← writeComma writer i
  writeNewline writer

def writeClose (writer : JsonWriter) (bracket : UInt8) : Except Stop JsonWriter := do
  if 0 < writer.indentSize then do
    let writer ← jsonWriteChar writer 10
    let writer := { writer with indent := writer.indent - writer.indentSize }
    let writer ← jsonWriteIndent writer
    jsonWriteChar writer bracket
  else jsonWriteChar writer bracket

section Value

variable {F : Type} [Float64 F]

mutual

def jsonWriteValue (writer : JsonWriter) : JsonValue F → Except Stop JsonWriter
  | .null => jsonWriteLiteral writer nullLiteral
  | .bool b => jsonWriteLiteral writer (if b then trueLiteral else falseLiteral)
  | .u64 u64 => jsonWriteU64 writer u64
  | .i64 i64 => jsonWriteI64 writer i64
  | .f64 f64 => jsonWriteF64 writer f64
  | .str str => jsonWriteStr writer str
  | .array array => do
    let writer ← writeOpen writer 91
    let writer ← writeElements writer 0 array
    writeClose writer 93
  | .dict dict => do
    let writer ← writeOpen writer 123
    let writer ← writeMembers writer 0 dict
    writeClose writer 125

/-- The loop of `json_write_array`. -/
def writeElements (writer : JsonWriter) (i : ℕ) : List (JsonValue F) → Except Stop JsonWriter
  | [] => .ok writer
  | element :: array => do
    let writer ← writeSeparator writer i
    let writer ← jsonWriteValue writer element
    writeElements writer (i + 1) array

/-- The loop of `json_write_dict`. -/
def writeMembers (writer : JsonWriter) (i : ℕ) :
    List (List UInt8 × JsonValue F) → Except Stop JsonWriter
  | [] => .ok writer
  | (key, value) :: dict => do
    let writer ← writeSeparator writer i
    let writer ← jsonWriteStr writer key
    let writer ← jsonWriteChar writer 58
    let writer ← jsonWriteChar writer 32
    let writer ← jsonWriteValue writer value
    writeMembers writer (i + 1) dict

end

def jsonWrite (root : JsonValue F) (indentSize : UInt64) : Except Stop (List UInt8) := do
  let writer ← jsonWriteValue ⟨⟨[], 4096⟩, indentSize, 0⟩ root
  .ok writer.str

def jsonDumps (root : JsonValue F) (indentSize : UInt64) : Except Stop (List UInt8) :=
  jsonWrite root indentSize

end Value

example : jsonDumps (F := ℚ) (.array [.u64 1, .i64 (-2)]) 2 =
    .ok [91, 10, 32, 32, 49, 44, 10, 32, 32, 45, 50, 10, 93] := by decide +kernel

end Libromano.Json
