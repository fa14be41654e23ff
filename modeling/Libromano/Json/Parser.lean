/- The parser of `json.c`. A parser takes the position at which it starts and returns a value with
   the position at which it stopped. The bytes of the buffer are exactly those that the caller
   announced, so that a read at any other index is a fault. -/

import Libromano.Bytes
import Libromano.Fault
import Libromano.Float64
import Libromano.Json.Value

set_option autoImplicit false
set_option relaxedAutoImplicit false

namespace Libromano.Json

open Bytes (cString)

/-- The codes that `json.c` leaves in `g_current_error`. -/
inductive ErrorCode
  | jsonExpectedKey
  | jsonExpectedColon
  | memAllocError
  | formattingError
  deriving DecidableEq

/-- Why a call gave no value. -/
inductive Stop
  | fault (fault : Fault)
  /-- `NULL` or `false`, with the error code if one was set. -/
  | null (error : Option ErrorCode)
  deriving DecidableEq

def byteAt (str : List UInt8) (pos : ℕ) : Except Stop UInt8 :=
  match str[pos]? with
  | some c => .ok c
  | none => .error (.fault .outOfBounds)

/-- `memcpy` and `memcmp` read all of their bytes. -/
def bytesAt (str : List UInt8) (pos size : ℕ) : Except Stop (List UInt8) :=
  if pos + size ≤ str.length then .ok ((str.drop pos).take size)
  else .error (.fault .outOfBounds)

/-- The byte at the position if `p->pos < p->len`. -/
def peek (str : List UInt8) (pos : ℕ) : Except Stop (Option UInt8) :=
  if pos < str.length then do
    let c ← byteAt str pos
    .ok (some c)
  else .ok none

def isWhitespace (c : UInt8) : Bool := c = 32 || c = 9 || c = 10 || c = 13

def skipWhitespaceLoop : ℕ → List UInt8 → ℕ → Except Stop ℕ
  | 0, _, _ => .error (.fault .diverges)
  | fuel + 1, str, pos => do
    match ← peek str pos with
    | none => .ok pos
    | some c => if isWhitespace c then skipWhitespaceLoop fuel str (pos + 1) else .ok pos

def jsonSkipWhitespace (str : List UInt8) (pos : ℕ) : Except Stop ℕ :=
  skipWhitespaceLoop (str.length + 1) str pos

/-- The first pass: the position of the closing quote, the number of
characters, and whether there was an escape. -/
def scanString : ℕ → List UInt8 → ℕ → ℕ → Bool → Except Stop (ℕ × ℕ × Bool)
  | 0, _, _, _, _ => .error (.fault .diverges)
  | fuel + 1, str, pos, len, hasEscape => do
    match ← peek str pos with
    | none => .ok (pos, len, hasEscape)
    | some c =>
      if c = 34 then .ok (pos, len, hasEscape)
      else if c = 92 then
        match ← peek str (pos + 1) with
        | none => .error (.null none)
        | some escape =>
          if escape = 117 then
            if str.length ≤ pos + 1 + 4 then .error (.null none)
            else scanString fuel str (pos + 1 + 4 + 1) (len + 1) true
          else scanString fuel str (pos + 1 + 1) (len + 1) true
      else if c < 32 then .error (.null none)
      else scanString fuel str (pos + 1) (len + 1) hasEscape

def unescape (c : UInt8) : List UInt8 :=
  if c = 34 then [34]
  else if c = 92 then [92]
  else if c = 47 then [47]
  else if c = 98 then [8]
  else if c = 102 then [12]
  else if c = 110 then [10]
  else if c = 114 then [13]
  else if c = 116 then [9]
  else if c = 117 then [63]
  else []

/-- `str[j++] = ..`, where `room` bytes were asked for. -/
def store (room : ℕ) (written bytes : List UInt8) : Except Stop (List UInt8) :=
  if written.length + bytes.length ≤ room then .ok (written ++ bytes)
  else .error (.fault .outOfBounds)

/-- The second pass: the bytes written and the position at which it ended. -/
def decodeString : ℕ → List UInt8 → ℕ → ℕ → ℕ → List UInt8 → Except Stop (List UInt8 × ℕ)
  | 0, _, _, _, _, _ => .error (.fault .diverges)
  | fuel + 1, str, room, stop, i, written =>
    if i < stop then do
      let c ← byteAt str i
      if c = 92 then do
        let escape ← byteAt str (i + 1)
        let written ← store room written (unescape escape)
        let i := if escape = 117 then i + 1 + 4 else i + 1
        decodeString fuel str room stop (i + 1) written
      else do
        let written ← store room written [c]
        decodeString fuel str room stop (i + 1) written
    else .ok (written, i)

/-- `holds` says which requests the block of the string arena has room for.
The node that is returned is given by its string. -/
def jsonParseString (holds : ℕ → Bool) (str : List UInt8) (pos : ℕ) :
    Except Stop (List UInt8 × ℕ) := do
  match ← peek str pos with
  | none => .error (.null none)
  | some c =>
    if c ≠ 34 then .error (.null none)
    else do
      let start := pos + 1
      let (stop, len, hasEscape) ← scanString (str.length + 1) str start 0 false
      if str.length ≤ stop then .error (.null none)
      else if !holds (len + 1) then .error (.fault .arenaOverrun)
      else if !hasEscape then do
        let bytes ← bytesAt str start len
        let _ ← store (len + 1) bytes [0]
        .ok (bytes, stop + 1)
      else do
        let (bytes, _) ← decodeString (str.length + 1) str (len + 1) stop start []
        let _ ← store (len + 1) bytes [0]
        .ok (bytes, stop + 1)

section Number

open Float64

variable {F : Type} [Float64 F]

def isDigit (c : UInt8) : Bool := c - 48 < 10

/-- A loop over digits that goes on as long as `more` allows. -/
def parseDigits {α : Type} (more : α → Bool) (step : α → UInt8 → α) :
    ℕ → List UInt8 → α → ℕ → Except Stop (α × ℕ)
  | 0, _, _, _ => .error (.fault .diverges)
  | fuel + 1, str, acc, pos => do
    match ← peek str pos with
    | none => .ok (acc, pos)
    | some c =>
      if isDigit c && more acc then parseDigits more step fuel str (step acc c) (pos + 1)
      else .ok (acc, pos)

/-- `p->str[p->pos] - '0'`. -/
def digitOf (c : UInt8) : ℕ := c.toNat - 48

def integerStep (acc : Int64 × F) (c : UInt8) : Int64 × F :=
  (acc.1 * 10 + Int64.ofNat (digitOf c),
    add (mul acc.2 (ofUInt64 10)) (ofUInt64 (UInt64.ofNat (digitOf c))))

def fractionStep (acc : UInt64 × ℕ) (c : UInt8) : UInt64 × ℕ :=
  (acc.1 * 10 + UInt64.ofNat (digitOf c), acc.2 + 1)

def exponentStep (exponent : Int32) (c : UInt8) : Int32 :=
  exponent * 10 + Int32.ofNat (digitOf c)

/-- `pow10_table`, and what lies behind its 23 entries. -/
def pow10Table (k : ℕ) : F := if k < 23 then tenPow k else pastPow10Table

def fractionValue (fracInt : UInt64) (fracDigits : ℕ) : F :=
  if 0 < fracDigits && fracDigits < 23 then div (ofUInt64 fracInt) (pow10Table fracDigits)
  else if 0 < fracDigits then div (ofUInt64 fracInt) (pow10 (Int32.ofNat fracDigits))
  else ofUInt64 0

def scaleByExponent (floatVal : F) (exponent : Int32) : F :=
  if -23 ≤ exponent && exponent < 23 then
    if 0 ≤ exponent then mul floatVal (pow10Table exponent.toInt.toNat)
    else div floatVal (pow10Table (-exponent).toInt.toNat)
  else mul floatVal (pow10 exponent)

/-- The part from the point on: whether there is one, and the value with it. -/
def parseFraction (str : List UInt8) (floatVal : F) (pos : ℕ) :
    Except Stop ((Bool × F) × ℕ) := do
  if (← peek str pos) = some 46 then
    if !(← peek str (pos + 1)).any isDigit then .error (.null none)
    else do
      let ((fracInt, fracDigits), pos) ←
        parseDigits (fun acc => acc.2 < 20) fractionStep (str.length + 1) str (0, 0) (pos + 1)
      let (_, pos) ← parseDigits (fun _ => true) (fun _ _ => ()) (str.length + 1) str () pos
      .ok ((true, add floatVal (fractionValue fracInt fracDigits)), pos)
  else .ok ((false, floatVal), pos)

/-- The part from `e` on: whether there is one, and the exponent. -/
def parseExponent (str : List UInt8) (pos : ℕ) : Except Stop ((Bool × Int32) × ℕ) := do
  let c ← peek str pos
  if c = some 101 ∨ c = some 69 then
    let sign ← peek str (pos + 1)
    let expNegative := sign = some 45
    let pos := if sign = some 45 || sign = some 43 then pos + 1 + 1 else pos + 1
    if !(← peek str pos).any isDigit then .error (.null none)
    else do
      let (exponent, pos) ← parseDigits (fun _ => true) exponentStep (str.length + 1) str 0 pos
      .ok ((true, if expNegative then -exponent else exponent), pos)
  else .ok ((false, 0), pos)

def numberValue (isNegative isFloat : Bool) (intVal : Int64) (floatVal : F) (exponent : Int32) :
    JsonValue F :=
  if isFloat then
    let floatVal := scaleByExponent floatVal exponent
    .f64 (if isNegative then neg floatVal else floatVal)
  else if isNegative then .i64 (-intVal)
  else .u64 intVal.toUInt64

def jsonParseNumber (str : List UInt8) (pos : ℕ) : Except Stop (JsonValue F × ℕ) := do
  let isNegative := decide ((← peek str pos) = some 45)
  let pos := if isNegative then pos + 1 else pos
  if !(← peek str pos).any isDigit then .error (.null none)
  else do
    let ((intVal, floatVal), pos) ←
      parseDigits (fun _ => true) integerStep (str.length + 1) str (0, ofUInt64 0) pos
    let ((hasFraction, floatVal), pos) ← parseFraction str floatVal pos
    let ((hasExponent, exponent), pos) ← parseExponent str pos
    .ok (numberValue isNegative (hasFraction || hasExponent) intVal floatVal exponent, pos)

end Number

section Value

variable {F : Type} [Float64 F] (holds : ℕ → Bool)
  (parseValue : ℕ → Except Stop (JsonValue F × ℕ))

/-- `memcmp` of a literal with what lies at the position, after the check of the length. -/
def literalAt (str : List UInt8) (pos : ℕ) (lit : List UInt8) : Except Stop Bool :=
  if pos + lit.length ≤ str.length then do
    let bytes ← bytesAt str pos lit.length
    .ok (decide (bytes = lit))
  else .ok false

def nullLiteral : List UInt8 := [110, 117, 108, 108]

def trueLiteral : List UInt8 := [116, 114, 117, 101]

def falseLiteral : List UInt8 := [102, 97, 108, 115, 101]

def jsonParseLiteral (str : List UInt8) (pos : ℕ) : Except Stop (JsonValue F × ℕ) := do
  if ← literalAt str pos nullLiteral then .ok (.null, pos + 4)
  else if ← literalAt str pos trueLiteral then .ok (.bool true, pos + 4)
  else if ← literalAt str pos falseLiteral then .ok (.bool false, pos + 5)
  else .error (.null none)

/-- The loop over the elements; `json_array_append` puts each one at the end. -/
def parseArrayLoop : ℕ → List UInt8 → List (JsonValue F) → ℕ → Except Stop (JsonValue F × ℕ)
  | 0, _, _, _ => .error (.fault .diverges)
  | fuel + 1, str, array, pos =>
    if pos < str.length then do
      let (element, pos) ← parseValue pos
      let array := array ++ [element]
      let pos ← jsonSkipWhitespace str pos
      match ← peek str pos with
      | none => .error (.null none)
      | some c =>
        if c = 44 then do
          let pos ← jsonSkipWhitespace str (pos + 1)
          parseArrayLoop fuel str array pos
        else if c = 93 then .ok (.array array, pos + 1)
        else .error (.null none)
    else .error (.null none)

/-- `json_parse_array`, with `json_parse_value` for the elements. -/
def jsonParseArray (str : List UInt8) (pos : ℕ) : Except Stop (JsonValue F × ℕ) := do
  if (← peek str pos) ≠ some 91 then .error (.null none)
  else do
    let pos ← jsonSkipWhitespace str (pos + 1)
    if (← peek str pos) = some 93 then .ok (.array [], pos + 1)
    else parseArrayLoop parseValue (str.length + 1) str [] pos

/-- `json_dict_append`, which copies the key into the string arena. -/
def jsonDictAppend (dict : List (List UInt8 × JsonValue F)) (key : List UInt8)
    (value : JsonValue F) : Except Stop (List (List UInt8 × JsonValue F)) :=
  if holds ((cString key).length + 1) then .ok (dict ++ [(cString key, value)])
  else .error (.fault .arenaOverrun)

/-- The part of the loop of `parse_dict` that reads a key and its colon. -/
def parseDictKey (str : List UInt8) (pos : ℕ) : Except Stop (List UInt8 × ℕ) := do
  let pos ← jsonSkipWhitespace str pos
  if (← peek str pos) ≠ some 34 then .error (.null (some .jsonExpectedKey))
  else do
    let (key, pos) ← jsonParseString holds str pos
    let pos ← jsonSkipWhitespace str pos
    if (← peek str pos) ≠ some 58 then .error (.null (some .jsonExpectedColon))
    else do
      let pos ← jsonSkipWhitespace str (pos + 1)
      .ok (key, pos)

def parseDictLoop :
    ℕ → List UInt8 → List (List UInt8 × JsonValue F) → ℕ → Except Stop (JsonValue F × ℕ)
  | 0, _, _, _ => .error (.fault .diverges)
  | fuel + 1, str, dict, pos =>
    if pos < str.length then do
      let (key, pos) ← parseDictKey holds str pos
      let (value, pos) ← parseValue pos
      let dict ← jsonDictAppend holds dict key value
      let pos ← jsonSkipWhitespace str pos
      match ← peek str pos with
      | none => .error (.null none)
      | some c =>
        if c = 44 then do
          let pos ← jsonSkipWhitespace str (pos + 1)
          parseDictLoop fuel str dict pos
        else if c = 125 then .ok (.dict dict, pos + 1)
        else .error (.null none)
    else .error (.null none)

/-- `parse_dict`, with `json_parse_value` for the values. -/
def parseDict (str : List UInt8) (pos : ℕ) : Except Stop (JsonValue F × ℕ) := do
  if (← peek str pos) ≠ some 123 then .error (.null none)
  else do
    let pos ← jsonSkipWhitespace str (pos + 1)
    if (← peek str pos) = some 125 then .ok (.dict [], pos + 1)
    else parseDictLoop holds parseValue (str.length + 1) str [] pos

/-- The first argument bounds the nesting. -/
def jsonParseValue : ℕ → List UInt8 → ℕ → Except Stop (JsonValue F × ℕ)
  | 0, _, _ => .error (.fault .diverges)
  | depth + 1, str, pos => do
    let pos ← jsonSkipWhitespace str pos
    match ← peek str pos with
    | none => .error (.null none)
    | some c =>
      if c = 34 then do
        let (s, pos) ← jsonParseString holds str pos
        .ok (.str s, pos)
      else if c = 123 then parseDict holds (fun pos => jsonParseValue depth str pos) str pos
      else if c = 91 then jsonParseArray (fun pos => jsonParseValue depth str pos) str pos
      else if c = 45 || isDigit c then jsonParseNumber str pos
      else if c = 116 || c = 102 || c = 110 then jsonParseLiteral str pos
      else .error (.null none)

def jsonParse (str : List UInt8) : Except Stop (JsonValue F) := do
  if str.length = 0 then .error (.null none)
  else do
    let (root, pos) ← jsonParseValue holds (str.length + 1) str 0
    let pos ← jsonSkipWhitespace str pos
    if pos ≠ str.length then .error (.null none)
    else .ok root

def jsonLoads (str : List UInt8) : Except Stop (JsonValue F) := jsonParse holds str

end Value

example : jsonLoads (F := ℚ) (fun _ => true) [91, 45, 49, 93] = .ok (.array [.i64 (-1)]) := by rfl

end Libromano.Json
