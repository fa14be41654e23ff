/- The number formatting of `fmt.c`. A formatter gives the bytes it writes; their number is what
   the C function returns, but for `fmt_f64`, whose number stands beside them. -/

import Libromano.Fault
import Libromano.Float64

set_option autoImplicit false
set_option relaxedAutoImplicit false

namespace Libromano.Fmt

def floorLog10Pow2 (e : ℕ) : ℕ := (e * 1262611) >>> 22

def ceilLog10Pow2 (e : ℕ) : ℕ := if e = 0 then 0 else floorLog10Pow2 e + 1

def generateDigitCountTable : List UInt64 :=
  (List.range 64).map fun i =>
    let ub := ceilLog10Pow2 i
    UInt64.ofNat (ub + 1) <<< 52 - UInt64.ofNat (10 ^ ub) >>> UInt64.ofNat (i / 4)

def digitCountTable : List UInt64 := [
  4503599627370495, 9007199254740982, 9007199254740982, 9007199254740982,
  13510798882111438, 13510798882111438, 13510798882111438, 18014398509481484,
  18014398509481734, 18014398509481734, 22517998136849980, 22517998136849980,
  22517998136851230, 22517998136851230, 27021597764210476, 27021597764210476,
  27021597764216726, 31525197391530972, 31525197391530972, 31525197391530972,
  36028797018651468, 36028797018651468, 36028797018651468, 36028797018651468,
  40532396644771964, 40532396644771964, 40532396644771964, 45035996258079960,
  45035996265892460, 45035996265892460, 49539595822950456, 49539595822950456,
  49539595862012956, 49539595862012956, 54043195137820952, 54043195137820952,
  54043195333133452, 58546793202691448, 58546793202691448, 58546793202691448,
  63050385017561944, 63050385017561944, 63050385017561944, 63050385017561944,
  67553945582432440, 67553945582432440, 67553945582432440, 72057105756677936,
  72057349897302936, 72057349897302936, 76558752259048432, 76558752259048432,
  76559972962173432, 76559972962173432, 81052586261418928, 81052586261418928,
  81058689777043928, 85507357763789424, 85507357763789424, 85507357763789424,
  89766816766159920, 89766816766159920, 89766816766159920, 89766816766159920]

/-- `__builtin_clzll` on a number that is not zero. -/
def clzU64 (x : UInt64) : ℕ := 63 - x.toNat.log2

def floorLog2 (n : UInt64) : ℕ := 63 ^^^ clzU64 n

def countDigits (n : UInt64) : ℕ :=
  if n = 0 then 1
  else
    ((digitCountTable.getD (floorLog2 n) 0 + n >>> UInt64.ofNat (floorLog2 n / 4)) >>> 52).toNat

/-- The two characters of `digit_pairs` for a number below 100. -/
def digitPair (r : ℕ) : List UInt8 := [UInt8.ofNat (48 + r / 10), UInt8.ofNat (48 + r % 10)]

/-- The loop of `utoa_fast`, with the digits written so far. A 64-bit number
has no more than ten pairs of digits. -/
def utoaLoop : ℕ → ℕ → List UInt8 → Except Fault (List UInt8)
  | 0, _, _ => .error .diverges
  | fuel + 1, val, digits =>
    if 100 ≤ val then utoaLoop fuel (val / 100) (digitPair (val % 100) ++ digits)
    else if 10 ≤ val then .ok (digitPair val ++ digits)
    else .ok (UInt8.ofNat (48 + val) :: digits)

/-- `utoa_fast` writes backwards from the place that `count_digits` gives. -/
def utoaFast (val : UInt64) : Except Fault (List UInt8) := do
  let digits ← utoaLoop 10 val.toNat []
  if countDigits val < digits.length then .error .outOfBounds
  else if digits.length < countDigits val then .error .uninitialised
  else .ok digits

/-- `abs_i64`. The mask is made by an arithmetic shift. -/
def absI64 (x : Int64) : UInt64 :=
  let mask := (x >>> 63).toUInt64
  (mask ^^^ x.toUInt64) - mask

def fmtSizeU64 (u64 : UInt64) : ℕ := countDigits u64

def fmtU64 (u64 : UInt64) : Except Fault (List UInt8) := utoaFast u64

def fmtSizeI64 (i64 : Int64) : ℕ := countDigits (absI64 i64) + if i64 < 0 then 1 else 0

def fmtI64 (i64 : Int64) : Except Fault (List UInt8) := do
  let digits ← utoaFast (absI64 i64)
  .ok (if i64 < 0 then 45 :: digits else digits)

section Double

open Float64

variable {F : Type} [Float64 F]

def clampPrecision (precision : ℤ) : ℕ :=
  let precision := if precision < 0 then 6 else precision
  (if 17 < precision then 17 else precision).toNat

def fmtSizeF64 (f64 : F) (precision : ℤ) : ℤ :=
  let zero : F := ofUInt64 0
  if isnan f64 then 4
  else if isinf f64 then (if lt f64 zero then 5 else 4)
  else
    let size := if lt f64 zero then 1 else 0
    let f64 := if lt f64 zero then neg f64 else f64
    if eq f64 zero then (if 0 < precision then 2 + precision else 2)
    else
      let precision := clampPrecision precision
      let size := if lt f64 (ofUInt64 1) then size + 1 else size + (toInt (log10 f64) + 1)
      if 0 < precision then size + (1 + precision) else size

/-- The digits after the point, cut or padded with zeros in front. -/
def fractionDigits (fracInt : UInt64) (precision : ℕ) : Except Fault (List UInt8) := do
  if fracInt = 0 then .ok (List.replicate precision 48)
  else
    let digits ← utoaFast fracInt
    if digits.length < precision then
      .ok (List.replicate (precision - digits.length) 48 ++ digits)
    else .ok (digits.take precision)

/-- The bytes written, with the pointer difference `p - buffer` that is returned. -/
def counted (bytes : List UInt8) : List UInt8 × ℕ := (bytes, bytes.length)

/-- With the number that is returned: for a number that does not fit it leaves out the sign. -/
def fmtF64 (f64 : F) (precision : ℤ) : Except Fault (List UInt8 × ℕ) := do
  let zero : F := ofUInt64 0
  if isnan f64 then .ok ([110, 97, 110], 3)
  else if isinf f64 then
    .ok (if lt f64 zero then ([45, 105, 110, 102], 4) else ([105, 110, 102], 3))
  else
    let isNegative := lt f64 zero || eq f64 (neg zero)
    let sign : List UInt8 := if isNegative then [45] else []
    let f64 := if isNegative then fabs f64 else f64
    if eq f64 zero then
      .ok (counted (sign ++ [48] ++
        if 0 < precision then 46 :: List.replicate precision.toNat 48 else []))
    else
      let precision := clampPrecision precision
      let (intPart, fracPart) := modf f64
      if lt (ofUInt64 (0 - 1)) intPart then .ok (sign ++ [111, 118, 102], 3)
      else
        let digits ← utoaFast (toUInt64 intPart)
        if precision = 0 then .ok (counted (sign ++ digits))
        else
          let scale : F := tenPow precision
          let fracPart := mul fracPart scale
          let fracPart :=
            if precision < 17 then add fracPart (div (ofUInt64 1) (ofUInt64 2)) else fracPart
          let fracInt := toUInt64 fracPart
          if toUInt64 scale ≤ fracInt then do
            let digits ← utoaFast (toUInt64 (add intPart (ofUInt64 1)))
            let fraction ← fractionDigits (fracInt - toUInt64 scale) precision
            .ok (counted (sign ++ digits ++ [46] ++ fraction))
          else do
            let fraction ← fractionDigits fracInt precision
            .ok (counted (sign ++ digits ++ [46] ++ fraction))

end Double

example : digitCountTable = generateDigitCountTable := by decide

example : fmtI64 (-42) = .ok [45, 52, 50] := by decide

end Libromano.Fmt
