/- The operations on `double` that the library uses. Their arithmetic is left open: the code that
   is modelled over them only moves such numbers around. -/

import Mathlib.Data.Nat.Log
import Mathlib.Data.Rat.Floor

set_option autoImplicit false
set_option relaxedAutoImplicit false

namespace Libromano

class Float64 (F : Type) where
  /-- The conversions from and to the integer types. -/
  ofUInt64 : UInt64 → F
  toUInt64 : F → UInt64
  toInt : F → ℤ
  add : F → F → F
  mul : F → F → F
  div : F → F → F
  neg : F → F
  fabs : F → F
  lt : F → F → Bool
  eq : F → F → Bool
  isnan : F → Bool
  isinf : F → Bool
  /-- The integral and the fractional part. -/
  modf : F → F × F
  log10 : F → F
  /-- The literals `1e0`, `1e1` and so on. -/
  tenPow : ℕ → F
  /-- `pow(10.0, n)`. -/
  pow10 : Int32 → F
  /-- The double that lies behind the last one of `pow10_table`. -/
  pastPow10Table : F

/-- Exact arithmetic, with which `double` agrees where nothing is rounded. -/
instance : Float64 ℚ where
  ofUInt64 n := n.toNat
  toUInt64 x := UInt64.ofNat ⌊x⌋.toNat
  toInt x := ⌊x⌋
  add := (· + ·)
  mul := (· * ·)
  div := (· / ·)
  neg x := -x
  fabs x := |x|
  lt x y := decide (x < y)
  eq x y := decide (x = y)
  isnan _ := false
  isinf _ := false
  modf x := (⌊x⌋, x - ⌊x⌋)
  log10 x := Nat.log 10 ⌊x⌋.toNat
  tenPow k := 10 ^ k
  pow10 n := 10 ^ n.toInt
  pastPow10Table := 0

end Libromano
