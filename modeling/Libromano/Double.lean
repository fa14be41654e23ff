/- Doubles without rounding: a number that is not a zero is a rational, and the special values are
   those of the format. Only the conversion of an integer and the logarithm are rounded, to
   nearest. -/

import Libromano.Float64
import Libromano.Foundation.Logarithm
import Libromano.Foundation.Significand

set_option autoImplicit false
set_option relaxedAutoImplicit false

namespace Libromano

inductive Double
  | nan
  | infinity (negative : Bool)
  | zero (negative : Bool)
  | finite (x : ℚ) (hx : x ≠ 0)
  deriving DecidableEq

namespace Double

def ofRat (negative : Bool) (x : ℚ) : Double := if hx : x = 0 then .zero negative else .finite x hx

def value : Double → ℚ
  | .finite x _ => x
  | _ => 0

def negative : Double → Bool
  | .nan => false
  | .infinity negative => negative
  | .zero negative => negative
  | .finite x _ => decide (x < 0)

def isNan : Double → Bool
  | .nan => true
  | _ => false

def isInf : Double → Bool
  | .infinity _ => true
  | _ => false

def isZero : Double → Bool
  | .zero _ => true
  | _ => false

def trunc (x : ℚ) : ℤ := if x < 0 then -⌊-x⌋ else ⌊x⌋

protected def add (x y : Double) : Double :=
  if x.isNan || y.isNan then .nan
  else if x.isInf && y.isInf then (if x.negative = y.negative then x else .nan)
  else if x.isInf then x
  else if y.isInf then y
  else ofRat (x.negative && y.negative) (x.value + y.value)

protected def mul (x y : Double) : Double :=
  let negative := x.negative ^^ y.negative
  if x.isNan || y.isNan then .nan
  else if x.isInf || y.isInf then (if x.isZero || y.isZero then .nan else .infinity negative)
  else ofRat negative (x.value * y.value)

protected def div (x y : Double) : Double :=
  let negative := x.negative ^^ y.negative
  if x.isNan || y.isNan then .nan
  else if x.isInf then (if y.isInf then .nan else .infinity negative)
  else if y.isInf then .zero negative
  else if y.isZero then (if x.isZero then .nan else .infinity negative)
  else ofRat negative (x.value / y.value)

protected def neg : Double → Double
  | .nan => .nan
  | .infinity negative => .infinity !negative
  | .zero negative => .zero !negative
  | .finite x hx => .finite (-x) (neg_ne_zero.mpr hx)

protected def fabs (x : Double) : Double := if x.negative then x.neg else x

protected def lt : Double → Double → Bool
  | .nan, _ => false
  | _, .nan => false
  | .infinity s, .infinity t => s && !t
  | .infinity s, _ => s
  | _, .infinity t => !t
  | x, y => decide (x.value < y.value)

protected def eq : Double → Double → Bool
  | .nan, _ => false
  | _, .nan => false
  | .infinity s, .infinity t => s = t
  | .infinity _, _ => false
  | _, .infinity _ => false
  | x, y => decide (x.value = y.value)

protected def modf : Double → Double × Double
  | .nan => (.nan, .nan)
  | .infinity negative => (.infinity negative, .zero negative)
  | .zero negative => (.zero negative, .zero negative)
  | .finite x _ => (ofRat (decide (x < 0)) (trunc x), ofRat (decide (x < 0)) (x - trunc x))

/-- Of the rounded logarithm only the integral part is used, and that for numbers from one on. -/
protected def log10 : Double → Double
  | .nan => .nan
  | .infinity negative => if negative then .nan else .infinity false
  | .zero _ => .infinity true
  | .finite x _ =>
    if x < 0 then .nan
    else if x < 1 then ofRat false (Int.log 10 x)
    else ofRat false (Foundation.Logarithm.nearestLog 53 x)

instance : Float64 Double where
  ofUInt64 n := ofRat false (Foundation.Significand.round 53 n.toNat)
  toUInt64 x := UInt64.ofNat (trunc x.value).toNat
  toInt x := trunc x.value
  add := Double.add
  mul := Double.mul
  div := Double.div
  neg := Double.neg
  fabs := Double.fabs
  lt := Double.lt
  eq := Double.eq
  isnan := isNan
  isinf := isInf
  modf := Double.modf
  log10 := Double.log10
  tenPow k := ofRat false (10 ^ k)
  pow10 n := ofRat false (10 ^ n.toInt)
  pastPow10Table := .zero false

variable {x y : ℚ} {s t : Bool}

@[simp] theorem isZero_ofRat : (ofRat s x).isZero = decide (x = 0) := by
  unfold ofRat
  split
  · exact (decide_eq_true ‹x = 0›).symm
  · exact (decide_eq_false ‹¬x = 0›).symm

end Double

end Libromano
