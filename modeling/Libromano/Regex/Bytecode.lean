/- The bytecode of `regex.c`: an opcode and its operands in bytes, with the size of a jump in four
   of them, the highest first. -/

import Libromano.Regex.Lexer
import Mathlib.Data.Nat.Bitwise

set_option autoImplicit false
set_option relaxedAutoImplicit false

namespace Libromano.Regex

inductive OpCode
  | testSingle
  | testRange
  | testNegatedRange
  | testAny
  | testDigit
  | testLowerCase
  | testUpperCase
  | jumpEq
  | jumpNeq
  | accept
  | fail
  | groupStart
  | groupEnd
  | incPos
  | decPos
  | incPosEq
  | jumpPos
  | setFlag
  deriving DecidableEq

namespace OpCode

def byte : OpCode → UInt8
  | testSingle => 0
  | testRange => 1
  | testNegatedRange => 2
  | testAny => 3
  | testDigit => 4
  | testLowerCase => 5
  | testUpperCase => 6
  | jumpEq => 7
  | jumpNeq => 8
  | accept => 9
  | fail => 10
  | groupStart => 11
  | groupEnd => 12
  | incPos => 13
  | decPos => 14
  | incPosEq => 15
  | jumpPos => 16
  | setFlag => 17

def all : List OpCode :=
  [testSingle, testRange, testNegatedRange, testAny, testDigit, testLowerCase, testUpperCase,
    jumpEq, jumpNeq, accept, fail, groupStart, groupEnd, incPos, decPos, incPosEq, jumpPos, setFlag]

def ofByte (b : UInt8) : Option OpCode := all.find? fun op => op.byte = b

@[simp] theorem ofByte_byte (op : OpCode) : ofByte op.byte = some op := by
  cases op <;> rfl

theorem byte_inj {a b : OpCode} : a.byte = b.byte ↔ a = b := by
  refine ⟨fun h => ?_, congrArg byte⟩
  have hof := congrArg ofByte h
  rw [ofByte_byte, ofByte_byte] at hof
  exact Option.some.inj hof

/-- How far the program counter moves over the opcode and its operands. -/
def size : OpCode → ℕ
  | testSingle | setFlag | groupStart | groupEnd => 2
  | testRange | testNegatedRange => 3
  | jumpEq | jumpNeq | jumpPos => 5
  | _ => 1

theorem size_pos (op : OpCode) : 0 < op.size := by
  cases op <;> decide

end OpCode

/-- The operand that stands for a jump to the end of the program. -/
def jumpFail : Int32 := 2147483647

def regexEncodeJump (jumpSize : Int32) : List UInt8 :=
  [(jumpSize.toUInt32 >>> 24).toUInt8, (jumpSize.toUInt32 >>> 16).toUInt8,
    (jumpSize.toUInt32 >>> 8).toUInt8, jumpSize.toUInt32.toUInt8]

def regexDecodeJump (b₀ b₁ b₂ b₃ : UInt8) : Int32 :=
  ((b₀.toUInt32 <<< 24) ||| (b₁.toUInt32 <<< 16) ||| (b₂.toUInt32 <<< 8) ||| b₃.toUInt32).toInt32

/-- The bytecode with an empty jump at its end, and the position of its size. -/
def regexEmitJump (bytecode : List UInt8) (op : OpCode) : List UInt8 × ℕ :=
  (bytecode ++ op.byte :: regexEncodeJump 0, (bytecode ++ [op.byte]).length)

/-- `memcpy` of a list of bytes to a position of the vector. -/
def overwrite (bytecode : List UInt8) (pos : ℕ) (bytes : List UInt8) : List UInt8 :=
  bytecode.take pos ++ bytes ++ bytecode.drop (pos + bytes.length)

def regexPatchJump (bytecode : List UInt8) (jumpPos : ℕ) (offset : Int32) : List UInt8 :=
  overwrite bytecode jumpPos (regexEncodeJump offset)

@[simp] theorem length_regexEncodeJump (offset : Int32) : (regexEncodeJump offset).length = 4 := rfl

theorem overwrite_append (before old after new : List UInt8) (h : new.length = old.length) :
    overwrite (before ++ (old ++ after)) before.length new = before ++ (new ++ after) := by
  have hdrop : (before ++ (old ++ after)).drop (before.length + new.length) = after := by
    rw [List.drop_append, h, Nat.add_sub_cancel_left, List.drop_left]
    simp
  rw [overwrite, hdrop, List.take_left, List.append_assoc]

theorem regexEmitJump_patch (bytecode : List UInt8) (op : OpCode) (offset : Int32) :
    regexPatchJump (regexEmitJump bytecode op).1 (regexEmitJump bytecode op).2 offset =
      bytecode ++ op.byte :: regexEncodeJump offset := by
  have h := overwrite_append (bytecode ++ [op.byte]) (regexEncodeJump 0) []
    (regexEncodeJump offset) rfl
  simpa [regexPatchJump, regexEmitJump] using h

private theorem or_low {a b : ℕ} (i : ℕ) (ha : a * 2 ^ i < 2 ^ 32) (hb : b < 2 ^ i) :
    a * 2 ^ i % 2 ^ 32 ||| b = a * 2 ^ i + b := by
  rw [Nat.mod_eq_of_lt ha, Nat.mul_comm, ← Nat.two_pow_add_eq_or_of_lt hb]

private theorem four_bytes (x : UInt32) :
    ((x >>> 24).toUInt8.toUInt32 <<< 24) ||| ((x >>> 16).toUInt8.toUInt32 <<< 16) |||
      ((x >>> 8).toUInt8.toUInt32 <<< 8) ||| x.toUInt8.toUInt32 = x := by
  apply UInt32.toNat_inj.mp
  have hx := x.toNat_lt
  simp only [UInt32.toNat_or, UInt32.toNat_shiftLeft, UInt8.toNat_toUInt32, UInt32.toNat_toUInt8,
    UInt32.toNat_shiftRight, UInt32.reduceToNat, Nat.reduceMod, Nat.shiftLeft_eq,
    Nat.shiftRight_eq_div_pow, Nat.or_assoc]
  rw [or_low 8 (by omega) (by omega), or_low 16 (by omega) (by omega),
    or_low 24 (by omega) (by omega)]
  omega

theorem regexDecodeJump_encode (offset : Int32) :
    regexDecodeJump (offset.toUInt32 >>> 24).toUInt8 (offset.toUInt32 >>> 16).toUInt8
      (offset.toUInt32 >>> 8).toUInt8 offset.toUInt32.toUInt8 = offset := by
  rw [regexDecodeJump, four_bytes]
  rfl

end Libromano.Regex
