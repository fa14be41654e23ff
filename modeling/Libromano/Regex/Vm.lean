/- The virtual machine of `regex.c`. Its two positions are `size_t`: where one of them may pass an
   end of that range it is taken modulo `2 ^ 64`. -/

import Libromano.Regex.Emit

set_option autoImplicit false
set_option relaxedAutoImplicit false

namespace Libromano.Regex

structure RegexVM where
  pc : ℕ
  sp : ℕ
  statusFlag : Bool
  deriving DecidableEq

inductive Outcome
  | running (vm : RegexVM)
  | returned (result : Bool)
  deriving DecidableEq

section Exec

variable (bytecode string : List UInt8)

/-- `opcode[k]` for an operand. -/
def operandAt (vm : RegexVM) (k : ℕ) : Except Stop UInt8 :=
  match bytecode[vm.pc + k]? with
  | some b => .ok b
  | none => .error (.fault .outOfBounds)

/-- `regex_decode_jump(opcode + 1)`. -/
def jumpSize (vm : RegexVM) : Except Stop Int32 := jumpAt bytecode vm.pc

def addOffset (n : ℕ) (offset : ℤ) : ℕ := ((n + offset) % 2 ^ 64).toNat

/-- `vm->pc += 5` when the size is positive, and `vm->pc += jmp`. -/
def jumpTo (vm : RegexVM) (jmp : Int32) : RegexVM :=
  { vm with pc := addOffset (if 0 < jmp then vm.pc + 5 else vm.pc) jmp.toInt }

def test (vm : RegexVM) (op : OpCode) (result : Bool) : Outcome :=
  .running { vm with pc := vm.pc + op.size, statusFlag := result }

/-- One turn of the loop at an opcode, where `c` is `vm->string[vm->sp]`. -/
def execOp (c : UInt8) (vm : RegexVM) (op : OpCode) : Except Stop Outcome :=
  match op with
  | .testSingle => do
    let b ← operandAt bytecode vm 1
    .ok (test vm op (c = b))
  | .testRange => do
    let first ← operandAt bytecode vm 1
    let last ← operandAt bytecode vm 2
    .ok (test vm op (decide (first.toInt8 ≤ c.toInt8) && decide (c.toInt8 ≤ last.toInt8)))
  | .testNegatedRange => do
    let first ← operandAt bytecode vm 1
    let last ← operandAt bytecode vm 2
    .ok (test vm op (decide (c.toInt8 < first.toInt8) && decide (last.toInt8 < c.toInt8)))
  | .testAny => .ok (test vm op true)
  | .testDigit => .ok (test vm op (decide (48 ≤ c ∧ c ≤ 57)))
  | .testLowerCase => .ok (test vm op (decide (97 ≤ c ∧ c ≤ 122)))
  | .testUpperCase => .ok (test vm op (decide (65 ≤ c ∧ c ≤ 90)))
  | .jumpEq =>
    if vm.statusFlag then do
      let jmp ← jumpSize bytecode vm
      .ok (.running (jumpTo vm jmp))
    else .ok (.running { vm with pc := vm.pc + 5 })
  | .jumpNeq =>
    if !vm.statusFlag then do
      let jmp ← jumpSize bytecode vm
      .ok (.running (jumpTo vm jmp))
    else .ok (.running { vm with pc := vm.pc + 5 })
  | .accept => .ok (.returned true)
  | .fail => .ok (.returned false)
  | .groupStart => .ok (.running { vm with pc := vm.pc + 2 })
  | .groupEnd => .ok (.running { vm with pc := vm.pc + 2 })
  | .incPos => .ok (.running { vm with sp := vm.sp + 1, pc := vm.pc + 1 })
  | .decPos => .ok (.running { vm with sp := addOffset vm.sp (-1), pc := vm.pc + 1 })
  | .incPosEq =>
    .ok (.running { vm with sp := vm.sp + vm.statusFlag.toNat, pc := vm.pc + 1 })
  | .jumpPos => do
    let jmp ← jumpSize bytecode vm
    .ok (.running { vm with sp := addOffset vm.sp jmp.toInt, pc := vm.pc + 5 })
  | .setFlag => do
    let b ← operandAt bytecode vm 1
    .ok (.running { vm with statusFlag := b ≠ 0, pc := vm.pc + 2 })

/-- One turn of the loop of `regex_exec`, with its test. -/
def execStep (vm : RegexVM) : Except Stop Outcome :=
  match bytecode[vm.pc]?, string[vm.sp]? with
  | some b, some c =>
    match OpCode.ofByte b with
    | some op => execOp bytecode c vm op
    | none => .ok (.returned false)
  | _, _ => .ok (.returned vm.statusFlag)

def regexExec : ℕ → RegexVM → Except Stop Bool
  | 0, _ => .error (.fault .diverges)
  | fuel + 1, vm => do
    match ← execStep bytecode string vm with
    | .returned result => .ok result
    | .running vm => regexExec fuel vm

def RegexVM.start : RegexVM := ⟨0, 0, false⟩

/-- `regex_match`, given how long the machine may run. -/
def regexMatch (fuel : ℕ) : Except Stop Bool :=
  if bytecode.length = 0 then .ok false
  else regexExec bytecode string fuel RegexVM.start

end Exec

end Libromano.Regex
