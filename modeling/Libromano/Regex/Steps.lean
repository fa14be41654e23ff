/- The steps of the virtual machine at the instructions of a program that stands somewhere in its
   bytecode. -/

import Libromano.Regex.Link
import Mathlib.Logic.Relation

set_option autoImplicit false
set_option relaxedAutoImplicit false

namespace Libromano.Regex

def Holds (bytecode : List UInt8) (pos : ℕ) (program : List Instr) : Prop :=
  assemble program <+: bytecode.drop pos

theorem Holds.append {bytecode : List UInt8} {pos : ℕ} {p q : List Instr} :
    Holds bytecode pos (p ++ q) ↔
      Holds bytecode pos p ∧ Holds bytecode (pos + (assemble p).length) q := by
  simp only [Holds, assemble_append]
  constructor
  · rintro ⟨rest, h⟩
    rw [List.append_assoc] at h
    refine ⟨⟨_, h⟩, rest, ?_⟩
    rw [← List.drop_drop, ← h, List.drop_left]
  · rintro ⟨⟨rest, h⟩, ⟨rest', h'⟩⟩
    rw [← List.drop_drop, ← h, List.drop_left] at h'
    exact ⟨rest', by rw [List.append_assoc, h', h]⟩

theorem Holds.cons {bytecode : List UInt8} {pos : ℕ} {i : Instr} {program : List Instr} :
    Holds bytecode pos (i :: program) ↔
      Holds bytecode pos [i] ∧ Holds bytecode (pos + i.op.size) program := by
  rw [← List.singleton_append, Holds.append]
  simp

/-- The machine goes from one state to another in a step. -/
def Leads (bytecode string : List UInt8) (vm vm' : RegexVM) : Prop :=
  execStep bytecode string vm = .ok (.running vm')

section Step

variable {bytecode string : List UInt8} {pc sp : ℕ} {flag : Bool} {c : UInt8}

theorem Holds.getElem? {i : Instr} (h : Holds bytecode pc [i]) :
    bytecode[pc]? = some i.op.byte := by
  obtain ⟨rest, h⟩ := h
  rw [← List.head?_drop, ← h]
  rfl

theorem Holds.lt {i : Instr} (h : Holds bytecode pc [i]) : pc < bytecode.length :=
  (List.getElem?_eq_some_iff.mp h.getElem?).1

theorem execStep_at {i : Instr} (h : Holds bytecode pc [i]) (hc : string[sp]? = some c) :
    execStep bytecode string ⟨pc, sp, flag⟩ = execOp bytecode c ⟨pc, sp, flag⟩ i.op := by
  rw [execStep, h.getElem?, hc]
  simp only [OpCode.ofByte_byte]

theorem operandAt_eq {i : Instr} {b : UInt8} {k : ℕ} (h : Holds bytecode pc [i])
    (hb : i.operands[k]? = some b) : operandAt bytecode ⟨pc, sp, flag⟩ (k + 1) = .ok b := by
  obtain ⟨rest, h⟩ := h
  have hlt := (List.getElem?_eq_some_iff.mp hb).1
  have hget : bytecode[pc + (k + 1)]? = some b := by
    rw [← List.getElem?_drop, ← h, assemble_singleton, Instr.bytes, List.cons_append,
      List.getElem?_cons_succ, List.getElem?_append_left hlt, hb]
  rw [operandAt]
  simp only [hget]

private theorem jumpSize_eq {i : Instr} {offset : Int32} (h : Holds bytecode pc [i])
    (hi : i.offset = some offset) : jumpSize bytecode ⟨pc, sp, flag⟩ = .ok offset := by
  obtain ⟨rest, h⟩ := h
  rw [assemble_singleton] at h
  have hle : pc ≤ bytecode.length := by
    by_contra hlt
    rw [List.drop_eq_nil_of_le (by omega)] at h
    simp [Instr.bytes] at h
  have hsplit : bytecode = bytecode.take pc ++ (i.bytes ++ rest) := by
    rw [h, List.take_append_drop]
  have hlength : (bytecode.take pc).length = pc := List.length_take_of_le hle
  have hjump := jumpAt_append (bytecode.take pc) i rest hi
  rwa [← hsplit, hlength] at hjump

/-- A jump whose flag has the right value is taken. -/
def Instr.Taken (i : Instr) (flag : Bool) : Prop :=
  i.op = .jumpEq ∧ flag = true ∨ i.op = .jumpNeq ∧ flag = false

theorem leads_taken {i : Instr} {offset : Int32} (h : Holds bytecode pc [i])
    (hi : i.offset = some offset) (htaken : i.Taken flag) (hc : string[sp]? = some c) :
    Leads bytecode string ⟨pc, sp, flag⟩ (jumpTo ⟨pc, sp, flag⟩ offset) := by
  rw [Leads, execStep_at h hc]
  rcases htaken with ⟨hop, rfl⟩ | ⟨hop, rfl⟩ <;> rw [hop, execOp] <;> simp [jumpSize_eq h hi]

theorem leads_not_taken {i : Instr} {offset : Int32} (h : Holds bytecode pc [i])
    (hi : i.offset = some offset) (htaken : ¬i.Taken flag) (hc : string[sp]? = some c) :
    Leads bytecode string ⟨pc, sp, flag⟩ ⟨pc + 5, sp, flag⟩ := by
  rw [Leads, execStep_at h hc]
  rw [Instr.offset] at hi
  split_ifs at hi with hop
  rw [Instr.Taken] at htaken
  rcases hop with hop | hop
  · have hflag : flag = false := by
      simp [hop] at htaken
      exact htaken
    rw [hop, execOp, hflag]
    rfl
  · have hflag : flag = true := by
      simp [hop] at htaken
      exact htaken
    rw [hop, execOp, hflag]
    rfl

end Step

theorem jumpTo_forward {vm : RegexVM} {n : ℕ} (hpos : 0 < n) (hn : n < 2 ^ 31)
    (hpc : vm.pc + 5 + n < 2 ^ 64) : jumpTo vm (Int32.ofInt n) = { vm with pc := vm.pc + 5 + n } := by
  have hint : (Int32.ofInt n).toInt = n := Int32.toInt_ofInt_of_le (by omega) (by omega)
  have hlt : 0 < Int32.ofInt n := by
    rw [Int32.lt_iff_toInt_lt, hint, Int32.toInt_zero]
    exact_mod_cast hpos
  rw [jumpTo, if_pos hlt, hint, addOffset]
  congr 1
  omega

theorem jumpTo_back {vm : RegexVM} {n : ℕ} (hn : n < 2 ^ 31) (hpc : n ≤ vm.pc)
    (hsize : vm.pc < 2 ^ 64) : jumpTo vm (Int32.ofInt (-n)) = { vm with pc := vm.pc - n } := by
  have hint : (Int32.ofInt (-n)).toInt = -n := Int32.toInt_ofInt_of_le (by omega) (by omega)
  have hlt : ¬0 < Int32.ofInt (-n) := by
    rw [Int32.lt_iff_toInt_lt, hint, Int32.toInt_zero]
    omega
  rw [jumpTo, if_neg hlt, hint, addOffset]
  congr 1
  omega

end Libromano.Regex
