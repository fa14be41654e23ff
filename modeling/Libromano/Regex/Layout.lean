/- The layout of the bytecode: it is a row of instructions that ends with `Accept` and `Fail`, and
   every jump that was left open ends at that `Fail`. -/

import Libromano.Regex.Steps

set_option autoImplicit false
set_option relaxedAutoImplicit false

namespace Libromano.Regex

theorem execOp_pc {bytecode : List UInt8} {c : UInt8} {vm vm' : RegexVM} {i : Instr}
    (htaken : ¬i.Taken vm.statusFlag) (h : execOp bytecode c vm i.op = .ok (.running vm')) :
    vm'.pc = vm.pc + i.op.size := by
  rw [Instr.Taken, not_or] at htaken
  obtain ⟨hEq, hNeq⟩ := htaken
  generalize hop : i.op = op at h hEq hNeq
  cases op with
  | accept | fail => cases h
  | jumpEq =>
    have hflag : vm.statusFlag = false := by simpa using hEq
    rw [execOp, hflag] at h
    cases h
    rfl
  | jumpNeq =>
    have hflag : vm.statusFlag = true := by simpa using hNeq
    rw [execOp, hflag] at h
    cases h
    rfl
  | testRange | testNegatedRange =>
    obtain ⟨first, -, h⟩ := bind_eq_ok.mp h
    obtain ⟨last, -, h⟩ := bind_eq_ok.mp h
    cases h
    rfl
  | testSingle | setFlag | jumpPos =>
    obtain ⟨b, -, h⟩ := bind_eq_ok.mp h
    cases h
    rfl
  | testAny | testDigit | testLowerCase | testUpperCase | groupStart | groupEnd | incPos
  | decPos | incPosEq =>
    cases h
    rfl

def Tree.body (t : Tree) : List Instr := t.code true 1 ++ [Instr.jumpNeq jumpFail]

theorem Tree.program_eq (t : Tree) : t.program = t.body ++ [Instr.accept, .fail] := by
  rw [program, body, List.append_assoc]
  rfl

private theorem link_program (t : Tree) (size : ℕ) :
    link size 0 t.program = link size 0 t.body ++ [Instr.accept, .fail] := by
  rw [t.program_eq, link_append]
  congr 1

theorem Tree.after_jump {t : Tree} {before after : List Instr} {i : Instr} {offset : Int32}
    (h : t.program = before ++ i :: after) (hi : i.offset = some offset) :
    ∃ rest, after = rest ++ [Instr.accept, .fail] := by
  have haccept : i ≠ .accept := fun h => by simp [h, Instr.offset, Instr.accept] at hi
  have hfail : i ≠ .fail := fun h => by simp [h, Instr.offset, Instr.fail] at hi
  rw [t.program_eq] at h
  rcases List.append_eq_append_iff.mp h with ⟨rest, -, hrest⟩ | ⟨rest, -, hrest⟩
  · rcases rest with - | ⟨_, - | ⟨_, rest⟩⟩
    · exact absurd (List.cons.inj hrest).1.symm haccept
    · exact absurd (List.cons.inj (List.cons.inj hrest).2).1.symm hfail
    · simp at hrest
  · rcases rest with - | ⟨j, rest⟩
    · exact absurd (List.cons.inj hrest).1 haccept
    · exact ⟨rest, (List.cons.inj hrest).2⟩

private theorem holds_split {program before after : List Instr} {i : Instr}
    (h : program = before ++ i :: after) :
    Holds (assemble program) (assemble before).length [i] := by
  have hwhole : Holds (assemble program) 0 (before ++ i :: after) := ⟨[], by simp [h]⟩
  have hpart := (Holds.append.mp hwhole).2
  rw [Nat.zero_add] at hpart
  exact (Holds.cons.mp hpart).1

theorem holds_link {t : Tree} {before after : List Instr} {i : Instr}
    (h : t.program = before ++ i :: after) :
    Holds t.bytecode (assemble before).length
      [i.link (assemble t.program).length (assemble before).length] := by
  have hlink : link (assemble t.program).length 0 t.program =
      link (assemble t.program).length 0 before ++
        i.link (assemble t.program).length (assemble before).length ::
          link (assemble t.program).length ((assemble before).length + i.op.size) after := by
    conv_lhs => rw [h, link_append, ← h, Nat.zero_add]
    rfl
  have hholds := holds_split hlink
  rwa [length_assemble_link] at hholds

@[simp] theorem Tree.length_bytecode (t : Tree) :
    t.bytecode.length = (assemble t.program).length :=
  length_assemble_link _ _ _

theorem leads_fail {t : Tree} {before after : List Instr} {i : Instr} {string : List UInt8}
    {sp : ℕ} {flag : Bool} (hsize : t.bytecode.length < 2 ^ 31)
    (h : t.program = before ++ i :: after) (hi : i.offset = some jumpFail)
    (htaken : i.Taken flag) (hsp : sp < string.length) :
    Leads t.bytecode string ⟨(assemble before).length, sp, flag⟩
      ⟨t.bytecode.length - 1, sp, flag⟩ := by
  have hholds := holds_link h
  have hc := List.getElem?_eq_getElem hsp
  obtain ⟨rest, rfl⟩ := Tree.after_jump h hi
  have hlength : t.bytecode.length = (assemble before).length + 5 + (assemble rest).length + 2 := by
    have haccept : Instr.accept.op.size = 1 := rfl
    have hfail : Instr.fail.op.size = 1 := rfl
    rw [t.length_bytecode, h]
    simp only [assemble_append, assemble_cons, assemble_nil, List.length_append,
      Instr.length_bytes, Instr.size_of_offset hi, haccept, hfail, List.length_nil]
    omega
  have hoffset : Instr.failOffset (assemble t.program).length (assemble before).length =
      Int32.ofInt ((assemble rest).length + 1 : ℕ) := by
    rw [Instr.failOffset, ← t.length_bytecode, hlength]
    congr 1
    omega
  have hlink : (i.link (assemble t.program).length (assemble before).length).offset =
      some (Int32.ofInt ((assemble rest).length + 1 : ℕ)) := by
    rw [Instr.link, dif_pos hi, ← hoffset]
    rcases htaken with ⟨hop, -⟩ | ⟨hop, -⟩ <;>
      simp [Instr.offset, hop, regexEncodeJump, regexDecodeJump_encode]
  have htaken' : (i.link (assemble t.program).length (assemble before).length).Taken flag := by
    rwa [Instr.Taken, i.link_op]
  have hleads := leads_taken hholds hlink htaken' hc
  rw [jumpTo_forward (by omega) (by omega) (by simp only; omega)] at hleads
  convert hleads using 2
  simp only
  omega

/-- What `regex_compile` gives for a pattern that is not empty. Its bytes are
instructions, the last two of which are `Accept` and `Fail`. At each of them the
machine moves over that instruction, unless it jumps; and where the emitters left
a jump to the end, it goes to the last instruction. -/
theorem regexCompile_layout {pattern bytecode : List UInt8} (hne : pattern ≠ [])
    (hcompile : regexCompile pattern = .ok bytecode) (hsize : bytecode.length < 2 ^ 31) :
    ∃ tokens emitted opened body, regexLex pattern = .ok tokens ∧
      emitProgram tokens = .ok emitted ∧ emitted.length = bytecode.length ∧
      decode emitted.length emitted = some opened ∧
      decode bytecode.length bytecode = some (body ++ [Instr.accept, .fail]) ∧
      (∀ before i after, body ++ [Instr.accept, .fail] = before ++ i :: after →
        ∀ string vm vm', vm.pc = (assemble before).length → ¬i.Taken vm.statusFlag →
          Leads bytecode string vm vm' → vm'.pc = vm.pc + i.op.size) ∧
      (∀ before i after, opened = before ++ i :: after → i.offset = some jumpFail →
        ∀ string sp flag, sp < string.length → i.Taken flag →
          Leads bytecode string ⟨(assemble before).length, sp, flag⟩
            ⟨bytecode.length - 1, sp, flag⟩) := by
  obtain ⟨tokens, t, hlex, ht, rfl⟩ := regexCompile_eq_ok hne hcompile
  have hlength := t.length_bytecode
  refine ⟨tokens, _, t.program, link (assemble t.program).length 0 t.body, hlex,
    emitProgram_of_spelled ht, hlength.symm, decode_assemble _ (Nat.le_refl _), ?_, ?_, ?_⟩
  · rw [← link_program]
    exact decode_assemble _ (Nat.le_refl _)
  · intro before i after hprogram string vm vm' hpc htaken hleads
    have hholds := holds_split hprogram
    rw [← link_program] at hholds
    change Holds t.bytecode (assemble before).length [i] at hholds
    obtain ⟨pc, sp, flag⟩ := vm
    obtain rfl : pc = (assemble before).length := hpc
    cases hc : string[sp]? with
    | none => simp [Leads, execStep, hc] at hleads
    | some c =>
      rw [Leads, execStep_at hholds hc] at hleads
      exact execOp_pc htaken hleads
  · intro before i after hprogram hi string sp flag hsp htaken
    exact leads_fail hsize hprogram hi htaken hsp

/-- The bytecode of the pattern `a+`. -/
def plusBytecode : List UInt8 :=
  [0, 97, 15, 8, 0, 0, 0, 21, 0, 97, 15, 8, 0, 0, 0, 10, 17, 1, 7, 255, 255, 255, 241,
    8, 0, 0, 0, 1, 9, 10]

theorem compile_plus : regexCompile [97, 43] = .ok plusBytecode := rfl

/-- Its test is emitted twice. -/
theorem regexCompile_layout_plus : ∃ bytecode body, regexCompile [97, 43] = .ok bytecode ∧
    decode bytecode.length bytecode = some (body ++ [Instr.accept, .fail]) := by
  obtain ⟨-, -, -, body, -, -, -, -, hdecode, -, -⟩ :=
    regexCompile_layout (List.cons_ne_nil _ _) compile_plus (by decide)
  exact ⟨_, body, compile_plus, hdecode⟩

end Libromano.Regex
