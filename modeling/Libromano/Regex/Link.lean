/- The last pass of the emitter gives every jump to the end its size, and leaves the other
   instructions as they are. -/

import Libromano.Regex.Lexing

set_option autoImplicit false
set_option relaxedAutoImplicit false

namespace Libromano.Regex

namespace Instr

/-- The size of a jump that depends on the flag. -/
def offset (i : Instr) : Option Int32 :=
  if i.op = .jumpEq ∨ i.op = .jumpNeq then
    match i.operands with
    | [b₀, b₁, b₂, b₃] => some (regexDecodeJump b₀ b₁ b₂ b₃)
    | _ => none
  else none

theorem size_of_offset {i : Instr} {offset : Int32} (h : i.offset = some offset) :
    i.op.size = 5 := by
  rw [Instr.offset] at h
  split_ifs at h with hop
  rcases hop with hop | hop <;> rw [hop] <;> rfl

@[simp] theorem offset_jumpEq (offset : Int32) : (jumpEq offset).offset = some offset := by
  simp [Instr.offset, jumpEq, regexEncodeJump, regexDecodeJump_encode]

@[simp] theorem offset_jumpNeq (offset : Int32) : (jumpNeq offset).offset = some offset := by
  simp [Instr.offset, jumpNeq, regexEncodeJump, regexDecodeJump_encode]

def failOffset (size pos : ℕ) : Int32 := Int32.ofInt (size - 1 - (pos + 5))

def link (size pos : ℕ) (i : Instr) : Instr :=
  if h : i.offset = some jumpFail then
    ⟨i.op, regexEncodeJump (failOffset size pos), (size_of_offset h).symm⟩
  else i

@[simp] theorem link_op (size pos : ℕ) (i : Instr) : (i.link size pos).op = i.op := by
  rw [link]
  split_ifs <;> rfl

theorem link_eq_self {size pos : ℕ} {i : Instr} (h : i.offset ≠ some jumpFail) :
    i.link size pos = i := by
  rw [link, dif_neg h]

end Instr

/-- The program after the last pass, where its first byte has the given position. -/
def link (size : ℕ) : ℕ → List Instr → List Instr
  | _, [] => []
  | pos, i :: program => i.link size pos :: link size (pos + i.op.size) program

theorem link_append (size pos : ℕ) (p q : List Instr) :
    link size pos (p ++ q) = link size pos p ++ link size (pos + (assemble p).length) q := by
  induction p generalizing pos with
  | nil => rfl
  | cons i p ih => simp [link, ih, Nat.add_assoc]

@[simp] theorem length_assemble_link (size pos : ℕ) (program : List Instr) :
    (assemble (link size pos program)).length = (assemble program).length := by
  induction program generalizing pos with
  | nil => rfl
  | cons i program ih => simp [link, ih]

theorem jumpAt_append (before : List UInt8) (i : Instr) (after : List UInt8) {offset : Int32}
    (h : i.offset = some offset) :
    jumpAt (before ++ (i.bytes ++ after)) before.length = .ok offset := by
  obtain ⟨op, operands, sized⟩ := i
  rw [Instr.offset] at h
  split_ifs at h
  split at h
  · next hoperands =>
    simp only at hoperands
    subst hoperands
    cases h
    rw [jumpAt, ← List.drop_drop, List.drop_left]
    rfl
  · cases h

theorem offset_isSome {i : Instr} (h : i.op = .jumpEq ∨ i.op = .jumpNeq) :
    ∃ offset, i.offset = some offset := by
  obtain ⟨op, operands, sized⟩ := i
  have hsize : operands.length = 4 := by
    rcases h with h | h <;>
    · simp only at h
      subst h
      simpa [OpCode.size] using sized
  match operands, hsize with
  | [b₀, b₁, b₂, b₃], _ => exact ⟨_, by rw [Instr.offset, if_pos h]⟩

private theorem patch_link (before after : List UInt8) (i : Instr) (size : ℕ)
    (h : i.offset = some jumpFail) :
    regexPatchJump (before ++ (i.bytes ++ after)) (before.length + 1)
        (Instr.failOffset size before.length) =
      before ++ ((i.link size before.length).bytes ++ after) := by
  have hlength : (regexEncodeJump (Instr.failOffset size before.length)).length =
      i.operands.length := by
    have hfive := Instr.size_of_offset h
    have := i.sized
    simp only [length_regexEncodeJump]
    omega
  have hpatch := overwrite_append (before ++ [i.op.byte]) i.operands after _ hlength
  rw [Instr.link, dif_pos h]
  simpa [regexPatchJump, Instr.bytes] using hpatch

private theorem patchLoop_assemble (program : List Instr) (before : List UInt8) {fuel size : ℕ}
    (hfuel : program.length < fuel) (hsize : before.length + (assemble program).length = size) :
    patchLoop fuel before.length (before ++ assemble program) =
      .ok (before ++ assemble (link size before.length program)) := by
  induction program generalizing before fuel with
  | nil =>
    obtain ⟨fuel, rfl⟩ : ∃ n, fuel = n + 1 := ⟨fuel - 1, by simp at hfuel; omega⟩
    simp [patchLoop, link]
  | cons i program ih =>
    rw [List.length_cons] at hfuel
    obtain ⟨fuel, rfl⟩ : ∃ n, fuel = n + 1 := ⟨fuel - 1, by omega⟩
    have hget : (before ++ (i.bytes ++ assemble program))[before.length]? = some i.op.byte := by
      simp [Instr.bytes]
    have hnext (j : Instr) (hj : j.op = i.op) :
        patchLoop fuel (before.length + i.op.size) (before ++ (j.bytes ++ assemble program)) =
          .ok (before ++ assemble (j :: link size (before.length + i.op.size) program)) := by
      have hlength : (before ++ j.bytes).length = before.length + i.op.size := by simp [hj]
      have := ih (before ++ j.bytes) (by omega : program.length < fuel) (by
        simp only [assemble_cons, List.length_append, Instr.length_bytes] at hsize hlength ⊢
        omega)
      rw [hlength] at this
      simpa using this
    rw [assemble_cons, patchLoop, hget]
    simp only [OpCode.ofByte_byte]
    by_cases hop : i.op = .jumpEq ∨ i.op = .jumpNeq
    · obtain ⟨offset, hoffset⟩ := offset_isSome hop
      have htotal : (before ++ (i.bytes ++ assemble program)).length = size := by
        rw [List.length_append]
        exact hsize
      rw [if_pos hop, jumpAt_append before i _ hoffset, bind_ok, link]
      by_cases hfail : offset = jumpFail
      · rw [if_pos hfail, htotal]
        refine (congrArg _ (patch_link before _ i size (hoffset.trans (congrArg _ hfail)))).trans ?_
        exact hnext _ (i.link_op _ _)
      · rw [if_neg hfail, Instr.link_eq_self (by simpa [hoffset] using hfail)]
        exact hnext i rfl
    · rw [if_neg hop, link, Instr.link_eq_self (by simp [Instr.offset, hop])]
      exact hnext i rfl

def Tree.bytecode (t : Tree) : List UInt8 := assemble (link (assemble t.program).length 0 t.program)

private theorem length_le_assemble (program : List Instr) :
    program.length ≤ (assemble program).length := by
  induction program with
  | nil => exact Nat.le_refl _
  | cons i program ih =>
    have := i.op.size_pos
    rw [assemble_cons, List.length_append, i.length_bytes, List.length_cons]
    omega

theorem patchLoop_program (t : Tree) :
    patchLoop ((assemble t.program).length + 1) 0 (assemble t.program) = .ok t.bytecode := by
  have h := patchLoop_assemble t.program [] (Nat.lt_succ_of_le (length_le_assemble _)) rfl
  simpa [Tree.bytecode] using h

private theorem regexLexLoop_long {pattern : List UInt8} (hsize : 2 ^ 32 ≤ pattern.length)
    {fuel : ℕ}
    {i : UInt32} {needsConcat : Bool} {tokens result : List RegexToken} :
    regexLexLoop pattern fuel i needsConcat tokens ≠ .ok result := by
  induction fuel generalizing i needsConcat tokens with
  | zero => simp [regexLexLoop]
  | succ fuel ih =>
    have hlt : i.toNat < pattern.length := lt_of_lt_of_le i.toNat_lt hsize
    rw [regexLexLoop, if_pos hlt]
    intro h
    obtain ⟨c, -, h⟩ := bind_eq_ok.mp h
    iterate 8
      rcases ite_eq_iff.mp h with ⟨-, h⟩ | ⟨-, h⟩
      · exact ih h
    rcases ite_eq_iff.mp h with ⟨-, h⟩ | ⟨-, h⟩
    · obtain ⟨j, -, h⟩ := bind_eq_ok.mp h
      rcases ite_eq_iff.mp h with ⟨-, h⟩ | ⟨-, h⟩
      · cases h
      · exact ih h
    · cases h

theorem length_lt_of_regexLex {pattern : List UInt8} {tokens : List RegexToken}
    (h : regexLex pattern = .ok tokens) : pattern.length < 2 ^ 32 := by
  by_contra hsize
  exact regexLexLoop_long (not_lt.mp hsize) h

theorem regexCompile_of_spelled {pattern : List UInt8} {tokens : List RegexToken} {t : Tree}
    (hlex : regexLex pattern = .ok tokens) (ht : Spelled tokens t) (hne : tokens ≠ []) :
    regexCompile pattern = .ok t.bytecode := by
  rw [regexCompile, hlex]
  change regexEmit tokens = _
  rw [regexEmit, if_neg hne, emitProgram_of_spelled ht]
  exact patchLoop_program t

theorem regexCompile_eq_ok {pattern bytecode : List UInt8} (hne : pattern ≠ [])
    (h : regexCompile pattern = .ok bytecode) :
    ∃ tokens t, regexLex pattern = .ok tokens ∧ Spelled tokens t ∧ bytecode = t.bytecode := by
  obtain ⟨tokens, hlex, hemit⟩ := bind_eq_ok.mp h
  have hfrom := regexLex_eq (length_lt_of_regexLex hlex)
  rw [hlex] at hfrom
  obtain ⟨c, s, rfl⟩ := List.exists_cons_of_ne_nil hne
  rw [regexEmit, if_neg (lexFrom_ne_nil hfrom.symm)] at hemit
  obtain ⟨emitted, hprogram, hpatch⟩ := bind_eq_ok.mp hemit
  obtain ⟨t, ht, rfl⟩ := exists_tree_of_emitProgram (lexFrom_lexed hfrom.symm) hprogram
  rw [patchLoop_program] at hpatch
  cases hpatch
  exact ⟨tokens, t, hlex, ht, rfl⟩

end Libromano.Regex
