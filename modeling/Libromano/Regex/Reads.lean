/- The machine reads a string as the tree of the pattern says, piece by piece, up to the exit of a
   `+`. -/

import Libromano.Regex.Boundaries
import Libromano.Regex.Reading

set_option autoImplicit false
set_option relaxedAutoImplicit false

namespace Libromano.Regex

open Relation (ReflTransGen TransGen)

/-- The machine comes from a state to the end of a piece of program, or elsewhere, as
the result says. -/
def Reads (bytecode string : List UInt8) (vm : RegexVM) (stop : ℕ) : Result → Prop
  | .passes flag rest => ∃ sp, vm.sp ≤ sp ∧ sp ≤ string.length ∧ rest = string.drop sp ∧
    ReflTransGen (Stays bytecode string) vm ⟨stop, sp, flag⟩
  | .stops result => ∃ vm', ReflTransGen (Stays bytecode string) vm vm' ∧
    execStep bytecode string vm' = .ok (.returned result)
  | .leaves => ∃ vm', ReflTransGen (Stays bytecode string) vm vm' ∧ TakesExit bytecode vm'
  | .idles => ∃ vm', ReflTransGen (Stays bytecode string) vm vm' ∧
    TransGen (Stays bytecode string) vm' vm'

section Reads

variable {bytecode string : List UInt8} {vm vm' : RegexVM} {middle stop : ℕ} {r : Result}

private theorem Reads.head (hsteps : ReflTransGen (Stays bytecode string) vm vm')
    (hsp : vm.sp ≤ vm'.sp)
    (h : Reads bytecode string vm' stop r) : Reads bytecode string vm stop r := by
  cases r with
  | passes flag rest =>
    obtain ⟨sp, hle, hlen, hrest, hpath⟩ := h
    exact ⟨sp, hsp.trans hle, hlen, hrest, hsteps.trans hpath⟩
  | stops result =>
    obtain ⟨vm₁, hpath, hstop⟩ := h
    exact ⟨vm₁, hsteps.trans hpath, hstop⟩
  | leaves =>
    obtain ⟨vm₁, hpath, hexit⟩ := h
    exact ⟨vm₁, hsteps.trans hpath, hexit⟩
  | idles =>
    obtain ⟨vm₁, hpath, hcycle⟩ := h
    exact ⟨vm₁, hsteps.trans hpath, hcycle⟩

private theorem Reads.andThen {next : Bool → List UInt8 → Result}
    (h : Reads bytecode string vm middle r)
    (hnext : ∀ sp flag, sp ≤ string.length →
      Reads bytecode string ⟨middle, sp, flag⟩ stop (next flag (string.drop sp))) :
    Reads bytecode string vm stop (r.andThen next) := by
  cases r with
  | passes flag rest =>
    obtain ⟨sp, hle, hlen, rfl, hpath⟩ := h
    exact Reads.head hpath hle (hnext sp flag hlen)
  | stops result => exact h
  | leaves => exact h
  | idles => exact h

private theorem execStep_over {pc sp : ℕ} {flag : Bool} (hsp : string.length ≤ sp) :
    execStep bytecode string ⟨pc, sp, flag⟩ = .ok (.returned flag) := by
  rw [execStep, List.getElem?_eq_none hsp]
  cases bytecode[pc]? <;> rfl

private theorem Reads.over {pc sp : ℕ} {flag : Bool} (hsp : string.length ≤ sp) :
    Reads bytecode string ⟨pc, sp, flag⟩ stop (.stops flag) :=
  ⟨_, .refl, execStep_over hsp⟩

private theorem Reads.again {back exit : List UInt8 → Result}
    (h : Reads bytecode string vm middle r)
    (hback : ∀ sp, vm.sp ≤ sp → sp < string.length →
      ReflTransGen (Stays bytecode string) vm ⟨middle, sp, true⟩ →
      Reads bytecode string ⟨middle, sp, true⟩ stop (back (string.drop sp)))
    (hexit : ∀ sp < string.length,
      Reads bytecode string ⟨middle, sp, false⟩ stop (exit (string.drop sp))) :
    Reads bytecode string vm stop (r.again back exit) := by
  cases r with
  | passes flag rest =>
    obtain ⟨sp, hle, hlen, rfl, hpath⟩ := h
    refine Reads.head hpath hle ?_
    rcases Nat.lt_or_eq_of_le hlen with hlt | rfl
    · have hdrop := List.drop_eq_getElem_cons hlt
      cases flag with
      | true =>
        have hagain : (Result.passes true (string.drop sp)).again back exit =
            back (string.drop sp) := by rw [hdrop]; rfl
        rw [hagain]
        exact hback sp hle hlt hpath
      | false =>
        have hagain : (Result.passes false (string.drop sp)).again back exit =
            exit (string.drop sp) := by rw [hdrop]; rfl
        rw [hagain]
        exact hexit sp hlt
    · rw [List.drop_length]
      exact Reads.over (Nat.le_refl _)
  | stops result => exact h
  | leaves => exact h
  | idles => exact h

end Reads

/-- A piece of program, behind another, reads as the function says. -/
def Follows (t : Tree) (string : List UInt8) (before p : List Instr)
    (f : Bool → List UInt8 → Result) : Prop :=
  ∀ sp flag, sp ≤ string.length → Reads t.bytecode string ⟨(assemble before).length, sp, flag⟩
    (assemble (before ++ p)).length (f flag (string.drop sp))

section Follows

variable {t : Tree} {string : List UInt8} {before p q after : List Instr} {i : Instr}
  {f g body : Bool → List UInt8 → Result}

private theorem Follows.nil : Follows t string before [] .passes := by
  intro sp flag hsp
  rw [List.append_nil]
  exact ⟨sp, Nat.le_refl _, hsp, rfl, .refl⟩

private theorem Follows.append (hp : Follows t string before p f)
    (hq : Follows t string (before ++ p) q g) :
    Follows t string before (p ++ q) fun flag rest => (f flag rest).andThen g := by
  intro sp flag hsp
  rw [← List.append_assoc]
  exact (hp sp flag hsp).andThen hq

private theorem follows_of_char (hover : ∀ flag, f flag [] = .stops flag)
    (hchar : ∀ sp flag c, string[sp]? = some c → Reads t.bytecode string
      ⟨(assemble before).length, sp, flag⟩ (assemble (before ++ p)).length
      (f flag (c :: string.drop (sp + 1)))) : Follows t string before p f := by
  intro sp flag hsp
  rcases Nat.lt_or_eq_of_le hsp with hlt | rfl
  · rw [List.drop_eq_getElem_cons hlt]
    exact hchar sp flag _ (List.getElem?_eq_getElem hlt)
  · rw [List.drop_length, hover]
    exact Reads.over (Nat.le_refl _)

private theorem holds_at (h : t.program = before ++ i :: after) (hi : i.offset ≠ some jumpFail) :
    Holds t.bytecode (assemble before).length [i] := by
  have hholds := holds_link h
  rwa [Instr.link_eq_self hi] at hholds

private theorem stays_at {pc sp : ℕ} {flag : Bool} {vm : RegexVM} {bytecode : List UInt8}
    (hholds : Holds bytecode pc [i]) (hi : i.op ≠ .jumpNeq ∨ flag = true)
    (hleads : Leads bytecode string ⟨pc, sp, flag⟩ vm) : Stays bytecode string ⟨pc, sp, flag⟩ vm := by
  refine ⟨hleads, ?_⟩
  rintro ⟨hflag, hbyte, -⟩
  rcases hi with hop | rfl
  · rw [hholds.getElem?] at hbyte
    exact hop (OpCode.byte_inj.mp (Option.some.inj hbyte))
  · cases hflag

private theorem leads_at {bytecode : List UInt8} {pc sp : ℕ} {flag : Bool} {c : UInt8}
    {vm : RegexVM}
    (hholds : Holds bytecode pc [i]) (hc : string[sp]? = some c)
    (hexec : execOp bytecode c ⟨pc, sp, flag⟩ i.op = .ok (.running vm)) :
    Leads bytecode string ⟨pc, sp, flag⟩ vm := by
  rw [Leads, execStep_at hholds hc, hexec]

private theorem lt_of_getElem? {sp : ℕ} {c : UInt8} (hc : string[sp]? = some c) :
    sp < string.length :=
  (List.getElem?_eq_some_iff.mp hc).1

private theorem drop_of_char {sp : ℕ} {c : UInt8} (hc : string[sp]? = some c) :
    c :: string.drop (sp + 1) = string.drop sp := by
  obtain ⟨hlt, rfl⟩ := List.getElem?_eq_some_iff.mp hc
  exact (List.drop_eq_getElem_cons hlt).symm

private theorem length_snoc (i : Instr) :
    (assemble (p ++ [i])).length = (assemble p).length + i.op.size := by
  rw [assemble_append, List.length_append, assemble_singleton, i.length_bytes]

private theorem stays_instr (next : Bool → Bool) (h : t.program = before ++ i :: after)
    (hop : i.op ≠ .jumpNeq ∧ i.offset ≠ some jumpFail)
    (hexec : ∀ c sp flag, execOp t.bytecode c ⟨(assemble before).length, sp, flag⟩ i.op =
      .ok (.running ⟨(assemble before).length + i.op.size, sp, next flag⟩))
    {sp : ℕ} (flag : Bool) (hsp : sp < string.length) :
    Stays t.bytecode string ⟨(assemble before).length, sp, flag⟩
      ⟨(assemble (before ++ [i])).length, sp, next flag⟩ := by
  have hholds := holds_at h hop.2
  rw [length_snoc]
  exact stays_at hholds (.inl hop.1)
    (leads_at hholds (List.getElem?_eq_getElem hsp) (hexec _ sp flag))

private theorem follows_instr {next : Bool → Bool}
    (hstays : ∀ {sp} flag, sp < string.length → Stays t.bytecode string
      ⟨(assemble before).length, sp, flag⟩ ⟨(assemble (before ++ [i])).length, sp, next flag⟩)
    (hover : ∀ flag, f flag [] = .stops flag)
    (hchar : ∀ flag c rest, f flag (c :: rest) = .passes (next flag) (c :: rest)) :
    Follows t string before [i] f := by
  apply follows_of_char hover
  intro sp flag c hc
  have hlt := lt_of_getElem? hc
  rw [hchar]
  exact ⟨sp, Nat.le_refl _, hlt.le, drop_of_char hc, .single (hstays flag hlt)⟩

private theorem follows_groupStart {id : UInt32}
    (h : t.program = before ++ Instr.groupStart id :: after) :
    Follows t string before [.groupStart id] skip :=
  follows_instr (stays_instr (fun flag => flag) h (by simp [Instr.groupStart, Instr.offset]) fun _ _ _ => rfl)
    (fun _ => rfl) fun _ _ _ => rfl

private theorem follows_groupEnd {id : UInt32}
    (h : t.program = before ++ Instr.groupEnd id :: after) :
    Follows t string before [.groupEnd id] skip :=
  follows_instr (stays_instr (fun flag => flag) h (by simp [Instr.groupEnd, Instr.offset]) fun _ _ _ => rfl)
    (fun _ => rfl) fun _ _ _ => rfl

private theorem stays_setFlag (h : t.program = before ++ Instr.setFlag :: after) {sp : ℕ}
    (flag : Bool)
    (hsp : sp < string.length) : Stays t.bytecode string ⟨(assemble before).length, sp, flag⟩
      ⟨(assemble (before ++ [Instr.setFlag])).length, sp, true⟩ := by
  have hholds : Holds t.bytecode (assemble before).length [.setFlag] :=
    holds_at h (by simp [Instr.setFlag, Instr.offset])
  refine stays_instr (fun _ => true) h (by simp [Instr.setFlag, Instr.offset]) ?_ flag hsp
  intro c sp flag
  have hoperand : operandAt t.bytecode ⟨(assemble before).length, sp, flag⟩ 1 = .ok 1 :=
    operandAt_eq hholds rfl
  simp [Instr.setFlag, execOp, hoperand, OpCode.size]

private theorem follows_setFlag (h : t.program = before ++ Instr.setFlag :: after) :
    Follows t string before [.setFlag] setRun :=
  follows_instr (stays_setFlag h) (fun _ => rfl) fun _ _ _ => rfl

private theorem stays_jumpNeq {offset : Int32}
    (h : t.program = before ++ Instr.jumpNeq offset :: after)
    {sp : ℕ} (hsp : sp < string.length) :
    Stays t.bytecode string ⟨(assemble before).length, sp, true⟩
      ⟨(assemble (before ++ [Instr.jumpNeq offset])).length, sp, true⟩ := by
  have hholds := holds_link h
  have hop : ((Instr.jumpNeq offset).link (assemble t.program).length
      (assemble before).length).op = .jumpNeq := by
    rw [Instr.link_op]
    rfl
  obtain ⟨offset', hoffset⟩ := offset_isSome (.inr hop)
  have htaken : ¬((Instr.jumpNeq offset).link (assemble t.program).length
      (assemble before).length).Taken true := by
    rintro (⟨hEq, -⟩ | ⟨-, hflag⟩)
    · cases hop.symm.trans hEq
    · cases hflag
  rw [length_snoc]
  exact stays_at hholds (.inr rfl)
    (leads_not_taken hholds hoffset htaken (List.getElem?_eq_getElem hsp))

private theorem execStep_fail {sp : ℕ} {flag : Bool} (hsp : sp < string.length) :
    execStep t.bytecode string ⟨t.bytecode.length - 1, sp, flag⟩ = .ok (.returned false) := by
  have hprogram : t.program = (t.body ++ [Instr.accept]) ++ Instr.fail :: [] := by
    rw [t.program_eq, List.append_assoc]
    rfl
  have hpos : t.bytecode.length - 1 = (assemble (t.body ++ [Instr.accept])).length := by
    rw [t.length_bytecode, hprogram]
    simp [Instr.accept, Instr.fail, OpCode.size]
  have hholds : Holds t.bytecode (assemble (t.body ++ [Instr.accept])).length [Instr.fail] :=
    holds_at hprogram (by simp [Instr.fail, Instr.offset])
  rw [hpos, execStep_at hholds (List.getElem?_eq_getElem hsp)]
  rfl

private theorem reads_fail {sp stop : ℕ} (hsize : t.bytecode.length < 2 ^ 31)
    (h : t.program = before ++ Instr.jumpNeq jumpFail :: after) (hsp : sp < string.length) :
    Reads t.bytecode string ⟨(assemble before).length, sp, false⟩ stop (.stops false) := by
  have hleads := leads_fail hsize h (Instr.offset_jumpNeq _) (.inr ⟨rfl, rfl⟩) hsp
  have hstays : ¬TakesExit t.bytecode ⟨(assemble before).length, sp, false⟩ :=
    fun hexit => ((takesExit_iff h).mp hexit).2.2 (Instr.offset_jumpNeq _)
  exact ⟨_, .single ⟨hleads, hstays⟩, execStep_fail hsp⟩

private theorem follows_failJump {first : Bool} (hsize : t.bytecode.length < 2 ^ 31)
    (h : t.program = before ++ (failJump first ++ after)) :
    Follows t string before (failJump first) (failRun first) := by
  cases first with
  | true =>
    have hrun : failRun true = .passes := by
      funext flag rest
      cases rest <;> rfl
    rw [hrun]
    exact Follows.nil
  | false =>
    have hprogram : t.program = before ++ Instr.jumpNeq jumpFail :: after := h
    apply follows_of_char (fun _ => rfl)
    intro sp flag c hc
    have hlt := lt_of_getElem? hc
    cases flag with
    | true =>
      exact ⟨sp, Nat.le_refl _, hlt.le, drop_of_char hc, .single (stays_jumpNeq hprogram hlt)⟩
    | false => exact reads_fail hsize hprogram hlt

private theorem holds_special (c : UInt8) :
    (decide (48 ≤ c ∧ c ≤ 57) = Test.holds c (.range 48 57)) ∧
      (decide (97 ≤ c ∧ c ≤ 122) = Test.holds c (.range 97 122)) ∧
        (decide (65 ≤ c ∧ c ≤ 90) = Test.holds c (.range 65 90)) := by
  have hall : ∀ n < 256, (decide (48 ≤ UInt8.ofNat n ∧ UInt8.ofNat n ≤ 57) =
      Test.holds (UInt8.ofNat n) (.range 48 57)) ∧
        (decide (97 ≤ UInt8.ofNat n ∧ UInt8.ofNat n ≤ 122) =
          Test.holds (UInt8.ofNat n) (.range 97 122)) ∧
            (decide (65 ≤ UInt8.ofNat n ∧ UInt8.ofNat n ≤ 90) =
              Test.holds (UInt8.ofNat n) (.range 65 90)) := by
    decide +kernel
  have hc := hall c.toNat c.toNat_lt
  rwa [UInt8.ofNat_toNat] at hc

private theorem Test.code_eq (x : Test) : ∃ i, x.code = [i, .incPosEq] ∧ i.op ≠ .jumpNeq ∧
    i.offset ≠ some jumpFail ∧ ∀ {bytecode pc}, Holds bytecode pc [i] → ∀ sp flag c,
      execOp bytecode c ⟨pc, sp, flag⟩ i.op = .ok (.running ⟨pc + i.op.size, sp, x.holds c⟩) := by
  cases x with
  | single b =>
    refine ⟨.testSingle b, rfl, by simp [Instr.testSingle], by simp [Instr.testSingle, Instr.offset],
      fun {bytecode pc} hholds sp flag c => ?_⟩
    have hoperand : operandAt bytecode ⟨pc, sp, flag⟩ 1 = .ok b := operandAt_eq hholds rfl
    simp only [Instr.testSingle, execOp] at hoperand ⊢
    rw [hoperand]
    rfl
  | any =>
    exact ⟨.testAny, rfl, by simp [Instr.testAny], by simp [Instr.testAny, Instr.offset],
      fun _ _ _ _ => rfl⟩
  | range first last =>
    rw [Test.code]
    split_ifs with hdigit hlower hupper
    · obtain ⟨rfl, rfl⟩ := hdigit
      refine ⟨.testDigit, rfl, by simp [Instr.testDigit], by simp [Instr.testDigit, Instr.offset],
        fun _ sp flag c => ?_⟩
      rw [← (holds_special c).1]
      rfl
    · obtain ⟨rfl, rfl⟩ := hlower
      refine ⟨.testLowerCase, rfl, by simp [Instr.testLowerCase],
        by simp [Instr.testLowerCase, Instr.offset], fun _ sp flag c => ?_⟩
      rw [← (holds_special c).2.1]
      rfl
    · obtain ⟨rfl, rfl⟩ := hupper
      refine ⟨.testUpperCase, rfl, by simp [Instr.testUpperCase],
        by simp [Instr.testUpperCase, Instr.offset], fun _ sp flag c => ?_⟩
      rw [← (holds_special c).2.2]
      rfl
    · refine ⟨.testRange first last, rfl, by simp [Instr.testRange],
        by simp [Instr.testRange, Instr.offset], fun {bytecode pc} hholds sp flag c => ?_⟩
      have hfirst : operandAt bytecode ⟨pc, sp, flag⟩ 1 = .ok first := operandAt_eq hholds rfl
      have hlast : operandAt bytecode ⟨pc, sp, flag⟩ 2 = .ok last := operandAt_eq hholds rfl
      simp only [Instr.testRange, execOp] at hfirst hlast ⊢
      rw [hfirst, bind_ok, hlast, bind_ok]
      rfl

private theorem follows_test {x : Test} (h : t.program = before ++ (x.code ++ after)) :
    Follows t string before x.code x.run := by
  obtain ⟨i, hcode, hop, hoffset, hexec⟩ := x.code_eq
  rw [hcode] at h ⊢
  apply follows_of_char (fun _ => rfl)
  intro sp flag c hc
  have hlt := lt_of_getElem? hc
  have hholds := holds_at h hoffset
  have hprogram : t.program = (before ++ [i]) ++ Instr.incPosEq :: after := by simp [h]
  have hnext : Holds t.bytecode (assemble (before ++ [i])).length [Instr.incPosEq] :=
    holds_at hprogram (by simp [Instr.incPosEq, Instr.offset])
  have hlength : (assemble (before ++ [i])).length = (assemble before).length + i.op.size := by simp
  have hend : (assemble (before ++ [i, .incPosEq])).length =
      (assemble before).length + i.op.size + 1 := by
    simp [Instr.incPosEq, OpCode.size, Nat.add_assoc]
  rw [hlength] at hnext
  rw [hend]
  have htest := stays_at hholds (.inl hop) (leads_at hholds hc (hexec hholds sp flag c))
  have hstep : Stays t.bytecode string ⟨(assemble before).length + i.op.size, sp, x.holds c⟩
      ⟨(assemble before).length + i.op.size + 1, sp + (x.holds c).toNat, x.holds c⟩ :=
    stays_at hnext (.inl (by simp [Instr.incPosEq])) (leads_at hnext hc rfl)
  rw [Test.run]
  cases hx : x.holds c with
  | true =>
    rw [hx] at htest hstep
    exact ⟨sp + 1, Nat.le_succ _, hlt, rfl, .head htest (.single hstep)⟩
  | false =>
    rw [hx] at htest hstep
    exact ⟨sp, Nat.le_refl _, hlt.le, drop_of_char hc, .head htest (.single hstep)⟩

private theorem Follows.loop {exit : List UInt8 → Result} {stop : ℕ}
    (hbody : Follows t string before p body)
    (hback : ∀ sp < string.length, TransGen (Stays t.bytecode string)
      ⟨(assemble (before ++ p)).length, sp, true⟩ ⟨(assemble before).length, sp, true⟩)
    (hexit : ∀ sp < string.length, Reads t.bytecode string
      ⟨(assemble (before ++ p)).length, sp, false⟩ stop (exit (string.drop sp)))
    {sp : ℕ} (hsp : sp ≤ string.length) : Reads t.bytecode string
      ⟨(assemble before).length, sp, true⟩ stop (Regex.loop body exit (string.drop sp)) := by
  induction hn : string.length - sp using Nat.strong_induction_on generalizing sp with
  | _ n ih =>
    rw [Regex.loop]
    refine (hbody sp true hsp).again ?_ hexit
    intro sp' hle hlt hpath
    simp only [List.length_drop]
    split_ifs with hless
    · exact Reads.head (hback sp' hlt).to_reflTransGen (Nat.le_refl _)
        (ih (string.length - sp') (by omega) hlt.le rfl)
    · obtain rfl : sp' = sp := Nat.le_antisymm (by omega) hle
      exact ⟨_, .refl, (hback sp' hlt).trans_left hpath⟩

private theorem back_ne_fail (hp : (assemble p).length < 2 ^ 31) :
    Int32.ofInt (-span p) ≠ jumpFail := by
  intro heq
  have hint : (Int32.ofInt (-span p)).toInt = -span p :=
    Int32.toInt_ofInt_of_le (by rw [span]; omega) (by rw [span]; omega)
  have hjump : jumpFail.toInt = 2147483647 := rfl
  rw [heq, hjump, span] at hint
  omega

private theorem length_lt_of_program (hsize : t.bytecode.length < 2 ^ 31)
    (h : t.program = before ++ (p ++ after)) : (assemble p).length < 2 ^ 31 := by
  rw [t.length_bytecode, h] at hsize
  simp only [assemble_append, List.length_append] at hsize
  omega

private theorem stays_back {sp : ℕ} (hsize : t.bytecode.length < 2 ^ 31)
    (h : t.program = before ++ (p ++ Instr.jumpEq (Int32.ofInt (-span p)) :: after))
    (hsp : sp < string.length) :
    Stays t.bytecode string ⟨(assemble (before ++ p)).length, sp, true⟩
      ⟨(assemble before).length, sp, true⟩ := by
  have hprogram : t.program = (before ++ p) ++ Instr.jumpEq (Int32.ofInt (-span p)) :: after := by
    rw [h, List.append_assoc]
  have hspan := length_lt_of_program hsize h
  have hholds := holds_at hprogram (by simpa using back_ne_fail hspan)
  have hleads := leads_taken hholds (Instr.offset_jumpEq _) (.inl ⟨rfl, rfl⟩)
    (List.getElem?_eq_getElem hsp)
  have hlt := hholds.lt
  rw [span, jumpTo_back hspan (by simp) (by simp only; omega)] at hleads
  have hpos : (assemble (before ++ p)).length - (assemble p).length = (assemble before).length := by
    simp
  rw [← hpos]
  exact stays_at hholds (.inl (by simp [Instr.jumpEq])) hleads

private theorem stays_past {sp : ℕ} {offset : Int32}
    (h : t.program = before ++ Instr.jumpEq offset :: after) (hoffset : offset ≠ jumpFail)
    (hsp : sp < string.length) :
    Stays t.bytecode string ⟨(assemble before).length, sp, false⟩
      ⟨(assemble (before ++ [Instr.jumpEq offset])).length, sp, false⟩ := by
  have hholds := holds_at h (by simpa using hoffset)
  have htaken : ¬(Instr.jumpEq offset).Taken false := by
    rintro (⟨-, hflag⟩ | ⟨hop, -⟩)
    · cases hflag
    · cases hop
  have hleads := leads_not_taken hholds (Instr.offset_jumpEq _) htaken
    (List.getElem?_eq_getElem hsp)
  rw [length_snoc]
  exact stays_at hholds (.inl (by simp [Instr.jumpEq])) hleads

private theorem Quantifier.follows_zeroOrMore (hsize : t.bytecode.length < 2 ^ 31)
    (h : t.program = before ++ (Quantifier.zeroOrMore.code p ++ after))
    (hbody : Follows t string before p body) :
    Follows t string before (Quantifier.zeroOrMore.code p)
      fun flag rest => Quantifier.zeroOrMore.run body flag rest := by
  have hprogram : t.program =
      before ++ (p ++ Instr.jumpEq (Int32.ofInt (-span p)) :: (.setFlag :: after)) := by
    rw [h, Quantifier.code]
    simp
  have hback : ∀ sp < string.length, TransGen (Stays t.bytecode string)
      ⟨(assemble (before ++ p)).length, sp, true⟩ ⟨(assemble before).length, sp, true⟩ :=
    fun sp hsp => .single (stays_back hsize hprogram hsp)
  have hexit : ∀ sp < string.length, Reads t.bytecode string
      ⟨(assemble (before ++ p)).length, sp, false⟩
      (assemble (before ++ Quantifier.zeroOrMore.code p)).length
      (.passes true (string.drop sp)) := by
    intro sp hsp
    have hjump : t.program =
        (before ++ p) ++ Instr.jumpEq (Int32.ofInt (-span p)) :: (.setFlag :: after) := by
      rw [hprogram, List.append_assoc]
    have hpast := stays_past hjump (back_ne_fail (length_lt_of_program hsize hprogram)) hsp
    have hlast : t.program =
        (before ++ p ++ [Instr.jumpEq (Int32.ofInt (-span p))]) ++ Instr.setFlag :: after :=
      hjump.trans (List.append_cons _ _ _)
    have hset := stays_setFlag hlast false hsp
    have hend : before ++ Quantifier.zeroOrMore.code p =
        before ++ p ++ [Instr.jumpEq (Int32.ofInt (-span p))] ++ [Instr.setFlag] := by
      simp [Quantifier.code]
    rw [hend]
    exact ⟨sp, Nat.le_refl _, hsp.le, rfl, .head hpast (.single hset)⟩
  intro sp flag hsp
  refine (hbody sp flag hsp).again ?_ hexit
  intro sp' _ hlt _
  exact Reads.head (hback sp' hlt).to_reflTransGen (Nat.le_refl _) (hbody.loop hback hexit hlt.le)

private theorem Quantifier.follows_oneOrMore (hsize : t.bytecode.length < 2 ^ 31)
    (h : t.program = before ++ (Quantifier.oneOrMore.code p ++ after))
    (hbody : ∀ before' after', t.program = before' ++ (p ++ after') →
      Follows t string before' p body) :
    Follows t string before (Quantifier.oneOrMore.code p)
      fun flag rest => Quantifier.oneOrMore.run body flag rest := by
  have hfirst : t.program = (before ++ p) ++ Instr.jumpNeq jumpFail :: (p ++ Instr.jumpNeq 10 ::
      .setFlag :: .jumpEq (Int32.ofInt (-(span p + 12))) :: after) := by
    rw [h, Quantifier.code]
    simp
  have hsecond : t.program = (before ++ p ++ [Instr.jumpNeq jumpFail]) ++ (p ++ Instr.jumpNeq 10 ::
      .setFlag :: .jumpEq (Int32.ofInt (-(span p + 12))) :: after) := by
    rw [hfirst]
    simp
  have hthird : t.program = (before ++ p ++ [Instr.jumpNeq jumpFail] ++ p) ++ Instr.jumpNeq 10 ::
      .setFlag :: .jumpEq (Int32.ofInt (-(span p + 12))) :: after := by
    rw [hsecond, ← List.append_assoc _ p]
  have hfourth : t.program = (before ++ p ++ [Instr.jumpNeq jumpFail] ++ p ++ [Instr.jumpNeq 10]) ++
      Instr.setFlag :: .jumpEq (Int32.ofInt (-(span p + 12))) :: after :=
    hthird.trans (List.append_cons _ _ _)
  have hspan :
      span (Instr.jumpNeq jumpFail :: (p ++ [Instr.jumpNeq 10, .setFlag])) = span p + 12 := by
    simp [span, Instr.jumpNeq, Instr.setFlag, OpCode.size]
    omega
  have hlast : t.program =
      (before ++ p) ++ ((Instr.jumpNeq jumpFail :: (p ++ [Instr.jumpNeq 10, .setFlag])) ++
        Instr.jumpEq (Int32.ofInt
          (-span (Instr.jumpNeq jumpFail :: (p ++ [Instr.jumpNeq 10, .setFlag])))) :: after) := by
    rw [hspan, hfirst]
    simp
  have hround := hbody _ _ hsecond
  have hback : ∀ sp < string.length, TransGen (Stays t.bytecode string)
      ⟨(assemble (before ++ p ++ [Instr.jumpNeq jumpFail] ++ p)).length, sp, true⟩
      ⟨(assemble (before ++ p ++ [Instr.jumpNeq jumpFail])).length, sp, true⟩ := by
    intro sp hsp
    have hclose := stays_back hsize hlast hsp
    have hend : before ++ p ++ (Instr.jumpNeq jumpFail :: (p ++ [Instr.jumpNeq 10, .setFlag])) =
        before ++ p ++ [Instr.jumpNeq jumpFail] ++ p ++ [Instr.jumpNeq 10] ++ [Instr.setFlag] := by
      simp
    rw [hend] at hclose
    exact .head (stays_jumpNeq hthird hsp) (.head (stays_setFlag hfourth true hsp)
      (.head hclose (.single (stays_jumpNeq hfirst hsp))))
  have hexit : ∀ sp < string.length, Reads t.bytecode string
      ⟨(assemble (before ++ p ++ [Instr.jumpNeq jumpFail] ++ p)).length, sp, false⟩
      (assemble (before ++ Quantifier.oneOrMore.code p)).length .leaves := by
    intro sp _
    have hopen : (Instr.jumpNeq 10).offset ≠ some jumpFail := by
      rw [Instr.offset_jumpNeq]
      decide
    exact ⟨_, .refl, (takesExit_iff hthird).mpr ⟨rfl, rfl, hopen⟩⟩
  intro sp flag hsp
  refine (hbody before _ (by rw [h, Quantifier.code, List.append_assoc]) sp flag hsp).again ?_ ?_
  · intro sp' _ hlt _
    exact Reads.head (.single (stays_jumpNeq hfirst hlt)) (Nat.le_refl _)
      (hround.loop hback hexit hlt.le)
  · exact fun sp' hlt => reads_fail hsize hfirst hlt

private theorem Quantifier.follows (q : Quantifier) (hsize : t.bytecode.length < 2 ^ 31)
    (h : t.program = before ++ (q.code p ++ after))
    (hbody : ∀ before' after', t.program = before' ++ (p ++ after') →
      Follows t string before' p body) :
    Follows t string before (q.code p) fun flag rest => q.run body flag rest := by
  cases q with
  | once => exact hbody before after h
  | zeroOrMore =>
    have hprogram := h
    rw [Quantifier.code, List.append_assoc] at hprogram
    exact Quantifier.follows_zeroOrMore hsize h (hbody before _ hprogram)
  | oneOrMore => exact Quantifier.follows_oneOrMore hsize h hbody
  | zeroOrOne =>
    have hprogram : t.program = before ++ (p ++ Instr.setFlag :: after) := by
      rw [h, Quantifier.code, List.append_assoc]
      rfl
    have hset : t.program = (before ++ p) ++ Instr.setFlag :: after := by
      rw [hprogram, List.append_assoc]
    exact (hbody before _ hprogram).append (follows_setFlag hset)

private theorem program_split (h : t.program = before ++ ((p ++ q) ++ after)) :
    t.program = before ++ (p ++ (q ++ after)) ∧ t.program = (before ++ p) ++ (q ++ after) := by
  rw [h]
  simp

private theorem Tree.follows {s : Tree} {first : Bool} {id : UInt32}
    (hsize : t.bytecode.length < 2 ^ 31)
    (h : t.program = before ++ (s.code first id ++ after)) :
    Follows t string before (s.code first id) fun flag rest => s.run first flag rest := by
  induction s generalizing first id before after with
  | empty => exact Follows.nil
  | test x q tail ih =>
    have hcode : Tree.code first id (.test x q tail) =
        (failJump first ++ q.code x.code) ++ tail.code false id := (List.append_assoc _ _ _).symm
    rw [hcode] at h ⊢
    obtain ⟨hhead, htail⟩ := program_split h
    obtain ⟨hjump, hpart⟩ := program_split hhead
    exact ((follows_failJump hsize hjump).append
      (q.follows hsize hpart fun _ _ hx => follows_test hx)).append (ih htail)
  | group body q tail ihbody ih =>
    have hcode : Tree.code first id (.group body q tail) =
        (failJump first ++ q.code (Tree.groupCode id (body.code true (id + 1)))) ++
          tail.code false (body.nextId (id + 1)) := (List.append_assoc _ _ _).symm
    rw [hcode] at h ⊢
    obtain ⟨hhead, htail⟩ := program_split h
    obtain ⟨hjump, hpart⟩ := program_split hhead
    refine ((follows_failJump hsize hjump).append
      (q.follows hsize hpart fun before' after' hgroup => ?_)).append (ih htail)
    have hinner : Tree.groupCode id (body.code true (id + 1)) =
        ([Instr.groupStart id] ++ body.code true (id + 1)) ++ [Instr.groupEnd id] := rfl
    rw [hinner] at hgroup ⊢
    obtain ⟨hopen, hclose⟩ := program_split hgroup
    obtain ⟨hstart, hbody⟩ := program_split hopen
    exact ((follows_groupStart hstart).append (ihbody hbody)).append (follows_groupEnd hclose)
  | separator _ tail ih =>
    rw [Tree.code] at h ⊢
    obtain ⟨hjump, htail⟩ := program_split h
    exact (follows_failJump hsize hjump).append (ih htail)

end Follows

theorem reads_result {t : Tree} {string : List UInt8} (hsize : t.bytecode.length < 2 ^ 31)
    (stop : ℕ) : Reads t.bytecode string RegexVM.start stop (t.result string) := by
  have hprogram : t.program = t.code true 1 ++ Instr.jumpNeq jumpFail :: [.accept, .fail] := rfl
  have haccept : t.program =
      (t.code true 1 ++ [Instr.jumpNeq jumpFail]) ++ Instr.accept :: [Instr.fail] :=
    hprogram.trans (List.append_cons _ _ _)
  have hcode : t.program = [] ++ (t.code true 1 ++ [Instr.jumpNeq jumpFail, .accept, .fail]) := rfl
  have hfollows : Follows t string [] (t.code true 1) _ := Tree.follows hsize hcode
  refine (hfollows 0 false (Nat.zero_le _)).again ?_ fun sp hlt => reads_fail hsize hprogram hlt
  intro sp _ hlt _
  have hholds := holds_at haccept (by simp [Instr.accept, Instr.offset])
  refine ⟨_, .single (stays_jumpNeq hprogram hlt), ?_⟩
  rw [execStep_at hholds (List.getElem?_eq_getElem hlt)]
  rfl

end Libromano.Regex
