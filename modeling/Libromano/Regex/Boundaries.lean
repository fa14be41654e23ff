/- Where the program counter may stand. Every jump of a program is one to its end, one back over
   the primary of a quantifier, or the exit of a `+`; all but the last end at an instruction. -/

import Libromano.Regex.Layout
import Mathlib.Data.List.Chain
import Mathlib.Data.List.Induction

set_option autoImplicit false
set_option relaxedAutoImplicit false

namespace Libromano.Regex

/-- The first bytes up to the position are instructions, one after the other. -/
def AtInstr (bytecode : List UInt8) (pos : ℕ) : Prop :=
  pos ≤ bytecode.length ∧ (decode pos (bytecode.take pos)).isSome

instance (bytecode : List UInt8) (pos : ℕ) : Decidable (AtInstr bytecode pos) :=
  inferInstanceAs (Decidable (_ ∧ _))

/-- The machine takes a `JumpNeq` that stands before a `SetFlag`. The emitters put the two side by
side only at the exit of a `+`. -/
def TakesExit (bytecode : List UInt8) (vm : RegexVM) : Prop :=
  vm.statusFlag = false ∧ bytecode[vm.pc]? = some OpCode.jumpNeq.byte ∧
    bytecode[vm.pc + OpCode.jumpNeq.size]? = some OpCode.setFlag.byte

def JumpOver (before : List Instr) (i : Instr) (offset : Int32) : Prop :=
  offset = jumpFail ∨
    (i.op = .jumpEq ∧ ∃ p q, before = p ++ q ∧ offset = Int32.ofInt (-span q)) ∨
      i = .jumpNeq 10

inductive Closed : List Instr → Prop
  | nil : Closed []
  | snoc {program : List Instr} {i : Instr} : Closed program →
      (∀ offset, i.offset = some offset → JumpOver program i offset) → Closed (program ++ [i])

namespace Closed

variable {p q : List Instr} {i : Instr}

private theorem append (hp : Closed p) (hq : Closed q) : Closed (p ++ q) := by
  induction hq with
  | nil => rwa [List.append_nil]
  | snoc _ hjump ih =>
    rw [← List.append_assoc]
    apply ih.snoc
    intro offset hoffset
    rcases hjump offset hoffset with h | ⟨hop, r, s, rfl, h⟩ | h
    · exact .inl h
    · exact .inr (.inl ⟨hop, p ++ r, s, (List.append_assoc p r s).symm, h⟩)
    · exact .inr (.inr h)

private theorem single (h : i.offset = none) : Closed [i] :=
  nil.snoc fun offset hoffset => by simp [h] at hoffset

private theorem cons (h : i.offset = none) (hp : Closed p) : Closed (i :: p) := (single h).append hp

private theorem fail : Closed [.jumpNeq jumpFail] :=
  nil.snoc fun offset hoffset => .inl (by simpa using hoffset.symm)

private theorem exit : Closed [.jumpNeq 10] := nil.snoc fun _ _ => .inr (.inr rfl)

private theorem of_snoc (h : Closed (p ++ [i])) :
    Closed p ∧ ∀ offset, i.offset = some offset → JumpOver p i offset := by
  generalize hr : p ++ [i] = r at h
  cases h with
  | nil => simp at hr
  | snoc hp hjump =>
    obtain ⟨rfl, hi⟩ := List.append_inj' hr rfl
    obtain rfl : i = _ := (List.cons.inj hi).1
    exact ⟨hp, hjump⟩

private theorem of_append (h : Closed (p ++ q)) : Closed p := by
  induction q using List.reverseRecOn with
  | nil => rwa [List.append_nil] at h
  | append_singleton q i ih =>
    rw [← List.append_assoc] at h
    exact ih h.of_snoc.1

private theorem loop (hp : Closed (p ++ q)) (n : ℤ) (hn : n = span q) :
    Closed (p ++ q ++ [Instr.jumpEq (Int32.ofInt (-n))]) := by
  subst hn
  refine hp.snoc fun offset hoffset => .inr (.inl ⟨rfl, p, q, rfl, ?_⟩)
  rw [Instr.offset_jumpEq] at hoffset
  exact (Option.some.inj hoffset).symm

private theorem quantified (hp : Closed p) (k : Quantifier) : Closed (k.code p) := by
  have hflag : Closed [.setFlag] := single rfl
  cases k with
  | once => exact hp
  | zeroOrOne => exact hp.append hflag
  | zeroOrMore =>
    have hback := loop (p := []) (q := p) hp (span p) rfl
    rw [List.nil_append] at hback
    simpa [Quantifier.code] using hback.append hflag
  | oneOrMore =>
    have hbody : Closed (p ++ (Instr.jumpNeq jumpFail :: p ++ [Instr.jumpNeq 10, .setFlag])) :=
      hp.append ((fail.append hp).append (exit.append hflag))
    have hspan :
        span p + 12 = span (Instr.jumpNeq jumpFail :: p ++ [Instr.jumpNeq 10, .setFlag]) := by
      simp only [span, assemble_append, assemble_cons, assemble_nil, List.length_append,
        Instr.length_bytes, Instr.jumpNeq, Instr.setFlag, OpCode.size, List.length_nil]
      omega
    have hback := loop hbody _ hspan
    simpa [Quantifier.code] using hback

private theorem test (t : Test) : Closed t.code := by
  cases t with
  | single c => exact cons rfl (Closed.single rfl)
  | any => exact cons rfl (Closed.single rfl)
  | range first last =>
    rw [Test.code]
    split_ifs <;> exact cons rfl (Closed.single rfl)

private theorem failJump (first : Bool) : Closed (failJump first) := by
  cases first with
  | true => exact nil
  | false => exact fail

private theorem code (t : Tree) (first : Bool) (id : UInt32) : Closed (t.code first id) := by
  induction t generalizing first id with
  | empty => exact nil
  | test x k rest ih => exact (failJump first).append (((test x).quantified k).append (ih _ _))
  | group body k rest ihbody ihrest =>
    have hgroup : Closed (Tree.groupCode id (body.code true (id + 1))) :=
      cons rfl ((ihbody _ _).append (Closed.single rfl))
    exact (failJump first).append ((hgroup.quantified k).append (ihrest _ _))
  | separator s rest ih => exact (failJump first).append (ih _ _)

private theorem program (t : Tree) : Closed t.program :=
  (code t _ _).append (fail.append (cons rfl (Closed.single rfl)))

end Closed

/-- A `JumpNeq` was left open unless a `SetFlag` follows. -/
def Adjoins (i j : Instr) : Prop :=
  i.op = .jumpNeq → (i.offset = some jumpFail ↔ j.op ≠ .setFlag)

/-- A piece of program that may be put before and behind others. -/
structure Joined (p : List Instr) : Prop where
  chain : p.IsChain Adjoins
  head : ∀ j ∈ p.head?, j.op ≠ .setFlag
  last : ∀ i ∈ p.getLast?, i.op = .jumpNeq → i.offset = some jumpFail

namespace Joined

variable {p q : List Instr} {i : Instr}

private theorem nil : Joined [] := ⟨.nil, nofun, nofun⟩

private theorem append (hp : Joined p) (hq : Joined q) : Joined (p ++ q) := by
  refine ⟨List.isChain_append.mpr ⟨hp.chain, hq.chain, fun i hi j hj hop => ?_⟩, fun j hj => ?_,
    fun i hi => ?_⟩
  · exact iff_of_true (hp.last i hi hop) (hq.head j hj)
  · cases p with
    | nil => exact hq.head j hj
    | cons a p => exact hp.head j hj
  · rcases q.eq_nil_or_concat' with rfl | ⟨q, a, rfl⟩
    · rw [List.append_nil] at hi
      exact hp.last i hi
    · rw [← List.append_assoc, List.getLast?_concat] at hi
      exact hq.last i (by rwa [List.getLast?_concat])

private theorem single (hflag : i.op ≠ .setFlag)
    (hjump : i.op = .jumpNeq → i.offset = some jumpFail) :
    Joined [i] := by
  refine ⟨.singleton i, fun j hj => ?_, fun j hj => ?_⟩
  · cases hj
    exact hflag
  · cases hj
    exact hjump

private theorem fail : Joined [.jumpNeq jumpFail] := single nofun fun _ => Instr.offset_jumpNeq _

private theorem setFlag (hp : Joined p) (hne : p ≠ []) (hlast : ∀ i ∈ p.getLast?, i.op ≠ .jumpNeq) :
    Joined (p ++ [.setFlag]) := by
  refine ⟨List.isChain_append.mpr ⟨hp.chain, .singleton _, fun i hi j _ hop => ?_⟩, fun j hj => ?_,
    fun i hi => ?_⟩
  · exact absurd hop (hlast i hi)
  · obtain ⟨a, p, rfl⟩ := List.exists_cons_of_ne_nil hne
    exact hp.head j hj
  · rw [List.getLast?_concat] at hi
    cases hi
    exact nofun

private theorem back (offset : Int32) : Joined [Instr.jumpEq offset] := single nofun nofun

private theorem exit (offset : Int32) : Joined [.jumpNeq 10, .setFlag, .jumpEq offset] := by
  have hopen : (Instr.jumpNeq 10).offset ≠ some jumpFail := by
    rw [Instr.offset_jumpNeq]
    decide
  refine ⟨List.isChain_cons_cons.mpr ⟨fun _ => ?_, List.isChain_cons_cons.mpr
    ⟨nofun, .singleton _⟩⟩, fun j hj => ?_, fun i hi => ?_⟩
  · exact iff_of_false hopen fun hflag => hflag rfl
  · cases hj
    exact nofun
  · cases hi
    exact nofun

private theorem quantified (hp : Joined p) (hne : p ≠ [])
    (hlast : ∀ i ∈ p.getLast?, i.op ≠ .jumpNeq)
    (k : Quantifier) : Joined (k.code p) := by
  cases k with
  | once => exact hp
  | zeroOrOne => exact hp.setFlag hne hlast
  | zeroOrMore =>
    have hback : Joined [Instr.jumpEq (Int32.ofInt (-span p)), .setFlag] :=
      (back _).setFlag nofun fun i hi => by
        cases hi
        exact nofun
    exact hp.append hback
  | oneOrMore => exact hp.append (fail.append (hp.append (exit _)))

private theorem failJump (first : Bool) : Joined (failJump first) := by
  cases first with
  | true => exact nil
  | false => exact fail

private theorem test (x : Test) :
    Joined x.code ∧ x.code ≠ [] ∧ ∀ i ∈ x.code.getLast?, i.op ≠ .jumpNeq := by
  obtain ⟨i, hcode, hjump, hflag⟩ :
      ∃ i, x.code = [i, .incPosEq] ∧ i.op ≠ .jumpNeq ∧ i.op ≠ .setFlag := by
    cases x with
    | single c => exact ⟨_, rfl, nofun, nofun⟩
    | any => exact ⟨_, rfl, nofun, nofun⟩
    | range first last =>
      refine ⟨_, rfl, ?_, ?_⟩ <;> split_ifs <;> exact nofun
  rw [hcode]
  refine ⟨(single hflag fun h => absurd h hjump).append (single nofun nofun), nofun, fun j hj => ?_⟩
  cases hj
  exact nofun

private theorem group (id : UInt32) (hp : Joined p) : Joined (Tree.groupCode id p) ∧
    Tree.groupCode id p ≠ [] ∧ ∀ i ∈ (Tree.groupCode id p).getLast?, i.op ≠ .jumpNeq := by
  have hopen : Joined [Instr.groupStart id] := single nofun nofun
  have hclose : Joined [Instr.groupEnd id] := single nofun nofun
  refine ⟨hopen.append (hp.append hclose), nofun, fun i hi => ?_⟩
  rw [Tree.groupCode, ← List.cons_append, List.getLast?_concat] at hi
  cases hi
  exact nofun

private theorem code (t : Tree) (first : Bool) (id : UInt32) : Joined (t.code first id) := by
  induction t generalizing first id with
  | empty => exact nil
  | test x k rest ih =>
    obtain ⟨hx, hne, hlast⟩ := test x
    exact (failJump first).append ((hx.quantified hne hlast k).append (ih _ _))
  | group body k rest ihbody ihrest =>
    obtain ⟨hgroup, hne, hlast⟩ := group id (ihbody true (id + 1))
    exact (failJump first).append ((hgroup.quantified hne hlast k).append (ihrest _ _))
  | separator s rest ih => exact (failJump first).append (ih _ _)

private theorem program (t : Tree) : Joined t.program := by
  have haccept : Joined [Instr.accept] := single nofun nofun
  have hfail : Joined [Instr.fail] := single nofun nofun
  exact (code t _ _).append (fail.append (haccept.append hfail))

end Joined

theorem takesExit_iff {t : Tree} {before after : List Instr} {i : Instr} {sp : ℕ} {flag : Bool}
    (h : t.program = before ++ i :: after) :
    TakesExit t.bytecode ⟨(assemble before).length, sp, flag⟩ ↔
      flag = false ∧ i.op = .jumpNeq ∧ i.offset ≠ some jumpFail := by
  have hbyte := (holds_link h).getElem?
  rw [Instr.link_op] at hbyte
  simp only [TakesExit, hbyte, Option.some.injEq, OpCode.byte_inj]
  refine and_congr_right fun _ => and_congr_right fun hop => ?_
  obtain ⟨offset, hoffset⟩ := offset_isSome (.inr hop)
  obtain ⟨j, rest, rfl⟩ : ∃ j rest, after = j :: rest := by
    obtain ⟨rest, rfl⟩ := Tree.after_jump h hoffset
    cases rest with
    | nil => exact ⟨_, _, rfl⟩
    | cons j rest => exact ⟨_, _, rfl⟩
  have hnext : t.program = (before ++ [i]) ++ j :: rest := by rw [h, List.append_cons]
  have hpos : (assemble (before ++ [i])).length = (assemble before).length + OpCode.jumpNeq.size := by
    simp [hop]
  have hbyte' := (holds_link hnext).getElem?
  rw [hpos, Instr.link_op] at hbyte'
  have hchain := (Joined.program t).chain
  rw [h, List.isChain_append_cons_cons] at hchain
  rw [hbyte', Option.some.injEq, OpCode.byte_inj, ne_eq, hchain.2.1 hop, not_not]

/-- The position is one where the program of the tree may be cut in two. -/
def Boundary (t : Tree) (pos : ℕ) : Prop :=
  ∃ before after, t.program = before ++ after ∧ pos = (assemble before).length

private theorem Boundary.atInstr {t : Tree} {pos : ℕ} (h : Boundary t pos) :
    AtInstr t.bytecode pos := by
  obtain ⟨before, after, hprogram, rfl⟩ := h
  have hbytes : t.bytecode = assemble (link (assemble t.program).length 0 before) ++
      assemble (link (assemble t.program).length (assemble before).length after) := by
    rw [Tree.bytecode]
    conv_lhs => rw [hprogram, link_append, ← hprogram, Nat.zero_add]
    exact assemble_append _ _
  have hlength := length_assemble_link (assemble t.program).length 0 before
  refine ⟨?_, ?_⟩
  · rw [hbytes, List.length_append, hlength]
    exact Nat.le_add_right _ _
  · rw [hbytes, ← hlength, List.take_left, decode_assemble _ (Nat.le_refl _)]
    rfl

private theorem Boundary.last (t : Tree) : Boundary t (t.bytecode.length - 1) := by
  refine ⟨t.body ++ [Instr.accept], [Instr.fail], by rw [t.program_eq, List.append_assoc]; rfl, ?_⟩
  rw [t.length_bytecode, t.program_eq]
  simp [Instr.accept, Instr.fail, OpCode.size]

private theorem Leads.unique {bytecode string : List UInt8} {vm vm₁ vm₂ : RegexVM}
    (h₁ : Leads bytecode string vm vm₁) (h₂ : Leads bytecode string vm vm₂) : vm₁ = vm₂ := by
  rw [Leads, h₂] at h₁
  cases h₁
  rfl

/-- The step lemma: only the exit of a `+` leaves the instructions. -/
private theorem Boundary.step {t : Tree} {string : List UInt8} {vm vm' : RegexVM}
    (hsize : t.bytecode.length < 2 ^ 31) (h : Boundary t vm.pc)
    (hleads : Leads t.bytecode string vm vm') (hexit : ¬TakesExit t.bytecode vm) :
    Boundary t vm'.pc := by
  obtain ⟨before, after, hprogram, hpc⟩ := h
  obtain ⟨pc, sp, flag⟩ := vm
  obtain rfl : pc = (assemble before).length := hpc
  cases hc : string[sp]? with
  | none => simp [Leads, execStep, hc] at hleads
  | some c =>
  cases after with
  | nil =>
    have hout : t.bytecode[(assemble before).length]? = none := by
      rw [List.getElem?_eq_none_iff, t.length_bytecode, hprogram, List.append_nil]
    simp [Leads, execStep, hout] at hleads
  | cons i after =>
    have hholds := holds_link hprogram
    by_cases htaken : i.Taken flag
    · have hop : i.op = .jumpEq ∨ i.op = .jumpNeq := htaken.imp And.left And.left
      obtain ⟨offset, hoffset⟩ := offset_isSome hop
      have hclosed : Closed (before ++ [i]) :=
        Closed.of_append (q := after) (by simpa [hprogram] using Closed.program t)
      by_cases hfail : offset = jumpFail
      · have hlast := leads_fail hsize hprogram (hoffset.trans (congrArg _ hfail)) htaken
          (List.getElem?_eq_some_iff.mp hc).1
        rw [hleads.unique hlast]
        exact .last t
      · rw [Instr.link_eq_self (by simpa [hoffset] using hfail)] at hholds
        have hjump := hleads.unique (leads_taken hholds hoffset htaken hc)
        rcases hclosed.of_snoc.2 offset hoffset with h | ⟨-, p, q, rfl, rfl⟩ | rfl
        · exact absurd h hfail
        · have hlt := hholds.lt
          simp only [assemble_append, List.length_append] at hlt
          rw [span, jumpTo_back (by omega) (by simp) (by simp; omega)] at hjump
          refine ⟨p, q ++ i :: after, by simp [hprogram], ?_⟩
          simp [hjump]
        · obtain ⟨hneq, rfl⟩ : _ ∧ flag = false := htaken.resolve_left (by simp [Instr.jumpNeq])
          have hopen : (Instr.jumpNeq 10).offset ≠ some jumpFail := by
            rw [hoffset]
            exact fun h => hfail (Option.some.inj h)
          exact absurd ((takesExit_iff hprogram).mpr ⟨rfl, hneq, hopen⟩) hexit
    · have hnext : vm'.pc = (assemble before).length + i.op.size := by
        rw [Leads, execStep_at hholds hc] at hleads
        have htaken' : ¬(i.link (assemble t.program).length (assemble before).length).Taken flag := by
          rwa [Instr.Taken, i.link_op]
        simpa using execOp_pc htaken' hleads
      exact ⟨before ++ [i], after, by simp [hprogram], by simp [hnext]⟩

/-- A step of the machine that leaves no `+`. -/
def Stays (bytecode string : List UInt8) (vm vm' : RegexVM) : Prop :=
  Leads bytecode string vm vm' ∧ ¬TakesExit bytecode vm

private theorem boundary_of_runs {t : Tree} {string : List UInt8}
    (hsize : t.bytecode.length < 2 ^ 31)
    {vm : RegexVM} (hrun : Relation.ReflTransGen (Stays t.bytecode string) RegexVM.start vm) :
    Boundary t vm.pc := by
  induction hrun with
  | refl => exact ⟨[], t.program, rfl, rfl⟩
  | tail _ hstep ih => exact ih.step hsize hstep.1 hstep.2

/-- In a run in which no `+` is left, the program counter is always at the start
of an instruction or at the end of the bytecode. -/
theorem runs_atInstr {pattern bytecode string : List UInt8}
    (hcompile : regexCompile pattern = .ok bytecode) (hsize : bytecode.length < 2 ^ 31)
    {vm : RegexVM} (hrun : Relation.ReflTransGen (Stays bytecode string) RegexVM.start vm) :
    AtInstr bytecode vm.pc := by
  by_cases hne : pattern = []
  · subst hne
    cases hcompile
    rcases Relation.ReflTransGen.cases_head hrun with rfl | ⟨vm', hstep, -⟩
    · exact ⟨Nat.zero_le _, rfl⟩
    · have hstep := hstep.1
      rw [Leads, execStep] at hstep
      cases hc : string[RegexVM.start.sp]? <;> rw [hc] at hstep <;> cases hstep
  · obtain ⟨tokens, t, -, -, rfl⟩ := regexCompile_eq_ok hne hcompile
    exact (boundary_of_runs hsize hrun).atInstr

private theorem stays {bytecode string : List UInt8} {vm vm' : RegexVM}
    (h : execStep bytecode string vm = .ok (.running vm'))
    (hpc : bytecode[vm.pc]? ≠ some OpCode.jumpNeq.byte ∨ vm.statusFlag = true) :
    Stays bytecode string vm vm' := by
  refine ⟨h, fun hexit => ?_⟩
  rcases hpc with hpc | hflag
  · exact hpc hexit.2.1
  · exact absurd (hexit.1.symm.trans hflag) Bool.false_ne_true

/-- The pattern `a+` at the string `aa`, up to the second test. -/
theorem runs_atInstr_plus : AtInstr plusBytecode 8 := by
  have hrun : Relation.ReflTransGen (Stays plusBytecode [97, 97]) RegexVM.start ⟨8, 1, true⟩ :=
    .head (b := ⟨2, 0, true⟩) (stays rfl (.inl (by decide)))
      (.head (b := ⟨3, 1, true⟩) (stays rfl (.inr rfl)) (.single (stays rfl (.inr rfl))))
  exact runs_atInstr compile_plus (by decide) hrun

/-- The pattern `a+` at the string `ab` is left, and the program counter then
stands among the bytes of a jump. -/
theorem runs_not_atInstr :
    ¬∀ pattern bytecode string : List UInt8, regexCompile pattern = .ok bytecode →
      ∀ vm, Relation.ReflTransGen (Leads bytecode string) RegexVM.start vm →
        AtInstr bytecode vm.pc := by
  intro h
  have hleads {vm vm' : RegexVM} (h : execStep plusBytecode [97, 98] vm = .ok (.running vm')) :
      Leads plusBytecode [97, 98] vm vm' := h
  have hat := h [97, 43] _ [97, 98] compile_plus ⟨26, 1, false⟩
    (.head (b := ⟨2, 0, true⟩) (hleads rfl) (.head (b := ⟨3, 1, true⟩) (hleads rfl)
      (.head (b := ⟨8, 1, true⟩) (hleads rfl) (.head (b := ⟨10, 1, false⟩) (hleads rfl)
        (.head (b := ⟨11, 1, false⟩) (hleads rfl) (.single (hleads rfl)))))))
  exact absurd hat (by decide)

end Libromano.Regex
