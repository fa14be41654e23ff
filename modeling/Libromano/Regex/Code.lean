/- Programs as lists of instructions, the bytes they stand for, and the program of a pattern. The
   shape of a pattern is a tree: a row of tests and groups, each with its quantifier, and the
   separators between them. -/

import Libromano.Regex.Vm

set_option autoImplicit false
set_option relaxedAutoImplicit false

namespace Libromano.Regex

/-- An opcode with as many operand bytes as it takes. -/
structure Instr where
  op : OpCode
  operands : List UInt8
  sized : operands.length + 1 = op.size
  deriving DecidableEq

namespace Instr

def bytes (i : Instr) : List UInt8 := i.op.byte :: i.operands

@[simp] theorem length_bytes (i : Instr) : i.bytes.length = i.op.size := i.sized

def testSingle (c : UInt8) : Instr := ⟨.testSingle, [c], rfl⟩

def testRange (first last : UInt8) : Instr := ⟨.testRange, [first, last], rfl⟩

def testAny : Instr := ⟨.testAny, [], rfl⟩

def testDigit : Instr := ⟨.testDigit, [], rfl⟩

def testLowerCase : Instr := ⟨.testLowerCase, [], rfl⟩

def testUpperCase : Instr := ⟨.testUpperCase, [], rfl⟩

def jumpEq (offset : Int32) : Instr := ⟨.jumpEq, regexEncodeJump offset, rfl⟩

def jumpNeq (offset : Int32) : Instr := ⟨.jumpNeq, regexEncodeJump offset, rfl⟩

def accept : Instr := ⟨.accept, [], rfl⟩

def fail : Instr := ⟨.fail, [], rfl⟩

def groupStart (id : UInt32) : Instr := ⟨.groupStart, [id.toUInt8], rfl⟩

def groupEnd (id : UInt32) : Instr := ⟨.groupEnd, [id.toUInt8], rfl⟩

def incPosEq : Instr := ⟨.incPosEq, [], rfl⟩

def setFlag : Instr := ⟨.setFlag, [1], rfl⟩

end Instr

/-- The bytes of a program. -/
def assemble (program : List Instr) : List UInt8 := program.flatMap Instr.bytes

@[simp] theorem assemble_nil : assemble [] = [] := rfl

@[simp] theorem assemble_cons (i : Instr) (program : List Instr) :
    assemble (i :: program) = i.bytes ++ assemble program := rfl

@[simp] theorem assemble_append (p q : List Instr) :
    assemble (p ++ q) = assemble p ++ assemble q := List.flatMap_append

private theorem OpCode.length_take {op : OpCode} {rest : List UInt8}
    (h : op.size ≤ rest.length + 1) :
    (rest.take (op.size - 1)).length + 1 = op.size := by
  have hpos := op.size_pos
  rw [List.length_take]
  omega

/-- The first instruction of some bytes, and what comes after it. -/
def decodeInstr (bytes : List UInt8) : Option (Instr × List UInt8) :=
  match bytes with
  | [] => none
  | b :: rest =>
    match OpCode.ofByte b with
    | none => none
    | some op =>
      if h : op.size ≤ rest.length + 1 then
        some (⟨op, rest.take (op.size - 1), op.length_take h⟩, rest.drop (op.size - 1))
      else none

def decode : ℕ → List UInt8 → Option (List Instr)
  | _, [] => some []
  | 0, _ => none
  | fuel + 1, bytes => do
    let (i, rest) ← decodeInstr bytes
    let program ← decode fuel rest
    some (i :: program)

private theorem decodeInstr_bytes (i : Instr) (rest : List UInt8) :
    decodeInstr (i.bytes ++ rest) = some (i, rest) := by
  obtain ⟨op, operands, sized⟩ := i
  have hlen : op.size - 1 = operands.length := by omega
  have hle : op.size ≤ (operands ++ rest).length + 1 := by
    rw [List.length_append]
    omega
  simp only [Instr.bytes, List.cons_append, decodeInstr, OpCode.ofByte_byte, dif_pos hle]
  simp [hlen]

theorem decode_assemble (program : List Instr) {fuel : ℕ} (h : (assemble program).length ≤ fuel) :
    decode fuel (assemble program) = some program := by
  induction program generalizing fuel with
  | nil => cases fuel <;> rfl
  | cons i program ih =>
    rw [assemble_cons] at h ⊢
    have hsize : 0 < i.bytes.length := by
      rw [i.length_bytes]
      exact i.op.size_pos
    rw [List.length_append] at h
    obtain ⟨fuel, rfl⟩ : ∃ n, fuel = n + 1 := ⟨fuel - 1, by omega⟩
    have hne : i.bytes ++ assemble program = i.op.byte :: (i.operands ++ assemble program) := rfl
    have hstep : decode (fuel + 1) (i.bytes ++ assemble program) =
        (decodeInstr (i.bytes ++ assemble program)).bind fun x =>
          (decode fuel x.2).bind fun program => some (x.1 :: program) := by
      rw [hne]
      rfl
    rw [hstep, decodeInstr_bytes, Option.bind_some, ih (by omega)]
    rfl

inductive Quantifier
  | once
  | zeroOrMore
  | oneOrMore
  | zeroOrOne
  deriving DecidableEq

/-- What a single character is tested for. -/
inductive Test
  | single (c : UInt8)
  | any
  | range (first last : UInt8)
  deriving DecidableEq

/-- `|`, or the concatenation that the lexer puts in. -/
inductive Separator
  | bar
  | concatenation
  deriving DecidableEq

/-- A row of tests, groups and separators. -/
inductive Tree
  | empty
  | test (t : Test) (q : Quantifier) (rest : Tree)
  | group (body : Tree) (q : Quantifier) (rest : Tree)
  | separator (s : Separator) (rest : Tree)
  deriving DecidableEq

inductive Symbol
  | test (t : Test)
  | operator (op : OperatorType)
  | groupBegin
  | groupEnd
  deriving DecidableEq

def RegexToken.symbol (token : RegexToken) : Except Stop Symbol :=
  match token.type with
  | .character .single => do
    let c ← token.char 0
    .ok (.test (.single c))
  | .character .any => .ok (.test .any)
  | .characterRange => do
    let first ← token.char 0
    let last ← token.char 2
    .ok (.test (.range first last))
  | .operator op => .ok (.operator op)
  | .groupBegin => .ok .groupBegin
  | .groupEnd => .ok .groupEnd
  | _ => .error (.null .regexInvalidToken)

def Quantifier.symbols : Quantifier → List Symbol
  | once => []
  | zeroOrMore => [.operator .zeroOrMore]
  | oneOrMore => [.operator .oneOrMore]
  | zeroOrOne => [.operator .zeroOrOne]

def Separator.symbol : Separator → Symbol
  | bar => .operator .alternate
  | concatenation => .operator .concatenate

def Tree.symbols : Tree → List Symbol
  | empty => []
  | test t q rest => .test t :: (q.symbols ++ rest.symbols)
  | group body q rest => .groupBegin :: (body.symbols ++ .groupEnd :: (q.symbols ++ rest.symbols))
  | separator s rest => s.symbol :: rest.symbols

def Test.code : Test → List Instr
  | single c => [.testSingle c, .incPosEq]
  | any => [.testAny, .incPosEq]
  | range first last =>
    [if first = 48 ∧ last = 57 then .testDigit
      else if first = 97 ∧ last = 122 then .testLowerCase
      else if first = 65 ∧ last = 90 then .testUpperCase
      else .testRange first last, .incPosEq]

/-- The size in bytes of a program, as an operand of a jump over it. -/
def span (program : List Instr) : ℤ := (assemble program).length

def Quantifier.code (primary : List Instr) : Quantifier → List Instr
  | once => primary
  | zeroOrMore => primary ++ [.jumpEq (Int32.ofInt (-span primary)), .setFlag]
  | oneOrMore =>
    primary ++ (.jumpNeq jumpFail :: primary ++
      [.jumpNeq 10, .setFlag, .jumpEq (Int32.ofInt (-(span primary + 12)))])
  | zeroOrOne => primary ++ [.setFlag]

/-- The jump to the end that stands before every part of a row but the first. -/
def failJump (first : Bool) : List Instr := if first then [] else [.jumpNeq jumpFail]

namespace Tree

def nextId (id : UInt32) : Tree → UInt32
  | empty => id
  | test _ _ rest => rest.nextId id
  | group body _ rest => rest.nextId (body.nextId (id + 1))
  | separator _ rest => rest.nextId id

def groupCode (id : UInt32) (body : List Instr) : List Instr :=
  .groupStart id :: (body ++ [.groupEnd id])

def code (first : Bool) (id : UInt32) : Tree → List Instr
  | empty => []
  | test t q rest => failJump first ++ (q.code t.code ++ rest.code false id)
  | group body q rest =>
    failJump first ++ (q.code (groupCode id (body.code true (id + 1))) ++
      rest.code false (body.nextId (id + 1)))
  | separator _ rest => failJump first ++ rest.code true id

/-- The program of a pattern, with the jumps to its end left open. -/
def program (t : Tree) : List Instr := t.code true 1 ++ [.jumpNeq jumpFail, .accept, .fail]

end Tree

end Libromano.Regex
