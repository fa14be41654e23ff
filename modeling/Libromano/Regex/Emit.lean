/- The emitter of `regex.c`: four functions that call one another, and a last pass that gives the
   jumps to the end their sizes. Memory is taken to last. -/

import Libromano.Regex.Bytecode

set_option autoImplicit false
set_option relaxedAutoImplicit false

namespace Libromano.Regex

def regexEmitRangeOpcodes (rangeStart rangeEnd : UInt8) : List UInt8 :=
  if rangeStart = 48 ∧ rangeEnd = 57 then [OpCode.testDigit.byte, OpCode.incPosEq.byte]
  else if rangeStart = 97 ∧ rangeEnd = 122 then [OpCode.testLowerCase.byte, OpCode.incPosEq.byte]
  else if rangeStart = 65 ∧ rangeEnd = 90 then [OpCode.testUpperCase.byte, OpCode.incPosEq.byte]
  else [OpCode.testRange.byte, rangeStart, rangeEnd, OpCode.incPosEq.byte]

/-- `token->data[k]`. -/
def RegexToken.char (token : RegexToken) (k : ℕ) : Except Stop UInt8 :=
  match token.data with
  | some data => charAt data k
  | none => .error (.fault .nullPointer)

/-- What the emitters hand on: the position in the tokens, the number of the next
group, and the bytecode so far. -/
structure Emitter where
  pos : ℕ
  currentGroupId : UInt32
  bytecode : List UInt8
  deriving DecidableEq

namespace Emitter

def push (e : Emitter) (bytes : List UInt8) : Emitter := { e with bytecode := e.bytecode ++ bytes }

def advance (e : Emitter) : Emitter := { e with pos := e.pos + 1 }

def jump (e : Emitter) (op : OpCode) (offset : Int32) : Emitter :=
  let (bytecode, jumpPos) := regexEmitJump e.bytecode op
  { e with bytecode := regexPatchJump bytecode jumpPos offset }

end Emitter

/-- The token at a position, with the type that decides what is done with it. -/
def typeAt (tokens : List RegexToken) (pos : ℕ) : Option TokenType :=
  tokens[pos]?.map RegexToken.type

/-- The part of `regex_emit_quantified` after the primary. -/
def emitQuantifier (tokens : List RegexToken) (primaryStart : ℕ) (e : Emitter) : Emitter :=
  match typeAt tokens e.pos with
  | some (.operator .zeroOrMore) =>
    let e := e.advance
    let offsetBack := Int32.ofInt (primaryStart - e.bytecode.length)
    (e.jump .jumpEq offsetBack).push [OpCode.setFlag.byte, 1]
  | some (.operator .oneOrMore) =>
    let e := e.advance
    let loopStart := e.bytecode.length
    let primaryCopy := e.bytecode.drop primaryStart
    let e := (e.jump .jumpNeq jumpFail).push primaryCopy
    let (bytecode, exitJumpPos) := regexEmitJump e.bytecode .jumpNeq
    let e := { e with bytecode := bytecode ++ [OpCode.setFlag.byte, 1] }
    let offsetBack := Int32.ofInt (loopStart - e.bytecode.length)
    let e := e.jump .jumpEq offsetBack
    let exitOffset := Int32.ofInt (e.bytecode.length - exitJumpPos - 1)
    { e with bytecode := regexPatchJump e.bytecode exitJumpPos exitOffset }
  | some (.operator .zeroOrOne) => e.advance.push [OpCode.setFlag.byte, 1]
  | _ => e

section Emit

variable (tokens : List RegexToken)

mutual

def regexEmitAlternation : ℕ → Emitter → Except Stop Emitter
  | 0, _ => .error (.fault .diverges)
  | fuel + 1, e => do
    let e ← regexEmitConcatenation fuel e
    alternationLoop fuel e

def alternationLoop : ℕ → Emitter → Except Stop Emitter
  | 0, _ => .error (.fault .diverges)
  | fuel + 1, e =>
    if typeAt tokens e.pos = some (.operator .alternate) then do
      let (bytecode, jumpOverRhsPos) := regexEmitJump e.bytecode .jumpEq
      let e ← regexEmitConcatenation fuel { e.advance with bytecode := bytecode }
      let offset := Int32.ofNat e.bytecode.length - Int32.ofNat (jumpOverRhsPos - 1)
      alternationLoop fuel { e with bytecode := regexPatchJump e.bytecode jumpOverRhsPos offset }
    else .ok e

def regexEmitConcatenation : ℕ → Emitter → Except Stop Emitter
  | 0, _ => .error (.fault .diverges)
  | fuel + 1, e => concatenationLoop fuel true e

def concatenationLoop : ℕ → Bool → Emitter → Except Stop Emitter
  | 0, _, _ => .error (.fault .diverges)
  | fuel + 1, first, e =>
    match typeAt tokens e.pos with
    | none | some .groupEnd => .ok e
    | some _ => do
      let e := if first then e else e.jump .jumpNeq jumpFail
      let e ← regexEmitQuantified fuel e
      concatenationLoop fuel false e

def regexEmitQuantified : ℕ → Emitter → Except Stop Emitter
  | 0, _ => .error (.fault .diverges)
  | fuel + 1, e => do
    let primaryStart := e.bytecode.length
    let e ← regexEmitPrimary fuel e
    .ok (emitQuantifier tokens primaryStart e)

def regexEmitPrimary : ℕ → Emitter → Except Stop Emitter
  | 0, _ => .error (.fault .diverges)
  | fuel + 1, e =>
    match tokens[e.pos]? with
    | none => .error (.null .regexUnexpectedEndOfExpression)
    | some token =>
      match token.type with
      | .character .single => do
        let c ← token.char 0
        .ok (e.advance.push [OpCode.testSingle.byte, c, OpCode.incPosEq.byte])
      | .character .any => .ok (e.advance.push [OpCode.testAny.byte, OpCode.incPosEq.byte])
      | .character .range => .ok (e.advance.push [OpCode.incPosEq.byte])
      | .characterRange => do
        let rangeStart ← token.char 0
        let rangeEnd ← token.char 2
        .ok (e.advance.push (regexEmitRangeOpcodes rangeStart rangeEnd))
      | .groupBegin => do
        let groupId := e.currentGroupId.toUInt8
        let e := { e.advance with currentGroupId := e.currentGroupId + 1 }
        let e ← regexEmitAlternation fuel (e.push [OpCode.groupStart.byte, groupId])
        if typeAt tokens e.pos ≠ some .groupEnd then
          .error (.null .regexMismatchedParentheses)
        else .ok (e.advance.push [OpCode.groupEnd.byte, groupId])
      | .operator .alternate => regexEmitAlternation fuel e.advance
      | .operator .concatenate => regexEmitConcatenation fuel e.advance
      | .operator _ => .error (.null .regexInvalidOperator)
      | _ => .error (.null .regexInvalidToken)

end

section Equations

variable {tokens} {fuel : ℕ} {e : Emitter} {first : Bool}

theorem regexEmitAlternation_succ : regexEmitAlternation tokens (fuel + 1) e =
    regexEmitConcatenation tokens fuel e >>= alternationLoop tokens fuel :=
  rfl

theorem alternationLoop_of_end
    (h : typeAt tokens e.pos = none ∨ typeAt tokens e.pos = some .groupEnd) :
    alternationLoop tokens (fuel + 1) e = .ok e := by
  apply if_neg
  rcases h with h | h <;> simp [h]

theorem regexEmitConcatenation_succ :
    regexEmitConcatenation tokens (fuel + 1) e = concatenationLoop tokens fuel true e :=
  rfl

theorem concatenationLoop_succ : concatenationLoop tokens (fuel + 1) first e =
    match typeAt tokens e.pos with
    | none | some .groupEnd => .ok e
    | some _ =>
      regexEmitQuantified tokens fuel (if first then e else e.jump .jumpNeq jumpFail) >>=
        concatenationLoop tokens fuel false :=
  rfl

theorem regexEmitQuantified_succ : regexEmitQuantified tokens (fuel + 1) e =
    regexEmitPrimary tokens fuel e >>= fun primary =>
      .ok (emitQuantifier tokens e.bytecode.length primary) :=
  rfl

end Equations

def emitFuel : ℕ := 6 * tokens.length + 6

end Emit

/-- `regex_decode_jump(vector_at(bytecode, i + 1))`. -/
def jumpAt (bytecode : List UInt8) (i : ℕ) : Except Stop Int32 :=
  match bytecode.drop (i + 1) with
  | b₀ :: b₁ :: b₂ :: b₃ :: _ => .ok (regexDecodeJump b₀ b₁ b₂ b₃)
  | _ => .error (.fault .outOfBounds)

/-- The loop at the end of `regex_emit`. -/
def patchLoop : ℕ → ℕ → List UInt8 → Except Stop (List UInt8)
  | 0, _, _ => .error (.fault .diverges)
  | fuel + 1, i, bytecode =>
    match bytecode[i]? with
    | none => .ok bytecode
    | some instr =>
      match OpCode.ofByte instr with
      | none => .error (.null .regexUnknownOpCode)
      | some op =>
        if op = .jumpEq ∨ op = .jumpNeq then do
          let offset ← jumpAt bytecode i
          let bytecode :=
            if offset = jumpFail then
              regexPatchJump bytecode (i + 1)
                (Int32.ofInt (bytecode.length - 1 - (i + 5) : ℤ))
            else bytecode
          patchLoop fuel (i + op.size) bytecode
        else patchLoop fuel (i + op.size) bytecode

def emitProgram (tokens : List RegexToken) : Except Stop (List UInt8) := do
  let e ← regexEmitAlternation tokens (emitFuel tokens) ⟨0, 1, []⟩
  if e.pos < tokens.length then .error (.null .regexUnexpectedTokens)
  else .ok ((e.jump .jumpNeq jumpFail).push [OpCode.accept.byte, OpCode.fail.byte]).bytecode

def regexEmit (tokens : List RegexToken) : Except Stop (List UInt8) :=
  if tokens = [] then .ok [OpCode.accept.byte]
  else do
    let bytecode ← emitProgram tokens
    patchLoop (bytecode.length + 1) 0 bytecode

/-- `regex_compile`. A `Regex` is its bytecode. -/
def regexCompile (pattern : List UInt8) : Except Stop (List UInt8) := do
  let tokens ← regexLex pattern
  regexEmit tokens

end Libromano.Regex
