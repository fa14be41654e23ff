/- The lexer of `regex.c`. A pattern is given by its bytes up to the null byte that ends it; a
   pointer into it is given by what it points at, up to the same end. -/

import Libromano.Fault
import Mathlib.Data.List.Basic

set_option autoImplicit false
set_option relaxedAutoImplicit false

namespace Libromano.Regex

/-- The codes that `regex.c` leaves in `g_current_error`. -/
inductive ErrorCode
  | regexInvalidCharacterRange
  | regexUnexpectedCharacter
  | regexUnexpectedEndOfExpression
  | regexMismatchedParentheses
  | regexInvalidOperator
  | regexInvalidToken
  | regexUnexpectedTokens
  | regexUnknownOpCode
  deriving DecidableEq

/-- Why a call gave no result. -/
inductive Stop
  | fault (fault : Fault)
  /-- `NULL` or `false`, with the error code that was set. -/
  | null (error : ErrorCode)
  deriving DecidableEq

inductive OperatorType
  | alternate
  | concatenate
  | zeroOrMore
  | oneOrMore
  | zeroOrOne
  deriving DecidableEq

inductive CharacterType
  | single
  | range
  | any
  deriving DecidableEq

/-- The type of a token, with the encoding that it gives a meaning to. -/
inductive TokenType
  | character (encoding : CharacterType)
  | characterRange
  | operator (encoding : OperatorType)
  | groupBegin
  | groupEnd
  | invalid
  deriving DecidableEq

structure RegexToken where
  data : Option (List UInt8)
  dataSz : UInt32
  type : TokenType
  deriving DecidableEq

/-- `data[k]`. The byte after the last one is the null byte. -/
def charAt (data : List UInt8) (k : ℕ) : Except Stop UInt8 :=
  if k = data.length then .ok 0
  else
    match data[k]? with
    | some c => .ok c
    | none => .error (.fault .outOfBounds)

/-- `isalnum` in the C locale. -/
def isalnum (c : UInt8) : Bool :=
  decide (48 ≤ c ∧ c ≤ 57) || decide (65 ≤ c ∧ c ≤ 90) || decide (97 ≤ c ∧ c ≤ 122)

/-- What is pushed before a token that stands for a character. -/
def concatToken (needsConcat : Bool) : List RegexToken :=
  if needsConcat then [⟨none, 0, .operator .concatenate⟩] else []

/-- `while(i < pattern_sz && pattern[i] != ']') i++`. -/
def lexRange (pattern : List UInt8) : ℕ → UInt32 → Except Stop UInt32
  | 0, _ => .error (.fault .diverges)
  | fuel + 1, i =>
    if i.toNat < pattern.length then do
      let c ← charAt pattern i.toNat
      if c ≠ 93 then lexRange pattern fuel (i + 1) else .ok i
    else .ok i

/-- The loop of `regex_lex`. Its index has 32 bits. -/
def regexLexLoop (pattern : List UInt8) :
    ℕ → UInt32 → Bool → List RegexToken → Except Stop (List RegexToken)
  | 0, _, _, _ => .error (.fault .diverges)
  | fuel + 1, i, needsConcat, tokens =>
    if i.toNat < pattern.length then do
      let c ← charAt pattern i.toNat
      let here := some (pattern.drop i.toNat)
      if isalnum c || c = 95 then
        regexLexLoop pattern fuel (i + 1) true
          (tokens ++ concatToken needsConcat ++ [⟨here, 1, .character .single⟩])
      else if c = 124 then
        regexLexLoop pattern fuel (i + 1) false (tokens ++ [⟨here, 1, .operator .alternate⟩])
      else if c = 42 then
        regexLexLoop pattern fuel (i + 1) needsConcat
          (tokens ++ [⟨here, 1, .operator .zeroOrMore⟩])
      else if c = 43 then
        regexLexLoop pattern fuel (i + 1) needsConcat
          (tokens ++ [⟨here, 1, .operator .oneOrMore⟩])
      else if c = 63 then
        regexLexLoop pattern fuel (i + 1) needsConcat
          (tokens ++ [⟨here, 1, .operator .zeroOrOne⟩])
      else if c = 46 then
        regexLexLoop pattern fuel (i + 1) true
          (tokens ++ concatToken needsConcat ++ [⟨here, 1, .character .any⟩])
      else if c = 40 then
        regexLexLoop pattern fuel (i + 1) needsConcat (tokens ++ [⟨here, 1, .groupBegin⟩])
      else if c = 41 then
        regexLexLoop pattern fuel (i + 1) needsConcat (tokens ++ [⟨here, 1, .groupEnd⟩])
      else if c = 91 then do
        let start := i + 1
        let i ← lexRange pattern (pattern.length + 1) start
        if pattern.length ≤ i.toNat then .error (.null .regexInvalidCharacterRange)
        else
          regexLexLoop pattern fuel (i + 1) true
            (tokens ++ concatToken needsConcat ++
              [⟨some (pattern.drop start.toNat), i - start, .characterRange⟩])
      else .error (.null .regexUnexpectedCharacter)
    else .ok tokens

def regexLex (pattern : List UInt8) : Except Stop (List RegexToken) :=
  regexLexLoop pattern (pattern.length + 1) 0 false []

end Libromano.Regex
