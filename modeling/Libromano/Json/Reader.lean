/- A reader that takes the rest of the input instead of a position in it, and a string in one
   pass. It is what the parser is proved to compute; it shares the parser's tables and the steps
   of its accumulators. -/

import Libromano.Json.Parser

set_option autoImplicit false
set_option relaxedAutoImplicit false

namespace Libromano.Json

/-- The bytes of each character up to the closing quote, and what follows it. -/
def readChars : List UInt8 → Option (List (List UInt8) × List UInt8)
  | [] => none
  | c :: s =>
    if c = 34 then some ([], s)
    else if c = 92 then
      match s with
      | [] => none
      | escape :: s =>
        if escape = 117 then
          match s with
          | _ :: _ :: _ :: _ :: s =>
            (readChars s).map fun (chars, rest) => (unescape escape :: chars, rest)
          | _ => none
        else (readChars s).map fun (chars, rest) => (unescape escape :: chars, rest)
    else if c < 32 then none
    else (readChars s).map fun (chars, rest) => ([c] :: chars, rest)

private theorem readChars_cons (c : UInt8) (s : List UInt8) :
    readChars (c :: s) =
      if c = 34 then some ([], s)
      else if c = 92 then
        match s with
        | [] => none
        | escape :: s =>
          if escape = 117 then
            match s with
            | _ :: _ :: _ :: _ :: s =>
              (readChars s).map fun (chars, rest) => (unescape escape :: chars, rest)
            | _ => none
          else (readChars s).map fun (chars, rest) => (unescape escape :: chars, rest)
      else if c < 32 then none
      else (readChars s).map fun (chars, rest) => ([c] :: chars, rest) := by
  rw [readChars.eq_def]

theorem readChars_quote (s : List UInt8) : readChars (34 :: s) = some ([], s) := by
  rw [readChars_cons]
  rfl

theorem readChars_plain {c : UInt8} (hquote : c ≠ 34) (hslash : c ≠ 92) (hcontrol : ¬c < 32)
    (s : List UInt8) :
    readChars (c :: s) = (readChars s).map fun (chars, rest) => ([c] :: chars, rest) := by
  rw [readChars_cons]
  simp [hquote, hslash, hcontrol]

theorem readChars_control {c : UInt8} (hcontrol : c < 32) (s : List UInt8) :
    readChars (c :: s) = none := by
  have hquote : c ≠ 34 := by rintro rfl; exact absurd hcontrol (by decide)
  have hslash : c ≠ 92 := by rintro rfl; exact absurd hcontrol (by decide)
  rw [readChars_cons]
  simp [hquote, hslash, hcontrol]

theorem readChars_escape {escape : UInt8} (h : escape ≠ 117) (s : List UInt8) :
    readChars (92 :: escape :: s) =
      (readChars s).map fun (chars, rest) => (unescape escape :: chars, rest) := by
  rw [readChars_cons]
  simp [h]

theorem readChars_unicode (a b c d : UInt8) (s : List UInt8) :
    readChars (92 :: 117 :: a :: b :: c :: d :: s) =
      (readChars s).map fun (chars, rest) => (unescape 117 :: chars, rest) := by
  rw [readChars_cons]
  simp

theorem readChars_short {s : List UInt8} (h : s.length < 4) :
    readChars (92 :: 117 :: s) = none := by
  rw [readChars_cons]
  rcases s with _ | ⟨a, _ | ⟨b, _ | ⟨c, _ | ⟨d, s⟩⟩⟩⟩
  iterate 4 rfl
  simp only [List.length_cons] at h
  omega

theorem length_lt_four {s : List UInt8}
    (h : ∀ a b c d s', s = a :: b :: c :: d :: s' → False) : s.length < 4 := by
  rcases s with _ | ⟨a, _ | ⟨b, _ | ⟨c, _ | ⟨d, s⟩⟩⟩⟩
  iterate 4 simp
  exact absurd rfl (h a b c d s)

theorem length_unescape_le (c : UInt8) : (unescape c).length ≤ 1 := by
  unfold unescape
  split_ifs <;> simp

def readString (holds : ℕ → Bool) (s : List UInt8) : Except Stop (List UInt8 × List UInt8) :=
  if s.head? ≠ some 34 then .error (.null none)
  else
    match readChars s.tail with
    | none => .error (.null none)
    | some (chars, rest) =>
      if holds (chars.length + 1) then .ok (chars.flatten, rest)
      else .error (.fault .arenaOverrun)

def skipSpace (s : List UInt8) : List UInt8 := s.dropWhile isWhitespace

section Number

open Float64

variable {F : Type} [Float64 F]

def readDigits {α : Type} (more : α → Bool) (step : α → UInt8 → α) :
    α → List UInt8 → α × List UInt8
  | acc, [] => (acc, [])
  | acc, c :: s => if isDigit c && more acc then readDigits more step (step acc c) s else (acc, c :: s)

def readFraction (floatVal : F) (s : List UInt8) : Except Stop ((Bool × F) × List UInt8) :=
  if s.head? = some 46 then
    if !s.tail.head?.any isDigit then .error (.null none)
    else
      let ((fracInt, fracDigits), s) := readDigits (fun acc => acc.2 < 20) fractionStep (0, 0) s.tail
      let (_, s) := readDigits (fun _ => true) (fun _ _ => ()) () s
      .ok ((true, add floatVal (fractionValue fracInt fracDigits)), s)
  else .ok ((false, floatVal), s)

def skipSign (isSign : Bool) (s : List UInt8) : List UInt8 := if isSign then s.tail else s

def hasSign (s : List UInt8) : Bool := s.head? = some 45 || s.head? = some 43

def readExponent (s : List UInt8) : Except Stop ((Bool × Int32) × List UInt8) :=
  if s.head? = some 101 ∨ s.head? = some 69 then
    let sign := s.tail.head?
    let s := skipSign (hasSign s.tail) s.tail
    if !s.head?.any isDigit then .error (.null none)
    else
      let (exponent, s) := readDigits (fun _ => true) exponentStep 0 s
      .ok ((true, if sign = some 45 then -exponent else exponent), s)
  else .ok ((false, 0), s)

def readNumber (s : List UInt8) : Except Stop (JsonValue F × List UInt8) := do
  let isNegative := decide (s.head? = some 45)
  let s := skipSign isNegative s
  if !s.head?.any isDigit then .error (.null none)
  else do
    let ((intVal, floatVal), s) := readDigits (fun _ => true) integerStep (0, ofUInt64 0) s
    let ((hasFraction, floatVal), s) ← readFraction floatVal s
    let ((hasExponent, exponent), s) ← readExponent s
    .ok (numberValue isNegative (hasFraction || hasExponent) intVal floatVal exponent, s)

end Number

section Value

variable {F : Type} [Float64 F] (holds : ℕ → Bool) (size : ℕ)
  (readElement : List UInt8 → Except Stop (JsonValue F × List UInt8))

def readLiteral (s : List UInt8) : Except Stop (JsonValue F × List UInt8) :=
  if nullLiteral <+: s then .ok (.null, s.drop 4)
  else if trueLiteral <+: s then .ok (.bool true, s.drop 4)
  else if falseLiteral <+: s then .ok (.bool false, s.drop 5)
  else .error (.null none)

def readElements : ℕ → List (JsonValue F) → List UInt8 → Except Stop (JsonValue F × List UInt8)
  | 0, _, _ => .error (.fault .diverges)
  | fuel + 1, array, s =>
    if s = [] then .error (.null none)
    else do
      let (element, s) ← readElement s
      let s := skipSpace s
      match s.head? with
      | none => .error (.null none)
      | some c =>
        if c = 44 then readElements fuel (array ++ [element]) (skipSpace s.tail)
        else if c = 93 then .ok (.array (array ++ [element]), s.tail)
        else .error (.null none)

def readArray (s : List UInt8) : Except Stop (JsonValue F × List UInt8) :=
  if s.head? ≠ some 91 then .error (.null none)
  else
    let s := skipSpace s.tail
    if s.head? = some 93 then .ok (.array [], s.tail)
    else readElements readElement (size + 1) [] s

omit [Float64 F] in
theorem readArray_of_ne {s : List UInt8} (h : (skipSpace s).head? ≠ some 93) :
    readArray size readElement (91 :: s) =
      readElements readElement (size + 1) [] (skipSpace s) := by
  rw [readArray, if_neg (by simp)]
  exact if_neg h

def readKey (s : List UInt8) : Except Stop (List UInt8 × List UInt8) :=
  let s := skipSpace s
  if s.head? ≠ some 34 then .error (.null (some .jsonExpectedKey))
  else do
    let (key, s) ← readString holds s
    let s := skipSpace s
    if s.head? ≠ some 58 then .error (.null (some .jsonExpectedColon))
    else .ok (key, skipSpace s.tail)

def readMembers :
    ℕ → List (List UInt8 × JsonValue F) → List UInt8 → Except Stop (JsonValue F × List UInt8)
  | 0, _, _ => .error (.fault .diverges)
  | fuel + 1, dict, s =>
    if s = [] then .error (.null none)
    else do
      let (key, s) ← readKey holds s
      let (value, s) ← readElement s
      let dict ← jsonDictAppend holds dict key value
      let s := skipSpace s
      match s.head? with
      | none => .error (.null none)
      | some c =>
        if c = 44 then readMembers fuel dict (skipSpace s.tail)
        else if c = 125 then .ok (.dict dict, s.tail)
        else .error (.null none)

def readDict (s : List UInt8) : Except Stop (JsonValue F × List UInt8) :=
  if s.head? ≠ some 123 then .error (.null none)
  else
    let s := skipSpace s.tail
    if s.head? = some 125 then .ok (.dict [], s.tail)
    else readMembers holds readElement (size + 1) [] s

omit [Float64 F] in
theorem readDict_of_ne {s : List UInt8} (h : (skipSpace s).head? ≠ some 125) :
    readDict holds size readElement (123 :: s) =
      readMembers holds readElement (size + 1) [] (skipSpace s) := by
  rw [readDict, if_neg (by simp)]
  exact if_neg h

def readValue : ℕ → List UInt8 → Except Stop (JsonValue F × List UInt8)
  | 0, _ => .error (.fault .diverges)
  | depth + 1, s =>
    let s := skipSpace s
    match s.head? with
    | none => .error (.null none)
    | some c =>
      if c = 34 then do
        let (str, s) ← readString holds s
        .ok (.str str, s)
      else if c = 123 then readDict holds size (readValue depth) s
      else if c = 91 then readArray size (readValue depth) s
      else if c = 45 || isDigit c then readNumber s
      else if c = 116 || c = 102 || c = 110 then readLiteral s
      else .error (.null none)

def readText (s : List UInt8) : Except Stop (JsonValue F) :=
  if s = [] then .error (.null none)
  else do
    let (root, s) ← readValue holds s.length (s.length + 1) s
    if skipSpace s ≠ [] then .error (.null none)
    else .ok root

end Value

end Libromano.Json
