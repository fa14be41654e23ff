/- What becomes of an integer literal. The digits are accumulated in an `int64_t`, whatever the
   sign. -/

import Libromano.Json.Reread

set_option autoImplicit false
set_option relaxedAutoImplicit false

namespace Libromano.Json

open Foundation

variable {F : Type} [Float64 F]

/-- The numbers that an `int64_t` can be. -/
def FitsInt64 (x : ℤ) : Prop := -2 ^ 63 ≤ x ∧ x < 2 ^ 63

/-- Neither the product nor the sum of `int_val * 10 + (c - '0')` overflows. -/
def StepFits (intVal : Int64) (c : UInt8) : Prop :=
  FitsInt64 (intVal.toInt * 10) ∧ FitsInt64 (intVal.toInt * 10 + digitOf c)

/-- No step of the loop over the digits overflows. -/
def DigitsFit : Int64 × F → List UInt8 → Prop
  | _, [] => True
  | acc, c :: digits => StepFits acc.1 c ∧ DigitsFit (integerStep acc c) digits

/-- `int_val` after the loop. -/
def intVal (F : Type) [Float64 F] (digits : List UInt8) : Int64 :=
  (digits.foldl integerStep ((0, Float64.ofUInt64 0) : Int64 × F)).1

/-- The number that a literal stands for. -/
def literalValue (sign digits : List UInt8) : ℤ :=
  if sign = [] then Decimal.readOn 0 digits else -Decimal.readOn 0 digits

def JsonValue.Holds (value : JsonValue F) (x : ℤ) : Prop :=
  match value with
  | .u64 n => n.toNat = x
  | .i64 n => n.toInt = x
  | .f64 _ => True
  | _ => False

/-- An integer literal somewhere in the text. -/
structure IsLiteral (sign digits rest : List UInt8) : Prop where
  sign : sign = [] ∨ sign = [45]
  digits : Digits digits
  rest : EndsNumber rest

/-- The literal behind `before` is parsed to a node that holds it, and nothing overflows, neither
in the loop nor in `-int_val`. -/
structure ParsedExactly (F : Type) [Float64 F] (before sign digits rest : List UInt8) : Prop where
  value : ∃ (value : JsonValue F) (pos : ℕ),
    jsonParseNumber (before ++ (sign ++ (digits ++ rest))) before.length = .ok (value, pos) ∧
      pos = (before ++ (sign ++ digits)).length ∧ value.Holds (literalValue sign digits)
  loop : DigitsFit ((0, Float64.ofUInt64 0) : Int64 × F) digits
  negation : sign ≠ [] → FitsInt64 (-(intVal F digits).toInt)

private theorem readOn_cons (n : ℕ) (c : UInt8) (digits : List UInt8) :
    Decimal.readOn n (c :: digits) = Decimal.readOn (n * 10 + digitOf c) digits := by
  unfold Decimal.readOn
  rw [List.foldl_cons]
  rfl

private theorem le_readOn (n : ℕ) (digits : List UInt8) : n ≤ Decimal.readOn n digits := by
  induction digits generalizing n with
  | nil => exact le_refl n
  | cons c digits ih =>
    rw [readOn_cons]
    have hrest := ih (n * 10 + digitOf c)
    omega

private theorem digitOf_lt (c : UInt8) : digitOf c < 208 := by
  have hlt := c.toNat_lt
  unfold digitOf
  omega

private theorem stepFits_iff {intVal : Int64} {n : ℕ} (hval : intVal.toInt = n) (c : UInt8) :
    StepFits intVal c ↔ n * 10 + digitOf c < 2 ^ 63 := by
  unfold StepFits FitsInt64
  rw [hval]
  omega

private theorem integerStep_toInt {acc : Int64 × F} {n : ℕ} (hval : acc.1.toInt = n) {c : UInt8}
    (hfits : n * 10 + digitOf c < 2 ^ 63) :
    (integerStep acc c).1.toInt = (n * 10 + digitOf c : ℕ) := by
  have hdigit := digitOf_lt c
  unfold integerStep
  rw [Int64.toInt_add, Int64.toInt_mul, hval, Int64.toInt_ofNat_of_lt (by omega), Int.bmod_def,
    Int.bmod_def, show (10 : Int64).toInt = 10 from rfl]
  omega

private theorem digitsFit_iff {acc : Int64 × F} {n : ℕ} (hval : acc.1.toInt = n) (hn : n < 2 ^ 63)
    (digits : List UInt8) :
    DigitsFit acc digits ↔ Decimal.readOn n digits < 2 ^ 63 := by
  induction digits generalizing acc n with
  | nil => exact iff_of_true trivial hn
  | cons c digits ih =>
    unfold DigitsFit
    rw [readOn_cons, stepFits_iff hval]
    by_cases hfits : n * 10 + digitOf c < 2 ^ 63
    · rw [ih (integerStep_toInt hval hfits) hfits, and_iff_right hfits]
    · have hle := le_readOn (n * 10 + digitOf c) digits
      exact iff_of_false (fun h => hfits h.1) (by omega)

private theorem neg_bmod_iff (n : ℕ) :
    (-((n % 2 ^ 64 : ℕ) : ℤ).bmod (2 ^ 64)).bmod (2 ^ 64) = -n ↔ n ≤ 2 ^ 63 := by
  rw [Int.bmod_def, Int.bmod_def]
  split_ifs <;> omega

omit [Float64 F] in
private theorem holds_iff {intVal : Int64} {sign digits : List UInt8}
    (hval : intVal.toUInt64 = UInt64.ofNat (Decimal.readOn 0 digits)) :
    JsonValue.Holds (F := F) (if sign = [] then .u64 intVal.toUInt64 else .i64 (-intVal))
        (literalValue sign digits) ↔
      if sign = [] then Decimal.readOn 0 digits < 2 ^ 64 else Decimal.readOn 0 digits ≤ 2 ^ 63 := by
  have hnat := congrArg UInt64.toNat hval
  rw [UInt64.toNat_ofNat'] at hnat
  unfold literalValue
  by_cases hsign : sign = []
  · rw [if_pos hsign, if_pos hsign, if_pos hsign, JsonValue.Holds, hnat]
    omega
  · have hint : intVal.toInt = (intVal.toUInt64.toNat : ℤ).bmod (2 ^ 64) :=
      BitVec.toInt_eq_toNat_bmod intVal.toBitVec
    rw [if_neg hsign, if_neg hsign, if_neg hsign, JsonValue.Holds, Int64.toInt_neg, hint, hnat]
    exact neg_bmod_iff _

variable {before sign digits rest : List UInt8}

private theorem jsonParseNumber_literal (h : IsLiteral sign digits rest) (before : List UInt8) :
    ∃ intVal : Int64, intVal.toUInt64 = UInt64.ofNat (Decimal.readOn 0 digits) ∧
      jsonParseNumber (F := F) (before ++ (sign ++ (digits ++ rest))) before.length =
        .ok (if sign = [] then .u64 intVal.toUInt64 else .i64 (-intVal),
          (before ++ (sign ++ digits)).length) := by
  obtain ⟨intVal, hval, hread⟩ := readNumber_digits (F := F) h.sign h.digits h.rest
  refine ⟨intVal, hval, ?_⟩
  have hfollows :=
    jsonParseNumber_follows (F := F) (before ++ (sign ++ (digits ++ rest))) before.length
  rw [List.drop_left, hread] at hfollows
  generalize hresult : jsonParseNumber (F := F) _ _ = result at hfollows ⊢
  cases hfollows with
  | @ok parsed _ h =>
    obtain ⟨hvalue, hle, hdrop⟩ := h
    have hlength := congrArg List.length hdrop
    rw [List.length_drop] at hlength
    simp only [List.length_append] at hle hlength ⊢
    exact congrArg Except.ok (Prod.ext hvalue (by dsimp only; omega))

private theorem foldl_integerStep_toInt {acc : Int64 × F} {n : ℕ} (hval : acc.1.toInt = n)
    {digits : List UInt8} (hfits : Decimal.readOn n digits < 2 ^ 63) :
    (digits.foldl integerStep acc).1.toInt = Decimal.readOn n digits := by
  induction digits generalizing acc n with
  | nil => exact hval
  | cons c digits ih =>
    rw [readOn_cons] at hfits ⊢
    have hle := le_readOn (n * 10 + digitOf c) digits
    exact ih (integerStep_toInt hval (by omega)) hfits

/-- A literal is parsed to what it stands for, without an overflow, just when its digits make a
number below `2 ^ 63`. -/
theorem parsedExactly_iff (h : IsLiteral sign digits rest) (before : List UInt8) :
    ParsedExactly F before sign digits rest ↔ Decimal.readOn 0 digits < 2 ^ 63 := by
  have hzero : ((0, Float64.ofUInt64 0) : Int64 × F).1.toInt = (0 : ℕ) := rfl
  constructor
  · exact fun hparsed => (digitsFit_iff hzero (by decide) digits).mp hparsed.loop
  · intro hfits
    obtain ⟨n, hval, hparse⟩ := jsonParseNumber_literal (F := F) h before
    refine ⟨⟨_, _, hparse, rfl, (holds_iff hval).mpr ?_⟩, ?_, fun _ => ?_⟩
    · split <;> omega
    · exact (digitsFit_iff hzero (by decide) digits).mpr hfits
    · have hint : (intVal F digits).toInt = Decimal.readOn 0 digits :=
        foldl_integerStep_toInt hzero hfits
      unfold FitsInt64
      rw [hint]
      omega

/-- `-42,` is parsed to the number. -/
theorem parsedExactly_iff_small :
    ParsedExactly ℚ [] [45] [52, 50] [44] ↔ Decimal.readOn 0 [52, 50] < 2 ^ 63 := by
  have hdigits : Digits [52, 50] :=
    ⟨List.cons_ne_nil _ _, List.forall_mem_cons.mpr ⟨rfl, List.forall_mem_singleton.mpr rfl⟩⟩
  refine parsedExactly_iff ⟨.inr rfl, hdigits, ?_⟩ []
  intro c hc
  cases hc
  decide

/-- Without regard to the overflows, the node holds the number of the literal as long as that is a
number of its type. -/
private theorem jsonParseNumber_holds_iff (h : IsLiteral sign digits rest) (before : List UInt8) :
    (∃ (value : JsonValue F) (pos : ℕ),
      jsonParseNumber (before ++ (sign ++ (digits ++ rest))) before.length = .ok (value, pos) ∧
        value.Holds (literalValue sign digits)) ↔
      -2 ^ 63 ≤ literalValue sign digits ∧ literalValue sign digits < 2 ^ 64 := by
  obtain ⟨n, hval, hparse⟩ := jsonParseNumber_literal (F := F) h before
  have hvalue : (if sign = [] then Decimal.readOn 0 digits < 2 ^ 64
      else Decimal.readOn 0 digits ≤ 2 ^ 63) ↔
      -2 ^ 63 ≤ literalValue sign digits ∧ literalValue sign digits < 2 ^ 64 := by
    unfold literalValue
    split <;> omega
  rw [← hvalue, ← holds_iff (F := F) hval]
  constructor
  · rintro ⟨value, pos, hparse', hholds⟩
    cases hparse.symm.trans hparse'
    exact hholds
  · exact fun hholds => ⟨_, _, hparse, hholds⟩

/-- `18446744073709551616` is parsed to zero. -/
theorem literals_not_parsedExactly :
    ¬∀ before sign digits rest : List UInt8, IsLiteral sign digits rest →
      ParsedExactly ℚ before sign digits rest := by
  intro h
  have hliteral : IsLiteral [] (Decimal.decimal (2 ^ 64)) [] :=
    ⟨.inl rfl, digits_decimal _, fun c hc => by cases hc⟩
  obtain ⟨value, pos, hparse, -, hholds⟩ := (h [] [] _ [] hliteral).value
  have hlt := ((jsonParseNumber_holds_iff hliteral []).mp ⟨value, pos, hparse, hholds⟩).2
  rw [literalValue, if_pos rfl, Decimal.readOn_decimal] at hlt
  omega

end Libromano.Json
