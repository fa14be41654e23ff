/- Numbers and strings: the reader takes what the grammar derives, and as much of the input as
   belongs to it. -/

import Libromano.Json.Grammar

set_option autoImplicit false
set_option relaxedAutoImplicit false

namespace Libromano.Json

section Number

variable {F : Type} {d : Dialect} {s w rest : List UInt8}

def EndsDigits (rest : List UInt8) : Prop := ∀ c, rest.head? = some c → isDigit c = false

def EndsNumber (rest : List UInt8) : Prop :=
  ∀ c, rest.head? = some c → isDigit c = false ∧ c ≠ 46 ∧ c ≠ 101 ∧ c ≠ 69

theorem readDigits_eq {α : Type} (step : α → UInt8 → α) (acc : α) (s : List UInt8) :
    readDigits (fun _ => true) step acc s =
      ((s.takeWhile isDigit).foldl step acc, s.dropWhile isDigit) := by
  induction s generalizing acc with
  | nil => rfl
  | cons c s ih =>
    by_cases hc : isDigit c = true
    · simp [readDigits, hc, ih]
    · simp [readDigits, hc]

private theorem readDigits_rest {α : Type} (more : α → Bool) (step : α → UInt8 → α) (acc : α)
    (s : List UInt8) : (readDigits more step acc s).2.dropWhile isDigit = s.dropWhile isDigit := by
  induction s generalizing acc with
  | nil => rfl
  | cons c s ih =>
    rw [readDigits]
    split_ifs with hgo
    · rw [Bool.and_eq_true] at hgo
      rw [ih, List.dropWhile_cons_of_pos hgo.1]
    · rfl

theorem takeWhile_digits (hw : Digits w) (hrest : EndsDigits rest) :
    (w ++ rest).takeWhile isDigit = w ∧ (w ++ rest).dropWhile isDigit = rest := by
  rw [List.takeWhile_append_of_pos hw.2, List.dropWhile_append_of_pos hw.2]
  cases rest with
  | nil => simp
  | cons c rest => simp [hrest c rfl]

private theorem digits_takeWhile (h : ¬(!s.head?.any isDigit) = true) :
    Digits (s.takeWhile isDigit) := by
  refine ⟨?_, fun c hc => List.mem_takeWhile_imp hc⟩
  cases s with
  | nil => simp at h
  | cons c s =>
    have hdigit : isDigit c = true := by simpa using h
    simp [hdigit]

theorem digits_head (hw : Digits w) (rest : List UInt8) :
    ¬(!(w ++ rest).head?.any isDigit) = true := by
  obtain ⟨c, w, rfl⟩ := List.exists_cons_of_ne_nil hw.1
  simp [hw.2 c List.mem_cons_self]

theorem digits_head_ne (hw : Digits w) {k : UInt8} (hk : isDigit k = false) (rest : List UInt8) :
    (w ++ rest).head? ≠ some k := by
  obtain ⟨c, w, rfl⟩ := List.exists_cons_of_ne_nil hw.1
  have hc := hw.2 c List.mem_cons_self
  rintro ⟨⟩
  rw [hk] at hc
  cases hc

private theorem exists_sign (s : List UInt8) :
    ∃ sign ∈ ([[], [43], [45]] : List (List UInt8)), s = sign ++ skipSign (hasSign s) s := by
  cases s with
  | nil => exact ⟨[], by simp, rfl⟩
  | cons c s =>
    by_cases hminus : c = 45
    · subst hminus
      exact ⟨[45], by simp, rfl⟩
    · by_cases hplus : c = 43
      · subst hplus
        exact ⟨[43], by simp, rfl⟩
      · exact ⟨[], by simp, by simp [hasSign, skipSign, hminus, hplus]⟩

private theorem skipSign_append {sign : List UInt8}
    (hsign : sign ∈ ([[], [43], [45]] : List (List UInt8))) (hw : Digits w) (rest : List UInt8) :
    skipSign (hasSign (sign ++ (w ++ rest))) (sign ++ (w ++ rest)) = w ++ rest := by
  simp only [List.mem_cons, List.not_mem_nil, or_false] at hsign
  rcases hsign with rfl | rfl | rfl
  · have hno : hasSign (w ++ rest) = false := by
      rw [hasSign, decide_eq_false (digits_head_ne hw rfl rest),
        decide_eq_false (digits_head_ne hw rfl rest)]
      rfl
    rw [List.nil_append, hno, skipSign]
    rfl
  · rfl
  · rfl

private theorem readExponent_sound {r : Bool × Int32} (h : readExponent s = .ok (r, rest)) :
    ∃ w, s = w ++ rest ∧ Exponent accepted w := by
  rw [readExponent] at h
  by_cases he : s.head? = some 101 ∨ s.head? = some 69
  · rw [if_pos he] at h
    obtain ⟨e, hhead⟩ : ∃ e, s.head? = some e := he.elim (fun h => ⟨_, h⟩) fun h => ⟨_, h⟩
    obtain ⟨sign, hsign, hsplit⟩ := exists_sign s.tail
    simp only [readDigits_eq] at h
    generalize skipSign (hasSign s.tail) s.tail = start at h hsplit
    split_ifs at h with hdigit
    all_goals cases h
    all_goals
      refine ⟨e :: (sign ++ start.takeWhile isDigit), ?_,
        .digits rfl (by simpa [hhead] using he) hsign (digits_takeWhile hdigit)⟩
      rw [List.cons_append, List.append_assoc, List.takeWhile_append_dropWhile, ← hsplit,
        List.cons_head?_tail hhead]
  · rw [if_neg he] at h
    cases h
    exact ⟨[], rfl, .none⟩

private theorem readExponent_complete (hw : Exponent d w) (hrest : EndsNumber rest) :
    ∃ r, readExponent (w ++ rest) = .ok (r, rest) ∧ (d.fractions = false → r.1 = false) := by
  cases hw with
  | none =>
    refine ⟨(false, 0), ?_, fun _ => rfl⟩
    have hnot : ¬(rest.head? = some 101 ∨ rest.head? = some 69) := by
      rintro (he | he)
      · exact (hrest _ he).2.2.1 rfl
      · exact (hrest _ he).2.2.2 rfl
    rw [readExponent, List.nil_append, if_neg hnot]
  | @digits e sign w hd he hsign hw =>
    have hhead : (e :: (sign ++ (w ++ rest))).head? = some 101 ∨
        (e :: (sign ++ (w ++ rest))).head? = some 69 := by simpa using he
    rw [readExponent, List.cons_append, List.append_assoc, if_pos hhead]
    simp only [List.tail_cons, skipSign_append hsign hw, if_neg (digits_head hw rest),
      readDigits_eq, (takeWhile_digits hw fun c hc => (hrest c hc).1).2]
    exact ⟨_, rfl, fun hno => by rw [hno] at hd; cases hd⟩

variable [Float64 F]

private theorem readFraction_sound {floatVal : F} {r : Bool × F}
    (h : readFraction floatVal s = .ok (r, rest)) : ∃ w, s = w ++ rest ∧ Fraction accepted w := by
  rw [readFraction] at h
  split_ifs at h with hpoint hdigit
  · cases h
    refine ⟨46 :: s.tail.takeWhile isDigit, ?_, .digits rfl (digits_takeWhile hdigit)⟩
    rw [readDigits_eq, readDigits_rest, List.cons_append, List.takeWhile_append_dropWhile,
      List.cons_head?_tail hpoint]
  · cases h
    exact ⟨[], rfl, .none⟩

private theorem readFraction_complete (floatVal : F) (hw : Fraction d w) (hdigit : EndsDigits rest)
    (hpoint : rest.head? ≠ some 46) :
    ∃ r, readFraction floatVal (w ++ rest) = .ok (r, rest) ∧ (d.fractions = false → r.1 = false) := by
  cases hw with
  | none => exact ⟨_, by rw [readFraction, List.nil_append, if_neg hpoint], fun _ => rfl⟩
  | digits hd hw =>
    rw [readFraction, List.cons_append, if_pos List.head?_cons, List.tail_cons,
      if_neg (digits_head hw rest)]
    simp only [readDigits_eq, readDigits_rest, (takeWhile_digits hw hdigit).2]
    exact ⟨_, rfl, fun hno => by rw [hno] at hd; cases hd⟩

def IsNumber : JsonValue F → Prop
  | .u64 _ | .i64 _ | .f64 _ => True
  | _ => False

omit [Float64 F] in
theorem IsNumber.stringsSatisfy {P : List UInt8 → Prop} {v : JsonValue F} (h : IsNumber v) :
    v.StringsSatisfy P := by
  intro s hs
  cases v with
  | u64 | i64 | f64 => simp [JsonValue.leaves] at hs
  | null | bool | str | array | dict => exact h.elim

private theorem isNumber_numberValue (isNegative isFloat : Bool) (intVal : Int64) (floatVal : F)
    (exponent : Int32) :
    IsNumber (numberValue isNegative isFloat intVal floatVal exponent) := by
  rw [numberValue]
  split_ifs
  all_goals trivial

private theorem floatFree_numberValue (isNegative : Bool) (intVal : Int64) (floatVal : F)
    (exponent : Int32) :
    (numberValue isNegative false intVal floatVal exponent).FloatFree := by
  intro x hx
  cases isNegative
  all_goals simp [numberValue, JsonValue.leaves] at hx

private theorem exists_minus (s : List UInt8) : ∃ sign, (sign = [] ∨ sign = [45]) ∧
    s = sign ++ skipSign (decide (s.head? = some 45)) s := by
  by_cases hminus : s.head? = some 45
  · exact ⟨[45], .inr rfl, by simp [hminus, skipSign, List.cons_head?_tail hminus]⟩
  · exact ⟨[], .inl rfl, by simp [hminus, skipSign]⟩

theorem readNumber_sound {v : JsonValue F} (h : readNumber s = .ok (v, rest)) :
    (∃ w, s = w ++ rest ∧ Number accepted w) ∧ IsNumber v := by
  rw [readNumber] at h
  obtain ⟨sign, hsign, hsplit⟩ := exists_minus s
  generalize skipSign (decide (s.head? = some 45)) s = start at h hsplit
  simp only [readDigits_eq] at h
  split_ifs at h with hdigit
  obtain ⟨⟨⟨hasFraction, floatVal⟩, rest₁⟩, hfraction, h⟩ := bind_eq_ok.mp h
  obtain ⟨⟨⟨hasExponent, exponent⟩, rest₂⟩, hexponent, h⟩ := bind_eq_ok.mp h
  obtain ⟨frac, hfrac, hfrac'⟩ := readFraction_sound hfraction
  obtain ⟨exp, hexp, hexp'⟩ := readExponent_sound hexponent
  cases h
  refine ⟨⟨sign ++ (start.takeWhile isDigit ++ (frac ++ exp)), ?_,
    .parts hsign ⟨digits_takeWhile hdigit, .inl rfl⟩ hfrac' hexp'⟩,
    isNumber_numberValue _ _ _ _ _⟩
  rw [List.append_assoc, List.append_assoc, List.append_assoc, ← hexp, ← hfrac,
    List.takeWhile_append_dropWhile, ← hsplit]

theorem skipMinus_append {sign : List UInt8} (hsign : sign = [] ∨ sign = [45]) (hw : Digits w)
    (rest : List UInt8) :
    skipSign (decide ((sign ++ (w ++ rest)).head? = some 45)) (sign ++ (w ++ rest)) = w ++ rest := by
  rcases hsign with rfl | rfl
  · rw [List.nil_append, decide_eq_false (digits_head_ne hw rfl rest)]
    rfl
  · rfl

private theorem exponent_head (hw : Exponent d w) (hrest : EndsNumber rest) :
    EndsDigits (w ++ rest) ∧ (w ++ rest).head? ≠ some 46 := by
  cases hw with
  | none => exact ⟨fun c hc => (hrest c hc).1, fun hc => (hrest 46 hc).2.1 rfl⟩
  | digits hd he hsign hw =>
    rcases he with rfl | rfl
    · refine ⟨?_, by simp⟩
      rintro c ⟨⟩
      rfl
    · refine ⟨?_, by simp⟩
      rintro c ⟨⟩
      rfl

private theorem fraction_head (hw : Fraction d w) (hrest : EndsDigits rest) :
    EndsDigits (w ++ rest) := by
  cases hw with
  | none => exact hrest
  | digits hd hw =>
    rintro c ⟨⟩
    rfl

theorem readNumber_complete (hw : Number d w) (hrest : EndsNumber rest) :
    ∃ v : JsonValue F, readNumber (w ++ rest) = .ok (v, rest) ∧ IsNumber v ∧
      (d.fractions = false → v.FloatFree) := by
  cases hw with
  | @parts sign int frac exp hsign hint hfrac hexp =>
    obtain ⟨hends, hpoint⟩ := exponent_head hexp hrest
    obtain ⟨⟨hasFraction, floatVal⟩, hfraction, hnoFraction⟩ := readFraction_complete
      (int.foldl integerStep (0, Float64.ofUInt64 0) : Int64 × F).2 hfrac hends hpoint
    obtain ⟨⟨hasExponent, exponent⟩, hexponent, hnoExponent⟩ := readExponent_complete hexp hrest
    have hdigits := takeWhile_digits hint.1 (fraction_head hfrac hends)
    refine ⟨numberValue (decide ((sign ++ (int ++ (frac ++ (exp ++ rest)))).head? = some 45))
      (hasFraction || hasExponent) (int.foldl integerStep (0, Float64.ofUInt64 0) : Int64 × F).1
      floatVal exponent, ?_, isNumber_numberValue _ _ _ _ _, ?_⟩
    · rw [readNumber]
      simp only [List.append_assoc, skipMinus_append hsign hint.1, readDigits_eq,
        if_neg (digits_head hint.1 (frac ++ (exp ++ rest))), hdigits.1, hdigits.2, hfraction, bind_ok,
        hexponent]
    · intro hd
      rw [show hasFraction = false from hnoFraction hd, show hasExponent = false from hnoExponent hd]
      exact floatFree_numberValue _ _ _ _

end Number

section Strings

variable {d : Dialect} {s w rest : List UInt8} {chars : List (List UInt8)} {holds : ℕ → Bool}

def isLegible (c : UInt8) : Bool := !decide (c < 32) || ([8, 9, 10, 12, 13] : List UInt8).contains c

def Legible (s : List UInt8) : Prop := ∀ c ∈ s, isLegible c = true

private theorem legible_unescape (c : UInt8) : Legible (unescape c) := by
  unfold unescape
  split_ifs
  all_goals
    intro x hx
    simp only [List.mem_singleton, List.not_mem_nil] at hx
    try subst hx
    try rfl

private theorem legible_flatten_cons {char : List UInt8} (hchar : Legible char)
    (hchars : Legible chars.flatten) : Legible (char :: chars).flatten := by
  intro c hc
  rw [List.flatten_cons, List.mem_append] at hc
  exact hc.elim (hchar c) (hchars c)

private theorem readChars_sound (h : readChars s = some (chars, rest)) :
    (∃ w, s = w ++ 34 :: rest ∧ Chars accepted w) ∧ Legible chars.flatten := by
  induction s using readChars.induct generalizing chars with
  | case1 => simp [readChars] at h
  | case2 s =>
    rw [readChars_quote] at h
    cases h
    exact ⟨⟨[], rfl, .nil⟩, fun _ hc => absurd hc List.not_mem_nil⟩
  | case3 => simp [readChars] at h
  | case4 a b c e s _ ih =>
    rw [readChars_unicode, Option.map_eq_some_iff] at h
    obtain ⟨⟨chars', rest'⟩, hread, heq⟩ := h
    cases heq
    obtain ⟨⟨w, rfl, hw⟩, hlegible⟩ := ih hread
    exact ⟨⟨_, rfl, .unicode (.inl rfl) hw⟩, legible_flatten_cons (legible_unescape 117) hlegible⟩
  | case5 s hshort _ =>
    rw [readChars_short (length_lt_four hshort)] at h
    cases h
  | case6 escape s hu _ ih =>
    rw [readChars_escape hu, Option.map_eq_some_iff] at h
    obtain ⟨⟨chars', rest'⟩, hread, heq⟩ := h
    cases heq
    obtain ⟨⟨w, rfl, hw⟩, hlegible⟩ := ih hread
    exact ⟨⟨_, rfl, .escape (.inr ⟨rfl, hu⟩) hw⟩,
      legible_flatten_cons (legible_unescape escape) hlegible⟩
  | case7 c s _ _ hcontrol =>
    rw [readChars_control hcontrol] at h
    cases h
  | case8 c s hquote hslash hcontrol ih =>
    rw [readChars_plain hquote hslash hcontrol, Option.map_eq_some_iff] at h
    obtain ⟨⟨chars', rest'⟩, hread, heq⟩ := h
    cases heq
    obtain ⟨⟨w, rfl, hw⟩, hlegible⟩ := ih hread
    refine ⟨⟨_, rfl, .plain hcontrol hquote hslash hw⟩, legible_flatten_cons ?_ hlegible⟩
    intro x hx
    rw [List.mem_singleton.mp hx]
    simp [isLegible, hcontrol]

private theorem readChars_complete (hw : Chars d w) (rest : List UInt8) :
    ∃ chars, readChars (w ++ 34 :: rest) = some (chars, rest) := by
  induction hw with
  | nil => exact ⟨[], readChars_quote rest⟩
  | plain hcontrol hquote hslash hw ih =>
    obtain ⟨chars, hread⟩ := ih
    rw [List.cons_append, readChars_plain hquote hslash hcontrol, hread]
    exact ⟨_, rfl⟩
  | @escape c w hc hw ih =>
    obtain ⟨chars, hread⟩ := ih
    have hu : c ≠ 117 := by
      rcases hc with hc | hc
      · rintro rfl
        exact absurd hc (by decide)
      · exact hc.2
    rw [List.cons_append, List.cons_append, readChars_escape hu, hread]
    exact ⟨_, rfl⟩
  | unicode hhex hw ih =>
    obtain ⟨chars, hread⟩ := ih
    simp only [List.cons_append, readChars_unicode, hread]
    exact ⟨_, rfl⟩

theorem readString_sound {bytes : List UInt8} (h : readString holds s = .ok (bytes, rest)) :
    (∃ w, s = 34 :: (w ++ 34 :: rest) ∧ Chars accepted w) ∧ Legible bytes := by
  rw [readString] at h
  split_ifs at h with hquote
  cases hread : readChars s.tail with
  | none => simp [hread] at h
  | some found =>
    obtain ⟨chars, rest'⟩ := found
    rw [hread] at h
    simp only at h
    split_ifs at h with hholds
    cases h
    obtain ⟨⟨w, hw, hchars⟩, hlegible⟩ := readChars_sound hread
    refine ⟨⟨w, ?_, hchars⟩, hlegible⟩
    rw [← hw, List.cons_head?_tail (not_ne_iff.mp hquote)]

theorem readString_complete (hw : Chars d w) (rest : List UInt8) :
    ∃ bytes, readString (fun _ => true) (34 :: (w ++ 34 :: rest)) = .ok (bytes, rest) := by
  obtain ⟨chars, hread⟩ := readChars_complete hw rest
  exact ⟨chars.flatten, by simp [readString, hread]⟩

end Strings

end Libromano.Json
