/- The parser computes what the reader computes on the rest of the buffer. This is where the two
   passes over a string are shown to walk in step. -/

import Libromano.Foundation.Lockstep
import Libromano.Json.Reader

set_option autoImplicit false
set_option relaxedAutoImplicit false

namespace Libromano.Json

open Foundation

variable {str : List UInt8} {pos : ℕ}

/-- The same value, and the reader's rest begins at the parser's position. -/
def Reads {α : Type} (str : List UInt8) (p : α × ℕ) (q : α × List UInt8) : Prop :=
  p.1 = q.1 ∧ p.2 ≤ str.length ∧ str.drop p.2 = q.2

abbrev Follows {α : Type} (str : List UInt8) :
    Except Stop (α × ℕ) → Except Stop (α × List UInt8) → Prop := Lockstep (Reads str)

private theorem byteAt_of_lt (h : pos < str.length) : byteAt str pos = .ok str[pos] := by
  simp [byteAt, h]

private theorem peek_eq (str : List UInt8) (pos : ℕ) : peek str pos = .ok (str.drop pos).head? := by
  rw [peek, List.head?_drop]
  split_ifs with h
  · rw [byteAt_of_lt h, bind_ok, List.getElem?_eq_getElem h]
  · rw [List.getElem?_eq_none (by omega)]

private theorem lt_of_head? {c : UInt8} (h : (str.drop pos).head? = some c) : pos < str.length := by
  rw [List.head?_drop] at h
  exact (List.getElem?_eq_some_iff.mp h).1

private theorem drop_of_head? {c : UInt8} (h : (str.drop pos).head? = some c) :
    str.drop pos = c :: str.drop (pos + 1) := by
  rw [← List.tail_drop, List.cons_head?_tail h]

private theorem skipWhitespaceLoop_eq {fuel : ℕ} (hfuel : str.length < pos + fuel)
    (hpos : pos ≤ str.length) :
    ∃ pos', skipWhitespaceLoop fuel str pos = .ok pos' ∧ pos' ≤ str.length ∧
      str.drop pos' = skipSpace (str.drop pos) := by
  induction fuel generalizing pos with
  | zero => omega
  | succ fuel ih =>
    rw [skipWhitespaceLoop, peek_eq, bind_ok]
    cases hc : (str.drop pos).head? with
    | none => exact ⟨pos, rfl, hpos, by rw [List.head?_eq_none_iff.mp hc]; rfl⟩
    | some c =>
      have hlt : pos < str.length := lt_of_head? hc
      rw [drop_of_head? hc]
      by_cases hspace : isWhitespace c = true
      · obtain ⟨pos', hok, hle, hdrop⟩ := ih (show str.length < pos + 1 + fuel by omega) hlt
        refine ⟨pos', ?_, hle, ?_⟩
        · simpa [hspace] using hok
        · simpa [skipSpace, hspace] using hdrop
      · refine ⟨pos, ?_, hpos, ?_⟩
        · simp [hspace]
        · simp [skipSpace, hspace, drop_of_head? hc]

private theorem jsonSkipWhitespace_eq (hpos : pos ≤ str.length) :
    ∃ pos', jsonSkipWhitespace str pos = .ok pos' ∧ pos' ≤ str.length ∧
      str.drop pos' = skipSpace (str.drop pos) :=
  skipWhitespaceLoop_eq (by omega) hpos

private theorem head_of_drop {c : UInt8} {s : List UInt8} (h : str.drop pos = c :: s) :
    peek str pos = .ok (some c) ∧ byteAt str pos = .ok c ∧ pos < str.length ∧
      str.drop (pos + 1) = s := by
  have hhead : (str.drop pos).head? = some c := by rw [h]; rfl
  have hlt := lt_of_head? hhead
  have hget : str[pos] = c := by
    rw [List.head?_drop, List.getElem?_eq_getElem hlt] at hhead
    exact Option.some.inj hhead
  refine ⟨by rw [peek_eq, hhead], by rw [byteAt_of_lt hlt, hget], hlt, ?_⟩
  rw [← List.tail_drop, h, List.tail_cons]

private theorem scanString_plain {c : UInt8} {s : List UInt8} (h : str.drop pos = c :: s)
    (hquote : c ≠ 34) (hslash : c ≠ 92) (hcontrol : ¬c < 32) (fuel len : ℕ) (hasEscape : Bool) :
    scanString (fuel + 1) str pos len hasEscape =
      scanString fuel str (pos + 1) (len + 1) hasEscape := by
  simp only [scanString, (head_of_drop h).1, bind_ok, hquote, hslash, hcontrol, if_false]

private theorem scanString_escape {escape : UInt8} {s : List UInt8} {skip : ℕ}
    (h : str.drop pos = 92 :: escape :: s) (hskip : skip = if escape = 117 then 4 else 0)
    (hroom : escape = 117 → pos + 1 + 4 < str.length) (fuel len : ℕ) (hasEscape : Bool) :
    scanString (fuel + 1) str pos len hasEscape =
      scanString fuel str (pos + 2 + skip) (len + 1) true := by
  obtain ⟨hpeek, -, -, hdrop⟩ := head_of_drop h
  obtain ⟨hpeek', -, -, -⟩ := head_of_drop hdrop
  simp only [scanString, hpeek, hpeek', bind_ok]
  by_cases hu : escape = 117
  · rw [if_pos hu] at hskip
    subst hskip
    simp [hu, Nat.not_le.mpr (hroom hu)]
  · rw [if_neg hu] at hskip
    subst hskip
    simp [hu]

/-- What the two passes find between `pos` and the closing quote, when the
reader finds the characters `chars`. -/
structure Passes (str : List UInt8) (pos stop : ℕ) (chars : List (List UInt8)) (escaped : Bool) :
    Prop where
  scan : ∀ fuel len hasEscape, str.length < pos + fuel →
    scanString fuel str pos len hasEscape = .ok (stop, len + chars.length, hasEscape || escaped)
  decode : ∀ fuel room written, str.length < pos + fuel → written.length + chars.length ≤ room →
    decodeString fuel str room stop pos written = .ok (written ++ chars.flatten, stop)
  plain : escaped = false →
    pos + chars.length = stop ∧ chars.flatten = (str.drop pos).take chars.length
  le : pos ≤ stop
  lt : stop < str.length
  size : chars.flatten.length ≤ chars.length

namespace Passes

variable {stop : ℕ} {chars : List (List UInt8)} {escaped : Bool} {s : List UInt8}

private theorem nil (h : str.drop pos = 34 :: s) : Passes str pos pos [] false where
  scan fuel len hasEscape hfuel := by
    obtain ⟨hpeek, -, hlt, -⟩ := head_of_drop h
    cases fuel with
    | zero => omega
    | succ fuel => simp [scanString, hpeek]
  decode fuel room written hfuel hroom := by
    obtain ⟨-, -, hlt, -⟩ := head_of_drop h
    cases fuel with
    | zero => omega
    | succ fuel => simp [decodeString]
  plain _ := ⟨rfl, rfl⟩
  le := Nat.le_refl pos
  lt := (head_of_drop h).2.2.1
  size := Nat.le_refl 0

private theorem plain_cons {c : UInt8} (h : str.drop pos = c :: s) (hquote : c ≠ 34)
    (hslash : c ≠ 92)
    (hcontrol : ¬c < 32) (hnext : Passes str (pos + 1) stop chars escaped) :
    Passes str pos stop ([c] :: chars) escaped := by
  obtain ⟨-, hbyte, hlt, hdrop⟩ := head_of_drop h
  have hle : pos + 1 ≤ stop := hnext.le
  constructor
  · intro fuel len hasEscape hfuel
    cases fuel with
    | zero => omega
    | succ fuel =>
      rw [scanString_plain h hquote hslash hcontrol, hnext.scan fuel (len + 1) hasEscape (by omega),
        List.length_cons, Nat.add_assoc, Nat.add_comm 1]
  · intro fuel room written hfuel hroom
    rw [List.length_cons] at hroom
    cases fuel with
    | zero => omega
    | succ fuel =>
      have hstore : store room written [c] = .ok (written ++ [c]) := by
        rw [store, if_pos (by rw [List.length_singleton]; omega)]
      simp only [decodeString, hbyte, bind_ok, hslash, if_false, hstore, if_pos (show pos < stop by omega)]
      rw [hnext.decode fuel room (written ++ [c]) (by omega) (by simp; omega), List.flatten_cons,
        List.append_assoc]
  · intro hplain
    obtain ⟨hstop, hbytes⟩ := hnext.plain hplain
    rw [List.flatten_cons, hbytes, List.length_cons, h, hdrop, List.take_succ_cons,
      List.singleton_append]
    exact ⟨by omega, rfl⟩
  · omega
  · exact hnext.lt
  · rw [List.flatten_cons, List.length_append, List.length_singleton, List.length_cons,
      Nat.add_comm]
    exact Nat.succ_le_succ hnext.size

private theorem escape_cons {escape : UInt8} {skip : ℕ} (h : str.drop pos = 92 :: escape :: s)
    (hskip : skip = if escape = 117 then 4 else 0) (hroom : pos + 2 + skip ≤ str.length)
    (hnext : Passes str (pos + 2 + skip) stop chars escaped) :
    Passes str pos stop (unescape escape :: chars) true := by
  obtain ⟨-, hbyte, hlt, hdrop⟩ := head_of_drop h
  obtain ⟨-, hbyte', hlt', -⟩ := head_of_drop hdrop
  have hle : pos + 2 + skip ≤ stop := hnext.le
  have hunescape := length_unescape_le escape
  have hlast : escape = 117 → pos + 1 + 4 < str.length := by
    intro hu
    rw [if_pos hu] at hskip
    omega
  constructor
  · intro fuel len hasEscape hfuel
    cases fuel with
    | zero => omega
    | succ fuel =>
      rw [scanString_escape h hskip hlast, hnext.scan fuel (len + 1) true (by omega),
        List.length_cons, Nat.add_assoc, Nat.add_comm 1, Bool.or_true, Bool.true_or]
  · intro fuel room written hfuel hroom'
    rw [List.length_cons] at hroom'
    cases fuel with
    | zero => omega
    | succ fuel =>
      have hstore : store room written (unescape escape) = .ok (written ++ unescape escape) := by
        rw [store, if_pos (by omega)]
      have hi : (if escape = 117 then pos + 1 + 4 else pos + 1) + 1 = pos + 2 + skip := by
        rw [hskip]
        split_ifs <;> omega
      simp only [decodeString, hbyte, hbyte', bind_ok, if_true, hstore, hi,
        if_pos (show pos < stop by omega)]
      rw [hnext.decode fuel room _ (by omega) (by rw [List.length_append]; omega),
        List.flatten_cons, List.append_assoc]
  · intro hplain
    cases hplain
  · omega
  · exact hnext.lt
  · rw [List.flatten_cons, List.length_append, List.length_cons]
    have := hnext.size
    omega

end Passes

/-- The first pass finds no closing quote before the end of the buffer. -/
def Unclosed (str : List UInt8) (pos : ℕ) : Prop :=
  ∀ fuel len hasEscape, str.length < pos + fuel →
    scanString fuel str pos len hasEscape = .error (.null none) ∨
      ∃ r, scanString fuel str pos len hasEscape = .ok r ∧ str.length ≤ r.1

namespace Unclosed

variable {s : List UInt8}

private theorem plain_cons {c : UInt8} (h : str.drop pos = c :: s) (hquote : c ≠ 34)
    (hslash : c ≠ 92)
    (hcontrol : ¬c < 32) (hnext : Unclosed str (pos + 1)) : Unclosed str pos := by
  intro fuel len hasEscape hfuel
  have hlt := (head_of_drop h).2.2.1
  cases fuel with
  | zero => omega
  | succ fuel =>
    rw [scanString_plain h hquote hslash hcontrol]
    exact hnext fuel (len + 1) hasEscape (by omega)

private theorem escape_cons {escape : UInt8} {skip : ℕ} (h : str.drop pos = 92 :: escape :: s)
    (hskip : skip = if escape = 117 then 4 else 0)
    (hroom : escape = 117 → pos + 1 + 4 < str.length)
    (hnext : Unclosed str (pos + 2 + skip)) : Unclosed str pos := by
  intro fuel len hasEscape hfuel
  have hlt := (head_of_drop h).2.2.1
  cases fuel with
  | zero => omega
  | succ fuel =>
    rw [scanString_escape h hskip hroom]
    exact hnext fuel (len + 1) true (by omega)

private theorem of_null (hpos : pos < str.length) (h : ∀ fuel len hasEscape,
    scanString (fuel + 1) str pos len hasEscape = .error (.null none)) : Unclosed str pos := by
  intro fuel len hasEscape hfuel
  cases fuel with
  | zero => omega
  | succ fuel => exact .inl (h fuel len hasEscape)

end Unclosed

/-- What the two passes make of the characters that the reader finds. -/
def Agrees (str : List UInt8) (pos : ℕ) : Option (List (List UInt8) × List UInt8) → Prop
  | none => Unclosed str pos
  | some (chars, rest) =>
    ∃ stop escaped, Passes str pos stop chars escaped ∧ str.drop (stop + 1) = rest

private theorem Agrees.map {pos' : ℕ} {r : Option (List (List UInt8) × List UInt8)}
    {char : List UInt8} (escaped' : Bool → Bool) (h : Agrees str pos' r)
    (hunclosed : Unclosed str pos' → Unclosed str pos)
    (hpasses : ∀ stop chars escaped, Passes str pos' stop chars escaped →
      Passes str pos stop (char :: chars) (escaped' escaped)) :
    Agrees str pos (r.map fun (chars, rest) => (char :: chars, rest)) := by
  cases r with
  | none => exact hunclosed h
  | some found =>
    obtain ⟨stop, escaped, hfound, hrest⟩ := h
    exact ⟨stop, escaped' escaped, hpasses stop _ escaped hfound, hrest⟩

/-- The reader finds a string where the two passes do, and they go over the
same characters. -/
theorem agrees_readChars {s : List UInt8} (hs : str.drop pos = s) (hpos : pos ≤ str.length) :
    Agrees str pos (readChars s) := by
  induction s using readChars.induct generalizing pos with
  | case1 =>
    have hend : str.length ≤ pos := List.drop_eq_nil_iff.mp hs
    intro fuel len hasEscape hfuel
    cases fuel with
    | zero => omega
    | succ fuel =>
      refine .inr ⟨(pos, len, hasEscape), ?_, hend⟩
      rw [scanString, peek_eq, hs]
      rfl
  | case2 s =>
    rw [readChars_quote]
    exact ⟨pos, false, .nil hs, (head_of_drop hs).2.2.2⟩
  | case3 =>
    obtain ⟨hpeek, -, hlt, hdrop⟩ := head_of_drop hs
    apply Unclosed.of_null hlt
    intro fuel len hasEscape
    simp [scanString, hpeek, peek_eq, hdrop]
  | case4 a b c d s _ ih =>
    have hlen := congrArg List.length hs
    simp only [List.length_drop, List.length_cons] at hlen
    have hdrop : str.drop (pos + 6) = s := by
      rw [← List.drop_drop, hs]
      rfl
    rw [readChars_unicode]
    exact (ih hdrop (by omega)).map (fun _ => true)
      (.escape_cons hs rfl fun _ => by omega)
      fun _ _ _ hnext => .escape_cons hs rfl (by rw [if_pos rfl]; omega) hnext
  | case5 s hshort _ =>
    obtain ⟨hpeek, -, hlt, hdrop⟩ := head_of_drop hs
    have hlen := congrArg List.length hs
    simp only [List.length_drop, List.length_cons] at hlen
    have hthree := length_lt_four hshort
    obtain ⟨hpeek', -, -, -⟩ := head_of_drop hdrop
    rw [readChars_short hthree]
    apply Unclosed.of_null hlt
    intro fuel len hasEscape
    simp [scanString, hpeek, hpeek', show str.length ≤ pos + 1 + 4 by omega]
  | case6 escape s hu _ ih =>
    have hlen := congrArg List.length hs
    simp only [List.length_drop, List.length_cons] at hlen
    have hdrop : str.drop (pos + 2) = s := by
      rw [← List.drop_drop, hs]
      rfl
    have hskip : 0 = if escape = 117 then 4 else 0 := (if_neg hu).symm
    rw [readChars_escape hu]
    exact (ih hdrop (by omega)).map (fun _ => true)
      (.escape_cons hs hskip fun h => absurd h hu)
      fun _ _ _ hnext => .escape_cons hs hskip (by omega) hnext
  | case7 c s hquote hslash hcontrol =>
    obtain ⟨hpeek, -, hlt, -⟩ := head_of_drop hs
    rw [readChars_control hcontrol]
    apply Unclosed.of_null hlt
    intro fuel len hasEscape
    simp [scanString, hpeek, hquote, hslash, hcontrol]
  | case8 c s hquote hslash hcontrol ih =>
    obtain ⟨-, -, hlt, hdrop⟩ := head_of_drop hs
    rw [readChars_plain hquote hslash hcontrol]
    exact (ih hdrop hlt).map id (.plain_cons hs hquote hslash hcontrol)
      fun _ _ _ hnext => .plain_cons hs hquote hslash hcontrol hnext

theorem jsonParseString_follows (holds : ℕ → Bool) (str : List UInt8) (pos : ℕ) :
    Follows str (jsonParseString holds str pos) (readString holds (str.drop pos)) := by
  rw [jsonParseString, readString, peek_eq, bind_ok]
  cases hc : (str.drop pos).head? with
  | none => exact .error _
  | some c =>
    by_cases hquote : c = 34
    · subst hquote
      have hlt := lt_of_head? hc
      have hagrees := agrees_readChars (rfl : str.drop (pos + 1) = _) hlt
      rw [List.tail_drop]
      simp only [ne_eq, not_true_eq_false, if_false]
      cases hread : readChars (str.drop (pos + 1)) with
      | none =>
        rw [hread] at hagrees
        obtain hnull | ⟨⟨stop, len, hasEscape⟩, hscan, hend⟩ :=
          hagrees (str.length + 1) 0 false (by omega)
        · rw [hnull]
          exact .error _
        · rw [hscan, bind_ok, if_pos hend]
          exact .error _
      | some found =>
        obtain ⟨chars, rest⟩ := found
        rw [hread] at hagrees
        obtain ⟨stop, escaped, hpasses, hrest⟩ := hagrees
        have hstop := hpasses.lt
        have hle := hpasses.le
        have hsize := hpasses.size
        have hstore : store (chars.length + 1) chars.flatten [0] = .ok (chars.flatten ++ [0]) := by
          rw [store, if_pos (by rw [List.length_singleton]; omega)]
        rw [hpasses.scan (str.length + 1) 0 false (by omega), bind_ok, if_neg (by omega),
          Nat.zero_add, Bool.false_or]
        cases hholds : holds (chars.length + 1) with
        | false =>
          simp only [hholds, Bool.not_false, if_true, Bool.false_eq_true, if_false]
          exact .error _
        | true =>
          simp only [hholds, Bool.not_true, Bool.false_eq_true, if_false, if_true]
          cases escaped with
          | false =>
            obtain ⟨hspan, hplain⟩ := hpasses.plain rfl
            have hbytes : bytesAt str (pos + 1) chars.length = .ok chars.flatten := by
              rw [bytesAt, if_pos (by omega), hplain]
            simp only [Bool.not_false, if_true, hbytes, bind_ok, hstore]
            exact .ok ⟨rfl, hstop, hrest⟩
          | true =>
            have hdecode := hpasses.decode (str.length + 1) (chars.length + 1) [] (by omega) (by simp)
            simp only [Bool.not_true, if_false, Bool.false_eq_true, hdecode, bind_ok,
              List.nil_append, hstore]
            exact .ok ⟨rfl, hstop, hrest⟩
    · simp only [ne_eq, hquote, not_false_eq_true, if_true, Option.some.injEq]
      exact .error _

section Number

variable {F : Type} [Float64 F]

private theorem parseDigitsFuel_eq {α : Type} (more : α → Bool) (step : α → UInt8 → α) {fuel : ℕ}
    (hfuel : str.length < pos + fuel) (hpos : pos ≤ str.length) (acc : α) :
    ∃ pos', parseDigits more step fuel str acc pos =
        .ok ((readDigits more step acc (str.drop pos)).1, pos') ∧
      pos' ≤ str.length ∧ str.drop pos' = (readDigits more step acc (str.drop pos)).2 := by
  induction fuel generalizing pos acc with
  | zero => omega
  | succ fuel ih =>
    rw [parseDigits, peek_eq, bind_ok]
    cases hc : (str.drop pos).head? with
    | none =>
      rw [List.head?_eq_none_iff.mp hc]
      exact ⟨pos, rfl, hpos, List.head?_eq_none_iff.mp hc⟩
    | some c =>
      have hlt : pos < str.length := lt_of_head? hc
      rw [drop_of_head? hc, readDigits]
      by_cases hgo : (isDigit c && more acc) = true
      · simp only [hgo, if_true]
        exact ih (by omega) hlt (step acc c)
      · simp only [hgo]
        exact ⟨pos, rfl, hpos, drop_of_head? hc⟩

private theorem parseDigits_eq {α : Type} (more : α → Bool) (step : α → UInt8 → α)
    (hpos : pos ≤ str.length) (acc : α) :
    ∃ pos', parseDigits more step (str.length + 1) str acc pos =
        .ok ((readDigits more step acc (str.drop pos)).1, pos') ∧
      pos' ≤ str.length ∧ str.drop pos' = (readDigits more step acc (str.drop pos)).2 :=
  parseDigitsFuel_eq more step (by omega) hpos acc

private theorem lt_of_any {p : UInt8 → Bool} (h : ¬(!(str.drop pos).head?.any p) = true) :
    pos < str.length := by
  cases hc : (str.drop pos).head? with
  | none => simp [hc] at h
  | some c => exact lt_of_head? hc

private theorem skipSign_drop (isSign : Bool) (str : List UInt8) (pos : ℕ) :
    skipSign isSign (str.drop pos) = str.drop (if isSign then pos + 1 else pos) := by
  rw [skipSign, List.tail_drop, apply_ite (fun k => str.drop k)]

private theorem parseFraction_follows (floatVal : F) (hpos : pos ≤ str.length) :
    Follows str (parseFraction str floatVal pos) (readFraction floatVal (str.drop pos)) := by
  rw [parseFraction, readFraction, peek_eq, bind_ok]
  by_cases hpoint : (str.drop pos).head? = some 46
  · rw [if_pos hpoint, if_pos hpoint, peek_eq, bind_ok, List.tail_drop]
    by_cases hdigit : (!(str.drop (pos + 1)).head?.any isDigit) = true
    · rw [if_pos hdigit, if_pos hdigit]
      exact .error _
    · rw [if_neg hdigit, if_neg hdigit]
      obtain ⟨pos₁, hok₁, hle₁, hdrop₁⟩ := parseDigits_eq
        (fun acc : UInt64 × ℕ => decide (acc.2 < 20)) fractionStep (lt_of_any hdigit).le (0, 0)
      obtain ⟨pos₂, hok₂, hle₂, hdrop₂⟩ :=
        parseDigits_eq (fun _ => true) (fun _ _ => ()) hle₁ ()
      rw [hok₁, bind_ok]
      simp only [hok₂, bind_ok]
      exact .ok ⟨rfl, hle₂, by rw [hdrop₂, hdrop₁]⟩
  · rw [if_neg hpoint, if_neg hpoint]
    exact .ok ⟨rfl, hpos, rfl⟩

private theorem parseExponent_follows (hpos : pos ≤ str.length) :
    Follows str (parseExponent str pos) (readExponent (str.drop pos)) := by
  rw [parseExponent, readExponent, peek_eq, bind_ok]
  by_cases he : (str.drop pos).head? = some 101 ∨ (str.drop pos).head? = some 69
  · rw [if_pos he, if_pos he, peek_eq, bind_ok, List.tail_drop]
    simp only [peek_eq, bind_ok, skipSign_drop, hasSign]
    generalize (if (decide ((str.drop (pos + 1)).head? = some 45) ||
      decide ((str.drop (pos + 1)).head? = some 43)) = true then pos + 1 + 1 else pos + 1) = start
    by_cases hdigit : (!(str.drop start).head?.any isDigit) = true
    · rw [if_pos hdigit, if_pos hdigit]
      exact .error _
    · rw [if_neg hdigit, if_neg hdigit]
      obtain ⟨pos', hok, hle, hdrop⟩ := parseDigits_eq (fun _ => true) exponentStep
        (lt_of_any hdigit).le 0
      rw [hok, bind_ok]
      exact .ok ⟨by simp, hle, hdrop⟩
  · rw [if_neg he, if_neg he]
    exact .ok ⟨rfl, hpos, rfl⟩

theorem jsonParseNumber_follows (str : List UInt8) (pos : ℕ) :
    Follows str (jsonParseNumber (F := F) str pos) (readNumber (str.drop pos)) := by
  rw [jsonParseNumber, readNumber, peek_eq, bind_ok]
  simp only [peek_eq, bind_ok, skipSign_drop]
  generalize (if decide ((str.drop pos).head? = some 45) = true then pos + 1 else pos) = start
  by_cases hdigit : (!(str.drop start).head?.any isDigit) = true
  · rw [if_pos hdigit, if_pos hdigit]
    exact .error _
  · rw [if_neg hdigit, if_neg hdigit]
    obtain ⟨pos₁, hok, hle, hdrop⟩ := parseDigits_eq (fun _ => true) (integerStep (F := F))
      (lt_of_any hdigit).le (0, Float64.ofUInt64 0)
    rw [hok, bind_ok, ← hdrop]
    refine (parseFraction_follows _ hle).bind ?_
    rintro ⟨⟨hasFraction, floatVal⟩, pos₂⟩ ⟨-, rest⟩ ⟨rfl, hle₂, rfl⟩
    refine (parseExponent_follows hle₂).bind ?_
    rintro ⟨⟨hasExponent, exponent⟩, pos₃⟩ ⟨-, rest⟩ ⟨rfl, hle₃, rfl⟩
    exact .ok ⟨rfl, hle₃, rfl⟩

end Number

section Value

variable {F : Type} {holds : ℕ → Bool} 
  {parseValue : ℕ → Except Stop (JsonValue F × ℕ)}
  {readElement : List UInt8 → Except Stop (JsonValue F × List UInt8)}

private theorem literalAt_eq (hpos : pos ≤ str.length) (lit : List UInt8) :
    literalAt str pos lit = .ok (decide (lit <+: str.drop pos)) := by
  rw [literalAt]
  by_cases hroom : pos + lit.length ≤ str.length
  · rw [if_pos hroom, bytesAt, if_pos hroom, bind_ok]
    simp only [List.prefix_iff_eq_take, eq_comm]
  · have hshort : ¬lit <+: str.drop pos := by
      intro hbegins
      have hlen := hbegins.length_le
      rw [List.length_drop] at hlen
      omega
    rw [if_neg hroom, decide_eq_false hshort]

theorem jsonParseLiteral_follows (hpos : pos ≤ str.length) :
    Follows str (jsonParseLiteral (F := F) str pos) (readLiteral (str.drop pos)) := by
  have hroom : ∀ lit : List UInt8, lit <+: str.drop pos → pos + lit.length ≤ str.length := by
    intro lit hlit
    have hlen := hlit.length_le
    rw [List.length_drop] at hlen
    omega
  simp only [jsonParseLiteral, readLiteral, literalAt_eq hpos, bind_ok, decide_eq_true_eq,
    List.drop_drop]
  split_ifs with hnull htrue hfalse
  · exact .ok ⟨rfl, hroom _ hnull, rfl⟩
  · exact .ok ⟨rfl, hroom _ htrue, rfl⟩
  · exact .ok ⟨rfl, hroom _ hfalse, rfl⟩
  · exact .error _

def ElementsFollow (str : List UInt8) (parseValue : ℕ → Except Stop (JsonValue F × ℕ))
    (readElement : List UInt8 → Except Stop (JsonValue F × List UInt8)) : Prop :=
  ∀ pos ≤ str.length, Follows str (parseValue pos) (readElement (str.drop pos))

private theorem parseArrayLoop_follows (helement : ElementsFollow str parseValue readElement)
    (fuel : ℕ)
    (array : List (JsonValue F)) (hpos : pos ≤ str.length) :
    Follows str (parseArrayLoop parseValue fuel str array pos)
      (readElements readElement fuel array (str.drop pos)) := by
  induction fuel generalizing array pos with
  | zero => exact .error _
  | succ fuel ih =>
    rw [parseArrayLoop, readElements]
    by_cases hlt : pos < str.length
    · rw [if_pos hlt, if_neg (by rw [List.drop_eq_nil_iff]; omega)]
      refine (helement pos hpos).bind ?_
      rintro ⟨element, pos₁⟩ ⟨-, rest⟩ ⟨rfl, hle₁, rfl⟩
      obtain ⟨pos₂, hok₂, hle₂, hdrop₂⟩ := jsonSkipWhitespace_eq hle₁
      simp only [hok₂, bind_ok, peek_eq, ← hdrop₂]
      cases hc : (str.drop pos₂).head? with
      | none => exact .error _
      | some c =>
        have hlt₂ : pos₂ < str.length := lt_of_head? hc
        simp only [List.tail_drop]
        split_ifs with hcomma hclose
        · obtain ⟨pos₃, hok₃, hle₃, hdrop₃⟩ := jsonSkipWhitespace_eq (Nat.succ_le_of_lt hlt₂)
          rw [hok₃, bind_ok, ← hdrop₃]
          exact ih _ hle₃
        · exact .ok ⟨rfl, hlt₂, rfl⟩
        · exact .error _
    · rw [if_neg hlt, if_pos (by rw [List.drop_eq_nil_iff]; omega)]
      exact .error _

theorem jsonParseArray_follows (helement : ElementsFollow str parseValue readElement) (pos : ℕ) :
    Follows str (jsonParseArray parseValue str pos)
      (readArray str.length readElement (str.drop pos)) := by
  rw [jsonParseArray, readArray, peek_eq, bind_ok]
  split_ifs with hopen
  · exact .error _
  · have hlt : pos < str.length := lt_of_head? (not_ne_iff.mp hopen)
    obtain ⟨pos₁, hok₁, hle₁, hdrop₁⟩ := jsonSkipWhitespace_eq (Nat.succ_le_of_lt hlt)
    simp only [List.tail_drop, hok₁, bind_ok, peek_eq, ← hdrop₁]
    split_ifs with hclose
    · exact .ok ⟨rfl, lt_of_head? hclose, rfl⟩
    · exact parseArrayLoop_follows helement _ _ hle₁

private theorem parseDictKey_follows (hpos : pos ≤ str.length) :
    Follows str (parseDictKey holds str pos) (readKey holds (str.drop pos)) := by
  obtain ⟨pos₁, hok₁, hle₁, hdrop₁⟩ := jsonSkipWhitespace_eq hpos
  simp only [parseDictKey, readKey, hok₁, bind_ok, peek_eq, ← hdrop₁]
  split_ifs with hquote
  · exact .error _
  · refine (jsonParseString_follows holds str pos₁).bind ?_
    rintro ⟨key, pos₂⟩ ⟨-, rest⟩ ⟨rfl, hle₂, rfl⟩
    obtain ⟨pos₃, hok₃, hle₃, hdrop₃⟩ := jsonSkipWhitespace_eq hle₂
    simp only [hok₃, bind_ok, ← hdrop₃]
    split_ifs with hcolon
    · exact .error _
    · have hlt₃ : pos₃ < str.length := lt_of_head? (not_ne_iff.mp hcolon)
      obtain ⟨pos₄, hok₄, hle₄, hdrop₄⟩ := jsonSkipWhitespace_eq (Nat.succ_le_of_lt hlt₃)
      rw [hok₄, bind_ok, List.tail_drop, ← hdrop₄]
      exact .ok ⟨rfl, hle₄, rfl⟩

private theorem parseDictLoop_follows (helement : ElementsFollow str parseValue readElement)
    (fuel : ℕ)
    (dict : List (List UInt8 × JsonValue F)) (hpos : pos ≤ str.length) :
    Follows str (parseDictLoop holds parseValue fuel str dict pos)
      (readMembers holds readElement fuel dict (str.drop pos)) := by
  induction fuel generalizing dict pos with
  | zero => exact .error _
  | succ fuel ih =>
    rw [parseDictLoop, readMembers]
    by_cases hlt : pos < str.length
    · rw [if_pos hlt, if_neg (by rw [List.drop_eq_nil_iff]; omega)]
      refine (parseDictKey_follows hpos).bind ?_
      rintro ⟨key, pos₁⟩ ⟨-, rest⟩ ⟨rfl, hle₁, rfl⟩
      refine (helement pos₁ hle₁).bind ?_
      rintro ⟨value, pos₂⟩ ⟨-, rest⟩ ⟨rfl, hle₂, rfl⟩
      simp only
      cases jsonDictAppend holds dict key value with
      | error e => exact .error _
      | ok dict' =>
        obtain ⟨pos₃, hok₃, hle₃, hdrop₃⟩ := jsonSkipWhitespace_eq hle₂
        simp only [hok₃, bind_ok, peek_eq, ← hdrop₃]
        cases hc : (str.drop pos₃).head? with
        | none => exact .error _
        | some c =>
          have hlt₃ : pos₃ < str.length := lt_of_head? hc
          simp only [List.tail_drop]
          split_ifs with hcomma hclose
          · obtain ⟨pos₄, hok₄, hle₄, hdrop₄⟩ := jsonSkipWhitespace_eq (Nat.succ_le_of_lt hlt₃)
            rw [hok₄, bind_ok, ← hdrop₄]
            exact ih _ hle₄
          · exact .ok ⟨rfl, hlt₃, rfl⟩
          · exact .error _
    · rw [if_neg hlt, if_pos (by rw [List.drop_eq_nil_iff]; omega)]
      exact .error _

theorem parseDict_follows (helement : ElementsFollow str parseValue readElement) (pos : ℕ) :
    Follows str (parseDict holds parseValue str pos)
      (readDict holds str.length readElement (str.drop pos)) := by
  rw [parseDict, readDict, peek_eq, bind_ok]
  split_ifs with hopen
  · exact .error _
  · have hlt : pos < str.length := lt_of_head? (not_ne_iff.mp hopen)
    obtain ⟨pos₁, hok₁, hle₁, hdrop₁⟩ := jsonSkipWhitespace_eq (Nat.succ_le_of_lt hlt)
    simp only [List.tail_drop, hok₁, bind_ok, peek_eq, ← hdrop₁]
    split_ifs with hclose
    · exact .ok ⟨rfl, lt_of_head? hclose, rfl⟩
    · exact parseDictLoop_follows helement _ _ hle₁

variable [Float64 F]

/-- The parser of values follows the reader; the induction is on the nesting. -/
theorem jsonParseValue_follows (depth : ℕ) (hpos : pos ≤ str.length) :
    Follows str (jsonParseValue (F := F) holds depth str pos)
      (readValue holds str.length depth (str.drop pos)) := by
  induction depth generalizing pos with
  | zero => exact .error _
  | succ depth ih =>
    have helement : ElementsFollow str (fun pos => jsonParseValue (F := F) holds depth str pos)
        (readValue holds str.length depth) := fun pos hpos => ih hpos
    obtain ⟨pos₁, hok₁, hle₁, hdrop₁⟩ := jsonSkipWhitespace_eq hpos
    simp only [jsonParseValue, readValue, hok₁, bind_ok, peek_eq, ← hdrop₁]
    cases hc : (str.drop pos₁).head? with
    | none => exact .error _
    | some c =>
      simp only
      split_ifs with hquote hbrace hbracket hnumber hliteral
      · refine (jsonParseString_follows holds str pos₁).bind ?_
        rintro ⟨s, pos₂⟩ ⟨-, rest⟩ ⟨rfl, hle₂, rfl⟩
        exact .ok ⟨rfl, hle₂, rfl⟩
      · exact parseDict_follows helement pos₁
      · exact jsonParseArray_follows helement pos₁
      · exact jsonParseNumber_follows str pos₁
      · exact jsonParseLiteral_follows hle₁
      · exact .error _

theorem jsonLoads_eq_readText (holds : ℕ → Bool) (str : List UInt8) :
    jsonLoads (F := F) holds str = readText holds str := by
  rw [jsonLoads, jsonParse, readText]
  simp only [List.length_eq_zero_iff]
  split_ifs with hempty
  · rfl
  · have hvalue : Follows str (jsonParseValue (F := F) holds (str.length + 1) str 0)
        (readValue holds str.length (str.length + 1) (str.drop 0)) :=
      jsonParseValue_follows _ (Nat.zero_le str.length)
    rw [List.drop_zero] at hvalue
    generalize jsonParseValue (F := F) holds (str.length + 1) str 0 = parsed at hvalue ⊢
    generalize readValue (F := F) holds str.length (str.length + 1) str = found at hvalue ⊢
    cases parsed with
    | error e =>
      rw [hvalue.error_iff.mp rfl]
      rfl
    | ok parsed =>
      obtain ⟨root, pos₁⟩ := parsed
      obtain ⟨⟨-, rest⟩, rfl, rfl, hle₁, rfl⟩ := hvalue.of_ok rfl
      obtain ⟨pos₂, hok₂, hle₂, hdrop₂⟩ := jsonSkipWhitespace_eq hle₁
      have hend : pos₂ = str.length ↔ skipSpace (str.drop pos₁) = [] := by
        rw [← hdrop₂, List.drop_eq_nil_iff]
        omega
      simp only [bind_ok, hok₂, ne_eq, hend]

end Value

end Libromano.Json
