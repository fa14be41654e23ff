/- The steps of the response parser, in terms of the text that is before it. -/

import Libromano.Http.Headers

set_option autoImplicit false
set_option relaxedAutoImplicit false

namespace Libromano.Http

open Bytes

def parserAt (before rest : List UInt8) : HTTPResponseParser :=
  ⟨before ++ rest, before.length, (before ++ rest).length⟩

def parserPast (text : List UInt8) : HTTPResponseParser := ⟨text, text.length + 1, text.length⟩

private theorem length_snoc (before : List UInt8) (b : UInt8) :
    (before ++ [b]).length = before.length + 1 := by simp

section Loops

variable {before span after rest : List UInt8} {b c : UInt8} {fuel n : ℕ}

theorem sz_parserAt : (parserAt before rest).sz = before.length + rest.length := List.length_append

private theorem skipPast_found (hc : c ∉ span) (hfuel : span.length < fuel) :
    skipPast c (before ++ (span ++ c :: after)) (before ++ (span ++ c :: after)).length fuel
      before.length = .ok (true, before.length + span.length + 1) := by
  induction span generalizing before fuel with
  | nil =>
    obtain ⟨fuel, rfl⟩ : ∃ n, fuel = n + 1 := ⟨fuel - 1, by simp at hfuel; omega⟩
    rw [skipPast, List.nil_append, byteAt_at before after c rfl, bind_ok, if_pos rfl]
    rfl
  | cons b span ih =>
    rw [List.mem_cons, not_or] at hc
    obtain ⟨fuel, rfl⟩ : ∃ n, fuel = n + 1 := ⟨fuel - 1, by simp at hfuel; omega⟩
    have hnext := @ih (before ++ [b]) _ hc.2 (by simpa using hfuel)
    have hsplit : before ++ [b] ++ (span ++ c :: after) = before ++ (b :: span ++ c :: after) := by
      simp
    rw [hsplit, length_snoc] at hnext
    rw [skipPast, List.cons_append, byteAt_at before _ b rfl, bind_ok, if_neg (Ne.symm hc.1),
      if_neg (by simp)]
    refine hnext.trans ?_
    rw [List.length_cons]
    congr 2
    omega

private theorem skipPast_missing (hc : c ∉ rest) (hrest : rest ≠ []) (hfuel : rest.length ≤ fuel) :
    skipPast c (before ++ rest) (before ++ rest).length fuel before.length =
      .ok (false, (before ++ rest).length) := by
  induction rest generalizing before fuel with
  | nil => exact absurd rfl hrest
  | cons b rest ih =>
    rw [List.mem_cons, not_or] at hc
    obtain ⟨fuel, rfl⟩ : ∃ n, fuel = n + 1 := ⟨fuel - 1, by simp at hfuel; omega⟩
    rw [skipPast, byteAt_at before _ b rfl, bind_ok, if_neg (Ne.symm hc.1)]
    rcases rest with _ | ⟨b', rest⟩
    · rw [if_pos (by simp)]
      simp
    · have hnext := @ih (before ++ [b]) _ hc.2 (by simp) (by simpa using hfuel)
      rw [List.append_assoc, List.singleton_append, length_snoc] at hnext
      rw [if_neg (by simp)]
      exact hnext

private theorem countTo_found (hc : c ∉ span) (hfuel : span.length < fuel) :
    countTo c (before ++ (span ++ c :: after)) (before ++ (span ++ c :: after)).length fuel
      before.length n = .ok (before.length + span.length + 1, n + span.length) := by
  induction span generalizing before fuel n with
  | nil =>
    obtain ⟨fuel, rfl⟩ : ∃ n, fuel = n + 1 := ⟨fuel - 1, by simp at hfuel; omega⟩
    rw [countTo, if_pos (by simp), List.nil_append, byteAt_at before after c rfl, bind_ok, if_pos rfl]
    rfl
  | cons b span ih =>
    rw [List.mem_cons, not_or] at hc
    obtain ⟨fuel, rfl⟩ : ∃ n, fuel = n + 1 := ⟨fuel - 1, by simp at hfuel; omega⟩
    have hnext := @ih (before ++ [b]) _ (n + 1) hc.2 (by simpa using hfuel)
    have hsplit : before ++ [b] ++ (span ++ c :: after) = before ++ (b :: span ++ c :: after) := by
      simp
    rw [hsplit, length_snoc] at hnext
    rw [countTo, if_pos (by simp), List.cons_append, byteAt_at before _ b rfl, bind_ok,
      if_neg (Ne.symm hc.1)]
    refine hnext.trans ?_
    rw [List.length_cons]
    congr 2 <;> omega

private theorem countTo_missing (hc : c ∉ rest) (hfuel : rest.length < fuel) :
    countTo c (before ++ rest) (before ++ rest).length fuel before.length n =
      .ok ((before ++ rest).length, n + rest.length) := by
  induction rest generalizing before fuel n with
  | nil =>
    obtain ⟨fuel, rfl⟩ : ∃ n, fuel = n + 1 := ⟨fuel - 1, by simp at hfuel; omega⟩
    rw [countTo, if_neg (by simp)]
    simp
  | cons b rest ih =>
    rw [List.mem_cons, not_or] at hc
    obtain ⟨fuel, rfl⟩ : ∃ n, fuel = n + 1 := ⟨fuel - 1, by simp at hfuel; omega⟩
    have hnext := @ih (before ++ [b]) _ (n + 1) hc.2 (by simpa using hfuel)
    rw [List.append_assoc, List.singleton_append, length_snoc] at hnext
    rw [countTo, if_pos (by simp), byteAt_at before _ b rfl, bind_ok, if_neg (Ne.symm hc.1)]
    refine hnext.trans ?_
    rw [List.length_cons]
    congr 2
    omega

end Loops

section Steps

variable {before span after rest : List UInt8} {b c x : UInt8}

private theorem skipPast_parserAt_found (hc : c ∉ span) :
    skipPast c (parserAt before (span ++ c :: after)).start (parserAt before (span ++ c :: after)).sz
      ((parserAt before (span ++ c :: after)).sz + 1)
      (parserAt before (span ++ c :: after)).current =
        .ok (true, before.length + span.length + 1) :=
  skipPast_found hc (by simp [parserAt]; omega)

private theorem skipPast_parserAt_missing (hc : c ∉ rest) (hrest : rest ≠ []) :
    skipPast c (parserAt before rest).start (parserAt before rest).sz
      ((parserAt before rest).sz + 1) (parserAt before rest).current =
        .ok (false, (parserAt before rest).sz) :=
  skipPast_missing hc hrest (by simp [parserAt]; omega)

theorem skipWhitespace_found (hc : 32 ∉ span) (hafter : after ≠ []) :
    skipWhitespace (parserAt before (span ++ 32 :: after)) =
      .ok (some (parserAt (before ++ span ++ [32]) after)) := by
  have hpos := List.length_pos_iff.mpr hafter
  have hlt : before.length + span.length + 1 < (parserAt before (span ++ 32 :: after)).sz := by
    simp [parserAt]
    omega
  rw [skipWhitespace, skipPast_parserAt_found hc, bind_ok]
  simp only [decide_eq_true hlt, Bool.true_and, if_true]
  simp [parserAt]
  omega

theorem skipWhitespace_missing (hc : 32 ∉ rest) (hrest : rest ≠ []) :
    skipWhitespace (parserAt before rest) = .ok none := by
  rw [skipWhitespace, skipPast_parserAt_missing hc hrest]
  rfl

theorem skipCrlf_found (hc : 13 ∉ span) (hafter : after ≠ []) :
    skipCrlf (parserAt before (span ++ 13 :: 10 :: after)) =
      .ok (some (parserAt (before ++ span ++ [13, 10]) after)) := by
  have hpos := List.length_pos_iff.mpr hafter
  have hlt : before.length + span.length + 1 < (parserAt before (span ++ 13 :: 10 :: after)).sz := by
    simp [parserAt]
    omega
  have hread : byteAt (parserAt before (span ++ 13 :: 10 :: after)).start
      (before.length + span.length + 1) = .ok 10 := by
    have hsplit : (parserAt before (span ++ 13 :: 10 :: after)).start =
        (before ++ span ++ [13]) ++ 10 :: after := by simp [parserAt]
    rw [hsplit]
    exact byteAt_at _ _ _ (by simp; omega)
  have hend : ¬(parserAt before (span ++ 13 :: 10 :: after)).sz ≤
      before.length + span.length + 1 + 1 := by
    simp [parserAt]
    omega
  rw [skipCrlf, skipPast_parserAt_found hc, bind_ok]
  simp only [decide_eq_true hlt, Bool.true_and, if_true, hread, bind_ok, ne_eq,
    not_true_eq_false, if_false, if_neg hend]
  simp [parserAt]
  omega

private theorem skipCrlf_missing (hc : 13 ∉ rest) (hrest : rest ≠ []) :
    skipCrlf (parserAt before rest) = .ok none := by
  rw [skipCrlf, skipPast_parserAt_missing hc hrest]
  rfl

private theorem skipCrlf_other (hc : 13 ∉ span)
    (hafter : ∀ after', after = 10 :: after' → after' = []) :
    skipCrlf (parserAt before (span ++ 13 :: after)) = .ok none := by
  rw [skipCrlf, skipPast_parserAt_found hc, bind_ok]
  rcases after with _ | ⟨b, after⟩
  · have hge : ¬before.length + span.length + 1 < (parserAt before (span ++ [13])).sz := by
      simp [parserAt]
      omega
    simp [decide_eq_false hge]
  · have hlt : before.length + span.length + 1 < (parserAt before (span ++ 13 :: b :: after)).sz := by
      simp [parserAt]
      omega
    have hread : byteAt (parserAt before (span ++ 13 :: b :: after)).start
        (before.length + span.length + 1) = .ok b := by
      have hsplit : (parserAt before (span ++ 13 :: b :: after)).start =
          (before ++ span ++ [13]) ++ b :: after := by simp [parserAt]
      rw [hsplit]
      exact byteAt_at _ _ _ (by simp; omega)
    simp only [decide_eq_true hlt, Bool.true_and, if_true, hread, bind_ok]
    by_cases hb : b = 10
    · obtain rfl := hafter after (by rw [hb])
      have hend : (parserAt before (span ++ [13, b])).sz ≤ before.length + span.length + 1 + 1 := by
        simp [parserAt]
        omega
      rw [if_neg (not_not_intro hb), if_pos hend]
    · rw [if_pos hb]

theorem skipCrlf_cases (before : List UInt8) (hrest : rest ≠ []) :
    (∃ span after, rest = span ++ 13 :: 10 :: after ∧ 13 ∉ span ∧ after ≠ []) ∨
      skipCrlf (parserAt before rest) = .ok none := by
  by_cases hcr : 13 ∈ rest
  · obtain ⟨span, after, rfl, hspan⟩ := List.eq_append_cons_of_mem hcr
    by_cases hafter : ∀ after', after = 10 :: after' → after' = []
    · exact .inr (skipCrlf_other hspan hafter)
    · push Not at hafter
      obtain ⟨after, rfl, hne⟩ := hafter
      exact .inl ⟨span, after, rfl, hspan, hne⟩
  · exact .inr (skipCrlf_missing hcr hrest)

theorem skipCrlf_end : skipCrlf (parserAt before []) = .error .outOfBounds := by
  have hread : byteAt (before ++ []) before.length = .error .outOfBounds := byteAt_out (by simp)
  rw [skipCrlf, parserAt, skipPast, hread]
  rfl

theorem skipCrlf_past (text : List UInt8) : skipCrlf (parserPast text) = .error .outOfBounds := by
  rw [skipCrlf, parserPast, skipPast, byteAt_out (Nat.le_succ _)]
  rfl

theorem parseSpan_found (hc : c ∉ span) : parseSpan c (parserAt before (span ++ c :: x :: after)) =
    .ok (⟨span ++ c :: x :: after, span.length⟩, parserAt (before ++ span ++ [c, x]) after) := by
  have hcount := @countTo_found before _ (x :: after) _ _ 0 hc
    (show span.length < (parserAt before (span ++ c :: x :: after)).sz + 1 by simp [parserAt]; omega)
  rw [parseSpan]
  change (countTo c _ _ _ _ 0 >>= _) = _
  simp only [parserAt] at hcount ⊢
  rw [hcount, bind_ok]
  simp
  omega

theorem parseSpan_last (hc : c ∉ span) : parseSpan c (parserAt before (span ++ [c])) =
    .ok (⟨span ++ [c], span.length⟩, parserPast (before ++ (span ++ [c]))) := by
  have hcount := @countTo_found before _ [] _ _ 0 hc
    (show span.length < (parserAt before (span ++ [c])).sz + 1 by simp [parserAt]; omega)
  rw [parseSpan]
  simp only [parserAt] at hcount ⊢
  rw [hcount, bind_ok]
  simp [parserPast]
  omega

theorem parseKey_short (h : rest.length ≤ 2) : parseKey (parserAt before rest) = .ok none := by
  rw [parseKey, if_pos (by simp [parserAt]; omega)]

theorem parseKey_past (text : List UInt8) : parseKey (parserPast text) = .ok none := by
  rw [parseKey, if_pos (by simp [parserPast]; omega)]

private theorem atBlankLine_eq (h : 2 < rest.length) :
    atBlankLine (parserAt before rest) = .ok (decide (rest.take 2 = [13, 10])) := by
  rcases rest with _ | ⟨b, _ | ⟨b', rest⟩⟩
  · simp at h
  · simp at h
  · have hfirst : byteAt (before ++ b :: b' :: rest) before.length = .ok b := byteAt_at _ _ _ rfl
    have hsecond : byteAt (before ++ b :: b' :: rest) (before.length + 1) = .ok b' :=
      byteAt_append _ _ rfl
    rw [atBlankLine, parserAt]
    simp only [hfirst, hsecond, bind_ok]
    by_cases hb : b = 13 <;> simp [hb]

theorem parseKey_blank : parseKey (parserAt before (13 :: 10 :: rest)) = .ok none := by
  by_cases h : (13 :: 10 :: rest).length ≤ 2
  · exact parseKey_short h
  · rw [parseKey, if_neg (by simp [parserAt] at h ⊢; omega), atBlankLine_eq (by omega), bind_ok]
    simp

theorem parseKey_line (h : 2 < rest.length) (hblank : rest.take 2 ≠ [13, 10]) :
    parseKey (parserAt before rest) =
      parseSpan 58 (parserAt before rest) >>= fun key => .ok (some key) := by
  rw [parseKey, if_neg (by simp [parserAt]; omega), atBlankLine_eq h, bind_ok,
    decide_eq_false hblank]
  rfl

theorem parseSpan_missing (hc : c ∉ rest) : parseSpan c (parserAt before rest) =
    .ok (⟨rest, rest.length⟩, parserPast (before ++ rest)) := by
  have hcount := @countTo_missing before _ _ _ 0 hc
    (show rest.length < (parserAt before rest).sz + 1 by simp [parserAt])
  rw [parseSpan]
  simp only [parserAt] at hcount ⊢
  rw [hcount, bind_ok]
  simp [parserPast]

end Steps

end Libromano.Http
