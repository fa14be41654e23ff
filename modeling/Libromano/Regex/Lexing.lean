/- The lexer as a function of the rest of the pattern. It is what the loop with its index computes
   while the index does not wrap around. -/

import Libromano.Regex.Emission

set_option autoImplicit false
set_option relaxedAutoImplicit false

namespace Libromano.Regex

def tokenOf (c : UInt8) : Option TokenType :=
  if isalnum c || c = 95 then some (.character .single)
  else if c = 124 then some (.operator .alternate)
  else if c = 42 then some (.operator .zeroOrMore)
  else if c = 43 then some (.operator .oneOrMore)
  else if c = 63 then some (.operator .zeroOrOne)
  else if c = 46 then some (.character .any)
  else if c = 40 then some .groupBegin
  else if c = 41 then some .groupEnd
  else none

namespace TokenType

def joins : TokenType → Bool
  | character _ => true
  | _ => false

def next (needsConcat : Bool) : TokenType → Bool
  | character _ => true
  | operator .alternate => false
  | _ => needsConcat

end TokenType

/-- The part of a bracket class before the bracket that closes it. -/
def classOf (s : List UInt8) : List UInt8 := s.takeWhile (· ≠ 93)

def afterClass (s : List UInt8) : List UInt8 := s.drop ((classOf s).length + 1)

theorem length_classOf_lt {s : List UInt8} (h : 93 ∈ s) : (classOf s).length < s.length := by
  induction s with
  | nil => cases h
  | cons c s ih =>
    rw [classOf, List.takeWhile_cons]
    split_ifs with hc
    · have hmem : 93 ∈ s := by
        rcases List.mem_cons.mp h with rfl | h
        · simp at hc
        · exact h
      exact Nat.succ_lt_succ (ih hmem)
    · simp

private theorem classOf_eq_self {s : List UInt8} (h : 93 ∉ s) : classOf s = s := by
  induction s with
  | nil => rfl
  | cons c s ih =>
    obtain ⟨hc, hs⟩ := not_or.mp (mt List.mem_cons.mpr h)
    rw [classOf, List.takeWhile_cons, if_pos (by simpa using Ne.symm hc)]
    exact congrArg (c :: ·) (ih hs)

theorem length_afterClass_le (s : List UInt8) : (afterClass s).length ≤ s.length := by
  rw [afterClass, List.length_drop]
  omega

def lexFrom (needsConcat : Bool) : List UInt8 → Except Stop (List RegexToken)
  | [] => .ok []
  | c :: s =>
    match tokenOf c with
    | some type => do
      let tokens ← lexFrom (type.next needsConcat) s
      .ok (concatToken (type.joins && needsConcat) ++ ⟨some (c :: s), 1, type⟩ :: tokens)
    | none =>
      if c ≠ 91 then .error (.null .regexUnexpectedCharacter)
      else if 93 ∉ s then .error (.null .regexInvalidCharacterRange)
      else do
        let tokens ← lexFrom true (afterClass s)
        .ok (concatToken needsConcat ++
          ⟨some s, UInt32.ofNat (classOf s).length, .characterRange⟩ :: tokens)
termination_by s => s.length
decreasing_by
  · simp
  · have := length_afterClass_le s
    simp
    omega

section Loop

variable {pattern : List UInt8} {i : UInt32}

private theorem charAt_of_drop {c : UInt8} {s : List UInt8} {k : ℕ} (h : pattern.drop k = c :: s) :
    charAt pattern k = .ok c := by
  have hget : pattern[k]? = some c := by rw [← List.head?_drop, h, List.head?_cons]
  have hlt := (List.getElem?_eq_some_iff.mp hget).1
  rw [charAt, if_neg (by omega), hget]

private theorem toNat_succ_of_drop {c : UInt8} {s : List UInt8} (hsize : pattern.length < 2 ^ 32)
    (h : pattern.drop i.toNat = c :: s) :
    i.toNat < pattern.length ∧ (i + 1).toNat = i.toNat + 1 ∧ pattern.drop (i + 1).toNat = s := by
  have hlt : i.toNat < pattern.length := by
    have := congrArg List.length h
    simp at this
    omega
  have hnat : (i + 1).toNat = i.toNat + 1 := by
    rw [UInt32.toNat_add]
    exact Nat.mod_eq_of_lt (by simp; omega)
  refine ⟨hlt, hnat, ?_⟩
  rw [hnat, ← List.drop_drop, h]
  rfl

private theorem regexLexLoop_token {fuel : ℕ} {needsConcat : Bool} {tokens : List RegexToken}
    {c : UInt8}
    {s : List UInt8} {type : TokenType} (hsize : pattern.length < 2 ^ 32)
    (hdrop : pattern.drop i.toNat = c :: s) (htype : tokenOf c = some type) :
    regexLexLoop pattern (fuel + 1) i needsConcat tokens =
      regexLexLoop pattern fuel (i + 1) (type.next needsConcat)
        (tokens ++ (concatToken (type.joins && needsConcat) ++ [⟨some (c :: s), 1, type⟩])) := by
  rw [regexLexLoop, if_pos (toNat_succ_of_drop hsize hdrop).1, charAt_of_drop hdrop, bind_ok, hdrop]
  rw [tokenOf] at htype
  split_ifs at htype with h₁ h₂ h₃ h₄ h₅ h₆ h₇ h₈
  all_goals cases htype
  all_goals simp_all [TokenType.joins, TokenType.next, concatToken]

private theorem lexRange_eq {fuel : ℕ} {s : List UInt8} (hsize : pattern.length < 2 ^ 32)
    (hdrop : pattern.drop i.toNat = s) (hfuel : s.length < fuel) :
    lexRange pattern fuel i = .ok (i + UInt32.ofNat (classOf s).length) := by
  induction fuel generalizing i s with
  | zero => omega
  | succ fuel ih =>
    rw [lexRange]
    cases s with
    | nil =>
      have hge : pattern.length ≤ i.toNat := List.drop_eq_nil_iff.mp hdrop
      rw [if_neg (by omega)]
      simp [classOf]
    | cons c s =>
      obtain ⟨hlt, -, hnext⟩ := toNat_succ_of_drop hsize hdrop
      rw [if_pos hlt, charAt_of_drop hdrop, bind_ok, classOf, List.takeWhile_cons]
      by_cases hc : c = 93
      · simp [hc]
      · rw [if_pos hc, if_pos (by simpa using hc), ih hnext (by simpa using hfuel)]
        rw [List.length_cons, UInt32.add_assoc, classOf]
        congr 2
        rw [UInt32.ofNat_add, UInt32.add_comm]
        rfl

private theorem regexLexLoop_class {fuel : ℕ} {needsConcat : Bool} {tokens : List RegexToken}
    {s : List UInt8} (hsize : pattern.length < 2 ^ 32) (hdrop : pattern.drop i.toNat = 91 :: s) :
    regexLexLoop pattern (fuel + 1) i needsConcat tokens =
      if 93 ∈ s then
        regexLexLoop pattern fuel (i + 1 + UInt32.ofNat (classOf s).length + 1) true
          (tokens ++ (concatToken needsConcat ++
            [⟨some s, UInt32.ofNat (classOf s).length, .characterRange⟩]))
      else .error (.null .regexInvalidCharacterRange) := by
  obtain ⟨hlt, hnat, hnext⟩ := toNat_succ_of_drop hsize hdrop
  have hfuel : s.length < pattern.length + 1 := by
    have := congrArg List.length hnext
    simp at this
    omega
  have hlength : (i + 1 + UInt32.ofNat (classOf s).length).toNat =
      i.toNat + 1 + (classOf s).length := by
    have hle : (classOf s).length ≤ s.length := (List.takeWhile_prefix _).length_le
    have hlength := congrArg List.length hnext
    rw [List.length_drop] at hlength
    rw [UInt32.toNat_add, UInt32.toNat_ofNat', hnat]
    omega
  rw [regexLexLoop, if_pos hlt, charAt_of_drop hdrop, bind_ok]
  simp only [show (isalnum 91 || decide ((91 : UInt8) = 95)) = false from rfl]
  simp only [lexRange_eq hsize hnext hfuel, bind_ok, hlength, hnext]
  have hsub : i + 1 + UInt32.ofNat (classOf s).length - (i + 1) =
      UInt32.ofNat (classOf s).length := by
    rw [UInt32.add_comm (i + 1), UInt32.add_sub_cancel]
  iterate 8 rw [if_neg (by decide)]
  rw [if_pos trivial, hsub]
  have hrest := congrArg List.length hnext
  rw [List.length_drop, hnat] at hrest
  by_cases hmem : 93 ∈ s
  · have hlt := length_classOf_lt hmem
    rw [if_neg (by omega), if_pos hmem, List.append_assoc]
  · rw [classOf_eq_self hmem, if_pos (by omega), if_neg hmem]

private theorem regexLexLoop_eq {fuel : ℕ} {needsConcat : Bool} {tokens : List RegexToken}
    {s : List UInt8}
    (hsize : pattern.length < 2 ^ 32) (hdrop : pattern.drop i.toNat = s) (hfuel : s.length < fuel) :
    regexLexLoop pattern fuel i needsConcat tokens =
      (do let rest ← lexFrom needsConcat s; .ok (tokens ++ rest)) := by
  induction fuel generalizing i needsConcat tokens s with
  | zero => omega
  | succ fuel ih =>
    cases s with
    | nil =>
      have hge : pattern.length ≤ i.toNat := List.drop_eq_nil_iff.mp hdrop
      rw [regexLexLoop, if_neg (by omega), lexFrom, bind_ok, List.append_nil]
    | cons c s =>
      obtain ⟨hlt, hnat, hnext⟩ := toNat_succ_of_drop hsize hdrop
      rw [List.length_cons] at hfuel
      cases htype : tokenOf c with
      | some type =>
        rw [regexLexLoop_token hsize hdrop htype, ih hnext (by omega), lexFrom]
        simp only [htype]
        cases lexFrom (type.next needsConcat) s with
        | error e => rfl
        | ok rest => simp
      | none =>
        by_cases hc : c = 91
        · subst hc
          rw [regexLexLoop_class hsize hdrop, lexFrom]
          simp only [htype, ne_eq, not_true_eq_false, if_false]
          by_cases hmem : 93 ∈ s
          · have hafter : pattern.drop (i + 1 + UInt32.ofNat (classOf s).length + 1).toNat =
                afterClass s := by
              have hin := length_classOf_lt hmem
              have hlength := congrArg List.length hnext
              rw [List.length_drop, hnat] at hlength
              have hfar : (i + 1 + UInt32.ofNat (classOf s).length + 1).toNat =
                  (i + 1).toNat + ((classOf s).length + 1) := by
                simp only [UInt32.toNat_add, UInt32.toNat_ofNat', hnat] at hnat ⊢
                simp only [UInt32.toNat_one]
                omega
              rw [hfar, ← List.drop_drop, hnext]
              rfl
            have hle := length_afterClass_le s
            rw [if_pos hmem, if_neg (not_not.mpr hmem), ih hafter (by omega)]
            cases lexFrom true (afterClass s) with
            | error e => rfl
            | ok rest => simp
          · rw [if_neg hmem, if_pos hmem]
            rfl
        · rw [lexFrom]
          simp only [htype, if_pos hc]
          rw [tokenOf] at htype
          rw [regexLexLoop, if_pos hlt, charAt_of_drop hdrop, bind_ok]
          split_ifs at htype
          simp_all

end Loop

theorem regexLex_eq {pattern : List UInt8} (hsize : pattern.length < 2 ^ 32) :
    regexLex pattern = lexFrom false pattern := by
  rw [regexLex, regexLexLoop_eq hsize rfl (by simp)]
  change (do let rest ← lexFrom false pattern; .ok ([] ++ rest)) = _
  cases lexFrom false pattern with
  | error e => rfl
  | ok rest => rfl

private theorem tokenOf_ne_range {c : UInt8} {type : TokenType} (h : tokenOf c = some type) :
    type ≠ .character .range := by
  rw [tokenOf] at h
  split_ifs at h
  all_goals
    cases h
    simp

theorem concatToken_operator {needsConcat : Bool} {token : RegexToken}
    (h : token ∈ concatToken needsConcat) : token.type = .operator .concatenate := by
  rw [concatToken] at h
  split_ifs at h
  · rw [List.mem_singleton.mp h]
  · cases h

theorem lexFrom_lexed {needsConcat : Bool} {s : List UInt8} {tokens : List RegexToken}
    (h : lexFrom needsConcat s = .ok tokens) :
    ∀ token ∈ tokens, token.type ≠ .character .range := by
  have hjoined (b : Bool) (token : RegexToken) (rest : List RegexToken)
      (htoken : token.type ≠ .character .range)
      (hrest : ∀ token ∈ rest, token.type ≠ .character .range) :
      ∀ x ∈ concatToken b ++ token :: rest, x.type ≠ .character .range := by
    intro x hx
    rcases List.mem_append.mp hx with hx | hx
    · simp [concatToken_operator hx]
    · rcases List.mem_cons.mp hx with rfl | hx
      · exact htoken
      · exact hrest x hx
  fun_induction lexFrom needsConcat s generalizing tokens with
  | case1 =>
    cases h
    simp
  | case2 needsConcat c s type htype ih =>
    obtain ⟨rest, hrest, h⟩ := bind_eq_ok.mp h
    cases h
    exact hjoined _ _ _ (tokenOf_ne_range htype) (ih hrest)
  | case3 => cases h
  | case4 => cases h
  | case5 needsConcat c s htype hc hmem ih =>
    obtain ⟨rest, hrest, h⟩ := bind_eq_ok.mp h
    cases h
    exact hjoined _ _ _ (by simp) (ih hrest)

theorem lexFrom_ne_nil {needsConcat : Bool} {c : UInt8} {s : List UInt8} {tokens : List RegexToken}
    (h : lexFrom needsConcat (c :: s) = .ok tokens) : tokens ≠ [] := by
  rw [lexFrom] at h
  split at h
  · obtain ⟨rest, -, h⟩ := bind_eq_ok.mp h
    cases h
    simp
  · split_ifs at h
    obtain ⟨rest, -, h⟩ := bind_eq_ok.mp h
    cases h
    simp

end Libromano.Regex
