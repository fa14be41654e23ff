/- Which patterns are compiled, read off their characters. -/

import Libromano.Regex.Answers
import Libromano.Regex.Link
import Libromano.Regex.Rows
import Mathlib.Data.List.Chain
import Mathlib.Tactic.MkIffOfInductiveProp

set_option autoImplicit false
set_option relaxedAutoImplicit false

namespace Libromano.Regex

/-- The pattern outside its bracket classes. Of a class only the bracket that opens it
is left. `inside` tells whether a class is open. -/
def outside : Bool → List UInt8 → List UInt8
  | _, [] => []
  | false, c :: s => c :: outside (c = 91) s
  | true, c :: s => outside (c ≠ 93) s

def inClass : Bool → List UInt8 → Bool
  | inside, [] => inside
  | false, c :: s => inClass (c = 91) s
  | true, c :: s => inClass (c ≠ 93) s

def Closing : List UInt8 → Prop
  | [] => True
  | c :: s => (c = 91 → 93 ∈ s) ∧ Closing s

/-- The parentheses are balanced, with some of them open at the start. -/
def Nested : ℕ → List UInt8 → Prop
  | depth, [] => depth = 0
  | depth, c :: s =>
    if c = 40 then Nested (depth + 1) s
    else if c = 41 then 0 < depth ∧ Nested (depth - 1) s
    else Nested depth s

def IsQuantifier (c : UInt8) : Prop := c = 42 ∨ c = 43 ∨ c = 63

def Unquantified (c : UInt8) : Prop := c = 40 ∨ c = 124 ∨ IsQuantifier c

instance (c : UInt8) : Decidable (IsQuantifier c) := inferInstanceAs (Decidable (_ ∨ _))

instance (c : UInt8) : Decidable (Unquantified c) := inferInstanceAs (Decidable (_ ∨ _))

instance decidableClosing : (s : List UInt8) → Decidable (Closing s)
  | [] => isTrue trivial
  | c :: s =>
    haveI := decidableClosing s
    inferInstanceAs (Decidable ((c = 91 → 93 ∈ s) ∧ Closing s))

instance decidableNested : (depth : ℕ) → (s : List UInt8) → Decidable (Nested depth s)
  | depth, [] => inferInstanceAs (Decidable (depth = 0))
  | depth, c :: s =>
    haveI := fun depth => decidableNested depth s
    inferInstanceAs (Decidable (if c = 40 then Nested (depth + 1) s
      else if c = 41 then 0 < depth ∧ Nested (depth - 1) s else Nested depth s))

/-- What a pattern is made of. -/
@[mk_iff]
structure WellFormed (pattern : List UInt8) : Prop where
  allowed : ∀ c ∈ outside false pattern,
    isalnum c ∨ c ∈ ([95, 124, 42, 43, 63, 46, 40, 41, 91, 93] : List UInt8)
  closing : Closing pattern
  nested : Nested 0 (outside false pattern)
  start : ∀ c ∈ (outside false pattern).head?, ¬IsQuantifier c
  behind : (outside false pattern).IsChain fun c next => IsQuantifier next → ¬Unquantified c

-- Only the characters of the pattern are looked at, not all there are.
instance (pattern : List UInt8) : Decidable (WellFormed pattern) :=
  haveI := List.decidableBAll (fun c : UInt8 => isalnum c ∨
    c ∈ ([95, 124, 42, 43, 63, 46, 40, 41, 91, 93] : List UInt8)) (outside false pattern)
  haveI : Decidable (∀ c ∈ (outside false pattern).head?, ¬IsQuantifier c) :=
    Option.decidableForallMem _
  decidable_of_iff' _ (wellFormed_iff pattern)

/-- The last characters are a bracket class with nothing in it. -/
def EndsInEmptyClass (pattern : List UInt8) : Prop :=
  ∃ before, pattern = before ++ [91, 93] ∧ inClass false before = false

section Classes

variable {c : UInt8} {s : List UInt8}

private theorem outside_cons (h : c ≠ 91) : outside false (c :: s) = c :: outside false s := by
  simp [outside, h]

private theorem classOf_cons (h : c ≠ 93) : classOf (c :: s) = c :: classOf s := by
  simp [classOf, h]

private theorem afterClass_cons (h : c ≠ 93) : afterClass (c :: s) = afterClass s := by
  simp [afterClass, classOf_cons h]

private theorem afterClass_close : afterClass (93 :: s) = s := by
  simp [afterClass, classOf]

private theorem outside_class (h : 93 ∈ s) : outside true s = outside false (afterClass s) := by
  induction s with
  | nil => cases h
  | cons c s ih =>
    by_cases hc : c = 93
    · subst hc
      rw [afterClass_close]
      rfl
    · rw [afterClass_cons hc, ← ih ((List.mem_cons.mp h).resolve_left (Ne.symm hc))]
      simp [outside, hc]

private theorem closing_class (h : 93 ∈ s) : Closing s ↔ Closing (afterClass s) := by
  induction s with
  | nil => cases h
  | cons c s ih =>
    by_cases hc : c = 93
    · subst hc
      rw [afterClass_close]
      exact and_iff_right_of_imp fun _ h => absurd h (by decide)
    · have hmem := (List.mem_cons.mp h).resolve_left (Ne.symm hc)
      rw [afterClass_cons hc, ← ih hmem]
      exact and_iff_right fun _ => hmem

private theorem class_append (h : 93 ∈ s) : s = classOf s ++ 93 :: afterClass s := by
  induction s with
  | nil => cases h
  | cons c s ih =>
    by_cases hc : c = 93
    · subst hc
      rw [afterClass_close]
      simp [classOf]
    · rw [afterClass_cons hc, classOf_cons hc, List.cons_append,
        ← ih ((List.mem_cons.mp h).resolve_left (Ne.symm hc))]

private theorem inClass_class (h : 93 ∈ s) (before : List UInt8) :
    inClass true (classOf s ++ 93 :: before) = inClass false before := by
  induction s with
  | nil => cases h
  | cons c s ih =>
    by_cases hc : c = 93
    · subst hc
      simp [classOf, inClass]
    · have hmem := (List.mem_cons.mp h).resolve_left (Ne.symm hc)
      simpa [classOf_cons hc, inClass, hc] using ih hmem

private theorem EndsInEmptyClass.cons (hc : c ≠ 91) (h : EndsInEmptyClass s) :
    EndsInEmptyClass (c :: s) := by
  obtain ⟨before, rfl, hin⟩ := h
  exact ⟨c :: before, rfl, by simpa [inClass, hc] using hin⟩

private theorem EndsInEmptyClass.class (hmem : 93 ∈ s) (h : EndsInEmptyClass (afterClass s)) :
    EndsInEmptyClass (91 :: s) := by
  obtain ⟨before, hafter, hin⟩ := h
  refine ⟨91 :: (classOf s ++ 93 :: before), ?_, ?_⟩
  · rw [List.cons_append, List.append_assoc, List.cons_append, ← hafter, ← class_append hmem]
  · exact (inClass_class hmem before).trans hin

end Classes

private theorem tokenOf_isSome {c : UInt8} : (tokenOf c).isSome ↔
    isalnum c ∨ c ∈ ([95, 124, 42, 43, 63, 46, 40, 41] : List UInt8) := by
  rw [tokenOf]
  split_ifs with h
  · simp only [Bool.or_eq_true, decide_eq_true_eq] at h
    simp
    tauto
  all_goals simp_all

theorem ne_bracket {c : UInt8} (h : (tokenOf c).isSome) : c ≠ 91 ∧ c ≠ 93 := by
  constructor
  · rintro rfl
    cases h
  · rintro rfl
    cases h

private theorem lexFrom_answered (needsConcat : Bool) (s : List UInt8) :
    Answered (lexFrom needsConcat s) := by
  fun_induction lexFrom needsConcat s with
  | case1 => exact answered_ok _
  | case2 needsConcat c s type htype ih => exact ih.bind fun tokens _ => answered_ok _
  | case3 => exact answered_null _
  | case4 => exact answered_null _
  | case5 needsConcat c s htype hc hmem ih => exact ih.bind fun tokens _ => answered_ok _

private theorem exists_bind_ok {α β : Type} {x : Except Stop α} {f : α → β} :
    (∃ b, (do let a ← x; .ok (f a)) = (.ok b : Except Stop β)) ↔ ∃ a, x = .ok a := by
  cases x with
  | ok a => simp
  | error stop => simp

theorem lexFrom_isOk (needsConcat : Bool) (s : List UInt8) :
    (∃ tokens, lexFrom needsConcat s = .ok tokens) ↔
      (∀ c ∈ outside false s, (tokenOf c).isSome ∨ c = 91) ∧ Closing s := by
  fun_induction lexFrom needsConcat s with
  | case1 => simp [outside, Closing]
  | case2 needsConcat c s type htype ih =>
    have hc := (ne_bracket (Option.isSome_of_eq_some htype)).1
    rw [exists_bind_ok, ih, outside_cons hc, Closing]
    simp [htype, hc]
  | case3 needsConcat c s htype hc =>
    rw [outside_cons hc]
    simp [htype, hc]
  | case4 needsConcat c s htype hc hmem =>
    obtain rfl := not_not.mp hc
    simp [Closing, hmem]
  | case5 needsConcat c s htype hc hmem ih =>
    obtain rfl := not_not.mp hc
    have hin := not_not.mp hmem
    rw [exists_bind_ok, ih, Closing, closing_class hin]
    simp [outside, outside_class hin, hin]

private theorem concatToken_readable (needsConcat : Bool) :
    ∀ token ∈ concatToken needsConcat, ∃ y, token.symbol = .ok y := by
  intro token htoken
  have htype := concatToken_operator htoken
  exact ⟨.operator .concatenate, by rw [RegexToken.symbol, htype]⟩

private theorem Readable.cons_joined {needsConcat : Bool} {token : RegexToken}
    {tokens : List RegexToken}
    (htoken : ∃ y, token.symbol = .ok y) (h : Readable tokens) :
    Readable (concatToken needsConcat ++ token :: tokens) := by
  intro x hx
  rcases List.mem_append.mp hx with hx | hx
  · exact concatToken_readable needsConcat x hx
  · rcases List.mem_cons.mp hx with rfl | hx
    · exact htoken
    · exact h x hx

private theorem charAt_zero (c : UInt8) (s : List UInt8) : charAt (c :: s) 0 = .ok c := by
  simp [charAt]

private theorem charAt_two {s : List UInt8} (h : 2 ≤ s.length) : ∃ c, charAt s 2 = .ok c := by
  rcases Nat.lt_or_eq_of_le h with h | h
  · exact ⟨s[2], by rw [charAt, if_neg (by omega), List.getElem?_eq_getElem h]⟩
  · exact ⟨0, by rw [charAt, if_pos h]⟩

theorem symbol_token {c : UInt8} {s : List UInt8} {type : TokenType} (h : tokenOf c = some type) :
    ∃ y, (⟨some (c :: s), 1, type⟩ : RegexToken).symbol = .ok y := by
  rw [tokenOf] at h
  split_ifs at h
  all_goals cases h
  · exact ⟨.test (.single c), by simp [RegexToken.symbol, RegexToken.char, charAt_zero]⟩
  all_goals exact ⟨_, rfl⟩

private theorem symbol_class {s : List UInt8} (size : UInt32) (hmem : 93 ∈ s)
    (hempty : ¬EndsInEmptyClass (91 :: s)) :
    ∃ x, (⟨some s, size, .characterRange⟩ : RegexToken).symbol = .ok (.test x) := by
  have hlength : 2 ≤ s.length := by
    by_contra hlt
    obtain ⟨c, rfl⟩ : ∃ c, s = [c] := by
      have hpos := List.length_pos_of_mem hmem
      exact List.length_eq_one_iff.mp (by omega)
    obtain rfl := List.mem_singleton.mp hmem
    exact hempty ⟨[], rfl, rfl⟩
  obtain ⟨c, s, rfl⟩ := List.exists_cons_of_ne_nil (List.ne_nil_of_mem hmem)
  obtain ⟨last, hlast⟩ := charAt_two hlength
  exact ⟨.range c last, by simp [RegexToken.symbol, RegexToken.char, charAt_zero, hlast]⟩

private theorem lexFrom_readable {needsConcat : Bool} {s : List UInt8} {tokens : List RegexToken}
    (h : lexFrom needsConcat s = .ok tokens) (hempty : ¬EndsInEmptyClass s) : Readable tokens := by
  fun_induction lexFrom needsConcat s generalizing tokens with
  | case1 =>
    cases h
    intro token htoken
    cases htoken
  | case2 needsConcat c s type htype ih =>
    obtain ⟨rest, hrest, h⟩ := bind_eq_ok.mp h
    cases h
    have hc := (ne_bracket (Option.isSome_of_eq_some htype)).1
    exact (ih hrest (mt (EndsInEmptyClass.cons hc) hempty)).cons_joined (symbol_token htype)
  | case3 => cases h
  | case4 => cases h
  | case5 needsConcat c s htype hc hmem ih =>
    obtain rfl := not_not.mp hc
    obtain ⟨rest, hrest, h⟩ := bind_eq_ok.mp h
    cases h
    have hin := not_not.mp hmem
    obtain ⟨x, hx⟩ := symbol_class (UInt32.ofNat (classOf s).length) hin hempty
    exact (ih hrest (mt (EndsInEmptyClass.class hin) hempty)).cons_joined ⟨_, hx⟩

/-- No quantifier of the text is out of place. `quantifiable` tells whether one may
stand at its start. -/
def Placed (quantifiable : Bool) (text : List UInt8) : Prop :=
  (quantifiable = false → ∀ c ∈ text.head?, ¬IsQuantifier c) ∧
    text.IsChain fun c next => IsQuantifier next → ¬Unquantified c

@[simp] theorem placed_nil {quantifiable : Bool} : Placed quantifiable [] := by
  simp [Placed]

private theorem placed_cons {quantifiable : Bool} {c : UInt8} {text : List UInt8} :
    Placed quantifiable (c :: text) ↔
      (IsQuantifier c → quantifiable) ∧ Placed (¬Unquantified c) text := by
  rw [Placed, Placed, List.isChain_cons, List.head?_cons]
  have hstart : (quantifiable = false → ∀ x ∈ some c, ¬IsQuantifier x) ↔
      (IsQuantifier c → quantifiable) := by
    cases quantifiable <;> simp
  have hnext : (∀ next ∈ text.head?, IsQuantifier next → ¬Unquantified c) ↔
      (decide (¬Unquantified c) = false → ∀ next ∈ text.head?, ¬IsQuantifier next) := by
    by_cases hc : Unquantified c <;> simp [hc]
  rw [hstart, hnext]

/-- The symbols are the characters of the text, with concatenations put in. -/
def Agree (symbols : List Symbol) (text : List UInt8) : Prop :=
  ∀ quantifiable depth,
    Fits quantifiable depth symbols ↔ Nested depth text ∧ Placed quantifiable text

private theorem symbols_joined {needsConcat : Bool} {token : RegexToken} {rest : List RegexToken}
    {symbols : List Symbol}
    (htest : needsConcat → ∀ y, token.symbol = .ok y → ∃ x, y = .test x)
    (h : (concatToken needsConcat ++ token :: rest).map RegexToken.symbol = symbols.map .ok) :
    ∃ y ys, token.symbol = .ok y ∧ rest.map RegexToken.symbol = ys.map .ok ∧
      ∀ quantifiable depth,
        Fits quantifiable depth symbols ↔ Fits quantifiable depth (y :: ys) := by
  cases needsConcat with
  | false =>
    obtain ⟨y, ys, rfl, hy, hys⟩ := List.map_eq_cons_iff.mp h.symm
    exact ⟨y, ys, hy.symm, hys.symm, fun _ _ => Iff.rfl⟩
  | true =>
    obtain ⟨z, zs, rfl, hz, hzs⟩ := List.map_eq_cons_iff.mp h.symm
    obtain ⟨y, ys, rfl, hy, hys⟩ := List.map_eq_cons_iff.mp hzs
    obtain rfl : z = .operator .concatenate := Except.ok.inj hz
    obtain ⟨x, rfl⟩ := htest rfl y hy.symm
    refine ⟨_, ys, hy.symm, hys.symm, fun quantifiable depth => ?_⟩
    simp [OperatorType.quantifies]

theorem plain_of_isalnum {c : UInt8} (h : isalnum c || c = 95) :
    c ≠ 40 ∧ c ≠ 41 ∧ ¬Unquantified c := by
  have hne (d : UInt8) (hd : (isalnum d || d = 95) = false) : c ≠ d := by
    rintro rfl
    exact absurd h (by simp [hd])
  refine ⟨hne _ rfl, hne _ rfl, ?_⟩
  rintro (h | h | h | h | h)
  all_goals exact hne _ rfl h

private theorem Agree.test {c : UInt8} {x : Test} {symbols : List Symbol} {text : List UInt8}
    (hc : c ≠ 40 ∧ c ≠ 41 ∧ ¬Unquantified c) (h : Agree symbols text) :
    Agree (.test x :: symbols) (c :: text) := by
  intro quantifiable depth
  have hquantifier : ¬IsQuantifier c := fun hq => hc.2.2 (.inr (.inr hq))
  simp [h _ _, placed_cons, Nested, hc, hquantifier]

/-- The step lemma: a character and its token. -/
private theorem Agree.token {c : UInt8} {s : List UInt8} {type : TokenType} {y : Symbol}
    {symbols : List Symbol} {text : List UInt8} (htype : tokenOf c = some type)
    (hy : (⟨some (c :: s), 1, type⟩ : RegexToken).symbol = .ok y) (h : Agree symbols text) :
    Agree (y :: symbols) (c :: text) := by
  rw [tokenOf] at htype
  split_ifs at htype with hsingle
  · cases htype
    obtain ⟨d, -, hy⟩ := bind_eq_ok.mp hy
    cases hy
    exact h.test (plain_of_isalnum hsingle)
  all_goals
    rename_i hc
    subst hc
    cases htype
    cases hy
    intro quantifiable depth
    simp [h _ _, placed_cons, Nested, IsQuantifier, Unquantified, OperatorType.quantifies,
      and_assoc, and_left_comm]

private theorem symbol_of_joins {token : RegexToken} {y : Symbol} (hjoins : token.type.joins)
    (hy : token.symbol = .ok y) : ∃ x, y = .test x := by
  rw [RegexToken.symbol] at hy
  rcases htype : token.type with encoding | _ | op | _ | _ | _
  all_goals rw [htype] at hjoins hy
  case character =>
    cases encoding with
    | single =>
      obtain ⟨c, -, hy⟩ := bind_eq_ok.mp hy
      cases hy
      exact ⟨.single c, rfl⟩
    | any =>
      cases hy
      exact ⟨.any, rfl⟩
    | range => cases hy
  all_goals cases hjoins

private theorem lexFrom_agree {needsConcat : Bool} {s : List UInt8} {tokens : List RegexToken}
    {symbols : List Symbol} (h : lexFrom needsConcat s = .ok tokens)
    (hsymbols : tokens.map RegexToken.symbol = symbols.map .ok) :
    Agree symbols (outside false s) := by
  fun_induction lexFrom needsConcat s generalizing tokens symbols with
  | case1 =>
    cases h
    obtain rfl := List.map_eq_nil_iff.mp hsymbols.symm
    intro quantifiable depth
    simp [outside, Nested]
  | case2 needsConcat c s type htype ih =>
    obtain ⟨rest, hrest, h⟩ := bind_eq_ok.mp h
    cases h
    have htest (hjoins : type.joins && needsConcat) (y : Symbol)
        (hy : (⟨some (c :: s), 1, type⟩ : RegexToken).symbol = .ok y) : ∃ x, y = .test x :=
      symbol_of_joins (Bool.and_eq_true_iff.mp hjoins).1 hy
    obtain ⟨y, ys, hy, hys, hfits⟩ := symbols_joined htest hsymbols
    rw [outside_cons (ne_bracket (Option.isSome_of_eq_some htype)).1]
    intro quantifiable depth
    rw [hfits]
    exact (ih hrest hys).token htype hy quantifiable depth
  | case3 => cases h
  | case4 => cases h
  | case5 needsConcat c s htype hc hmem ih =>
    obtain rfl := not_not.mp hc
    obtain ⟨rest, hrest, h⟩ := bind_eq_ok.mp h
    cases h
    have htest (y : Symbol) (hy : (⟨some s, UInt32.ofNat (classOf s).length,
        .characterRange⟩ : RegexToken).symbol = .ok y) : ∃ x, y = .test x := by
      obtain ⟨first, -, hy⟩ := bind_eq_ok.mp hy
      obtain ⟨last, -, hy⟩ := bind_eq_ok.mp hy
      cases hy
      exact ⟨_, rfl⟩
    obtain ⟨y, ys, hy, hys, hfits⟩ := symbols_joined (fun _ => htest) hsymbols
    obtain ⟨x, rfl⟩ := htest y hy
    have houtside : outside false (91 :: s) = 91 :: outside false (afterClass s) :=
      congrArg (91 :: ·) (outside_class (not_not.mp hmem))
    rw [houtside]
    intro quantifiable depth
    rw [hfits]
    exact (ih hrest hys).test (by decide) quantifiable depth

private theorem Readable.exists_symbols {tokens : List RegexToken} (h : Readable tokens) :
    ∃ symbols : List Symbol, tokens.map RegexToken.symbol = symbols.map .ok := by
  induction tokens with
  | nil => exact ⟨[], rfl⟩
  | cons token tokens ih =>
    obtain ⟨y, hy⟩ := h token List.mem_cons_self
    obtain ⟨ys, hys⟩ := ih fun x hx => h x (List.mem_cons_of_mem _ hx)
    exact ⟨y :: ys, by rw [List.map_cons, List.map_cons, hy, hys]⟩

private theorem map_ok_inj {xs ys : List Symbol}
    (h : (xs.map .ok : List (Except Stop Symbol)) = ys.map .ok) : xs = ys :=
  List.map_injective_iff.mpr (fun _ _ => Except.ok.inj) h

private theorem exists_spelled_iff {tokens : List RegexToken} {symbols : List Symbol}
    (h : tokens.map RegexToken.symbol = symbols.map .ok) :
    (∃ t, Spelled tokens t) ↔ Fits false 0 symbols := by
  rw [fits_iff_exists_tree]
  constructor
  · rintro ⟨t, ht⟩
    exact ⟨t, map_ok_inj (h.symm.trans ht)⟩
  · rintro ⟨t, rfl⟩
    exact ⟨t, h⟩

private theorem regexEmit_answered {tokens : List RegexToken} (h : Readable tokens) :
    Answered (regexEmit tokens) := by
  rw [regexEmit]
  split_ifs
  · exact answered_ok _
  · apply (emitProgram_answered h).bind
    intro bytecode hprogram
    obtain ⟨t, -, rfl⟩ := exists_tree_of_emitProgram h.lexed hprogram
    rw [patchLoop_program]
    exact answered_ok _

private theorem regexEmit_isOk {tokens : List RegexToken} (h : Readable tokens) :
    (∃ bytecode, regexEmit tokens = .ok bytecode) ↔ ∃ t, Spelled tokens t := by
  rw [regexEmit]
  split_ifs with hne
  · subst hne
    exact iff_of_true ⟨_, rfl⟩ ⟨.empty, rfl⟩
  · constructor
    · rintro ⟨bytecode, hrun⟩
      obtain ⟨emitted, hprogram, -⟩ := bind_eq_ok.mp hrun
      obtain ⟨t, ht, -⟩ := exists_tree_of_emitProgram h.lexed hprogram
      exact ⟨t, ht⟩
    · rintro ⟨t, ht⟩
      rw [emitProgram_of_spelled ht, bind_ok, patchLoop_program]
      exact ⟨_, rfl⟩

private theorem wellFormed_iff_lexed {pattern : List UInt8} :
    WellFormed pattern ∧ 93 ∉ outside false pattern ↔
      ((∀ c ∈ outside false pattern, (tokenOf c).isSome ∨ c = 91) ∧ Closing pattern) ∧
        Nested 0 (outside false pattern) ∧ Placed false (outside false pattern) := by
  have hallowed (c : UInt8) : ((tokenOf c).isSome ∨ c = 91) ↔
      (isalnum c ∨ c ∈ ([95, 124, 42, 43, 63, 46, 40, 41, 91, 93] : List UInt8)) ∧ c ≠ 93 := by
    constructor
    · rintro (h | rfl)
      · have hmem := tokenOf_isSome.mp h
        simp only [List.mem_cons, List.not_mem_nil, or_false] at hmem ⊢
        exact ⟨by tauto, (ne_bracket h).2⟩
      · simp
    · rintro ⟨h, hne⟩
      rw [tokenOf_isSome]
      simp only [List.mem_cons, List.not_mem_nil, or_false] at h ⊢
      tauto
  constructor
  · rintro ⟨h, hstray⟩
    refine ⟨⟨fun c hc => (hallowed c).mpr ⟨h.allowed c hc, ?_⟩, h.closing⟩, h.nested,
      fun _ => h.start, h.behind⟩
    rintro rfl
    exact hstray hc
  · rintro ⟨⟨hlex, hclosing⟩, hnested, hstart, hbehind⟩
    refine ⟨⟨fun c hc => ((hallowed c).mp (hlex c hc)).1, hclosing, hnested, hstart rfl, hbehind⟩,
      fun hstray => ?_⟩
    exact ((hallowed 93).mp (hlex 93 hstray)).2 rfl

/-- A pattern is compiled exactly if it is well formed and has no closing bracket outside
its classes, and to an error code otherwise. -/
theorem regexCompile_isOk_iff {pattern : List UInt8} (hsize : pattern.length < 2 ^ 32)
    (hempty : ¬EndsInEmptyClass pattern) :
    ((∃ bytecode, regexCompile pattern = .ok bytecode) ↔
        WellFormed pattern ∧ 93 ∉ outside false pattern) ∧
      (¬(WellFormed pattern ∧ 93 ∉ outside false pattern) →
        ∃ error, regexCompile pattern = .error (.null error)) := by
  have hanswered : Answered (regexCompile pattern) := by
    rw [regexCompile, regexLex_eq hsize]
    exact (lexFrom_answered false pattern).bind fun tokens hlex =>
      regexEmit_answered (lexFrom_readable hlex hempty)
  have hiff : (∃ bytecode, regexCompile pattern = .ok bytecode) ↔
      WellFormed pattern ∧ 93 ∉ outside false pattern := by
    rw [wellFormed_iff_lexed, ← lexFrom_isOk false pattern, regexCompile, regexLex_eq hsize]
    cases hlex : lexFrom false pattern with
    | error stop => simp
    | ok tokens =>
      have hread := lexFrom_readable hlex hempty
      obtain ⟨symbols, hsymbols⟩ := hread.exists_symbols
      rw [bind_ok, regexEmit_isOk hread, exists_spelled_iff hsymbols,
        lexFrom_agree hlex hsymbols false 0]
      simp
  refine ⟨hiff, fun hnot => ?_⟩
  rcases hanswered.cases with hok | hnull
  · exact absurd (hiff.mp hok) hnot
  · exact hnull

/-- The pattern `[a-c]*`. -/
theorem regexCompile_isOk_iff_class :
    (∃ bytecode, regexCompile [91, 97, 45, 99, 93, 42] = .ok bytecode) ∧
      WellFormed [91, 97, 45, 99, 93, 42] := by
  have hempty : ¬EndsInEmptyClass [91, 97, 45, 99, 93, 42] := by
    rintro ⟨before, h, -⟩
    have hlast := congrArg List.reverse h
    simp at hlast
  have hiff := (regexCompile_isOk_iff (by decide) hempty).1
  have hformed : WellFormed [91, 97, 45, 99, 93, 42] := by decide
  exact ⟨hiff.mpr ⟨hformed, by decide⟩, hformed⟩

private theorem wellFormed_replicate (n : ℕ) : WellFormed (List.replicate n 97) := by
  have houtside : outside false (List.replicate n 97) = List.replicate n 97 := by
    induction n with
    | zero => rfl
    | succ n ih => rw [List.replicate_succ, outside_cons (by decide), ih]
  constructor
  case allowed =>
    rw [houtside]
    intro c hc
    rw [(List.mem_replicate.mp hc).2]
    exact .inl rfl
  case closing =>
    clear houtside
    induction n with
    | zero => trivial
    | succ n ih => exact ⟨fun h => absurd h (by decide), ih⟩
  case nested =>
    rw [houtside]
    clear houtside
    induction n with
    | zero => rfl
    | succ n ih => exact ih
  case start =>
    rw [houtside]
    intro c hc
    rw [(List.mem_replicate.mp (List.mem_of_head? hc)).2]
    decide
  case behind =>
    rw [houtside]
    exact List.isChain_replicate_of_rel n fun h => absurd h (by decide)

/-- A closing bracket on its own is an unexpected character. After an empty class at its end the
lexer's token reads past the pattern, and the index of the lexer has 32 bits only. -/
theorem regexCompile_not_isOk :
    (WellFormed [93] ∧ regexCompile [93] = .error (.null .regexUnexpectedCharacter)) ∧
      (WellFormed [91, 93] ∧ regexCompile [91, 93] = .error (.fault .outOfBounds)) ∧
      (WellFormed (List.replicate (2 ^ 32) 97) ∧
        ∀ bytecode, regexCompile (List.replicate (2 ^ 32) 97) ≠ .ok bytecode) := by
  refine ⟨⟨by decide, rfl⟩, ⟨by decide, rfl⟩, wellFormed_replicate _, ?_⟩
  intro bytecode h
  obtain ⟨tokens, hlex, -⟩ := bind_eq_ok.mp h
  have hlength := length_lt_of_regexLex hlex
  rw [List.length_replicate] at hlength
  exact lt_irrefl _ hlength

end Libromano.Regex
