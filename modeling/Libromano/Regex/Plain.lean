/- A match answers what the reading of the tree says. For the patterns without groups and
   quantifiers, this is whether the first characters of the string pass the tests of the pattern
   in turn: a `|` separates nothing, and a string that is over passes the tests that are left. -/

import Libromano.Regex.Termination

set_option autoImplicit false
set_option relaxedAutoImplicit false

namespace Libromano.Regex

open Relation (ReflTransGen)

section Answers

variable {pattern bytecode string : List UInt8} {vm vm' : RegexVM} {t : Tree}

private theorem regexExec_add {fuel : ℕ} {answer : Bool}
    (h : regexExec bytecode string fuel vm = .ok answer) (more : ℕ) :
    regexExec bytecode string (fuel + more) vm = .ok answer := by
  induction fuel generalizing vm with
  | zero => cases h
  | succ fuel ih =>
    rw [Nat.add_right_comm, regexExec]
    rw [regexExec] at h
    cases hstep : execStep bytecode string vm with
    | error stop =>
      rw [hstep] at h
      cases h
    | ok outcome =>
      rw [hstep] at h
      cases outcome with
      | running vm' => exact ih h
      | returned result => exact h

private theorem regexExec_unique {fuel fuel' : ℕ} {answer answer' : Bool}
    (h : regexExec bytecode string fuel vm = .ok answer)
    (h' : regexExec bytecode string fuel' vm = .ok answer') : answer = answer' := by
  have hmore := regexExec_add h fuel'
  rw [Nat.add_comm fuel fuel', regexExec_add h' fuel] at hmore
  exact (Except.ok.inj hmore).symm

private theorem regexExec_of_stays (h : ReflTransGen (Stays bytecode string) vm vm') {fuel : ℕ}
    {answer : Bool} (hexec : regexExec bytecode string fuel vm' = .ok answer) :
    ∃ fuel, regexExec bytecode string fuel vm = .ok answer := by
  induction h generalizing fuel with
  | refl => exact ⟨fuel, hexec⟩
  | @tail vm₁ vm₂ _ hstep ih =>
    have hnext : regexExec bytecode string (fuel + 1) vm₁ = .ok answer := by
      rw [regexExec, hstep.1]
      exact hexec
    exact ih hnext

private theorem Reads.exec {stop : ℕ} {answer : Bool}
    (h : Reads bytecode string vm stop (.stops answer)) :
    ∃ fuel, regexExec bytecode string fuel vm = .ok answer := by
  obtain ⟨vm', hpath, hstop⟩ := h
  have hlast : regexExec bytecode string 1 vm' = .ok answer := by
    rw [regexExec, hstop]
    rfl
  exact regexExec_of_stays hpath hlast

/-- A match with a compiled pattern answers what its tree says, unless a `+` is left. -/
theorem regexMatch_eq_iff (hne : pattern ≠ []) (hcompile : regexCompile pattern = .ok bytecode)
    (hsize : bytecode.length < 2 ^ 31) (ht : Spells pattern t) (hleaves : t.result string ≠ .leaves)
    (answer : Bool) : (∃ fuel, regexMatch bytecode string fuel = .ok answer) ↔
      t.result string = .stops answer := by
  obtain rfl := bytecode_of_spells hne hcompile ht
  have hmatch : ∀ fuel, regexMatch t.bytecode string fuel =
      regexExec t.bytecode string fuel RegexVM.start :=
    fun fuel => if_neg (length_pos_of_tree t)
  have hread : Reads t.bytecode string RegexVM.start 0 (t.result string) := reads_result hsize 0
  simp only [hmatch]
  cases hresult : t.result string with
  | passes flag rest => exact absurd hresult (result_ne_passes t string flag rest)
  | stops result =>
    rw [hresult] at hread
    obtain ⟨fuel, hexec⟩ := hread.exec
    constructor
    · rintro ⟨fuel', hexec'⟩
      rw [regexExec_unique hexec hexec']
    · intro h
      cases h
      exact ⟨fuel, hexec⟩
  | leaves => exact absurd hresult hleaves
  | idles =>
    rw [hresult] at hread
    refine iff_of_false ?_ Result.noConfusion
    rintro ⟨fuel, hexec⟩
    exact hread.not_returns ⟨fuel, answer, hexec⟩

/-- The pattern `(ab?)*` with the string `abac`. -/
theorem regexMatch_eq_iff_repeated :
    ∃ fuel, regexMatch repeatedTree.bytecode [97, 98, 97, 99] fuel = .ok false := by
  have hresult : repeatedTree.result [97, 98, 97, 99] = .stops false := by
    simp [repeatedTree, Tree.result, Tree.run, Quantifier.run, Test.run, Test.holds, failRun, skip,
      setRun, loop, Result.andThen, Result.again]
  have hspells : Spells [40, 97, 98, 63, 41, 42] repeatedTree := ⟨_, rfl, rfl⟩
  exact (regexMatch_eq_iff (List.cons_ne_nil _ _) rfl (by decide) hspells
    (by rw [hresult]; exact Result.noConfusion) false).mpr hresult

end Answers

/-- A character that stands for itself, a `.`, or a `|`. -/
def IsPlain (c : UInt8) : Prop := isalnum c ∨ c = 95 ∨ c = 46 ∨ c = 124

instance (c : UInt8) : Decidable (IsPlain c) := inferInstanceAs (Decidable (_ ∨ _))

/-- The test of a character of the pattern, unless it is a `|`. -/
def plainTest (c : UInt8) : Option Test :=
  if c = 124 then none else if c = 46 then some .any else some (.single c)

def plainTests (pattern : List UInt8) : List Test := pattern.filterMap plainTest

def plainTree (needsConcat : Bool) : List UInt8 → Tree
  | [] => .empty
  | c :: s =>
    match plainTest c with
    | none => .separator .bar (plainTree false s)
    | some x =>
      if needsConcat then .separator .concatenation (.test x .once (plainTree true s))
      else .test x .once (plainTree true s)

/-- As far as the string goes, its characters pass the tests in turn. -/
def passesAll : List Test → List UInt8 → Bool
  | x :: tests, c :: string => x.holds c && passesAll tests string
  | _, _ => true

section Plain

variable {pattern string s : List UInt8} {c : UInt8} {x : Test} {needsConcat : Bool}

private theorem tokenOf_bar : tokenOf 124 = some (.operator .alternate) := rfl

private theorem exists_token (hc : IsPlain c) (htest : plainTest c = some x) : ∃ encoding,
    tokenOf c = some (.character encoding) ∧
    ∀ s, (⟨some (c :: s), 1, .character encoding⟩ : RegexToken).symbol = .ok (.test x) := by
  rw [plainTest] at htest
  split_ifs at htest with hbar hdot
  · cases htest
    subst hdot
    exact ⟨.any, rfl, fun s => rfl⟩
  · cases htest
    have hliteral : isalnum c || c = 95 := by
      rcases hc with hc | hc | hc | hc
      · rw [hc]
        rfl
      · rw [hc]
        rfl
      · exact absurd hc hdot
      · exact absurd hc hbar
    refine ⟨.single, ?_, fun s => ?_⟩
    · rw [tokenOf, if_pos hliteral]
    · simp [RegexToken.symbol, RegexToken.char, charAt]

private theorem spelled_concat (tokens : List RegexToken) {t : Tree} (ht : Spelled tokens t) :
    Spelled (⟨none, 0, .operator .concatenate⟩ :: tokens) (.separator .concatenation t) := by
  rw [Spelled, List.map_cons, ht]
  rfl

private theorem lexFrom_plain (needsConcat : Bool) (s : List UInt8) (hplain : ∀ c ∈ s, IsPlain c) :
    ∃ tokens, lexFrom needsConcat s = .ok tokens ∧ Spelled tokens (plainTree needsConcat s) := by
  induction s generalizing needsConcat with
  | nil => exact ⟨[], by rw [lexFrom], rfl⟩
  | cons c s ih =>
    obtain ⟨hc, hs⟩ := List.forall_mem_cons.mp hplain
    cases htest : plainTest c with
    | none =>
      have hbar : c = 124 := by
        by_contra hbar
        rw [plainTest, if_neg hbar] at htest
        split_ifs at htest
      subst hbar
      obtain ⟨tokens, hlex, htokens⟩ := ih false hs
      refine ⟨⟨some (124 :: s), 1, .operator .alternate⟩ :: tokens, ?_, ?_⟩
      · rw [lexFrom, tokenOf_bar]
        simp [TokenType.next, TokenType.joins, concatToken, hlex]
      · rw [plainTree, htest, Spelled, List.map_cons, htokens]
        rfl
    | some x =>
      obtain ⟨encoding, htoken, hsymbol⟩ := exists_token hc htest
      obtain ⟨tokens, hlex, htokens⟩ := ih true hs
      have hspelled : Spelled (⟨some (c :: s), 1, .character encoding⟩ :: tokens)
          (.test x .once (plainTree true s)) := by
        rw [Spelled, List.map_cons, htokens, hsymbol s]
        rfl
      refine ⟨concatToken needsConcat ++ ⟨some (c :: s), 1, .character encoding⟩ :: tokens, ?_, ?_⟩
      · rw [lexFrom, htoken]
        simp [TokenType.next, TokenType.joins, hlex]
      · rw [plainTree, htest]
        cases needsConcat with
        | false => exact hspelled
        | true => exact spelled_concat _ hspelled

private theorem length_code_plain (needsConcat first : Bool) (id : UInt32) (s : List UInt8) :
    (assemble ((plainTree needsConcat s).code first id)).length ≤ 8 * s.length := by
  have hjump : ∀ first, (assemble (failJump first)).length ≤ 5 := by decide
  induction s generalizing needsConcat first id with
  | nil => exact Nat.le_refl 0
  | cons c s ih =>
    rw [plainTree, List.length_cons]
    cases htest : plainTest c with
    | none =>
      have hrest := ih false true id
      have hfirst := hjump first
      simp only [Tree.code, assemble_append, List.length_append]
      omega
    | some x =>
      have hcode : (assemble x.code).length ≤ 3 := by
        rw [plainTest] at htest
        split_ifs at htest <;> cases htest <;> exact Nat.le_of_ble_eq_true rfl
      have hrest := ih true false id
      have hfirst := hjump first
      have htrue : failJump true = [] := rfl
      cases needsConcat <;>
      · simp only [Tree.code, Quantifier.code, assemble_append, List.length_append, if_true,
          Bool.false_eq_true, if_false, htrue, assemble_nil, List.length_nil]
        omega

private theorem regexCompile_plain (hplain : ∀ c ∈ pattern, IsPlain c) (hne : pattern ≠ [])
    (hlength : pattern.length < 2 ^ 28) :
    regexCompile pattern = .ok (plainTree false pattern).bytecode ∧
      (plainTree false pattern).bytecode.length < 2 ^ 31 ∧
      Spells pattern (plainTree false pattern) := by
  obtain ⟨tokens, hlexed, htokens⟩ := lexFrom_plain false pattern hplain
  have hlex : regexLex pattern = .ok tokens :=
    (regexLex_eq (Nat.lt_trans hlength (by decide))).trans hlexed
  have htokens_ne : tokens ≠ [] := by
    obtain ⟨c, s, rfl⟩ := List.exists_cons_of_ne_nil hne
    exact lexFrom_ne_nil hlexed
  refine ⟨regexCompile_of_spelled hlex htokens htokens_ne, ?_, tokens, hlex, htokens⟩
  have hcode := length_code_plain false true 1 pattern
  have hends : (assemble [.jumpNeq jumpFail, .accept, .fail]).length = 7 := rfl
  rw [Tree.length_bytecode, Tree.program, assemble_append, List.length_append, hends]
  omega

def ending (r : Result) : Result := r.again (fun _ => .stops true) fun _ => .stops false

private theorem run_failed (s : List UInt8) (d : UInt8) (string : List UInt8) :
    ending ((plainTree true s).run false false (d :: string)) = .stops false := by
  cases s with
  | nil => rfl
  | cons c s =>
    rw [plainTree]
    cases plainTest c with
    | none => rfl
    | some x => rfl

private theorem plainTests_bar (hc : plainTest c = none) : plainTests (c :: s) = plainTests s :=
  List.filterMap_cons_none hc

private theorem plainTests_test (hc : plainTest c = some x) :
    plainTests (c :: s) = x :: plainTests s :=
  List.filterMap_cons_some hc

private theorem run_test (x : Test) {flag : Bool} (hflag : string = [] → flag = true)
    (hrest : ∀ string, ending ((plainTree true s).run false true string) =
      .stops (passesAll (plainTests s) string)) :
    ending ((Tree.test x .once (plainTree true s)).run true flag string) =
      .stops (passesAll (x :: plainTests s) string) := by
  cases string with
  | nil =>
    rw [hflag rfl]
    rfl
  | cons d string =>
    have hrun : (Tree.test x .once (plainTree true s)).run true flag (d :: string) =
        (x.run flag (d :: string)).andThen fun flag rest =>
          (plainTree true s).run false flag rest := rfl
    rw [hrun, Test.run, passesAll]
    cases hholds : x.holds d with
    | true => exact hrest string
    | false => exact run_failed s d string

private theorem run_passed (s string : List UInt8) :
    ending ((plainTree false s).run true true string) = .stops (passesAll (plainTests s) string) ∧
    ending ((plainTree true s).run false true string) = .stops (passesAll (plainTests s) string) := by
  induction s generalizing string with
  | nil => cases string <;> exact ⟨rfl, rfl⟩
  | cons c s ih =>
    cases hc : plainTest c with
    | none =>
      rw [plainTests_bar hc, plainTree, plainTree, hc]
      refine ⟨?_, ?_⟩
      · cases string with
        | nil => exact (ih []).1
        | cons d string => exact (ih (d :: string)).1
      · cases string with
        | nil => cases plainTests s <;> rfl
        | cons d string => exact (ih (d :: string)).1
    | some x =>
      have htest : ∀ string, ending ((Tree.test x .once (plainTree true s)).run true true string) =
          .stops (passesAll (x :: plainTests s) string) :=
        fun string => run_test x (fun _ => rfl) fun string => (ih string).2
      rw [plainTests_test hc, plainTree, plainTree, hc]
      refine ⟨htest string, ?_⟩
      cases string with
      | nil => rfl
      | cons d string => exact htest (d :: string)

private theorem run_start (s string : List UInt8) (htests : plainTests s ≠ []) :
    ending ((plainTree false s).run true false string) =
      .stops (string ≠ [] && passesAll (plainTests s) string) := by
  induction s with
  | nil => exact absurd rfl htests
  | cons c s ih =>
    cases hc : plainTest c with
    | none =>
      rw [plainTests_bar hc] at htests ⊢
      rw [plainTree, hc, ← ih htests]
      cases string <;> rfl
    | some x =>
      rw [plainTests_test hc, plainTree, hc]
      cases string with
      | nil => rfl
      | cons d string =>
        exact run_test x (fun h => absurd h (List.cons_ne_nil d string))
          fun string => (run_passed s string).2

/-- Whatever bars a plain pattern has, it is accepted, and a match with it tells whether the string is
not empty and its first characters pass the tests in turn, as far as they go. -/
theorem regexMatch_plain (hplain : ∀ c ∈ pattern, IsPlain c) (htests : plainTests pattern ≠ [])
    (hlength : pattern.length < 2 ^ 28) : ∃ bytecode, regexCompile pattern = .ok bytecode ∧
      ∀ string, ∃ fuel, regexMatch bytecode string fuel =
        .ok (string ≠ [] && passesAll (plainTests pattern) string) := by
  have hne : pattern ≠ [] := by
    rintro rfl
    exact htests rfl
  obtain ⟨hcompile, hsize, hspells⟩ := regexCompile_plain hplain hne hlength
  refine ⟨_, hcompile, fun string => ?_⟩
  have hresult : (plainTree false pattern).result string =
      .stops (string ≠ [] && passesAll (plainTests pattern) string) :=
    run_start pattern string htests
  exact (regexMatch_eq_iff hne hcompile hsize hspells
    (by rw [hresult]; exact Result.noConfusion) _).mpr hresult

/-- The pattern `a|b` asks for an `a` and a `b`. -/
theorem regexMatch_plain_bar : ∃ bytecode, regexCompile [97, 124, 98] = .ok bytecode ∧
    (∃ fuel, regexMatch bytecode [97, 98] fuel = .ok true) ∧
    ∃ fuel, regexMatch bytecode [98] fuel = .ok false := by
  have hplain : ∀ c ∈ ([97, 124, 98] : List UInt8), IsPlain c := by
    simp only [List.forall_mem_cons, List.not_mem_nil, false_implies, implies_true, and_true]
    decide
  have htests : plainTests [97, 124, 98] ≠ [] := by decide
  obtain ⟨bytecode, hcompile, hmatch⟩ := regexMatch_plain hplain htests (by decide)
  exact ⟨bytecode, hcompile, hmatch [97, 98], hmatch [98]⟩

end Plain

end Libromano.Regex
