/- A match ends exactly when the tree of the pattern does not go round in a loop that takes no
   character, as long as no `+` is left. -/

import Libromano.Regex.Reads

set_option autoImplicit false
set_option relaxedAutoImplicit false

namespace Libromano.Regex

open Relation (ReflTransGen TransGen)

def Returns (bytecode string : List UInt8) (vm : RegexVM) : Prop :=
  ∃ fuel result, regexExec bytecode string fuel vm = .ok result

section Returns

variable {bytecode string : List UInt8} {vm vm' : RegexVM} {stop : ℕ}

private theorem returns_iff_of_leads (h : Leads bytecode string vm vm') :
    Returns bytecode string vm ↔ Returns bytecode string vm' := by
  constructor
  · rintro ⟨fuel, result, hexec⟩
    cases fuel with
    | zero => cases hexec
    | succ fuel =>
      rw [regexExec, h] at hexec
      exact ⟨fuel, result, hexec⟩
  · rintro ⟨fuel, result, hexec⟩
    refine ⟨fuel + 1, result, ?_⟩
    rw [regexExec, h]
    exact hexec

private theorem returns_iff_of_stays (h : ReflTransGen (Stays bytecode string) vm vm') :
    Returns bytecode string vm ↔ Returns bytecode string vm' := by
  induction h with
  | refl => exact Iff.rfl
  | tail _ hstep ih => exact ih.trans (returns_iff_of_leads hstep.1)

private theorem not_returns_of_cycle (h : TransGen (Stays bytecode string) vm vm) :
    ¬Returns bytecode string vm := by
  rintro ⟨fuel, result, hexec⟩
  induction fuel generalizing vm with
  | zero => cases hexec
  | succ fuel ih =>
    obtain ⟨vm', hstep, hrest⟩ := TransGen.head'_iff.mp h
    rw [regexExec, hstep.1] at hexec
    exact ih (.tail' hrest hstep) hexec

private theorem Reads.returns {result : Bool} (h : Reads bytecode string vm stop (.stops result)) :
    Returns bytecode string vm := by
  obtain ⟨vm', hpath, hstop⟩ := h
  refine (returns_iff_of_stays hpath).mpr ⟨1, result, ?_⟩
  rw [regexExec, hstop]
  rfl

theorem Reads.not_returns (h : Reads bytecode string vm stop .idles) :
    ¬Returns bytecode string vm := by
  obtain ⟨vm', hpath, hcycle⟩ := h
  exact fun hreturns => not_returns_of_cycle hcycle ((returns_iff_of_stays hpath).mp hreturns)

end Returns

/-- The pattern is lexed to the tokens of the tree. -/
def Spells (pattern : List UInt8) (t : Tree) : Prop :=
  ∃ tokens, regexLex pattern = .ok tokens ∧ Spelled tokens t

section Match

variable {pattern bytecode string : List UInt8} {t : Tree}

private theorem eq_empty_of_symbols (h : t.symbols = []) : t = .empty := by
  cases t with
  | empty => rfl
  | test x q tail => cases h
  | group body q tail => cases h
  | separator s tail => cases h

theorem bytecode_of_spells (hne : pattern ≠ []) (hcompile : regexCompile pattern = .ok bytecode)
    (ht : Spells pattern t) : bytecode = t.bytecode := by
  obtain ⟨tokens, t', hlex, ht', rfl⟩ := regexCompile_eq_ok hne hcompile
  obtain ⟨tokens', hlex', ht⟩ := ht
  cases hlex.symm.trans hlex'
  have hprogram : assemble t'.program = assemble t.program :=
    Except.ok.inj ((emitProgram_of_spelled ht').symm.trans (emitProgram_of_spelled ht))
  have hpatch := patchLoop_program t'
  rw [hprogram, patchLoop_program t] at hpatch
  exact (Except.ok.inj hpatch).symm

private theorem exists_spells (hcompile : regexCompile pattern = .ok bytecode) :
    ∃ t, Spells pattern t := by
  by_cases hne : pattern = []
  · subst hne
    exact ⟨.empty, [], rfl, rfl⟩
  · obtain ⟨tokens, t, hlex, ht, -⟩ := regexCompile_eq_ok hne hcompile
    exact ⟨t, tokens, hlex, ht⟩

theorem result_ne_passes (t : Tree) (string : List UInt8) (flag : Bool) (rest : List UInt8) :
    t.result string ≠ .passes flag rest := by
  rw [Tree.result]
  rcases t.run true false string with ⟨_ | _, _ | _⟩ | _ | _ | _ <;> simp [Result.again]

theorem length_pos_of_tree (t : Tree) : t.bytecode.length ≠ 0 := by
  rw [t.length_bytecode, t.program_eq]
  simp [Instr.accept, OpCode.size]

/-- Every accepted pattern spells a tree. A match with it ends where the reading of the tree neither
leaves a `+` nor idles, and it does not end where the reading idles. -/
theorem regexMatch_returns_iff (hcompile : regexCompile pattern = .ok bytecode)
    (hsize : bytecode.length < 2 ^ 31) : (∃ t, Spells pattern t) ∧
      ∀ t, Spells pattern t → ∀ string,
        (t.result string ≠ .leaves ∧ t.result string ≠ .idles →
          ∃ fuel result, regexMatch bytecode string fuel = .ok result) ∧
        (t.result string = .idles →
          ¬∃ fuel result, regexMatch bytecode string fuel = .ok result) := by
  refine ⟨exists_spells hcompile, ?_⟩
  intro t ht string
  by_cases hne : pattern = []
  · subst hne
    obtain ⟨tokens, hlex, ht⟩ := ht
    cases hlex
    obtain rfl := eq_empty_of_symbols (List.map_eq_nil_iff.mp ht.symm)
    cases hcompile
    cases string with
    | nil => exact ⟨fun _ => ⟨1, false, rfl⟩, fun hidles => nomatch hidles⟩
    | cons c string => exact ⟨fun _ => ⟨1, true, rfl⟩, fun hidles => nomatch hidles⟩
  · obtain rfl := bytecode_of_spells hne hcompile ht
    have hmatch : ∀ fuel, regexMatch t.bytecode string fuel =
        regexExec t.bytecode string fuel RegexVM.start :=
      fun fuel => if_neg (length_pos_of_tree t)
    have hread : Reads t.bytecode string RegexVM.start 0 (t.result string) := reads_result hsize 0
    simp only [hmatch]
    change (_ → Returns t.bytecode string RegexVM.start) ∧ (_ → ¬Returns _ _ _)
    refine ⟨fun hresult => ?_, fun hidles => ?_⟩
    · obtain ⟨hleaves, hidles⟩ := hresult
      cases hresult : t.result string with
      | passes flag rest => exact absurd hresult (result_ne_passes t string flag rest)
      | stops result =>
        rw [hresult] at hread
        exact hread.returns
      | leaves => exact absurd hresult hleaves
      | idles => exact absurd hresult hidles
    · rw [hidles] at hread
      exact hread.not_returns

/-- The tree of the pattern `(ab?)*`. -/
def repeatedTree : Tree :=
  .group (.test (.single 97) .once
    (.separator .concatenation (.test (.single 98) .zeroOrOne .empty))) .zeroOrMore .empty

/-- Its match with the string `abac` ends. -/
theorem regexMatch_returns_iff_repeated : ∃ fuel result,
    regexCompile [40, 97, 98, 63, 41, 42] = .ok repeatedTree.bytecode ∧
      regexMatch repeatedTree.bytecode [97, 98, 97, 99] fuel = .ok result := by
  have hcompile : regexCompile [40, 97, 98, 63, 41, 42] = .ok repeatedTree.bytecode := rfl
  have hspells : Spells [40, 97, 98, 63, 41, 42] repeatedTree := ⟨_, rfl, rfl⟩
  have hresult : repeatedTree.result [97, 98, 97, 99] = .stops false := by
    simp [repeatedTree, Tree.result, Tree.run, Quantifier.run, Test.run, Test.holds, failRun, skip,
      setRun, loop, Result.andThen, Result.again]
  have hmatch := ((regexMatch_returns_iff hcompile (by decide)).2 _ hspells [97, 98, 97, 99]).1
  rw [hresult] at hmatch
  obtain ⟨fuel, result, hmatch⟩ := hmatch ⟨Result.noConfusion, Result.noConfusion⟩
  exact ⟨fuel, result, hcompile, hmatch⟩

/-- The tree of the pattern `(a?)*`. -/
def optionalTree : Tree := .group (.test (.single 97) .zeroOrOne .empty) .zeroOrMore .empty

/-- At the string `b` it goes round for ever. -/
theorem regexMatch_not_returns :
    ¬∀ pattern bytecode string, regexCompile pattern = .ok bytecode →
      ∃ fuel result, regexMatch bytecode string fuel = .ok result := by
  intro hall
  obtain ⟨fuel, result, hmatch⟩ := hall [40, 97, 63, 41, 42] optionalTree.bytecode [98] rfl
  have hidles : optionalTree.result [98] = .idles := by
    simp [optionalTree, Tree.result, Tree.run, Quantifier.run, Test.run, Test.holds, failRun, skip,
      setRun, loop, Result.andThen, Result.again]
  have hread : Reads optionalTree.bytecode [98] RegexVM.start 0 (optionalTree.result [98]) :=
    reads_result (by decide) 0
  rw [hidles] at hread
  exact hread.not_returns ⟨fuel, result, hmatch⟩

end Match

end Libromano.Regex
