/- The split of a C string. The array is allocated for one string more than the first of the
   separators occurs, and filled with the tokens of `strtok`, for which adjacent separators count
   once, and all of the separators count. -/

import Libromano.Foundation.Tokens
import Libromano.Strings.Contents
import Mathlib.Data.List.Forall2

set_option autoImplicit false
set_option relaxedAutoImplicit false

namespace Libromano.Strings

open Foundation

section Functions

/-- A call of `strtok`, on what is left of the text: the token, and what is left behind the
separator that ends it. -/
def strtok (separator text : List UInt8) : Option (List UInt8 × List UInt8) :=
  let text := text.dropWhile (separator.contains ·)
  if text = [] then none
  else
    some (text.takeWhile (!separator.contains ·), (text.dropWhile (!separator.contains ·)).drop 1)

/-- `result[i] = string`, in an array with slots that may not have been written yet. -/
def setSlot (result : List (Option String)) (i : ℕ) (string : String) :
    Except Fault (List (Option String)) :=
  if i < result.length then .ok (result.set i (some string)) else .error .outOfBounds

def splitTokens (separator : List UInt8) :
    ℕ → List UInt8 → List (Option String) → ℕ → Except Fault (List (Option String))
  | 0, _, _, _ => .error .diverges
  | fuel + 1, text, result, i =>
    match strtok separator text with
    | none => .ok result
    | some token => do
      let string ← stringNew token.1
      let result ← setSlot result i string
      splitTokens separator fuel token.2 result (i + 1)

/-- The occurrences of the first separator, which are counted in 32 bits, and the length. -/
def scanSeparators (first : UInt8) (data : List UInt8) : ℕ × ℕ :=
  data.foldl (fun s c => (if c = first then (s.1 + 1) % 2 ^ 32 else s.1, s.2 + 1)) (0, 0)

/-- The array and its length. An array that is null has no strings. -/
def stringSplitc (data separator : List UInt8) : Except Fault (Option (List (Option String)) × ℕ) :=
  let scanned := scanSeparators (separator.headD 0) data
  if scanned.2 = 0 then .ok (none, scanned.1)
  else do
    let count := (scanned.1 + 1) % 2 ^ 32
    let result ← splitTokens separator (data.length + 1) data (List.replicate count none) 0
    .ok (some result, count)

end Functions

section Tokens

variable {separator text : List UInt8}

private theorem strtok_eq_none (h : strtok separator text = none) :
    tokens (separator.contains ·) text = [] := by
  rw [strtok] at h
  split_ifs at h with hnil
  rw [← tokens_dropWhile, hnil, tokens_nil]

private theorem strtok_eq_some {token : List UInt8 × List UInt8}
    (h : strtok separator text = some token) :
    tokens (separator.contains ·) text = token.1 :: tokens (separator.contains ·) token.2 ∧
      token.1.length ≤ text.length ∧ token.2.length < text.length := by
  rw [strtok] at h
  split_ifs at h with hnil
  obtain rfl := Option.some.inj h
  have hfirst := List.head?_dropWhile_not (separator.contains ·) text
  have hle : (text.dropWhile (separator.contains ·)).length ≤ text.length :=
    (List.dropWhile_sublist _).length_le
  refine ⟨?_, ?_, ?_⟩
  · rw [← tokens_dropWhile, tokens_eq_cons hnil fun a ha => ?_]
    rw [Option.mem_def.mp ha] at hfirst
    exact hfirst
  · exact Nat.le_trans (List.takeWhile_sublist _).length_le hle
  · have hpos := List.length_pos_iff.mpr hnil
    have hdrop := (List.dropWhile_sublist (!separator.contains ·)
      (l := text.dropWhile (separator.contains ·))).length_le
    rw [List.length_drop]
    omega

end Tokens

section Runs

variable {data separator : List UInt8}

private theorem scanSeparators_eq (first : UInt8) :
    scanSeparators first data = (data.count first % 2 ^ 32, data.length) := by
  have hfold (c n : ℕ) (hc : c < 2 ^ 32) :
      data.foldl (fun s c => (if c = first then (s.1 + 1) % 2 ^ 32 else s.1, s.2 + 1)) (c, n) =
        ((c + data.count first) % 2 ^ 32, n + data.length) := by
    induction data generalizing c n with
    | nil => rw [List.foldl_nil, List.count_nil, Nat.add_zero, Nat.mod_eq_of_lt hc]; rfl
    | cons a data ih =>
      rw [List.foldl_cons, List.count_cons, List.length_cons]
      by_cases ha : a = first
      · rw [if_pos ha, ih _ _ (Nat.mod_lt _ (by decide)), Nat.mod_add_mod,
          if_pos (beq_iff_eq.mpr ha)]
        exact Prod.ext (by omega) (by omega)
      · rw [if_neg ha, ih _ _ hc, if_neg (by rwa [beq_iff_eq])]
        exact Prod.ext rfl (by omega)
  rw [scanSeparators, hfold 0 0 (by decide), Nat.zero_add, Nat.zero_add]

private theorem growable_of_lt {n : ℕ} (h : n < 2 ^ 63) : Growable n := by
  rw [Growable, headerSize]
  omega

private theorem setSlot_next (written : List String) (k : ℕ) (string : String) :
    setSlot (written.map some ++ List.replicate (k + 1) none) written.length string =
      .ok ((written ++ [string]).map some ++ List.replicate k none) := by
  have hlength : written.length = (written.map some).length := (List.length_map _).symm
  rw [setSlot, if_pos (by simp), hlength, List.set_append_right _ _ (Nat.le_refl _), Nat.sub_self,
    List.replicate_succ, List.set_cons_zero, List.map_append, List.map_singleton, List.append_assoc]
  rfl

private theorem splitTokens_yields {fuel : ℕ} {text : List UInt8} (hfuel : text.length < fuel)
    (hsize : text.length < 2 ^ 63) (written : List String) :
    Yields (splitTokens separator fuel text
      (written.map some ++ List.replicate (tokens (separator.contains ·) text).length none)
      written.length) fun result =>
        ∃ strings, result = (written ++ strings).map some ∧
          List.Forall₂ Holds strings (tokens (separator.contains ·) text) := by
  induction fuel generalizing text written with
  | zero => exact absurd hfuel (Nat.not_lt_zero _)
  | succ fuel ih =>
    rw [splitTokens]
    cases htoken : strtok separator text with
    | none =>
      rw [strtok_eq_none htoken]
      refine ⟨[], ?_, .nil⟩
      rw [List.append_nil, List.length_nil, List.replicate_zero, List.append_nil]
    | some token =>
      obtain ⟨htokens, hlength, hrest⟩ := strtok_eq_some htoken
      rw [htokens]
      refine (stringNew_yields (growable_of_lt (Nat.lt_of_le_of_lt hlength hsize))).bind
        fun string hstring => ?_
      rw [List.length_cons, setSlot_next, bind_ok]
      have hloop := ih (Nat.lt_of_lt_of_le hrest (Nat.le_of_lt_succ hfuel))
        (Nat.lt_trans hrest hsize) (written ++ [string])
      rw [List.length_append, List.length_singleton] at hloop
      apply hloop.mono
      rintro result _ ⟨strings, hresult, hholds⟩
      refine ⟨string :: strings, ?_, .cons hstring hholds⟩
      rw [hresult, List.append_assoc, List.singleton_append]

/-- The array has as many slots as it is said to have, all of them are written, and the strings
are the tokens of the data. -/
def Splits (data separator : List UInt8) : Prop :=
  ∃ result count strings, stringSplitc data separator = .ok (result, count) ∧
    result.getD [] = strings.map some ∧ count = strings.length ∧
    List.Forall₂ Holds strings (tokens (separator.contains ·) data)

private theorem stringSplitc_eq (hne : data ≠ []) :
    stringSplitc data separator = (do
      let result ← splitTokens separator (data.length + 1) data
        (List.replicate ((data.count (separator.headD 0) + 1) % 2 ^ 32) none) 0
      .ok (some result, (data.count (separator.headD 0) + 1) % 2 ^ 32)) := by
  rw [stringSplitc, scanSeparators_eq]
  dsimp only
  rw [if_neg (List.length_pos_iff.mpr hne).ne', Nat.mod_add_mod]

/-- The data is split where the first separator occurs once less than there are tokens. -/
theorem splits_iff (hsize : data.length < 2 ^ 63)
    (hmemory : stringSplitc data separator ≠ .error .outOfMemory) :
    Splits data separator ↔ data = [] ∨ (data.count (separator.headD 0) + 1) % 2 ^ 32 =
      (tokens (separator.contains ·) data).length := by
  by_cases hne : data = []
  · subst hne
    exact iff_of_true ⟨none, 0, [], rfl, rfl, rfl, by rw [tokens_nil]; exact .nil⟩ (.inl rfl)
  · rw [stringSplitc_eq hne] at hmemory
    rw [or_iff_right hne]
    constructor
    · rintro ⟨result, count, strings, hrun, -, hcount, hholds⟩
      rw [stringSplitc_eq hne, bind_eq_ok] at hrun
      obtain ⟨slots, -, hslots⟩ := hrun
      rw [(Prod.mk.inj (Except.ok.inj hslots)).2, hcount, hholds.length_eq]
    · intro hcount
      rw [hcount] at hmemory
      obtain ⟨result, ⟨strings, hresult, hholds⟩, hrun⟩ :=
        (splitTokens_yields (Nat.lt_succ_self data.length) hsize []).exists_bind hmemory
      refine ⟨some result, _, strings, ?_, hresult, hholds.length_eq.symm, hholds⟩
      rw [stringSplitc_eq hne, hcount]
      exact hrun

/-- The data `"a,b,c"`. -/
theorem splits_commas : Splits [97, 44, 98, 44, 99] [44] := by
  have hrun : stringSplitc [97, 44, 98, 44, 99] [44] ≠ .error .outOfMemory := by decide
  exact (splits_iff (by decide) hrun).mpr (.inr (by decide))

/-- Two slots for the data `",a"`, which has one token. -/
theorem stringSplitc_leading :
    ¬ ∀ data separator : List UInt8, 0 ∉ data → 0 ∉ separator → separator ≠ [] →
      data.length < 2 ^ 63 → stringSplitc data separator ≠ .error .outOfMemory →
      Splits data separator := by
  intro h
  obtain ⟨result, count, strings, hrun, -, hcount, hholds⟩ := h [44, 97] [44] (by decide)
    (by decide) (by decide) (by decide) (by decide)
  have hlength : (stringSplitc [44, 97] [44]).map Prod.snd = .ok 2 := by decide
  have htokens : (tokens (List.contains [44] ·) [44, (97 : UInt8)]).length = 1 := by decide
  rw [hrun] at hlength
  have htwo : count = 2 := Except.ok.inj hlength
  rw [hcount, hholds.length_eq, htokens] at htwo
  cases htwo

end Runs

end Libromano.Strings
