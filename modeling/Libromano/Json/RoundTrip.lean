/- Writing a tree and reading the text back. What is needed for the tree to return is that the
   writer can be given the memory that it asks for, and that no string has a character that the
   writer lets through and the reader refuses or drops. -/

import Libromano.Arena
import Libromano.Json.Reread

set_option autoImplicit false
set_option relaxedAutoImplicit false

namespace Libromano.Json

open Bytes (cString)

variable {F : Type} [Float64 F] {holds : ℕ → Bool} {indentSize : UInt64} {v : JsonValue F}

/-- `json_dumps` gives a text, and `json_loads` makes the same tree of it. -/
def RoundTrips (holds : ℕ → Bool) (indentSize : UInt64) (v : JsonValue F) : Prop :=
  ∃ out w, jsonDumps v indentSize = .ok out ∧ jsonLoads holds out = .ok w ∧ v.Same w

private theorem jsonLoads_text (hmono : Monotone holds) (hfree : v.FloatFree)
    (hheld : v.StringsSatisfy (Held holds)) (indentSize : UInt64) :
    Decides (v.StringsSatisfy Readable) (v.rewrite dropTabs)
      (jsonLoads holds (text indentSize v)) := by
  have hread : Rereads holds indentSize (text indentSize v).length
      ((text indentSize v).length + 1) v := rereads hmono hfree hheld _
  have hread := hread 0 [] fun c hc => absurd hc (by simp)
  have hnonempty : textOf (pieces indentSize 0 v) ++ [] ≠ [] := text_ne_nil hfree 0 []
  rw [List.append_nil] at hread hnonempty
  rw [jsonLoads_eq_readText, readText, text, if_neg hnonempty]
  refine Decides.congr (P := v.StringsSatisfy Readable ∧ True) ?_ (by simp)
  exact hread.bind fun _ => .ok trivial rfl

omit [Float64 F] in
private theorem legible_iff {s : List UInt8} : Legible s ↔ Readable s ∧ dropTabs s = s := by
  have htab : ∀ c, isLegible c = true ↔ isReadable c = true ∧ c ≠ 11 := by
    intro c
    by_cases hc : c = 11
    · subst hc
      decide
    · simp [isReadable, hc]
  simp only [Legible, Readable, dropTabs, List.filter_eq_self, decide_eq_true_eq, htab]
  exact forall₂_and

/-- A tree returns when the writer has room for its text and all of its strings
are legible, and only then. -/
private theorem roundTrips_iff (hmono : Monotone holds) (hfree : v.FloatFree)
    (hheld : v.StringsSatisfy (Held holds)) :
    RoundTrips holds indentSize v ↔ Fits indentSize v ∧ v.StringsSatisfy Legible := by
  have hlegible : v.StringsSatisfy Legible ↔
      v.StringsSatisfy Readable ∧ v.Same (v.rewrite dropTabs) := by
    rw [JsonValue.same_rewrite_iff]
    simp only [JsonValue.StringsSatisfy, legible_iff]
    exact forall₂_and
  have hread := jsonLoads_text hmono hfree hheld indentSize
  rw [hlegible]
  constructor
  · rintro ⟨out, w, hdumps, hloads, hsame⟩
    obtain ⟨hfits, rfl⟩ := (jsonDumps_eq_ok_iff hfree).mp hdumps
    rw [hloads] at hread
    cases hread with
    | ok hreadable h =>
      cases h
      exact ⟨hfits, hreadable, hsame⟩
    | diverges h => cases h
    | null hreadable error h => cases h
  · rintro ⟨hfits, hreadable, hsame⟩
    refine ⟨_, _, (jsonDumps_eq_ok_iff hfree).mpr ⟨hfits, rfl⟩, ?_, hsame⟩
    cases hread with
    | ok _ h => exact h
    | diverges h =>
      obtain ⟨⟨⟩, -⟩ := jsonLoads_fault _ _ h
    | null hnot => exact absurd hreadable hnot

private theorem not_zero_of_legible {s : List UInt8} (h : Legible s) : 0 ∉ s :=
  fun hzero => absurd (h 0 hzero) (by decide)

/-- A tree read from a text without fractions returns exactly when its own text fits. -/
theorem jsonLoads_roundTrips_iff {t : List UInt8} (ht : Text integral t)
    (hv : jsonLoads fresh t = .ok v) (indentSize : UInt64) :
    RoundTrips fresh indentSize v ↔ Fits indentSize v := by
  obtain ⟨v', hv', hfree⟩ := jsonLoads_of_text F ht
  rw [hv] at hv'
  cases hv'
  have hlegible : v.StringsSatisfy Legible := by
    rw [jsonLoads_eq_readText] at hv
    exact (readText_sound hv).2
  have hmono : Monotone fresh := fun _ _ _ _ => rfl
  rw [roundTrips_iff hmono (hfree rfl) fun s hs => ⟨not_zero_of_legible (hlegible s hs), rfl⟩]
  exact and_iff_left hlegible

private theorem text_one : Text integral [91, 49, 93] := by
  have hone : Number integral ([] ++ ([49] ++ ([] ++ []))) :=
    .parts (.inl rfl) ⟨⟨List.cons_ne_nil _ _, List.forall_mem_singleton.mpr rfl⟩, .inl rfl⟩
      .none .none
  exact ⟨[], _, [], spaces_nil, .array (.lastElement spaces_nil (.number hone) spaces_nil),
    spaces_nil, rfl⟩

theorem jsonLoads_roundTrips_iff_one :
    RoundTrips fresh 2 (.array [.u64 1] : JsonValue ℚ) :=
  (jsonLoads_roundTrips_iff (v := .array [.u64 1]) text_one rfl 2).mpr (by decide)

/-- Doubling the capacity for an indentation of `2 ^ 63` ends at zero, and never. -/
theorem jsonLoads_not_roundTrips :
    ¬∀ (t : List UInt8) (v : JsonValue ℚ), Text integral t → jsonLoads fresh t = .ok v →
      ∀ indentSize, RoundTrips fresh indentSize v := by
  intro h
  obtain ⟨out, w, hdumps, -⟩ := h [91, 49, 93] (.array [.u64 1]) text_one rfl 9223372036854775808
  cases hdumps

/-- `json_str_new`. The string ends at its terminator. -/
def jsonStrNew (holds : ℕ → Bool) (str : List UInt8) : Except Stop (JsonValue F) :=
  if holds ((cString str).length + 1) then .ok (.str (cString str))
  else .error (.fault .arenaOverrun)

/-- The blocks of the string arena of `json_new`. -/
def stringArena : ℕ → Bool := Arena.holds (128 * 1024)

/-- The trees that the constructors build. A string for which the arena has no
room is never there to be written. -/
inductive Built : JsonValue F → Prop
  | null : Built .null
  | bool (b : Bool) : Built (.bool b)
  | u64 (n : UInt64) : Built (.u64 n)
  | i64 (x : Int64) : Built (.i64 x)
  | str {str : List UInt8} {v : JsonValue F} (h : jsonStrNew stringArena str = .ok v) : Built v
  | arrayNew : Built (.array [])
  | arrayAppend {vs : List (JsonValue F)} {v : JsonValue F} (hvs : Built (.array vs))
      (hv : Built v) : Built (.array (vs ++ [v]))
  | dictNew : Built (.dict [])
  | dictAppend {kvs kvs' : List (List UInt8 × JsonValue F)} {key : List UInt8} {v : JsonValue F}
      (hkvs : Built (.dict kvs)) (hv : Built v)
      (h : jsonDictAppend stringArena kvs key v = .ok kvs') : Built (.dict kvs')

omit [Float64 F] in
private theorem monotone_stringArena : Monotone stringArena := by
  intro m n hle hn
  simp only [stringArena, Arena.holds, decide_eq_true_eq] at hn ⊢
  omega

private theorem held_cString {str : List UInt8}
    (h : stringArena ((cString str).length + 1) = true) :
    Held stringArena (cString str) :=
  ⟨fun hzero => absurd (List.mem_takeWhile_imp hzero) (by decide), h⟩

omit [Float64 F] in
private theorem built_held (h : Built v) : v.FloatFree ∧ v.StringsSatisfy (Held stringArena) := by
  induction h with
  | null | bool | u64 | i64 =>
    exact ⟨by simp [JsonValue.FloatFree, JsonValue.leaves],
      by simp [JsonValue.StringsSatisfy, JsonValue.leaves]⟩
  | str h =>
    rw [jsonStrNew] at h
    split_ifs at h with hholds
    cases h
    exact ⟨by simp [JsonValue.FloatFree, JsonValue.leaves],
      JsonValue.stringsSatisfy_str.mpr (held_cString hholds)⟩
  | arrayNew =>
    exact ⟨JsonValue.floatFree_array.mpr (by simp), JsonValue.stringsSatisfy_array.mpr (by simp)⟩
  | arrayAppend _ _ ihvs ihv =>
    rw [JsonValue.floatFree_array, JsonValue.stringsSatisfy_array] at ihvs ⊢
    constructor
    · intro e he
      rw [List.mem_append, List.mem_singleton] at he
      exact he.elim (ihvs.1 e) fun he => he ▸ ihv.1
    · intro e he
      rw [List.mem_append, List.mem_singleton] at he
      exact he.elim (ihvs.2 e) fun he => he ▸ ihv.2
  | dictNew =>
    exact ⟨JsonValue.floatFree_dict.mpr (by simp), JsonValue.stringsSatisfy_dict.mpr (by simp)⟩
  | dictAppend _ _ happend ihkvs ihv =>
    rw [jsonDictAppend] at happend
    split_ifs at happend with hholds
    cases happend
    rw [JsonValue.floatFree_dict, JsonValue.stringsSatisfy_dict] at ihkvs ⊢
    constructor
    · intro e he
      rw [List.mem_append, List.mem_singleton] at he
      exact he.elim (ihkvs.1 e) fun he => he ▸ ihv.1
    · intro e he
      rw [List.mem_append, List.mem_singleton] at he
      exact he.elim (ihkvs.2 e) fun he => he ▸ ⟨held_cString hholds, ihv.2⟩

/-- A tree that was built returns exactly when its text fits and its strings
have no control characters but the five with an escape of their own. -/
theorem built_roundTrips_iff (h : Built v) (indentSize : UInt64) :
    RoundTrips stringArena indentSize v ↔ Fits indentSize v ∧ v.StringsSatisfy Legible :=
  roundTrips_iff monotone_stringArena (built_held h).1 (built_held h).2

theorem built_roundTrips_iff_dict :
    RoundTrips stringArena 2
      (.dict [([107], .array [.i64 (-2), .str [97, 10]])] : JsonValue ℚ) := by
  have hstr : jsonStrNew (F := ℚ) stringArena [97, 10] = .ok (.str [97, 10]) := rfl
  have harray := Built.arrayAppend (Built.arrayAppend .arrayNew (.i64 (-2))) (.str hstr)
  have hdict := Built.dictAppend .dictNew harray
    (rfl : jsonDictAppend stringArena [] [107] _ = .ok [([107], _)])
  refine (built_roundTrips_iff hdict 2).mpr ⟨by decide, fun s hs => ?_⟩
  simp [JsonValue.leaves, JsonValue.leavesList, JsonValue.leavesDict] at hs
  rcases hs with rfl | rfl
  · exact List.forall_mem_singleton.mpr rfl
  · exact List.forall_mem_cons.mpr ⟨rfl, List.forall_mem_singleton.mpr rfl⟩

/-- A control character is written as it is, and then refused. -/
theorem built_not_roundTrips :
    ¬∀ v : JsonValue ℚ, Built v → ∀ indentSize, RoundTrips stringArena indentSize v := by
  intro h
  obtain ⟨out, w, hdumps, hloads, -⟩ := h (.str [1]) (.str (rfl : jsonStrNew stringArena [1] = _)) 0
  cases hdumps
  cases hloads

end Libromano.Json
