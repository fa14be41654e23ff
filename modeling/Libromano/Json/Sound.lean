/- Whatever the reader returns it has read from a text of the grammar. -/

import Libromano.Json.Tokens

set_option autoImplicit false
set_option relaxedAutoImplicit false

namespace Libromano.Json

open Bytes (cString)

variable {F : Type} {s rest : List UInt8} {holds : ℕ → Bool} {size : ℕ}
  {readElement : List UInt8 → Except Stop (JsonValue F × List UInt8)}

/-- What the reader takes for a value is one, and its strings are legible. -/
def SoundReader (readElement : List UInt8 → Except Stop (JsonValue F × List UInt8)) : Prop :=
  ∀ s v rest, readElement s = .ok (v, rest) →
    (∃ l w, Spaces l ∧ s = l ++ (w ++ rest) ∧ Derives accepted .value w) ∧
      v.StringsSatisfy Legible

private theorem Derives.spaces_elements {d : Dialect} {l w : List UInt8} (hl : Spaces l)
    (h : Derives d .elements w) : Derives d .elements (l ++ w) := by
  cases h with
  | lastElement hl' h hr =>
    rw [← List.append_assoc]
    exact .lastElement (hl.append hl') h hr
  | nextElement hl' h hr hs =>
    rw [← List.append_assoc]
    exact .nextElement (hl.append hl') h hr hs

private theorem Derives.spaces_members {d : Dialect} {l w : List UInt8} (hl : Spaces l)
    (h : Derives d .members w) : Derives d .members (l ++ w) := by
  cases h with
  | lastMember hl' hkey hm hn h hr =>
    rw [← List.append_assoc]
    exact .lastMember (hl.append hl') hkey hm hn h hr
  | nextMember hl' hkey hm hn h hr hs =>
    rw [← List.append_assoc]
    exact .nextMember (hl.append hl') hkey hm hn h hr hs

private theorem exists_spaces_head {c : UInt8} (hc : (skipSpace s).head? = some c) :
    ∃ r, Spaces r ∧ s = r ++ c :: (skipSpace s).tail := by
  obtain ⟨r, hr, hsplit⟩ := exists_spaces s
  exact ⟨r, hr, by rw [List.cons_head?_tail hc]; exact hsplit⟩

private theorem readElements_sound (helement : SoundReader readElement) {fuel : ℕ}
    {array : List (JsonValue F)} (harray : ∀ e ∈ array, e.StringsSatisfy Legible)
    {v : JsonValue F} (h : readElements readElement fuel array s = .ok (v, rest)) :
    (∃ w, s = w ++ 93 :: rest ∧ Derives accepted .elements w) ∧ v.StringsSatisfy Legible := by
  induction fuel generalizing array s with
  | zero => cases h
  | succ fuel ih =>
    rw [readElements] at h
    split_ifs at h with hempty
    obtain ⟨⟨element, s₁⟩, hread, hloop⟩ := bind_eq_ok.mp h
    obtain ⟨⟨l, w, hl, rfl, hw⟩, hlegible⟩ := helement _ _ _ hread
    have harray' : ∀ e ∈ array ++ [element], e.StringsSatisfy Legible := by
      intro e he
      rw [List.mem_append, List.mem_singleton] at he
      exact he.elim (harray e) fun he => he ▸ hlegible
    simp only at hloop
    cases hc : (skipSpace s₁).head? with
    | none => simp [hc] at hloop
    | some c =>
      rw [hc] at hloop
      simp only at hloop
      obtain ⟨r, hr, hsplit⟩ := exists_spaces_head hc
      split_ifs at hloop with hcomma hclose
      · obtain ⟨l', hl', hsplit'⟩ := exists_spaces (skipSpace s₁).tail
        obtain ⟨⟨ws, hws, hderives⟩, hv⟩ := ih harray' hloop
        refine ⟨⟨l ++ (w ++ (r ++ 44 :: (l' ++ ws))), ?_,
          .nextElement hl hw hr (hderives.spaces_elements hl')⟩, hv⟩
        rw [hws] at hsplit'
        rw [hsplit, hsplit', hcomma]
        simp
      · cases hloop
        refine ⟨⟨l ++ (w ++ r), ?_, .lastElement hl hw hr⟩,
          JsonValue.stringsSatisfy_array.mpr harray'⟩
        calc l ++ (w ++ s₁) = l ++ (w ++ (r ++ c :: (skipSpace s₁).tail)) := by rw [← hsplit]
          _ = _ := by simp [hclose]

private theorem readArray_sound (helement : SoundReader readElement) {v : JsonValue F}
    (h : readArray size readElement s = .ok (v, rest)) :
    (∃ w, s = w ++ rest ∧ Derives accepted .value w) ∧ v.StringsSatisfy Legible := by
  rw [readArray] at h
  split_ifs at h with hopen
  have hs := List.cons_head?_tail (not_ne_iff.mp hopen)
  simp only at h
  split_ifs at h with hclose
  · cases h
    obtain ⟨r, hr, hsplit⟩ := exists_spaces_head hclose
    refine ⟨⟨91 :: (r ++ [93]), ?_, .emptyArray hr⟩, JsonValue.stringsSatisfy_array.mpr (by simp)⟩
    calc s = 91 :: (r ++ 93 :: (skipSpace s.tail).tail) := by rw [← hsplit, hs]
      _ = _ := by simp
  · obtain ⟨l, hl, hsplit⟩ := exists_spaces s.tail
    obtain ⟨⟨w, hw, hderives⟩, hv⟩ := readElements_sound helement (by simp) h
    refine ⟨⟨91 :: ((l ++ w) ++ [93]), ?_, .array (hderives.spaces_elements hl)⟩, hv⟩
    rw [← hs, hsplit, hw]
    simp

private theorem readKey_sound {key : List UInt8} (h : readKey holds s = .ok (key, rest)) :
    (∃ l w m n, Spaces l ∧ Chars accepted w ∧ Spaces m ∧ Spaces n ∧
      s = l ++ 34 :: (w ++ 34 :: (m ++ 58 :: (n ++ rest)))) ∧ Legible key := by
  rw [readKey] at h
  simp only at h
  split_ifs at h with hquote
  obtain ⟨⟨key', s₁⟩, hread, hcolon⟩ := bind_eq_ok.mp h
  obtain ⟨⟨w, hw, hchars⟩, hlegible⟩ := readString_sound hread
  simp only at hcolon
  split_ifs at hcolon with hhead
  cases hcolon
  obtain ⟨l, hl, hsplit⟩ := exists_spaces s
  obtain ⟨m, hm, hsplit₁⟩ := exists_spaces_head (not_ne_iff.mp hhead)
  obtain ⟨n, hn, hsplit₂⟩ := exists_spaces (skipSpace s₁).tail
  refine ⟨⟨l, w, m, n, hl, hchars, hm, hn, ?_⟩, hlegible⟩
  rw [← hsplit₂, ← hsplit₁, ← hw, ← hsplit]

private theorem legible_cString {key : List UInt8} (h : Legible key) : cString key = key := by
  apply List.takeWhile_eq_self_iff.mpr
  intro c hc
  have hlegible := h c hc
  by_cases hzero : c = 0
  · subst hzero
    cases hlegible
  · simpa using hzero

private theorem readMembers_sound (helement : SoundReader readElement) {fuel : ℕ}
    {dict : List (List UInt8 × JsonValue F)}
    (hdict : ∀ e ∈ dict, Legible e.1 ∧ e.2.StringsSatisfy Legible)
    {v : JsonValue F} (h : readMembers holds readElement fuel dict s = .ok (v, rest)) :
    (∃ w, s = w ++ 125 :: rest ∧ Derives accepted .members w) ∧ v.StringsSatisfy Legible := by
  induction fuel generalizing dict s with
  | zero => cases h
  | succ fuel ih =>
    rw [readMembers] at h
    split_ifs at h with hempty
    obtain ⟨⟨key, s₀⟩, hreadKey, hvalue⟩ := bind_eq_ok.mp h
    obtain ⟨⟨value, s₁⟩, hread, happend⟩ := bind_eq_ok.mp hvalue
    obtain ⟨dict', hdict', hloop⟩ := bind_eq_ok.mp happend
    obtain ⟨⟨l, k, m, n, hl, hk, hm, hn, hs⟩, hkey⟩ := readKey_sound hreadKey
    obtain ⟨⟨n', w, hn', hs₀, hw⟩, hlegible⟩ := helement _ _ _ hread
    rw [hs₀] at hs
    have hlegible' : ∀ e ∈ dict', Legible e.1 ∧ e.2.StringsSatisfy Legible := by
      rw [jsonDictAppend, legible_cString hkey] at hdict'
      split_ifs at hdict'
      cases hdict'
      intro e he
      rw [List.mem_append, List.mem_singleton] at he
      exact he.elim (hdict e) fun he => he ▸ ⟨hkey, hlegible⟩
    simp only at hloop
    cases hc : (skipSpace s₁).head? with
    | none => simp [hc] at hloop
    | some c =>
      rw [hc] at hloop
      simp only at hloop
      obtain ⟨r, hr, hsplit⟩ := exists_spaces_head hc
      split_ifs at hloop with hcomma hclose
      · obtain ⟨l', hl', hsplit'⟩ := exists_spaces (skipSpace s₁).tail
        obtain ⟨⟨ws, hws, hderives⟩, hv⟩ := ih hlegible' hloop
        refine ⟨⟨l ++ 34 :: (k ++ 34 :: (m ++ 58 :: ((n ++ n') ++ (w ++ (r ++ 44 :: (l' ++ ws)))))), ?_,
          .nextMember hl hk hm (hn.append hn') hw hr (hderives.spaces_members hl')⟩, hv⟩
        rw [hws] at hsplit'
        rw [hs, hsplit, hsplit', hcomma]
        simp
      · cases hloop
        refine ⟨⟨l ++ 34 :: (k ++ 34 :: (m ++ 58 :: ((n ++ n') ++ (w ++ r)))), ?_,
          .lastMember hl hk hm (hn.append hn') hw hr⟩, JsonValue.stringsSatisfy_dict.mpr hlegible'⟩
        calc s = _ := hs
          _ = l ++ 34 :: (k ++ 34 :: (m ++ 58 :: (n ++ (n' ++ (w ++ (r ++ c :: (skipSpace s₁).tail)))))) := by
            rw [← hsplit]
          _ = _ := by simp [hclose]

private theorem readDict_sound (helement : SoundReader readElement) {v : JsonValue F}
    (h : readDict holds size readElement s = .ok (v, rest)) :
    (∃ w, s = w ++ rest ∧ Derives accepted .value w) ∧ v.StringsSatisfy Legible := by
  rw [readDict] at h
  split_ifs at h with hopen
  have hs := List.cons_head?_tail (not_ne_iff.mp hopen)
  simp only at h
  split_ifs at h with hclose
  · cases h
    obtain ⟨r, hr, hsplit⟩ := exists_spaces_head hclose
    refine ⟨⟨123 :: (r ++ [125]), ?_, .emptyDict hr⟩, JsonValue.stringsSatisfy_dict.mpr (by simp)⟩
    calc s = 123 :: (r ++ 125 :: (skipSpace s.tail).tail) := by rw [← hsplit, hs]
      _ = _ := by simp
  · obtain ⟨l, hl, hsplit⟩ := exists_spaces s.tail
    obtain ⟨⟨w, hw, hderives⟩, hv⟩ := readMembers_sound helement (by simp) h
    refine ⟨⟨123 :: ((l ++ w) ++ [125]), ?_, .dict (hderives.spaces_members hl)⟩, hv⟩
    rw [← hs, hsplit, hw]
    simp

private theorem readLiteral_sound {v : JsonValue F} (h : readLiteral s = .ok (v, rest)) :
    (∃ w, s = w ++ rest ∧ Derives accepted .value w) ∧ v.StringsSatisfy Legible := by
  rw [readLiteral] at h
  split_ifs at h with hnull htrue hfalse
  · cases h
    exact ⟨⟨nullLiteral, (List.prefix_iff_eq_append.mp hnull).symm, .litNull⟩,
      by simp [JsonValue.StringsSatisfy, JsonValue.leaves]⟩
  · cases h
    exact ⟨⟨trueLiteral, (List.prefix_iff_eq_append.mp htrue).symm, .litTrue⟩,
      by simp [JsonValue.StringsSatisfy, JsonValue.leaves]⟩
  · cases h
    exact ⟨⟨falseLiteral, (List.prefix_iff_eq_append.mp hfalse).symm, .litFalse⟩,
      by simp [JsonValue.StringsSatisfy, JsonValue.leaves]⟩

variable [Float64 F]

private theorem readValue_sound (depth : ℕ) :
    SoundReader (readValue (F := F) holds size depth) := by
  induction depth with
  | zero =>
    intro s v rest h
    cases h
  | succ depth ih =>
    intro s v rest h
    obtain ⟨l, hl, hsplit⟩ := exists_spaces s
    suffices hvalue : (∃ w, skipSpace s = w ++ rest ∧ Derives accepted .value w) ∧
        v.StringsSatisfy Legible by
      obtain ⟨⟨w, hw, hderives⟩, hv⟩ := hvalue
      exact ⟨⟨l, w, hl, by rw [← hw, ← hsplit], hderives⟩, hv⟩
    rw [readValue] at h
    simp only at h
    cases hc : (skipSpace s).head? with
    | none => simp [hc] at h
    | some c =>
      rw [hc] at h
      simp only at h
      split_ifs at h with hquote hbrace hbracket hnumber hliteral
      · obtain ⟨⟨bytes, rest'⟩, hread, hok⟩ := bind_eq_ok.mp h
        cases hok
        obtain ⟨⟨w, hw, hchars⟩, hlegible⟩ := readString_sound hread
        exact ⟨⟨34 :: (w ++ [34]), by simpa using hw, .string hchars⟩,
          JsonValue.stringsSatisfy_str.mpr hlegible⟩
      · exact readDict_sound ih h
      · exact readArray_sound ih h
      · obtain ⟨⟨w, hw, hnumber⟩, hv⟩ := readNumber_sound h
        exact ⟨⟨w, hw, .number hnumber⟩, hv.stringsSatisfy⟩
      · exact readLiteral_sound h

theorem readText_sound {v : JsonValue F} (h : readText holds s = .ok v) :
    Text accepted s ∧ v.StringsSatisfy Legible := by
  rw [readText] at h
  split_ifs at h with hempty
  obtain ⟨⟨root, rest⟩, hread, hend⟩ := bind_eq_ok.mp h
  simp only at hend
  split_ifs at hend with hspace
  cases hend
  obtain ⟨⟨l, w, hl, hs, hw⟩, hlegible⟩ := readValue_sound _ _ _ _ hread
  obtain ⟨r, hr, hsplit⟩ := exists_spaces rest
  rw [not_ne_iff.mp hspace, List.append_nil] at hsplit
  exact ⟨⟨l, w, rest, hl, hw, hsplit ▸ hr, hs⟩, hlegible⟩

end Libromano.Json
