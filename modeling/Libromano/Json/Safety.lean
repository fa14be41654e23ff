/- The parser terminates and stays inside its buffer. The bounds are counted on the reader, whose
   rests only get shorter. -/

import Libromano.Json.ParserReads

set_option autoImplicit false
set_option relaxedAutoImplicit false

namespace Libromano.Json

open Bytes (cString)
open Foundation

/-- `x` may refuse, or return a rest that is at least `used` bytes shorter than
`s`; it raises no fault but one that is allowed. -/
def Proceeds {α : Type} (allowed : Fault → Prop) (s : List UInt8) (used : ℕ)
    (x : Except Stop (α × List UInt8)) : Prop :=
  match x with
  | .ok (_, rest) => rest.length + used ≤ s.length
  | .error (.fault e) => allowed e
  | .error (.null _) => True

/-- An arena without room is the only one to blame for an overrun. -/
def ArenaAllowed (holds : ℕ → Bool) (allowed : Fault → Prop) : Prop :=
  ∀ size, holds size = false → allowed .arenaOverrun

namespace Proceeds

variable {α β : Type} {allowed : Fault → Prop} {s s' : List UInt8} {used used' : ℕ}
  {x : Except Stop (α × List UInt8)}

private theorem null (error : Option ErrorCode) :
    Proceeds allowed s used (.error (.null error) : Except Stop (α × List UInt8)) := trivial

private theorem ok {a : α} {rest : List UInt8} (h : rest.length + used ≤ s.length) :
    Proceeds allowed s used (.ok (a, rest)) := h

private theorem bind {f : α × List UInt8 → Except Stop (β × List UInt8)}
    (h : Proceeds allowed s used x)
    (hf : ∀ a rest, rest.length + used ≤ s.length → Proceeds allowed s' used' (f (a, rest))) :
    Proceeds allowed s' used' (x >>= f) := by
  cases x with
  | error e =>
    cases e with
    | fault e => exact h
    | null error => exact .null error
  | ok p => exact hf p.1 p.2 h

private theorem weaken (h : Proceeds allowed s used x) (hle : s.length + used' ≤ s'.length + used) :
    Proceeds allowed s' used' x := by
  cases x with
  | error e =>
    cases e with
    | fault e => exact h
    | null error => exact .null error
  | ok p =>
    have hrest : p.2.length + used ≤ s.length := h
    exact ok (a := p.1) (by omega)

end Proceeds

section Token

variable {F : Type} {holds : ℕ → Bool} {allowed : Fault → Prop} {s : List UInt8}

private theorem length_skipSpace_le (s : List UInt8) : (skipSpace s).length ≤ s.length :=
  (List.dropWhile_sublist _).length_le

private theorem length_tail_of_head? {c : UInt8} (h : s.head? = some c) :
    s.tail.length + 1 = s.length := by
  cases s with
  | nil => cases h
  | cons c s => rfl

private theorem length_readChars {chars : List (List UInt8)} {rest : List UInt8}
    (h : readChars s = some (chars, rest)) : chars.length + rest.length + 1 ≤ s.length := by
  induction s using readChars.induct generalizing chars with
  | case1 => simp [readChars] at h
  | case2 s =>
    rw [readChars_quote] at h
    cases h
    simp
  | case3 => simp [readChars] at h
  | case4 a b c d s _ ih =>
    rw [readChars_unicode, Option.map_eq_some_iff] at h
    obtain ⟨⟨chars', rest'⟩, hread, heq⟩ := h
    cases heq
    have := ih hread
    simp only [List.length_cons]
    omega
  | case5 s hshort _ =>
    rw [readChars_short (length_lt_four hshort)] at h
    cases h
  | case6 escape s hu _ ih =>
    rw [readChars_escape hu, Option.map_eq_some_iff] at h
    obtain ⟨⟨chars', rest'⟩, hread, heq⟩ := h
    cases heq
    have := ih hread
    simp only [List.length_cons]
    omega
  | case7 c s _ _ hcontrol =>
    rw [readChars_control hcontrol] at h
    cases h
  | case8 c s hquote hslash hcontrol ih =>
    rw [readChars_plain hquote hslash hcontrol, Option.map_eq_some_iff] at h
    obtain ⟨⟨chars', rest'⟩, hread, heq⟩ := h
    cases heq
    have := ih hread
    simp only [List.length_cons]
    omega

private theorem readString_proceeds (harena : ArenaAllowed holds allowed) (s : List UInt8) :
    Proceeds allowed s 1 (readString holds s) := by
  rw [readString]
  split_ifs with hquote
  · exact .null none
  · have htail := length_tail_of_head? (not_ne_iff.mp hquote)
    cases hread : readChars s.tail with
    | none => exact .null none
    | some found =>
      obtain ⟨chars, rest⟩ := found
      have hlen := length_readChars hread
      simp only
      split_ifs with hholds
      · exact .ok (by omega)
      · exact harena _ (by simpa using hholds)

private theorem length_readDigits_le {α : Type} (more : α → Bool) (step : α → UInt8 → α) (acc : α)
    (s : List UInt8) : (readDigits more step acc s).2.length ≤ s.length := by
  induction s generalizing acc with
  | nil => exact Nat.le_refl 0
  | cons c s ih =>
    rw [readDigits]
    split_ifs with hgo
    · exact (ih _).trans (Nat.le_succ _)
    · exact Nat.le_refl _

private theorem length_readDigits_lt {α : Type} (step : α → UInt8 → α) (acc : α)
    (h : ¬(!s.head?.any isDigit) = true) :
    (readDigits (fun _ => true) step acc s).2.length + 1 ≤ s.length := by
  cases s with
  | nil => simp at h
  | cons c s =>
    have hdigit : isDigit c = true := by simpa using h
    rw [readDigits, if_pos (by simp [hdigit])]
    exact Nat.succ_le_succ (length_readDigits_le _ _ _ _)

private theorem length_skipSign_le (isSign : Bool) (s : List UInt8) :
    (skipSign isSign s).length ≤ s.length := by
  cases isSign with
  | false => exact Nat.le_refl _
  | true => exact s.length_tail ▸ Nat.sub_le _ _

private theorem readExponent_proceeds (s : List UInt8) : Proceeds allowed s 0 (readExponent s) := by
  rw [readExponent]
  simp only
  split_ifs with he hdigit hnegative
  · exact .null none
  · exact .ok (((length_readDigits_le _ _ _ _).trans (length_skipSign_le _ _)).trans
      (s.length_tail ▸ Nat.sub_le _ _))
  · exact .ok (((length_readDigits_le _ _ _ _).trans (length_skipSign_le _ _)).trans
      (s.length_tail ▸ Nat.sub_le _ _))
  · exact .ok (Nat.le_refl _)

variable [Float64 F]

private theorem readFraction_proceeds (floatVal : F) (s : List UInt8) :
    Proceeds allowed s 0 (readFraction floatVal s) := by
  rw [readFraction]
  split_ifs with hpoint hdigit
  · exact .null none
  · have htail := length_tail_of_head? hpoint
    refine .ok ?_
    refine (length_readDigits_le _ _ _ _).trans ((length_readDigits_le _ _ _ _).trans ?_)
    omega
  · exact .ok (Nat.le_refl _)

private theorem readNumber_proceeds (s : List UInt8) :
    Proceeds allowed s 1 (readNumber (F := F) s) := by
  rw [readNumber]
  have hsign := length_skipSign_le (decide (s.head? = some 45)) s
  simp only
  split_ifs with hdigit
  · exact .null none
  · have hdigits := length_readDigits_lt (integerStep (F := F)) (0, Float64.ofUInt64 0) hdigit
    apply (readFraction_proceeds _ _).bind
    intro _ rest₁ hrest₁
    apply (readExponent_proceeds rest₁).bind
    intro _ rest₂ hrest₂
    have hrest : rest₂.length + 1 ≤ s.length := by omega
    exact .ok hrest

end Token

section Value

variable {F : Type} {holds : ℕ → Bool} {allowed : Fault → Prop} {size : ℕ} {s : List UInt8}
  {readElement : List UInt8 → Except Stop (JsonValue F × List UInt8)}

private theorem readLiteral_proceeds (s : List UInt8) :
    Proceeds allowed s 1 (readLiteral (F := F) s) := by
  rw [readLiteral]
  split_ifs with hnull htrue hfalse
  · have hlen : 4 ≤ s.length := hnull.length_le
    exact .ok (by rw [List.length_drop]; omega)
  · have hlen : 4 ≤ s.length := htrue.length_le
    exact .ok (by rw [List.length_drop]; omega)
  · have hlen : 5 ≤ s.length := hfalse.length_le
    exact .ok (by rw [List.length_drop]; omega)
  · exact .null none

private theorem readElements_proceeds {fuel : ℕ} (hfuel : s.length < fuel ∨ allowed .diverges)
    (array : List (JsonValue F))
    (helement : ∀ s', s'.length ≤ s.length → Proceeds allowed s' 1 (readElement s')) :
    Proceeds allowed s 1 (readElements readElement fuel array s) := by
  induction fuel generalizing s array with
  | zero => exact hfuel.resolve_left (Nat.not_lt_zero _)
  | succ fuel ih =>
    rw [readElements]
    split_ifs with hempty
    · exact .null none
    · apply (helement s (Nat.le_refl _)).bind
      intro element rest hrest
      have hspace := length_skipSpace_le rest
      simp only
      cases hc : (skipSpace rest).head? with
      | none => exact .null none
      | some c =>
        have htail := length_tail_of_head? hc
        simp only
        split_ifs with hcomma hclose
        · have hspace' := length_skipSpace_le (skipSpace rest).tail
          exact (ih (s := skipSpace (skipSpace rest).tail) (hfuel.imp_left fun h => by omega)
            (array ++ [element])
            fun s' hs' => helement s' (by omega)).weaken (by omega)
        · exact .ok (by omega)
        · exact .null none

private theorem readArray_proceeds (hsize : s.length ≤ size ∨ allowed .diverges)
    (helement : ∀ s', s'.length < s.length → Proceeds allowed s' 1 (readElement s')) :
    Proceeds allowed s 1 (readArray size readElement s) := by
  rw [readArray]
  split_ifs with hopen
  · exact .null none
  · have htail := length_tail_of_head? (not_ne_iff.mp hopen)
    have hspace := length_skipSpace_le s.tail
    simp only
    split_ifs with hclose
    · have htail' := length_tail_of_head? hclose
      exact .ok (by omega)
    · exact (readElements_proceeds (hsize.imp_left fun h => by omega) []
        fun s' hs' => helement s' (by omega)).weaken
        (by omega)

private theorem readKey_proceeds (harena : ArenaAllowed holds allowed) (s : List UInt8) :
    Proceeds allowed s 2 (readKey holds s) := by
  rw [readKey]
  have hspace := length_skipSpace_le s
  simp only
  split_ifs with hquote
  · exact .null _
  · apply (readString_proceeds harena (skipSpace s)).bind
    intro key rest hrest
    have hspace' := length_skipSpace_le rest
    simp only
    split_ifs with hcolon
    · exact .null _
    · have htail := length_tail_of_head? (not_ne_iff.mp hcolon)
      have hspace'' := length_skipSpace_le (skipSpace rest).tail
      exact .ok (by omega)

private theorem readMembers_proceeds (harena : ArenaAllowed holds allowed) {fuel : ℕ}
    (hfuel : s.length < fuel ∨ allowed .diverges) (dict : List (List UInt8 × JsonValue F))
    (helement : ∀ s', s'.length < s.length → Proceeds allowed s' 1 (readElement s')) :
    Proceeds allowed s 1 (readMembers holds readElement fuel dict s) := by
  induction fuel generalizing s dict with
  | zero => exact hfuel.resolve_left (Nat.not_lt_zero _)
  | succ fuel ih =>
    rw [readMembers]
    split_ifs with hempty
    · exact .null none
    · apply (readKey_proceeds harena s).bind
      intro key rest₁ hrest₁
      apply (helement rest₁ (by omega)).bind
      intro value rest hrest
      have hspace := length_skipSpace_le rest
      simp only
      by_cases hholds : holds ((cString key).length + 1) = true
      · rw [jsonDictAppend, if_pos hholds, bind_ok]
        cases hc : (skipSpace rest).head? with
        | none => exact .null none
        | some c =>
          have htail := length_tail_of_head? hc
          simp only
          split_ifs with hcomma hclose
          · have hspace' := length_skipSpace_le (skipSpace rest).tail
            exact (ih (s := skipSpace (skipSpace rest).tail) (hfuel.imp_left fun h => by omega) _
              fun s' hs' => helement s' (by omega)).weaken (by omega)
          · exact .ok (by omega)
          · exact .null none
      · rw [jsonDictAppend, if_neg hholds]
        exact harena _ (by simpa using hholds)

private theorem readDict_proceeds (harena : ArenaAllowed holds allowed)
    (hsize : s.length ≤ size ∨ allowed .diverges)
    (helement : ∀ s', s'.length < s.length → Proceeds allowed s' 1 (readElement s')) :
    Proceeds allowed s 1 (readDict holds size readElement s) := by
  rw [readDict]
  split_ifs with hopen
  · exact .null none
  · have htail := length_tail_of_head? (not_ne_iff.mp hopen)
    have hspace := length_skipSpace_le s.tail
    simp only
    split_ifs with hclose
    · have htail' := length_tail_of_head? hclose
      exact .ok (by omega)
    · exact (readMembers_proceeds harena (hsize.imp_left fun h => by omega) []
        fun s' hs' => helement s' (by omega)).weaken
        (by omega)

variable [Float64 F]

private theorem readValue_proceeds (harena : ArenaAllowed holds allowed) {depth : ℕ}
    (hfuel : s.length < depth ∧ s.length ≤ size ∨ allowed .diverges) :
    Proceeds allowed s 1 (readValue (F := F) holds size depth s) := by
  induction depth generalizing s with
  | zero => exact hfuel.resolve_left fun h => Nat.not_lt_zero _ h.1
  | succ depth ih =>
    have hspace := length_skipSpace_le s
    have helement : ∀ s', s'.length < (skipSpace s).length →
        Proceeds allowed s' 1 (readValue (F := F) holds size depth s') :=
      fun s' hs' => ih (hfuel.imp_left fun h => by omega)
    have hsize : (skipSpace s).length ≤ size ∨ allowed .diverges := hfuel.imp_left fun h => by omega
    rw [readValue]
    simp only
    cases hc : (skipSpace s).head? with
    | none => exact .null none
    | some c =>
      simp only
      split_ifs with hquote hbrace hbracket hnumber hliteral
      · apply (readString_proceeds harena _).bind
        intro _ rest hrest
        have hrest' : rest.length + 1 ≤ s.length := by omega
        exact .ok hrest'
      · exact (readDict_proceeds harena hsize helement).weaken (by omega)
      · exact (readArray_proceeds hsize helement).weaken (by omega)
      · exact (readNumber_proceeds _).weaken (by omega)
      · exact (readLiteral_proceeds _).weaken (by omega)
      · exact .null none

theorem jsonLoads_fault (holds : ℕ → Bool) (str : List UInt8) {e : Fault}
    (h : jsonLoads (F := F) holds str = .error (.fault e)) :
    e = .arenaOverrun ∧ ∃ size, holds size = false := by
  rw [jsonLoads_eq_readText, readText] at h
  have harena : ArenaAllowed holds fun e => e = .arenaOverrun ∧ ∃ size, holds size = false :=
    fun size hsize => ⟨rfl, size, hsize⟩
  have hvalue : Proceeds (fun e => e = .arenaOverrun ∧ ∃ size, holds size = false) str 1
      (readValue (F := F) holds str.length (str.length + 1) str) :=
    readValue_proceeds harena (.inl ⟨Nat.lt_succ_self str.length, Nat.le_refl _⟩)
  split_ifs at h with hempty
  · cases h
  · cases hread : readValue (F := F) holds str.length (str.length + 1) str with
    | error stop =>
      rw [hread] at h hvalue
      cases h
      exact hvalue
    | ok found =>
      obtain ⟨root, rest⟩ := found
      rw [hread, bind_ok] at h
      simp only at h
      split_ifs at h with hrest
      cases h

private theorem lt_of_follows {α : Type} {str : List UInt8} {pos pos' : ℕ} {a : α}
    {parsed : Except Stop (α × ℕ)} {found : Except Stop (α × List UInt8)}
    (hfollows : Follows str parsed found)
    (hproceeds : Proceeds (fun _ => True) (str.drop pos) 1 found)
    (h : parsed = .ok (a, pos')) : pos < pos' ∧ pos' ≤ str.length := by
  obtain ⟨⟨a', rest⟩, rfl, -, hle, rfl⟩ := hfollows.of_ok h
  have hlen : (str.drop pos').length + 1 ≤ (str.drop pos).length := hproceeds
  rw [List.length_drop, List.length_drop] at hlen
  exact ⟨by omega, hle⟩

end Value

section SecondPass

variable {str bytes written : List UInt8} {room stop i fin : ℕ}

private theorem le_of_decodeString {fuel : ℕ}
    (h : decodeString fuel str room stop i written = .ok (bytes, fin)) : i ≤ fin := by
  induction fuel generalizing i written with
  | zero => cases h
  | succ fuel ih =>
    rw [decodeString] at h
    split_ifs at h with hlt
    · obtain ⟨c, -, h⟩ := bind_eq_ok.mp h
      split_ifs at h with hslash
      · obtain ⟨escape, -, h⟩ := bind_eq_ok.mp h
        obtain ⟨written', -, h⟩ := bind_eq_ok.mp h
        have hnext := ih h
        split_ifs at hnext <;> omega
      · obtain ⟨written', -, h⟩ := bind_eq_ok.mp h
        have hnext := ih h
        omega
    · cases h
      exact Nat.le_refl _

private theorem byteAt_take {c : UInt8} (hi : i < stop) (h : byteAt str i = .ok c) :
    byteAt (str.take stop) i = .ok c := by
  rw [byteAt, List.getElem?_take_of_lt hi]
  exact h

private theorem decodeString_take {fuel : ℕ}
    (h : decodeString fuel str room stop i written = .ok (bytes, stop)) :
    decodeString fuel (str.take stop) room stop i written = .ok (bytes, stop) := by
  induction fuel generalizing i written with
  | zero => cases h
  | succ fuel ih =>
    rw [decodeString] at h ⊢
    split_ifs at h ⊢ with hlt
    · obtain ⟨c, hbyte, h⟩ := bind_eq_ok.mp h
      rw [byteAt_take hlt hbyte, bind_ok]
      split_ifs at h ⊢ with hslash
      · obtain ⟨escape, hbyte', h⟩ := bind_eq_ok.mp h
        obtain ⟨written', hstore, h⟩ := bind_eq_ok.mp h
        have hinside : i + 1 < stop := by
          have hle := le_of_decodeString h
          split_ifs at hle <;> omega
        rw [byteAt_take hinside hbyte', bind_ok, hstore, bind_ok]
        exact ih h
      · obtain ⟨written', hstore, h⟩ := bind_eq_ok.mp h
        rw [hstore, bind_ok]
        exact ih h
    · exact h

private theorem decodeString_of_scanString {start len : ℕ} {escaped : Bool}
    (hstart : start ≤ str.length)
    (hscan : scanString (str.length + 1) str start 0 false = .ok (stop, len, escaped))
    (hstop : stop < str.length) :
    ∃ bytes, decodeString (str.length + 1) str (len + 1) stop start [] = .ok (bytes, stop) ∧
      bytes.length + 1 ≤ len + 1 := by
  have hagrees := agrees_readChars (rfl : str.drop start = _) hstart
  cases hread : readChars (str.drop start) with
  | none =>
    rw [hread] at hagrees
    obtain hnull | ⟨r, hok, hend⟩ := hagrees (str.length + 1) 0 false (by omega)
    · rw [hnull] at hscan
      cases hscan
    · rw [hok] at hscan
      cases hscan
      exact absurd hstop (Nat.not_lt.mpr hend)
  | some found =>
    rw [hread] at hagrees
    obtain ⟨stop', escaped', hpasses, -⟩ := hagrees
    have hfound := hpasses.scan (str.length + 1) 0 false (by omega)
    rw [hscan] at hfound
    cases hfound
    rw [Nat.zero_add]
    exact ⟨found.1.flatten, hpasses.decode _ _ [] (by omega) (by simp), Nat.succ_le_succ hpasses.size⟩

end SecondPass

/-- Whatever `parse` returns at a position of the buffer, it has moved on and not past the end. -/
def Advances {α : Type} (str : List UInt8) (parse : ℕ → Except Stop (α × ℕ)) : Prop :=
  ∀ pos ≤ str.length, ∀ a pos', parse pos = .ok (a, pos') → pos < pos' ∧ pos' ≤ str.length

/-- The second pass covers what lies between the quotes that the first one
found, reads nothing else and writes no more than was asked for. -/
def SecondPassFits (str : List UInt8) : Prop :=
  ∀ start ≤ str.length, ∀ stop len,
    scanString (str.length + 1) str start 0 false = .ok (stop, len, true) → stop < str.length →
    ∃ bytes, decodeString (str.length + 1) str (len + 1) stop start [] = .ok (bytes, stop) ∧
      decodeString (str.length + 1) (str.take stop) (len + 1) stop start [] = .ok (bytes, stop) ∧
      bytes.length + 1 ≤ len + 1

section Safe

variable {F : Type} [Float64 F] (holds : ℕ → Bool) (str : List UInt8)

private theorem arenaAllowed_any : ArenaAllowed holds fun _ => True := fun _ _ => trivial

private theorem jsonParseString_advances : Advances str (jsonParseString holds str) := by
  intro pos _ a pos' h
  exact lt_of_follows (jsonParseString_follows holds str pos)
    (readString_proceeds (arenaAllowed_any holds) _) h

private theorem jsonParseNumber_advances : Advances str (jsonParseNumber (F := F) str) := by
  intro pos _ a pos' h
  exact lt_of_follows (jsonParseNumber_follows str pos)
    (readNumber_proceeds _) h

omit [Float64 F] in
private theorem jsonParseLiteral_advances : Advances str (jsonParseLiteral (F := F) str) := by
  intro pos hpos a pos' h
  exact lt_of_follows (jsonParseLiteral_follows hpos)
    (readLiteral_proceeds _) h

private theorem elementsFollow (depth : ℕ) :
    ElementsFollow str (jsonParseValue (F := F) holds depth str)
      (readValue holds str.length depth) := fun _ hpos => jsonParseValue_follows depth hpos

private theorem jsonParseValue_advances (depth : ℕ) :
    Advances str (jsonParseValue (F := F) holds depth str) := by
  intro pos hpos a pos' h
  exact lt_of_follows (jsonParseValue_follows depth hpos)
    (readValue_proceeds (arenaAllowed_any holds) (.inr trivial)) h

private theorem jsonParseArray_advances (depth : ℕ) :
    Advances str (jsonParseArray (jsonParseValue (F := F) holds depth str) str) := by
  intro pos _ a pos' h
  exact lt_of_follows (jsonParseArray_follows (elementsFollow holds str depth) pos)
    (readArray_proceeds (.inr trivial)
      fun _ _ => readValue_proceeds (arenaAllowed_any holds) (.inr trivial)) h

private theorem parseDict_advances (depth : ℕ) :
    Advances str (parseDict holds (jsonParseValue (F := F) holds depth str) str) := by
  intro pos _ a pos' h
  exact lt_of_follows (parseDict_follows (elementsFollow holds str depth) pos)
    (readDict_proceeds (arenaAllowed_any holds) (.inr trivial)
      fun _ _ => readValue_proceeds (arenaAllowed_any holds) (.inr trivial)) h

private theorem secondPassFits : SecondPassFits str := by
  intro start hstart stop len hscan hstop
  obtain ⟨bytes, hdecode, hlen⟩ := decodeString_of_scanString hstart hscan hstop
  exact ⟨bytes, hdecode, decodeString_take hdecode, hlen⟩

/-- `json_loads` never runs on forever and never reads past its buffer; every
parser moves forward; the two passes over a string agree. -/
theorem jsonLoads_safe :
    (∀ e, jsonLoads (F := F) holds str = .error (.fault e) →
      e = .arenaOverrun ∧ ∃ size, holds size = false) ∧
    Advances str (jsonParseString holds str) ∧
    Advances str (jsonParseNumber (F := F) str) ∧
    Advances str (jsonParseLiteral (F := F) str) ∧
    (∀ depth, Advances str (jsonParseArray (jsonParseValue (F := F) holds depth str) str)) ∧
    (∀ depth, Advances str (parseDict holds (jsonParseValue (F := F) holds depth str) str)) ∧
    (∀ depth, Advances str (jsonParseValue (F := F) holds depth str)) ∧
    SecondPassFits str :=
  ⟨fun _ => jsonLoads_fault holds str, jsonParseString_advances holds str,
    jsonParseNumber_advances str, jsonParseLiteral_advances str,
    jsonParseArray_advances holds str, parseDict_advances holds str,
    jsonParseValue_advances holds str, secondPassFits str⟩

end Safe

end Libromano.Json
