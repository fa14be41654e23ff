/- `json_loads` accepts exactly the texts of its dialect, which is more liberal than the standard
   on three points. -/

import Libromano.Json.Safety
import Libromano.Json.Sound

set_option autoImplicit false
set_option relaxedAutoImplicit false

namespace Libromano.Json

open Bytes (cString)

variable {F : Type} [Float64 F] {d : Dialect} {w rest s : List UInt8} {size : ℕ}

/-- An arena whose blocks hold every request. -/
def fresh (_ : ℕ) : Bool := true

/-- The reader runs out of depth, or returns a value and leaves `rest`. -/
def Ends (d : Dialect) (x : Except Stop (JsonValue F × List UInt8)) (rest : List UInt8) : Prop :=
  x = .error (.fault .diverges) ∨
    ∃ v, x = .ok (v, rest) ∧ (d.fractions = false → v.FloatFree)

omit [Float64 F] in
private theorem Ends.bind {α : Type} {x : Except Stop (JsonValue F × List UInt8)}
    {f : JsonValue F × List UInt8 → Except Stop α} {P : Except Stop α → Prop} (h : Ends d x s)
    (hdiverges : P (.error (.fault .diverges)))
    (hok : ∀ v, (d.fractions = false → v.FloatFree) → P (f (v, s))) : P (x >>= f) := by
  rcases h with rfl | ⟨v, rfl, hfree⟩
  · exact hdiverges
  · exact hok v hfree

private theorem endsNumber_of_head
    (h : ∀ c, rest.head? = some c → isWhitespace c = true ∨ c ∈ ([44, 93, 125] : List UInt8)) :
    EndsNumber rest := by
  intro c hc
  simp only [isWhitespace, Bool.or_eq_true, decide_eq_true_eq, List.mem_cons, List.not_mem_nil,
    or_false] at h
  rcases h c hc with (((rfl | rfl) | rfl) | rfl) | (rfl | rfl | rfl)
  all_goals decide

theorem endsNumber_of_spaces {r : List UInt8} (hr : Spaces r) {c : UInt8}
    (hc : c ∈ ([44, 93, 125] : List UInt8)) (s : List UInt8) : EndsNumber (r ++ c :: s) := by
  apply endsNumber_of_head
  intro x hx
  cases r with
  | nil =>
    cases hx
    exact .inr hc
  | cons x' r =>
    cases hx
    exact .inl (hr _ List.mem_cons_self)

private theorem readValue_skipSpace (holds : ℕ → Bool) (depth : ℕ) (s : List UInt8) :
    readValue (F := F) holds size depth (skipSpace s) = readValue holds size depth s := by
  cases depth with
  | zero => rfl
  | succ depth => rw [readValue, readValue, skipSpace_skipSpace]

private theorem readValue_append {l : List UInt8} (hl : Spaces l) (size depth : ℕ)
    (s : List UInt8) :
    readValue (F := F) fresh size depth (l ++ s) = readValue fresh size depth s := by
  rw [← readValue_skipSpace, skipSpace_append hl, readValue_skipSpace]

/-- What the reader makes of a text that the grammar derives. The texts
between the brackets are met where the reader has skipped the space. -/
def Complete (F : Type) [Float64 F] (d : Dialect) (size : ℕ) : Symbol → List UInt8 → Prop
  | .value, w => ∀ depth rest, EndsNumber rest →
      Ends d (readValue (F := F) fresh size depth (w ++ rest)) rest
  | .elements, w => ∀ depth fuel array rest,
      (d.fractions = false → ∀ e ∈ array, JsonValue.FloatFree e) →
      Ends d (readElements (readValue (F := F) fresh size depth) fuel array
        (skipSpace (w ++ 93 :: rest))) rest
  | .members, w => ∀ depth fuel dict rest,
      (d.fractions = false → ∀ e ∈ dict, JsonValue.FloatFree e.2) →
      Ends d (readMembers fresh (readValue (F := F) fresh size depth) fuel dict
        (skipSpace (w ++ 125 :: rest))) rest

theorem readValue_number (holds : ℕ → Bool) {depth : ℕ}
    (hw : ∃ c w', w = c :: w' ∧ (decide (c = 45) || isDigit c) = true) :
    readValue (F := F) holds size (depth + 1) (w ++ rest) = readNumber (w ++ rest) := by
  obtain ⟨c, w', rfl, hc⟩ := hw
  have hne : ∀ k, (decide (k = 45) || isDigit k) = false → c ≠ k := by
    rintro k hk rfl
    rw [hk] at hc
    cases hc
  have hspace := (not_space_of_startsValue (c := c) (by simp [startsValue, hc])).1
  rw [List.cons_append, readValue, skipSpace_cons hspace]
  simp only [List.head?_cons, if_neg (hne 34 rfl), if_neg (hne 123 rfl), if_neg (hne 91 rfl),
    if_pos hc]

private theorem complete_number (h : Number d w) : Complete F d size .value w := by
  intro depth rest hrest
  cases depth with
  | zero => exact .inl rfl
  | succ depth =>
    obtain ⟨v, hread, -, hfree⟩ := readNumber_complete (F := F) h hrest
    exact .inr ⟨v, by rw [readValue_number fresh h.head, hread], hfree⟩

private theorem complete_string (h : Chars d w) : Complete F d size .value (34 :: (w ++ [34])) := by
  intro depth rest _
  cases depth with
  | zero => exact .inl rfl
  | succ depth =>
    obtain ⟨bytes, hread⟩ := readString_complete h rest
    refine .inr ⟨.str bytes, ?_, fun _ => by simp [JsonValue.FloatFree, JsonValue.leaves]⟩
    have hsplit : 34 :: (w ++ [34]) ++ rest = 34 :: (w ++ 34 :: rest) := by simp
    rw [hsplit, readValue, skipSpace_cons rfl]
    simp only [List.head?_cons, if_true]
    rw [show (fresh : ℕ → Bool) = fun _ => true from rfl, hread]
    rfl

private theorem complete_literal {lit : List UInt8} {v : JsonValue F} (hv : v.FloatFree)
    (hlit : (lit = nullLiteral ∧ v = .null) ∨ (lit = trueLiteral ∧ v = .bool true) ∨
      (lit = falseLiteral ∧ v = .bool false)) : Complete F d size .value lit := by
  intro depth rest _
  cases depth with
  | zero => exact .inl rfl
  | succ depth =>
    refine .inr ⟨v, ?_, fun _ => hv⟩
    rcases hlit with ⟨rfl, rfl⟩ | ⟨rfl, rfl⟩ | ⟨rfl, rfl⟩
    · rfl
    · rfl
    · rfl

theorem readValue_array (holds : ℕ → Bool) (depth : ℕ) (s : List UInt8) :
    readValue (F := F) holds size (depth + 1) (91 :: s) =
      readArray size (readValue holds size depth) (91 :: s) := rfl

theorem readValue_dict (holds : ℕ → Bool) (depth : ℕ) (s : List UInt8) :
    readValue (F := F) holds size (depth + 1) (123 :: s) =
      readDict holds size (readValue holds size depth) (123 :: s) := rfl

section Empty

variable {readElement : List UInt8 → Except Stop (JsonValue F × List UInt8)}

omit [Float64 F] in
theorem readArray_spaces (hw : Spaces w) :
    readArray size readElement (91 :: (w ++ 93 :: rest)) = .ok (.array [], rest) := by
  rw [readArray]
  simp [skipSpace_append hw, skipSpace_cons (c := 93) rfl]

omit [Float64 F] in
theorem readDict_spaces (holds : ℕ → Bool) (hw : Spaces w) :
    readDict holds size readElement (123 :: (w ++ 125 :: rest)) = .ok (.dict [], rest) := by
  rw [readDict]
  simp [skipSpace_append hw, skipSpace_cons (c := 125) rfl]

end Empty

private theorem complete_emptyArray (hw : Spaces w) :
    Complete F d size .value (91 :: (w ++ [93])) := by
  intro depth rest _
  cases depth with
  | zero => exact .inl rfl
  | succ depth =>
    refine .inr ⟨.array [], ?_, fun _ => by simp [JsonValue.FloatFree]⟩
    have hsplit : 91 :: (w ++ [93]) ++ rest = 91 :: (w ++ 93 :: rest) := by simp
    rw [hsplit, readValue_array, readArray_spaces hw]

private theorem complete_emptyDict (hw : Spaces w) :
    Complete F d size .value (123 :: (w ++ [125])) := by
  intro depth rest _
  cases depth with
  | zero => exact .inl rfl
  | succ depth =>
    refine .inr ⟨.dict [], ?_, fun _ => by simp [JsonValue.FloatFree]⟩
    have hsplit : 123 :: (w ++ [125]) ++ rest = 123 :: (w ++ 125 :: rest) := by simp
    rw [hsplit, readValue_dict, readDict_spaces _ hw]

private theorem complete_array (h : Derives d .elements w) (ih : Complete F d size .elements w) :
    Complete F d size .value (91 :: (w ++ [93])) := by
  intro depth rest _
  cases depth with
  | zero => exact .inl rfl
  | succ depth =>
    have hsplit : 91 :: (w ++ [93]) ++ rest = 91 :: (w ++ 93 :: rest) := by simp
    rw [hsplit, readValue_array, readArray_of_ne _ _ (h.elements_head (93 :: rest))]
    exact ih depth _ [] rest fun _ e he => absurd he List.not_mem_nil

private theorem complete_dict (h : Derives d .members w) (ih : Complete F d size .members w) :
    Complete F d size .value (123 :: (w ++ [125])) := by
  intro depth rest _
  cases depth with
  | zero => exact .inl rfl
  | succ depth =>
    have hsplit : 123 :: (w ++ [125]) ++ rest = 123 :: (w ++ 125 :: rest) := by simp
    rw [hsplit, readValue_dict, readDict_of_ne _ _ _ (h.members_head (125 :: rest))]
    exact ih depth _ [] rest fun _ e he => absurd he List.not_mem_nil

private theorem complete_lastElement {l r : List UInt8} (hl : Spaces l) (h : Derives d .value w)
    (hr : Spaces r) (ih : Complete F d size .value w) :
    Complete F d size .elements (l ++ (w ++ r)) := by
  intro depth fuel array rest harray
  cases fuel with
  | zero => exact .inl rfl
  | succ fuel =>
    have hsplit : l ++ (w ++ r) ++ 93 :: rest = l ++ (w ++ (r ++ 93 :: rest)) := by simp
    rw [hsplit, skipSpace_append hl, h.skipSpace_append, readElements, if_neg (h.append_ne_nil _)]
    refine (ih depth _ (endsNumber_of_spaces hr (by simp) rest)).bind (P := fun x => Ends d x rest)
      (.inl rfl) fun v hv => ?_
    simp only [skipSpace_append hr, skipSpace_cons (c := 93) rfl]
    refine .inr ⟨.array (array ++ [v]), rfl, fun hd => JsonValue.floatFree_array.mpr ?_⟩
    simpa using fun e he => he.elim (harray hd e) fun he => he ▸ hv hd

private theorem complete_nextElement {l r ws : List UInt8} (hl : Spaces l) (h : Derives d .value w)
    (hr : Spaces r) (ih : Complete F d size .value w) (ihs : Complete F d size .elements ws) :
    Complete F d size .elements (l ++ (w ++ (r ++ 44 :: ws))) := by
  intro depth fuel array rest harray
  cases fuel with
  | zero => exact .inl rfl
  | succ fuel =>
    have hsplit : l ++ (w ++ (r ++ 44 :: ws)) ++ 93 :: rest =
        l ++ (w ++ (r ++ 44 :: (ws ++ 93 :: rest))) := by simp
    rw [hsplit, skipSpace_append hl, h.skipSpace_append, readElements, if_neg (h.append_ne_nil _)]
    refine (ih depth _ (endsNumber_of_spaces hr (by simp) _)).bind (P := fun x => Ends d x rest)
      (.inl rfl) fun v hv => ?_
    simp only [skipSpace_append hr, skipSpace_cons (c := 44) rfl]
    apply ihs depth fuel (array ++ [v]) rest
    intro hd
    simpa using fun e he => he.elim (harray hd e) fun he => he ▸ hv hd

private theorem readKey_complete {key m n : List UInt8} (hkey : Chars d key) (hm : Spaces m)
    (hn : Spaces n) (s : List UInt8) :
    ∃ bytes, readKey fresh (34 :: (key ++ 34 :: (m ++ 58 :: (n ++ s)))) =
      .ok (bytes, skipSpace s) := by
  obtain ⟨bytes, hread⟩ := readString_complete hkey (m ++ 58 :: (n ++ s))
  refine ⟨bytes, ?_⟩
  rw [readKey]
  simp only [skipSpace_cons (c := 34) rfl, List.head?_cons, ne_eq, not_true_eq_false, if_false]
  rw [show (fresh : ℕ → Bool) = fun _ => true from rfl, hread, bind_ok]
  simp only [skipSpace_append hm, skipSpace_cons (c := 58) rfl, List.head?_cons, List.tail_cons,
    skipSpace_append hn, not_true_eq_false, if_false]

private theorem complete_lastMember {l key m n r : List UInt8} (hl : Spaces l) (hkey : Chars d key)
    (hm : Spaces m) (hn : Spaces n) (h : Derives d .value w) (hr : Spaces r)
    (ih : Complete F d size .value w) :
    Complete F d size .members (l ++ 34 :: (key ++ 34 :: (m ++ 58 :: (n ++ (w ++ r))))) := by
  intro depth fuel dict rest hdict
  cases fuel with
  | zero => exact .inl rfl
  | succ fuel =>
    have hsplit : l ++ 34 :: (key ++ 34 :: (m ++ 58 :: (n ++ (w ++ r)))) ++ 125 :: rest =
        l ++ 34 :: (key ++ 34 :: (m ++ 58 :: (n ++ (w ++ (r ++ 125 :: rest))))) := by simp
    obtain ⟨bytes, hread⟩ := readKey_complete hkey hm hn (w ++ (r ++ 125 :: rest))
    rw [hsplit, skipSpace_append hl, skipSpace_cons rfl, readMembers, if_neg (List.cons_ne_nil _ _),
      hread, bind_ok, h.skipSpace_append]
    refine (ih depth _ (endsNumber_of_spaces hr (by simp) rest)).bind (P := fun x => Ends d x rest)
      (.inl rfl) fun v hv => ?_
    simp only [jsonDictAppend, fresh, if_true, bind_ok, skipSpace_append hr,
      skipSpace_cons (c := 125) rfl]
    refine .inr ⟨.dict (dict ++ [(cString bytes, v)]), rfl, fun hd => JsonValue.floatFree_dict.mpr ?_⟩
    intro e he
    rw [List.mem_append, List.mem_singleton] at he
    exact he.elim (hdict hd e) fun he => he ▸ hv hd

private theorem complete_nextMember {l key m n r ws : List UInt8} (hl : Spaces l)
    (hkey : Chars d key)
    (hm : Spaces m) (hn : Spaces n) (h : Derives d .value w) (hr : Spaces r)
    (ih : Complete F d size .value w) (ihs : Complete F d size .members ws) :
    Complete F d size .members
      (l ++ 34 :: (key ++ 34 :: (m ++ 58 :: (n ++ (w ++ (r ++ 44 :: ws)))))) := by
  intro depth fuel dict rest hdict
  cases fuel with
  | zero => exact .inl rfl
  | succ fuel =>
    have hsplit : l ++ 34 :: (key ++ 34 :: (m ++ 58 :: (n ++ (w ++ (r ++ 44 :: ws))))) ++ 125 :: rest =
        l ++ 34 :: (key ++ 34 :: (m ++ 58 :: (n ++ (w ++ (r ++ 44 :: (ws ++ 125 :: rest)))))) := by
      simp
    obtain ⟨bytes, hread⟩ := readKey_complete hkey hm hn (w ++ (r ++ 44 :: (ws ++ 125 :: rest)))
    rw [hsplit, skipSpace_append hl, skipSpace_cons rfl, readMembers, if_neg (List.cons_ne_nil _ _),
      hread, bind_ok, h.skipSpace_append]
    refine (ih depth _ (endsNumber_of_spaces hr (by simp) _)).bind (P := fun x => Ends d x rest)
      (.inl rfl) fun v hv => ?_
    simp only [jsonDictAppend, fresh, if_true, bind_ok, skipSpace_append hr,
      skipSpace_cons (c := 44) rfl]
    apply ihs depth fuel (dict ++ [(cString bytes, v)]) rest
    intro hd e he
    rw [List.mem_append, List.mem_singleton] at he
    exact he.elim (hdict hd e) fun he => he ▸ hv hd

/-- What the grammar derives is read; the induction is on the derivation. -/
private theorem complete {symbol : Symbol} (h : Derives d symbol w) :
    Complete F d size symbol w := by
  induction h with
  | litNull => exact complete_literal (by simp [JsonValue.FloatFree, JsonValue.leaves]) (.inl ⟨rfl, rfl⟩)
  | litTrue =>
    exact complete_literal (by simp [JsonValue.FloatFree, JsonValue.leaves]) (.inr (.inl ⟨rfl, rfl⟩))
  | litFalse =>
    exact complete_literal (by simp [JsonValue.FloatFree, JsonValue.leaves]) (.inr (.inr ⟨rfl, rfl⟩))
  | number h => exact complete_number h
  | string h => exact complete_string h
  | emptyArray hw => exact complete_emptyArray hw
  | array h ih => exact complete_array h ih
  | emptyDict hw => exact complete_emptyDict hw
  | dict h ih => exact complete_dict h ih
  | lastElement hl h hr ih => exact complete_lastElement hl h hr ih
  | nextElement hl h hr hs ih ihs => exact complete_nextElement hl h hr ih ihs
  | lastMember hl hkey hm hn h hr ih => exact complete_lastMember hl hkey hm hn h hr ih
  | nextMember hl hkey hm hn h hr hs ih ihs =>
    exact complete_nextMember hl hkey hm hn h hr ih ihs

theorem jsonLoads_of_text (F : Type) [Float64 F] {t : List UInt8} (h : Text d t) :
    ∃ v : JsonValue F, jsonLoads fresh t = .ok v ∧ (d.fractions = false → v.FloatFree) := by
  obtain ⟨l, w, r, hl, hw, hr, rfl⟩ := h
  have hends : EndsNumber r := endsNumber_of_head fun c hc => .inl (hr c (List.mem_of_mem_head? hc))
  have hnonempty : l ++ (w ++ r) ≠ [] := fun h => hw.append_ne_nil r (List.append_eq_nil_iff.mp h).2
  have hread : Ends d (readValue (F := F) fresh (l ++ (w ++ r)).length
      ((l ++ (w ++ r)).length + 1) (w ++ r)) r := complete hw _ r hends
  rw [← readValue_append hl] at hread
  have htext : jsonLoads (F := F) fresh (l ++ (w ++ r)) = readText fresh (l ++ (w ++ r)) :=
    jsonLoads_eq_readText _ _
  rw [readText, if_neg hnonempty] at htext
  rcases hread with hdiverges | ⟨v, hread, hfree⟩
  · rw [hdiverges] at htext
    obtain ⟨-, size, hsize⟩ := jsonLoads_fault _ _ htext
    cases hsize
  · refine ⟨v, ?_, hfree⟩
    have hrest : skipSpace r = [] := List.dropWhile_eq_nil_iff.mpr hr
    rw [htext, hread, bind_ok]
    simp only [hrest, ne_eq, not_true_eq_false, if_false]

/-- `json_loads` accepts the texts of its dialect and refuses everything else. -/
theorem jsonLoads_accepts_iff (F : Type) [Float64 F] (t : List UInt8) :
    ((∃ v : JsonValue F, jsonLoads fresh t = .ok v) ↔ Text accepted t) ∧
    ((∃ error, jsonLoads (F := F) fresh t = .error (.null error)) ↔ ¬Text accepted t) := by
  have hloads : (∃ v : JsonValue F, jsonLoads fresh t = .ok v) ↔ Text accepted t := by
    constructor
    · rintro ⟨v, hv⟩
      rw [jsonLoads_eq_readText] at hv
      exact (readText_sound hv).1
    · intro h
      obtain ⟨v, hv, -⟩ := jsonLoads_of_text F h
      exact ⟨v, hv⟩
  refine ⟨hloads, ?_⟩
  rw [← hloads]
  cases hresult : jsonLoads (F := F) fresh t with
  | ok v => simp
  | error stop =>
    cases stop with
    | fault e =>
      obtain ⟨-, size, hsize⟩ := jsonLoads_fault _ _ hresult
      cases hsize
    | null error => simp

private theorem not_number_zero_one : ¬Number rfc8259 [48, 49] := by
  intro h
  obtain ⟨t, ht, h⟩ : ∃ t, [48, 49] = t ∧ Number rfc8259 t := ⟨_, rfl, h⟩
  cases h with
  | @parts sign int frac exp hsign hint hfrac hexp =>
    obtain ⟨⟨hne, -⟩, hzero⟩ := hint
    have hint' : int = [48] ∧ frac ++ exp = [49] := by
      rcases hsign with rfl | rfl
      · obtain ⟨c, int, rfl⟩ := List.exists_cons_of_ne_nil hne
        simp only [List.nil_append, List.cons_append, List.cons.injEq] at ht
        obtain ⟨rfl, ht⟩ := ht
        rcases hzero with hzero | hzero | hzero
        · cases hzero
        · simp only [List.cons.injEq, true_and] at hzero
          subst hzero
          exact ⟨rfl, ht.symm⟩
        · exact absurd rfl hzero
      · cases ht
    obtain ⟨-, htail⟩ := hint'
    cases hfrac with
    | none =>
      cases hexp with
      | none => cases htail
      | digits hd he =>
        rw [List.nil_append, List.cons.injEq] at htail
        obtain ⟨rfl, -⟩ := htail
        exact absurd he (by decide)
    | digits => cases htail

private theorem not_text_zero_one : ¬Text rfc8259 [48, 49] := by
  rintro ⟨l, w, r, hl, hw, hr, hsplit⟩
  cases l with
  | cons c l =>
    rw [List.cons_append, List.cons.injEq] at hsplit
    obtain ⟨rfl, -⟩ := hsplit
    exact absurd (hl 48 List.mem_cons_self) (by decide)
  | nil =>
    obtain ⟨c, w', rfl, hc⟩ := hw.head
    simp only [List.nil_append, List.cons_append, List.cons.injEq] at hsplit
    obtain ⟨rfl, hsplit⟩ := hsplit
    cases w' with
    | nil =>
      subst hsplit
      exact absurd (hr 49 List.mem_cons_self) (by decide)
    | cons c' w' =>
      simp only [List.cons_append, List.cons.injEq, List.nil_eq, List.append_eq_nil_iff] at hsplit
      obtain ⟨rfl, rfl, rfl⟩ := hsplit
      cases hw with
      | number h => exact not_number_zero_one h

/-- A zero that is not the whole integer is accepted. -/
theorem jsonLoads_not_rfc8259 :
    ¬∀ t : List UInt8, 1 ≤ t.length →
      ((∃ v : JsonValue ℚ, jsonLoads fresh t = .ok v) ↔ Text rfc8259 t) := by
  intro h
  exact not_text_zero_one ((h [48, 49] (by decide)).mp ⟨.u64 1, rfl⟩)

end Libromano.Json
