/- What the reader makes of a text that the writer has written: the tree without its vertical
   tabs, or nothing at all when a string has a control character that the writer does not escape. -/

import Libromano.Json.Accepts
import Libromano.Json.Pieces

set_option autoImplicit false
set_option relaxedAutoImplicit false

namespace Libromano.Json

open Bytes (cString)
open Foundation

section Integer

variable {F : Type} [Float64 F] {rest : List UInt8}

theorem digits_decimal (n : ℕ) : Digits (Decimal.decimal n) := by
  refine ⟨Decimal.decimal_ne_nil n, fun c hc => ?_⟩
  have hdigit := Decimal.isDigit_of_mem_decimal hc
  rw [Decimal.isDigit, Bool.and_eq_true, decide_eq_true_eq, decide_eq_true_eq] at hdigit
  exact (isDigit_iff c).mpr hdigit

private theorem Digits.head {w : List UInt8} (h : Digits w) :
    ∃ c w', w = c :: w' ∧ (decide (c = 45) || isDigit c) = true := by
  obtain ⟨c, w, rfl⟩ := List.exists_cons_of_ne_nil h.1
  exact ⟨c, w, rfl, by simp [h.2 c List.mem_cons_self]⟩

private theorem head_signed (x : ℤ) :
    ∃ c w', Fmt.signed x = c :: w' ∧ (decide (c = 45) || isDigit c) = true := by
  rw [Fmt.signed]
  split_ifs
  · exact ⟨45, _, rfl, rfl⟩
  · exact (digits_decimal x.natAbs).head

private theorem foldl_integerStep (digits : List UInt8) (acc : Int64 × F) {n : ℕ}
    (hacc : acc.1.toUInt64 = UInt64.ofNat n) :
    (digits.foldl integerStep acc).1.toUInt64 = UInt64.ofNat (Decimal.readOn n digits) := by
  induction digits generalizing acc n with
  | nil => exact hacc
  | cons c digits ih =>
    refine ih (integerStep acc c) ?_
    rw [integerStep, Int64.toUInt64_add, Int64.toUInt64_mul, hacc, UInt64.ofNat_add, UInt64.ofNat_mul]
    rfl

theorem readNumber_digits {sign digits : List UInt8} (hsign : sign = [] ∨ sign = [45])
    (hdigits : Digits digits) (hrest : EndsNumber rest) :
    ∃ intVal : Int64, intVal.toUInt64 = UInt64.ofNat (Decimal.readOn 0 digits) ∧
      readNumber (F := F) (sign ++ (digits ++ rest)) =
        .ok (if sign = [] then .u64 intVal.toUInt64 else .i64 (-intVal), rest) := by
  have hends : EndsDigits rest := fun c hc => (hrest c hc).1
  have hpoint : rest.head? ≠ some 46 := fun hc => (hrest 46 hc).2.1 rfl
  have hexponent : ¬(rest.head? = some 101 ∨ rest.head? = some 69) := by
    rintro (hc | hc)
    · exact (hrest _ hc).2.2.1 rfl
    · exact (hrest _ hc).2.2.2 rfl
  refine ⟨(digits.foldl integerStep (0, Float64.ofUInt64 0) : Int64 × F).1,
    foldl_integerStep digits _ rfl, ?_⟩
  have hsplit := takeWhile_digits hdigits hends
  rw [readNumber]
  simp only [skipMinus_append hsign hdigits, readDigits_eq, if_neg (digits_head hdigits rest),
    hsplit.1, hsplit.2, readFraction, if_neg hpoint, bind_ok, readExponent, if_neg hexponent]
  rcases hsign with rfl | rfl
  · rw [List.nil_append, decide_eq_false (digits_head_ne hdigits rfl rest)]
    rfl
  · rfl

private theorem readNumber_u64 (n : UInt64) (hrest : EndsNumber rest) :
    readNumber (F := F) (Decimal.decimal n.toNat ++ rest) = .ok (.u64 n, rest) := by
  obtain ⟨intVal, hval, hread⟩ := readNumber_digits (F := F) (.inl rfl) (digits_decimal n.toNat) hrest
  rw [Decimal.readOn_decimal, UInt64.ofNat_toNat] at hval
  rw [List.nil_append] at hread
  rw [hread, if_pos rfl, hval]

private theorem readNumber_i64 (x : Int64) (hrest : EndsNumber rest) :
    readNumber (F := F) (Fmt.signed x.toInt ++ rest) =
      .ok (if x < 0 then .i64 x else .u64 x.toUInt64, rest) := by
  have habs : UInt64.ofNat x.toInt.natAbs = if x < 0 then -x.toUInt64 else x.toUInt64 := by
    rw [← Fmt.absI64_toNat, UInt64.ofNat_toNat, Fmt.absI64_eq]
  have hneg : x.toInt < 0 ↔ x < 0 := by
    rw [Int64.lt_iff_toInt_lt, Int64.toInt_zero]
  rw [Fmt.signed]
  split_ifs with hx hx' hx'
  · obtain ⟨intVal, hval, hread⟩ :=
      readNumber_digits (F := F) (.inr rfl) (digits_decimal x.toInt.natAbs) hrest
    rw [Decimal.readOn_decimal, habs, if_pos hx'] at hval
    have hbits : (-intVal).toUInt64 = x.toUInt64 := by
      rw [Int64.toUInt64_neg, hval, UInt64.neg_neg]
    have hback : -intVal = x := congrArg UInt64.toInt64 hbits
    rw [List.cons_append]
    rw [List.singleton_append] at hread
    rw [hread, if_neg (by simp), hback]
  · exact absurd (hneg.mp hx) hx'
  · exact absurd (hneg.mpr hx') hx
  · obtain ⟨intVal, hval, hread⟩ :=
      readNumber_digits (F := F) (.inl rfl) (digits_decimal x.toInt.natAbs) hrest
    rw [Decimal.readOn_decimal, habs, if_neg hx'] at hval
    rw [List.nil_append] at hread
    rw [hread, if_pos rfl, hval]

end Integer

section Strings

variable {holds : ℕ → Bool} {rest : List UInt8}

def isReadable (c : UInt8) : Bool := isLegible c || c = 11

def Readable (s : List UInt8) : Prop := ∀ c ∈ s, isReadable c = true

/-- A vertical tab is written as an escape that the reader drops. -/
def dropTabs (s : List UInt8) : List UInt8 := s.filter (· ≠ 11)

def keepChar (c : UInt8) : List UInt8 := if c = 11 then [] else [c]

private theorem readChars_backslash {c letter : UInt8} (hescape : escapeChar c = [92, letter])
    (hletter : letter ≠ 117) (hkeep : unescape letter = keepChar c) (t : List UInt8) :
    readChars (escapeChar c ++ t) =
      (readChars t).map fun (chars, rest) => (keepChar c :: chars, rest) := by
  rw [hescape, ← hkeep]
  exact readChars_escape hletter t

private theorem escapeChar_self {c : UInt8} (h : jsonCharIsEscaped c = false ∨ c = 39) :
    escapeChar c = [c] := by
  rcases h with h | rfl
  · simp [escapeChar, h]
  · rfl

private theorem readChars_escapeChar (c : UInt8) (t : List UInt8) :
    readChars (escapeChar c ++ t) =
      if isReadable c then (readChars t).map fun (chars, rest) => (keepChar c :: chars, rest)
      else none := by
  by_cases hself : jsonCharIsEscaped c = false ∨ c = 39
  · rw [escapeChar_self hself, List.singleton_append]
    have hne : ∀ k, jsonCharIsEscaped k = true ∧ k ≠ 39 → c ≠ k := by
      rintro k hk rfl
      rcases hself with h | h
      · rw [h] at hk
        cases hk.1
      · exact hk.2 h
    have htab : c ≠ 11 := hne 11 (by decide)
    by_cases hcontrol : c < 32
    · have hunreadable : isReadable c = false := by
        simp [isReadable, isLegible, hcontrol, htab, hne 8 (by decide), hne 9 (by decide),
          hne 10 (by decide), hne 12 (by decide), hne 13 (by decide)]
      rw [readChars_control hcontrol, hunreadable]
      rfl
    · have hreadable : isReadable c = true := by simp [isReadable, isLegible, hcontrol]
      rw [readChars_plain (hne 34 (by decide)) (hne 92 (by decide)) hcontrol, hreadable, keepChar,
        if_neg htab]
      rfl
  · rw [not_or, Bool.not_eq_false] at hself
    obtain ⟨hescaped, hquote⟩ := hself
    simp only [jsonCharIsEscaped, Bool.or_eq_true, decide_eq_true_eq] at hescaped
    rcases hescaped with (((((((rfl | rfl) | rfl) | rfl) | rfl) | rfl) | rfl) | rfl) | rfl
    · exact absurd rfl hquote
    all_goals exact readChars_backslash rfl (by decide) rfl t

private theorem readChars_escaped (s rest : List UInt8) :
    readChars (s.flatMap escapeChar ++ 34 :: rest) =
      if s.all isReadable then some (s.map keepChar, rest) else none := by
  induction s with
  | nil => exact readChars_quote rest
  | cons c s ih =>
    rw [List.flatMap_cons, List.append_assoc, readChars_escapeChar, ih, List.all_cons]
    cases isReadable c with
    | false => rfl
    | true =>
      cases s.all isReadable with
      | false => rfl
      | true => rfl

private theorem flatten_keepChar (s : List UInt8) : (s.map keepChar).flatten = dropTabs s := by
  induction s with
  | nil => rfl
  | cons c s ih =>
    rw [List.map_cons, List.flatten_cons, ih, keepChar]
    by_cases htab : c = 11
    · simp [dropTabs, htab]
    · simp [dropTabs, htab]

private theorem all_isReadable_iff {s : List UInt8} : s.all isReadable = true ↔ Readable s :=
  List.all_eq_true

private theorem cString_eq_self {s : List UInt8} (h : 0 ∉ s) : cString s = s :=
  List.takeWhile_eq_self_iff.mpr fun c hc => by
    have hne : c ≠ 0 := fun hzero => h (hzero ▸ hc)
    simpa using hne

end Strings

/-- The computation runs out of depth, or returns `a` if `P` holds and refuses if not. -/
inductive Decides {α : Type} (P : Prop) (a : α) (x : Except Stop α) : Prop
  | diverges (h : x = .error (.fault .diverges))
  | ok (hP : P) (h : x = .ok a)
  | null (hP : ¬P) (error : Option ErrorCode) (h : x = .error (.null error))

theorem Decides.bind {α β : Type} {P Q : Prop} {a : α} {b : β} {x : Except Stop α}
    {f : α → Except Stop β} (h : Decides P a x) (hf : P → Decides Q b (f a)) :
    Decides (P ∧ Q) b (x >>= f) := by
  cases h with
  | diverges h => exact .diverges (by rw [h]; rfl)
  | null hP error h => exact .null (fun hPQ => hP hPQ.1) error (by rw [h]; rfl)
  | ok hP h =>
    subst h
    cases hf hP with
    | diverges h => exact .diverges h
    | ok hQ h => exact .ok ⟨hP, hQ⟩ h
    | null hQ error h => exact .null (fun hPQ => hQ hPQ.2) error h

theorem Decides.congr {α : Type} {P Q : Prop} {a : α} {x : Except Stop α} (h : Decides P a x)
    (hPQ : P ↔ Q) : Decides Q a x := by
  rwa [propext hPQ] at h

section Value

variable {F : Type} [Float64 F] {holds : ℕ → Bool} {indentSize : UInt64} {size : ℕ}
  {rest : List UInt8}

def Monotone (holds : ℕ → Bool) : Prop := ∀ m n, m ≤ n → holds n = true → holds m = true

/-- A string that ends where the code takes it to end, and for which the arena has room. -/
def Held (holds : ℕ → Bool) (s : List UInt8) : Prop := 0 ∉ s ∧ holds (s.length + 1) = true

/-- The string that is written for `s`. -/
def quoted (s : List UInt8) : List UInt8 := 34 :: (s.flatMap escapeChar ++ [34])

private theorem readString_quoted {s : List UInt8} (hs : holds (s.length + 1) = true)
    (rest : List UInt8) :
    Decides (Readable s) (dropTabs s, rest) (readString holds (quoted s ++ rest)) := by
  have hsplit : quoted s ++ rest = 34 :: (s.flatMap escapeChar ++ 34 :: rest) := by simp [quoted]
  rw [hsplit, readString, if_neg (by simp), List.tail_cons, readChars_escaped]
  by_cases hreadable : s.all isReadable = true
  · refine .ok (all_isReadable_iff.mp hreadable) ?_
    simp [hreadable, flatten_keepChar, hs]
  · refine .null (fun h => hreadable (all_isReadable_iff.mpr h)) none ?_
    simp [hreadable]

private theorem spaces_newline (indent : UInt64) : Spaces (textOf (newline indentSize indent)) := by
  rw [newline]
  split_ifs
  · intro c hc
    simp only [textOf, exactly, List.flatMap_cons, List.flatMap_nil, List.append_nil,
      List.singleton_append, List.mem_cons, List.mem_replicate] at hc
    rcases hc with rfl | ⟨-, rfl⟩
    · rfl
    · rfl
  · exact spaces_nil

private theorem textOf_append (ps qs : List Piece) : textOf (ps ++ qs) = textOf ps ++ textOf qs :=
  List.flatMap_append

private theorem textOf_exactly (bytes : List UInt8) (ps : List Piece) :
    textOf (exactly bytes :: ps) = bytes ++ textOf ps := rfl

omit [Float64 F] in
theorem textOf_separator (indent : UInt64) (i : ℕ) :
    textOf (separator indentSize indent (i + 1)) = 44 :: textOf (newline indentSize indent) := rfl

omit [Float64 F] in
private theorem textOf_separator_zero (indent : UInt64) :
    textOf (separator indentSize indent 0) = textOf (newline indentSize indent) := rfl

omit [Float64 F] in
private theorem text_head {v : JsonValue F} (hv : v.FloatFree) (indentSize indent : UInt64) :
    ∃ c w, textOf (pieces indentSize indent v) = c :: w ∧ startsValue c = true := by
  cases v with
  | null => exact ⟨_, _, rfl, rfl⟩
  | bool b =>
    cases b with
    | false => exact ⟨_, _, rfl, rfl⟩
    | true => exact ⟨_, _, rfl, rfl⟩
  | u64 n =>
    obtain ⟨c, w, hw, hc⟩ := (digits_decimal n.toNat).head
    exact ⟨c, w, by rw [pieces, textOf_exactly, hw]; simp [textOf], by simp [startsValue, hc]⟩
  | i64 x =>
    obtain ⟨c, w, hw, hc⟩ := head_signed x.toInt
    exact ⟨c, w, by rw [pieces, textOf_exactly, hw]; simp [textOf], by simp [startsValue, hc]⟩
  | f64 x => exact absurd (List.mem_singleton.mpr rfl) (hv x)
  | str s => exact ⟨_, _, rfl, rfl⟩
  | array vs => exact ⟨_, _, rfl, rfl⟩
  | dict kvs => exact ⟨_, _, rfl, rfl⟩

omit [Float64 F] in
private theorem skipSpace_text {v : JsonValue F} (hv : v.FloatFree) (indent : UInt64)
    (s : List UInt8) :
    skipSpace (textOf (pieces indentSize indent v) ++ s) =
      textOf (pieces indentSize indent v) ++ s := by
  obtain ⟨c, w, hw, hc⟩ := text_head hv indentSize indent
  rw [hw]
  exact skipSpace_cons (not_space_of_startsValue hc).1 _

omit [Float64 F] in
theorem text_ne_nil {v : JsonValue F} (hv : v.FloatFree) (indent : UInt64) (s : List UInt8) :
    textOf (pieces indentSize indent v) ++ s ≠ [] := by
  obtain ⟨c, w, hw, -⟩ := text_head hv indentSize indent
  rw [hw]
  exact List.cons_ne_nil _ _

/-- What the reader makes of the text of `v`. -/
def Rereads (holds : ℕ → Bool) (indentSize : UInt64) (size depth : ℕ) (v : JsonValue F) : Prop :=
  ∀ indent rest, EndsNumber rest →
    Decides (v.StringsSatisfy Readable) (v.rewrite dropTabs, rest)
      (readValue holds size depth (textOf (pieces indentSize indent v) ++ rest))

private theorem readElements_reread {depth : ℕ} {v : JsonValue F} {vs : List (JsonValue F)}
    (hvs : ∀ e ∈ v :: vs, e.FloatFree ∧ Rereads holds indentSize size depth e)
    (indent : UInt64) (fuel i : ℕ) (array : List (JsonValue F)) {sp : List UInt8} (hsp : Spaces sp)
    (rest : List UInt8) :
    Decides (∀ e ∈ v :: vs, e.StringsSatisfy Readable)
      (.array (array ++ (v :: vs).map (JsonValue.rewrite dropTabs)), rest)
      (readElements (readValue holds size depth) fuel array
        (textOf (pieces indentSize indent v) ++
          (textOf (elementPieces indentSize indent (i + 1) vs) ++ (sp ++ 93 :: rest)))) := by
  induction vs generalizing v fuel i array with
  | nil =>
    obtain ⟨hfree, hv⟩ := hvs v List.mem_cons_self
    cases fuel with
    | zero => exact .diverges rfl
    | succ fuel =>
      rw [readElements, if_neg (text_ne_nil hfree indent _)]
      refine ((hv indent (sp ++ 93 :: rest) (endsNumber_of_spaces hsp (by simp) rest)).bind
        (Q := True) fun _ => .ok trivial ?_).congr (by simp)
      simp [skipSpace_append hsp, skipSpace_cons (c := 93) rfl]
  | cons w vs ih =>
    obtain ⟨hfree, hv⟩ := hvs v List.mem_cons_self
    have hw := (hvs w (by simp)).1
    cases fuel with
    | zero => exact .diverges rfl
    | succ fuel =>
      have hnext : textOf (elementPieces indentSize indent (i + 1) (w :: vs)) ++ (sp ++ 93 :: rest) =
          44 :: (textOf (newline indentSize indent) ++ (textOf (pieces indentSize indent w) ++
            (textOf (elementPieces indentSize indent (i + 1 + 1) vs) ++ (sp ++ 93 :: rest)))) := by
        simp [elementPieces, textOf_append, textOf_separator]
      rw [readElements, if_neg (text_ne_nil hfree indent _), hnext]
      have hloop := ih (v := w) (fun e he => hvs e (List.mem_cons_of_mem v he)) fuel (i + 1)
        (array ++ [v.rewrite dropTabs])
      rw [List.append_assoc] at hloop
      refine ((hv indent _ (endsNumber_of_spaces spaces_nil (by simp) _)).bind fun _ => ?_).congr
        (List.forall_mem_cons).symm
      simpa [skipSpace_cons (c := 44) rfl, skipSpace_append (spaces_newline indent),
        skipSpace_text hw] using hloop

omit [Float64 F] in
private theorem readKey_reread {k : List UInt8} (hk : holds (k.length + 1) = true)
    (t : List UInt8) :
    Decides (Readable k) (dropTabs k, skipSpace t)
      (readKey holds (quoted k ++ 58 :: 32 :: t)) := by
  have hspace : skipSpace (quoted k ++ 58 :: 32 :: t) = quoted k ++ 58 :: 32 :: t :=
    skipSpace_cons rfl _
  rw [readKey]
  simp only [hspace]
  rw [if_neg (by simp [quoted])]
  refine ((readString_quoted hk (58 :: 32 :: t)).bind (Q := True) fun _ => .ok trivial ?_).congr
    (by simp)
  simp only [skipSpace_cons (c := 58) rfl, List.head?_cons, ne_eq, not_true_eq_false, if_false,
    List.tail_cons]
  rfl

omit [Float64 F] in
private theorem jsonDictAppend_dropTabs (hmono : Monotone holds) {k : List UInt8}
    (hk : Held holds k)
    (dict : List (List UInt8 × JsonValue F)) (v : JsonValue F) :
    jsonDictAppend holds dict (dropTabs k) v = .ok (dict ++ [(dropTabs k, v)]) := by
  have hzero : 0 ∉ dropTabs k := fun h => hk.1 (List.mem_of_mem_filter h)
  have hlen : (dropTabs k).length + 1 ≤ k.length + 1 := Nat.succ_le_succ (List.length_filter_le _ _)
  rw [jsonDictAppend, cString_eq_self hzero, if_pos (hmono _ _ hlen hk.2)]

private theorem textOf_stringPiece {s : List UInt8} (hs : 0 ∉ s) (ps : List Piece) :
    textOf (stringPiece s :: ps) = quoted s ++ textOf ps := by
  rw [textOf, List.flatMap_cons, stringPiece, cString_eq_self hs]
  rfl

private theorem readMembers_reread (hmono : Monotone holds) {depth : ℕ} {k : List UInt8}
    {v : JsonValue F}
    {kvs : List (List UInt8 × JsonValue F)}
    (hkvs : ∀ e ∈ (k, v) :: kvs, Held holds e.1 ∧ e.2.FloatFree ∧
      Rereads holds indentSize size depth e.2)
    (indent : UInt64) (fuel i : ℕ) (dict : List (List UInt8 × JsonValue F)) {sp : List UInt8}
    (hsp : Spaces sp) (rest : List UInt8) :
    Decides (∀ e ∈ (k, v) :: kvs, Readable e.1 ∧ e.2.StringsSatisfy Readable)
      (.dict (dict ++ ((k, v) :: kvs).map fun e => (dropTabs e.1, e.2.rewrite dropTabs)), rest)
      (readMembers holds (readValue holds size depth) fuel dict
        (quoted k ++ 58 :: 32 :: (textOf (pieces indentSize indent v) ++
          (textOf (memberPieces indentSize indent (i + 1) kvs) ++ (sp ++ 125 :: rest))))) := by
  induction kvs generalizing k v fuel i dict with
  | nil =>
    obtain ⟨hk, hfree, hv⟩ := hkvs (k, v) List.mem_cons_self
    cases fuel with
    | zero => exact .diverges rfl
    | succ fuel =>
      refine Decides.congr (P := Readable k ∧ v.StringsSatisfy Readable ∧ True) ?_ (by simp)
      rw [readMembers, if_neg (by simp [quoted])]
      apply (readKey_reread hk.2 _).bind
      intro _
      simp only [skipSpace_text hfree]
      refine (hv indent (sp ++ 125 :: rest) (endsNumber_of_spaces hsp (by simp) rest)).bind
        fun _ => .ok trivial ?_
      simp [jsonDictAppend_dropTabs hmono hk, skipSpace_append hsp, skipSpace_cons (c := 125) rfl]
  | cons w kvs ih =>
    obtain ⟨hk, hfree, hv⟩ := hkvs (k, v) List.mem_cons_self
    obtain ⟨k', v'⟩ := w
    obtain ⟨hk', -, -⟩ := hkvs (k', v') (by simp)
    cases fuel with
    | zero => exact .diverges rfl
    | succ fuel =>
      have hnext : textOf (memberPieces indentSize indent (i + 1) ((k', v') :: kvs)) ++
          (sp ++ 125 :: rest) =
          44 :: (textOf (newline indentSize indent) ++ (quoted k' ++ 58 :: 32 ::
            (textOf (pieces indentSize indent v') ++
              (textOf (memberPieces indentSize indent (i + 1 + 1) kvs) ++ (sp ++ 125 :: rest))))) := by
        simp [memberPieces, textOf_append, textOf_separator, textOf_stringPiece hk'.1, textOf_exactly]
      have hloop := ih (k := k') (v := v') (fun e he => hkvs e (List.mem_cons_of_mem _ he)) fuel
        (i + 1) (dict ++ [(dropTabs k, v.rewrite dropTabs)])
      rw [List.append_assoc] at hloop
      refine Decides.congr (P := Readable k ∧ v.StringsSatisfy Readable ∧
        ∀ e ∈ (k', v') :: kvs, Readable e.1 ∧ e.2.StringsSatisfy Readable) ?_ (by simp [and_assoc])
      rw [readMembers, if_neg (by simp [quoted]), hnext]
      apply (readKey_reread hk.2 _).bind
      intro _
      simp only [skipSpace_text hfree]
      apply (hv indent _ (endsNumber_of_spaces spaces_nil (by simp) _)).bind
      intro _
      have hquoted : ∀ t, skipSpace (quoted k' ++ t) = quoted k' ++ t := fun t => skipSpace_cons rfl _
      simpa [jsonDictAppend_dropTabs hmono hk, skipSpace_cons (c := 44) rfl,
        skipSpace_append (spaces_newline indent), hquoted] using hloop

private theorem rereads_number {depth : ℕ} {v : JsonValue F} {w : List UInt8}
    (hnumber : ∃ c w', w = c :: w' ∧ (decide (c = 45) || isDigit c) = true)
    (hv : v.StringsSatisfy Readable)
    (hread : ∀ rest, EndsNumber rest → readNumber (w ++ rest) = .ok (v.rewrite dropTabs, rest))
    (htext : ∀ indent, textOf (pieces indentSize indent v) = w) :
    Rereads holds indentSize size depth v := by
  intro indent rest hrest
  cases depth with
  | zero => exact .diverges rfl
  | succ depth =>
    refine .ok hv ?_
    rw [htext, readValue_number holds hnumber, hread rest hrest]

private theorem rereads_array {depth : ℕ} {vs : List (JsonValue F)}
    (hvs : ∀ e ∈ vs, e.FloatFree ∧ Rereads holds indentSize size depth e) :
    Rereads holds indentSize size (depth + 1) (.array vs) := by
  intro indent rest _
  have htext : textOf (pieces indentSize indent (.array vs)) ++ rest =
      91 :: (textOf (elementPieces indentSize (indent + indentSize) 0 vs) ++
        (textOf (newline indentSize indent) ++ 93 :: rest)) := by
    simp [pieces, textOf_exactly, textOf_append]
    rfl
  rw [htext, readValue_array, JsonValue.rewrite_array]
  refine Decides.congr ?_ JsonValue.stringsSatisfy_array.symm
  cases vs with
  | nil => exact .ok (by simp) (readArray_spaces (spaces_newline indent))
  | cons v vs =>
    have hv := (hvs v List.mem_cons_self).1
    have hfirst : skipSpace (textOf (elementPieces indentSize (indent + indentSize) 0 (v :: vs)) ++
        (textOf (newline indentSize indent) ++ 93 :: rest)) =
        textOf (pieces indentSize (indent + indentSize) v) ++
          (textOf (elementPieces indentSize (indent + indentSize) 1 vs) ++
            (textOf (newline indentSize indent) ++ 93 :: rest)) := by
      rw [elementPieces, textOf_append, textOf_append, textOf_separator_zero, List.append_assoc,
        List.append_assoc, skipSpace_append (spaces_newline _), skipSpace_text hv]
    have hne : (skipSpace (textOf (elementPieces indentSize (indent + indentSize) 0 (v :: vs)) ++
        (textOf (newline indentSize indent) ++ 93 :: rest))).head? ≠ some 93 := by
      obtain ⟨c, w, hw, hc⟩ := text_head hv indentSize (indent + indentSize)
      rw [hfirst, hw]
      rintro ⟨⟩
      exact (not_space_of_startsValue hc).2.1 rfl
    rw [readArray_of_ne _ _ hne, hfirst]
    exact readElements_reread hvs _ _ 0 [] (spaces_newline indent) rest

private theorem rereads_dict (hmono : Monotone holds) {depth : ℕ}
    {kvs : List (List UInt8 × JsonValue F)}
    (hkvs : ∀ e ∈ kvs, Held holds e.1 ∧ e.2.FloatFree ∧ Rereads holds indentSize size depth e.2) :
    Rereads holds indentSize size (depth + 1) (.dict kvs) := by
  intro indent rest _
  have htext : textOf (pieces indentSize indent (.dict kvs)) ++ rest =
      123 :: (textOf (memberPieces indentSize (indent + indentSize) 0 kvs) ++
        (textOf (newline indentSize indent) ++ 125 :: rest)) := by
    simp [pieces, textOf_exactly, textOf_append]
    rfl
  rw [htext, readValue_dict, JsonValue.rewrite_dict]
  refine Decides.congr ?_ JsonValue.stringsSatisfy_dict.symm
  cases kvs with
  | nil => exact .ok (by simp) (readDict_spaces holds (spaces_newline indent))
  | cons kv kvs =>
    obtain ⟨k, v⟩ := kv
    have hk := (hkvs (k, v) List.mem_cons_self).1
    have hfirst : skipSpace (textOf (memberPieces indentSize (indent + indentSize) 0 ((k, v) :: kvs)) ++
        (textOf (newline indentSize indent) ++ 125 :: rest)) =
        quoted k ++ 58 :: 32 :: (textOf (pieces indentSize (indent + indentSize) v) ++
          (textOf (memberPieces indentSize (indent + indentSize) 1 kvs) ++
            (textOf (newline indentSize indent) ++ 125 :: rest))) := by
      rw [memberPieces, textOf_append, textOf_separator_zero, List.append_assoc,
        skipSpace_append (spaces_newline _), textOf_stringPiece hk.1]
      simp only [textOf_exactly, textOf_append, List.append_assoc]
      exact skipSpace_cons rfl _
    have hne : (skipSpace (textOf (memberPieces indentSize (indent + indentSize) 0 ((k, v) :: kvs)) ++
        (textOf (newline indentSize indent) ++ 125 :: rest))).head? ≠ some 125 := by
      rw [hfirst]
      rintro ⟨⟩
    rw [readDict_of_ne _ _ _ hne, hfirst]
    exact readMembers_reread hmono hkvs _ _ 0 [] (spaces_newline indent) rest

omit [Float64 F] in
private theorem stringsSatisfy_scalar {P : List UInt8 → Prop} {v : JsonValue F} (h : v.leaves = [v])
    (hv : ∀ s, v ≠ .str s) : v.StringsSatisfy P := by
  intro s hs
  rw [h, List.mem_singleton] at hs
  exact absurd hs.symm (hv s)

theorem rereads (hmono : Monotone holds) {v : JsonValue F} (hfree : v.FloatFree)
    (hheld : v.StringsSatisfy (Held holds)) (depth : ℕ) :
    Rereads holds indentSize size depth v := by
  induction v using JsonValue.induction generalizing depth with
  | null =>
    intro indent rest _
    cases depth with
    | zero => exact .diverges rfl
    | succ depth => exact .ok (stringsSatisfy_scalar rfl (by simp)) rfl
  | bool b =>
    intro indent rest _
    cases depth with
    | zero => exact .diverges rfl
    | succ depth =>
      refine .ok (stringsSatisfy_scalar rfl (by simp)) ?_
      cases b with
      | false => rfl
      | true => rfl
  | u64 n =>
    exact rereads_number (digits_decimal n.toNat).head (stringsSatisfy_scalar rfl (by simp))
      (fun rest hrest => readNumber_u64 n hrest) fun indent => by simp [pieces, textOf, exactly]
  | i64 x =>
    exact rereads_number (head_signed x.toInt) (stringsSatisfy_scalar rfl (by simp))
      (fun rest hrest => readNumber_i64 x hrest) fun indent => by simp [pieces, textOf, exactly]
  | f64 x => exact absurd (List.mem_singleton.mpr rfl) (hfree x)
  | str s =>
    intro indent rest _
    obtain ⟨hzero, hholds⟩ := JsonValue.stringsSatisfy_str.mp hheld
    cases depth with
    | zero => exact .diverges rfl
    | succ depth =>
      have hread : readValue (F := F) holds size (depth + 1)
          (textOf (pieces indentSize indent (.str s : JsonValue F)) ++ rest) =
          readString holds (quoted s ++ rest) >>= fun p => .ok (.str p.1, p.2) := by
        rw [pieces, textOf_stringPiece hzero, textOf, List.flatMap_nil, List.append_nil]
        rfl
      refine Decides.congr (P := Readable s ∧ True) ?_ (by simp)
      rw [hread]
      exact (readString_quoted hholds rest).bind fun _ => .ok trivial rfl
  | array vs ih =>
    have hfree' := JsonValue.floatFree_array.mp hfree
    have hheld' := JsonValue.stringsSatisfy_array.mp hheld
    cases depth with
    | zero => exact fun _ _ _ => .diverges rfl
    | succ depth =>
      exact rereads_array fun e he => ⟨hfree' e he, ih e he (hfree' e he) (hheld' e he) depth⟩
  | dict kvs ih =>
    have hfree' := JsonValue.floatFree_dict.mp hfree
    have hheld' := JsonValue.stringsSatisfy_dict.mp hheld
    cases depth with
    | zero => exact fun _ _ _ => .diverges rfl
    | succ depth =>
      exact rereads_dict hmono fun e he =>
        ⟨(hheld' e he).1, hfree' e he, ih e he (hfree' e he) (hheld' e he).2 depth⟩

end Value

end Libromano.Json
