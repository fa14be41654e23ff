/- The grammar of JSON texts, with the points on which a reader may be more liberal as a
   parameter. Bytes from 128 on stand for themselves in a string, so that nothing is asked of
   their encoding. -/

import Libromano.Json.Reader
import Mathlib.Data.List.TakeWhile

set_option autoImplicit false
set_option relaxedAutoImplicit false

namespace Libromano.Json

structure Dialect where
  /-- An integer may start with a zero and go on. -/
  leadingZeros : Bool
  /-- A backslash may stand before any byte, and `\u` before any four. -/
  anyEscape : Bool
  /-- A number may have a fraction and an exponent. -/
  fractions : Bool

def rfc8259 : Dialect := ⟨false, false, true⟩

/-- What `json_loads` goes by. -/
def accepted : Dialect := ⟨true, true, true⟩

/-- As much of it as has integers only. -/
def integral : Dialect := ⟨true, true, false⟩

def Spaces (w : List UInt8) : Prop := ∀ c ∈ w, isWhitespace c = true

def Digits (w : List UInt8) : Prop := w ≠ [] ∧ ∀ c ∈ w, isDigit c = true

def isHex (c : UInt8) : Bool :=
  isDigit c || (97 ≤ c && c ≤ 102) || (65 ≤ c && c ≤ 70)

def shortEscapes : List UInt8 := [34, 92, 47, 98, 102, 110, 114, 116]

section

variable (d : Dialect)

inductive Fraction : List UInt8 → Prop
  | none : Fraction []
  | digits {w : List UInt8} (hd : d.fractions = true) (h : Digits w) : Fraction (46 :: w)

inductive Exponent : List UInt8 → Prop
  | none : Exponent []
  | digits {e : UInt8} {sign w : List UInt8} (hd : d.fractions = true) (he : e = 101 ∨ e = 69)
      (hsign : sign ∈ ([[], [43], [45]] : List (List UInt8))) (h : Digits w) :
      Exponent (e :: (sign ++ w))

def Integer (w : List UInt8) : Prop :=
  Digits w ∧ (d.leadingZeros = true ∨ w = [48] ∨ w.head? ≠ some 48)

inductive Number : List UInt8 → Prop
  | parts {sign int frac exp : List UInt8} (hsign : sign = [] ∨ sign = [45])
      (hint : Integer d int) (hfrac : Fraction d frac) (hexp : Exponent d exp) :
      Number (sign ++ (int ++ (frac ++ exp)))

inductive Chars : List UInt8 → Prop
  | nil : Chars []
  | plain {c : UInt8} {w : List UInt8} (hcontrol : ¬c < 32) (hquote : c ≠ 34) (hslash : c ≠ 92)
      (h : Chars w) : Chars (c :: w)
  | escape {c : UInt8} {w : List UInt8} (hc : c ∈ shortEscapes ∨ d.anyEscape = true ∧ c ≠ 117)
      (h : Chars w) : Chars (92 :: c :: w)
  | unicode {a b c e : UInt8} {w : List UInt8}
      (hhex : d.anyEscape = true ∨ ∀ x ∈ [a, b, c, e], isHex x = true) (h : Chars w) :
      Chars (92 :: 117 :: a :: b :: c :: e :: w)

inductive Symbol
  | value
  | elements
  | members

inductive Derives : Symbol → List UInt8 → Prop
  | litNull : Derives .value nullLiteral
  | litTrue : Derives .value trueLiteral
  | litFalse : Derives .value falseLiteral
  | number {w : List UInt8} (h : Number d w) : Derives .value w
  | string {w : List UInt8} (h : Chars d w) : Derives .value (34 :: (w ++ [34]))
  | emptyArray {w : List UInt8} (h : Spaces w) : Derives .value (91 :: (w ++ [93]))
  | array {w : List UInt8} (h : Derives .elements w) : Derives .value (91 :: (w ++ [93]))
  | emptyDict {w : List UInt8} (h : Spaces w) : Derives .value (123 :: (w ++ [125]))
  | dict {w : List UInt8} (h : Derives .members w) : Derives .value (123 :: (w ++ [125]))
  | lastElement {l w r : List UInt8} (hl : Spaces l) (h : Derives .value w) (hr : Spaces r) :
      Derives .elements (l ++ (w ++ r))
  | nextElement {l w r ws : List UInt8} (hl : Spaces l) (h : Derives .value w) (hr : Spaces r)
      (hs : Derives .elements ws) : Derives .elements (l ++ (w ++ (r ++ 44 :: ws)))
  | lastMember {l key m n w r : List UInt8} (hl : Spaces l) (hkey : Chars d key) (hm : Spaces m)
      (hn : Spaces n) (h : Derives .value w) (hr : Spaces r) :
      Derives .members (l ++ 34 :: (key ++ 34 :: (m ++ 58 :: (n ++ (w ++ r)))))
  | nextMember {l key m n w r ws : List UInt8} (hl : Spaces l) (hkey : Chars d key)
      (hm : Spaces m) (hn : Spaces n) (h : Derives .value w) (hr : Spaces r)
      (hs : Derives .members ws) :
      Derives .members (l ++ 34 :: (key ++ 34 :: (m ++ 58 :: (n ++ (w ++ (r ++ 44 :: ws))))))

/-- A value with nothing but space around it. -/
def Text (t : List UInt8) : Prop :=
  ∃ l w r, Spaces l ∧ Derives d .value w ∧ Spaces r ∧ t = l ++ (w ++ r)

end

variable {d : Dialect} {l w rest : List UInt8}

theorem skipSpace_append (hl : Spaces l) (s : List UInt8) : skipSpace (l ++ s) = skipSpace s :=
  List.dropWhile_append_of_pos hl

theorem skipSpace_cons {c : UInt8} (hc : isWhitespace c = false) (s : List UInt8) :
    skipSpace (c :: s) = c :: s := by simp [skipSpace, hc]

private theorem not_space_of_head? {s : List UInt8} {c : UInt8} (h : (skipSpace s).head? = some c) :
    isWhitespace c = false := by
  have hnot := List.head?_dropWhile_not isWhitespace s
  rw [show s.dropWhile isWhitespace = skipSpace s from rfl, h] at hnot
  exact hnot

theorem skipSpace_skipSpace (s : List UInt8) : skipSpace (skipSpace s) = skipSpace s := by
  cases hs : skipSpace s with
  | nil => rfl
  | cons c s' => exact skipSpace_cons (not_space_of_head? (s := s) (by rw [hs]; rfl)) s'

theorem exists_spaces (s : List UInt8) : ∃ l, Spaces l ∧ s = l ++ skipSpace s :=
  ⟨s.takeWhile isWhitespace, fun _ hc => List.mem_takeWhile_imp hc,
    (List.takeWhile_append_dropWhile).symm⟩

theorem Spaces.append {r : List UInt8} (hl : Spaces l) (hr : Spaces r) : Spaces (l ++ r) := by
  intro c hc
  exact (List.mem_append.mp hc).elim (hl c) (hr c)

theorem spaces_nil : Spaces [] := fun _ hc => absurd hc List.not_mem_nil

theorem isDigit_iff (c : UInt8) : isDigit c = true ↔ 48 ≤ c.toNat ∧ c.toNat < 58 := by
  rw [isDigit, decide_eq_true_eq, UInt8.lt_iff_toNat_lt, UInt8.toNat_sub]
  have hlt := c.toNat_lt
  simp only [UInt8.reduceToNat]
  omega

def startsValue (c : UInt8) : Bool :=
  c = 34 || c = 123 || c = 91 || (c = 45 || isDigit c) || (c = 116 || c = 102 || c = 110)

theorem not_space_of_startsValue {c : UInt8} (h : startsValue c = true) :
    isWhitespace c = false ∧ c ≠ 93 ∧ c ≠ 125 := by
  simp only [startsValue, Bool.or_eq_true, decide_eq_true_eq] at h
  rcases h with ((((rfl | rfl) | rfl) | (rfl | hdigit)) | ((rfl | rfl) | rfl))
  · decide
  · decide
  · decide
  · decide
  · have hne : ∀ k, isDigit k = false → c ≠ k := fun k hk hck => by simp_all
    refine ⟨?_, hne 93 rfl, hne 125 rfl⟩
    simp [isWhitespace, hne 32 rfl, hne 9 rfl, hne 10 rfl, hne 13 rfl]
  · decide
  · decide
  · decide

theorem Number.head (h : Number d w) :
    ∃ c w', w = c :: w' ∧ (decide (c = 45) || isDigit c) = true := by
  cases h with
  | @parts sign int frac exp hsign hint hfrac hexp =>
    rcases hsign with rfl | rfl
    · obtain ⟨c, int, rfl⟩ := List.exists_cons_of_ne_nil hint.1.1
      exact ⟨c, _, rfl, by simp [hint.1.2 c List.mem_cons_self]⟩
    · exact ⟨45, _, rfl, rfl⟩

theorem Derives.head (h : Derives d .value w) : ∃ c w', w = c :: w' ∧ startsValue c = true := by
  cases h with
  | litNull => exact ⟨_, _, rfl, rfl⟩
  | litTrue => exact ⟨_, _, rfl, rfl⟩
  | litFalse => exact ⟨_, _, rfl, rfl⟩
  | string h => exact ⟨_, _, rfl, rfl⟩
  | emptyArray h => exact ⟨_, _, rfl, rfl⟩
  | array h => exact ⟨_, _, rfl, rfl⟩
  | emptyDict h => exact ⟨_, _, rfl, rfl⟩
  | dict h => exact ⟨_, _, rfl, rfl⟩
  | number h =>
    obtain ⟨c, w', rfl, hc⟩ := h.head
    exact ⟨c, w', rfl, by simp [startsValue, hc]⟩

theorem Derives.skipSpace_append (h : Derives d .value w) (s : List UInt8) :
    skipSpace (w ++ s) = w ++ s := by
  obtain ⟨c, w', rfl, hc⟩ := h.head
  exact skipSpace_cons (not_space_of_startsValue hc).1 _

theorem Derives.append_ne_nil (h : Derives d .value w) (s : List UInt8) : w ++ s ≠ [] := by
  obtain ⟨c, w', rfl, hc⟩ := h.head
  exact List.cons_ne_nil _ _

theorem Derives.elements_head (h : Derives d .elements w) (s : List UInt8) :
    (skipSpace (w ++ s)).head? ≠ some 93 := by
  have hvalue : ∀ l w' s', Spaces l → Derives d .value w' →
      (skipSpace (l ++ (w' ++ s'))).head? ≠ some 93 := by
    intro l w' s' hl hw
    rw [Json.skipSpace_append hl, hw.skipSpace_append]
    obtain ⟨c, w'', rfl, hc⟩ := hw.head
    rintro ⟨⟩
    exact (not_space_of_startsValue hc).2.1 rfl
  cases h with
  | lastElement hl h hr =>
    rw [List.append_assoc, List.append_assoc]
    exact hvalue _ _ _ hl h
  | nextElement hl h hr hs =>
    rw [List.append_assoc, List.append_assoc]
    exact hvalue _ _ _ hl h

theorem Derives.members_head (h : Derives d .members w) (s : List UInt8) :
    (skipSpace (w ++ s)).head? ≠ some 125 := by
  cases h with
  | lastMember hl hkey hm hn h hr =>
    rw [List.append_assoc, Json.skipSpace_append hl, List.cons_append, skipSpace_cons rfl]
    rintro ⟨⟩
  | nextMember hl hkey hm hn h hr hs =>
    rw [List.append_assoc, Json.skipSpace_append hl, List.cons_append, skipSpace_cons rfl]
    rintro ⟨⟩

end Libromano.Json
