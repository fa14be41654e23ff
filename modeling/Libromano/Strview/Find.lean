/- The two searches and the test for a beginning. A size of zero is taken for one that is to be
   measured, and an `int` is made of what is measured. -/

import Libromano.StringAlgo
import Libromano.Strview.Model

set_option autoImplicit false
set_option relaxedAutoImplicit false

namespace Libromano.Strview

open Bytes Foundation

/-- The view lies in its object. -/
def StringView.Valid (s : StringView) (object : List UInt8) : Prop :=
  match s.data with
  | some data => data + s.size ≤ object.length
  | none => s.size = 0

def offsetOf : Option ℕ → ℤ
  | some i => i
  | none => -1

section Find

variable {object text view substr : List UInt8} {s : StringView} {data n : ℕ} {r : Option ℕ}

private theorem toSize_of_neg {k : ℤ} (h : k < 0) (hmin : -2 ^ 31 - 1 ≤ k) : 2 ^ 31 < toSize k := by
  rw [toSize]
  omega

private theorem toInt_of_lt (h : n % 2 ^ 32 < 2 ^ 31) : toInt n = (n % 2 ^ 32 : ℕ) := by
  have hhalf : ((n : ℤ) % (2 ^ 32 : ℕ)) < ((2 ^ 32 : ℕ) + 1) / 2 := by
    push_cast
    omega
  have hmod : toInt n = (n : ℤ) % (2 ^ 32 : ℕ) := Int.bmod_eq_emod_of_lt hhalf
  exact hmod.trans (Int.natCast_mod n (2 ^ 32)).symm

private theorem toInt_of_le (h : 2 ^ 31 ≤ n % 2 ^ 32) : toInt n < 0 ∧ -2 ^ 31 ≤ toInt n := by
  have hhalf : ((2 ^ 32 : ℕ) + 1) / 2 ≤ ((n : ℤ) % (2 ^ 32 : ℕ)) := by
    push_cast
    omega
  have hmod : toInt n = (n : ℤ) % (2 ^ 32 : ℕ) - (2 ^ 32 : ℕ) := Int.bmod_neg _ _ hhalf
  push_cast at hmod
  omega

private theorem cString_length_le : (cString substr).length ≤ substr.length :=
  (List.takeWhile_sublist _).length_le

private theorem take_cString (h : n ≤ (cString substr).length) :
    (cString substr).take n = substr.take n := by
  have hprefix : cString substr <+: substr := List.takeWhile_prefix _
  obtain ⟨after, hsubstr⟩ := hprefix
  conv_rhs => rw [← hsubstr]
  exact (List.take_append_of_le_length h).symm

private theorem sameBytes_view {offset : ℕ} (hview : (object.drop data).take s.size = view)
    (hvalid : data + s.size ≤ object.length) (hn : n ≤ substr.length) (hfits : offset + n ≤ s.size) :
    ∃ same, sameBytes object (data + offset) substr n = .ok same ∧
      (same = true ↔ OccursAt (substr.take n) view offset) := by
  have hlength : (substr.take n).length = n := by
    rw [List.length_take, Nat.min_eq_left hn]
  have hread : bytesAt object (data + offset) n = .ok ((view.drop offset).take n) := by
    rw [bytesAt, Block.load, if_pos (by omega), ← hview, List.drop_take, List.take_take,
      Nat.min_eq_left (by omega), List.drop_drop]
  have hread' : bytesAt substr 0 n = .ok (substr.take n) := by
    rw [bytesAt, Block.load, if_pos (by omega), List.drop_zero]
  have hbounds : offset + (substr.take n).length ≤ view.length := by
    rw [hlength, ← hview, List.length_take, List.length_drop]
    omega
  refine ⟨(view.drop offset).take n == substr.take n, ?_, ?_⟩
  · rw [sameBytes, hread, hread']
    rfl
  · rw [occursAt_iff_take hbounds, hlength]
    exact beq_iff_eq

private theorem findLoop_spec {offset fuel : ℕ} (hdata : s.data = some data)
    (hview : (object.drop data).take s.size = view) (hvalid : data + s.size ≤ object.length)
    (hsize : s.size < 2 ^ 31) (hn : n ≤ substr.length) (hpos : 0 < n)
    (hnone : ∀ i < offset, ¬OccursAt (substr.take n) view i) (hoffset : offset + n ≤ s.size + 1)
    (hfuel : s.size - offset < fuel) :
    ∃ r, findLoop object s substr n fuel offset = .ok (offsetOf r) ∧ First (substr.take n) view r := by
  induction fuel generalizing offset with
  | zero => omega
  | succ fuel ih =>
    have hbound : ((n : ℤ) - 1 + offset) = ((n - 1 + offset : ℕ) : ℤ) := by omega
    have hcompare : toSize ((n : ℤ) - 1 + offset) = n - 1 + offset := by
      rw [hbound, toSize_natCast (by omega)]
    rw [findLoop, hcompare, hdata]
    split_ifs with hlt
    · have hfits : offset + n ≤ s.size := by omega
      obtain ⟨same, hread, hsame⟩ := sameBytes_view hview hvalid hn hfits
      rw [toSize_natCast (by omega), Int.toNat_natCast]
      simp only [hread, bind_ok]
      split_ifs with hfound
      · exact ⟨some offset, rfl, hsame.mp hfound, hnone⟩
      · have hnone' : ∀ i < offset + 1, ¬OccursAt (substr.take n) view i := by
          intro i hi
          rcases Nat.eq_or_lt_of_le (Nat.le_of_lt_succ hi) with rfl | hi
          · exact fun hhere => hfound (hsame.mpr hhere)
          · exact hnone i hi
        rw [show (offset : ℤ) + 1 = (offset + 1 : ℕ) from rfl]
        exact ih hnone' (by omega) (by omega)
    · refine ⟨none, rfl, fun i hoccurs => ?_⟩
      have hle := hoccurs.le
      rw [List.length_take, Nat.min_eq_left hn, ← hview, List.length_take] at hle
      exact hnone i (by omega) hoccurs

private theorem strviewFind_measured (hnull : 0 ∈ substr) : strviewFind object s substr 0 =
    if s.size < toSize (toInt (cString substr).length) then .ok (-1)
    else findLoop object s substr (toInt (cString substr).length) (s.size + 1) 0 := by
  rw [strviewFind, if_pos Int.zero_lt_one, strlen, if_pos hnull, bind_ok, bind_ok]

private theorem strviewFind_zero (hnull : 0 ∈ substr) (hsize : s.size < 2 ^ 31)
    (hcut : (cString substr).length % 2 ^ 32 = 0) : strviewFind object s substr 0 = .ok (-1) := by
  have hint : toInt (cString substr).length = 0 := by
    rw [toInt_of_lt (by omega), hcut]
    rfl
  rw [strviewFind_measured hnull, hint]
  have hwrapped : toSize (0 - 1 + 0) = 2 ^ 64 - 1 := by decide
  rw [if_neg (by simp [toSize]), findLoop, hwrapped, if_neg (by omega)]

private theorem lt_toSize_toInt {m : ℕ} (hsize : s.size < 2 ^ 31) (hlong : s.size < m % 2 ^ 32) :
    s.size < toSize (toInt m) := by
  rcases Nat.lt_or_ge (m % 2 ^ 32) (2 ^ 31) with hsmall | hlarge
  · rw [toInt_of_lt hsmall, toSize_natCast (by omega)]
    exact hlong
  · obtain ⟨hneg, hmin⟩ := toInt_of_le hlarge
    exact hsize.trans (toSize_of_neg hneg (by omega))

private theorem strviewFind_first (hview : (object.drop data).take s.size = view)
    (hdata : s.data = some data) (hvalid : data + s.size ≤ object.length) (hsize : s.size < 2 ^ 31)
    (hnull : 0 ∈ substr) (hn : n = (cString substr).length % 2 ^ 32) (hpos : 0 < n) :
    ∃ r, strviewFind object s substr 0 = .ok (offsetOf r) ∧
      First ((cString substr).take n) view r := by
  have hle : n ≤ (cString substr).length := by
    rw [hn]
    exact Nat.mod_le _ _
  rw [strviewFind_measured hnull]
  rcases Nat.lt_or_ge s.size n with hlong | hfits
  · have hnone : First ((cString substr).take n) view none := by
      refine first_none_of_lt ?_
      rw [← hview, List.length_take, List.length_take]
      omega
    refine ⟨none, ?_, hnone⟩
    rw [if_pos (lt_toSize_toInt hsize (hn ▸ hlong))]
    rfl
  · have hint : toInt (cString substr).length = n := by
      rw [toInt_of_lt (by rw [← hn]; omega), ← hn]
    have hloop : ∃ r, findLoop object s substr n (s.size + 1) (0 : ℕ) = .ok (offsetOf r) ∧
        First (substr.take n) view r :=
      findLoop_spec hdata hview hvalid hsize (hle.trans cString_length_le) hpos
        (fun i hi => absurd hi (Nat.not_lt_zero i)) (by omega) (by omega)
    rw [hint, toSize_natCast (by omega), if_neg (Nat.not_lt.mpr hfits), take_cString hle]
    exact hloop

private theorem strviewStartswith_zero (hview : (object.drop data).take s.size = view)
    (hdata : s.data = some data) (hvalid : data + s.size ≤ object.length) (hnull : 0 ∈ substr) :
    ∃ b, strviewStartswith object s substr 0 = .ok b ∧
      (b = true ↔ OccursAt (cString substr) view 0) := by
  rw [strviewStartswith, if_pos Int.zero_lt_one, strlen, if_pos hnull, bind_ok, hdata]
  split_ifs with hlong
  · refine ⟨false, rfl, iff_of_false Bool.false_ne_true fun hoccurs => ?_⟩
    have hbound := hoccurs.le
    rw [← hview, List.length_take] at hbound
    omega
  · have hfits : 0 + (cString substr).length ≤ s.size := by omega
    obtain ⟨same, hread, hsame⟩ := sameBytes_view hview hvalid cString_length_le hfits
    rw [← take_cString le_rfl, List.take_length] at hsame
    exact ⟨same, hread, hsame⟩

private theorem offsetOf_inj {r' : Option ℕ} (h : offsetOf r = offsetOf r') : r = r' := by
  cases r with
  | none =>
    cases r' with
    | none => rfl
    | some j => exact absurd h (by simp only [offsetOf]; omega)
  | some i =>
    cases r' with
    | none => exact absurd h (by simp only [offsetOf]; omega)
    | some j => exact congrArg some (Int.ofNat.inj h)

private theorem offsetOf_eq_zero {needle : List UInt8} (h : First needle view r) :
    offsetOf r = 0 ↔ OccursAt needle view 0 := by
  constructor
  · intro hzero
    obtain rfl : r = some 0 := offsetOf_inj hzero
    exact h.1
  · intro hoccurs
    have hstart : First needle view (some 0) := ⟨hoccurs, fun j hj => absurd hj (Nat.not_lt_zero j)⟩
    rw [h.unique hstart]
    rfl

end Find

/-- The two searches find the same, and the test for a beginning agrees with them. -/
def Agree (object : List UInt8) (s : StringView) (substr : List UInt8) : Prop :=
  ∃ r, StringAlgo.strstrn (s.bytes object) s.size (some (cString substr)) (cString substr).length =
      .ok r ∧ strviewFind object s substr 0 = .ok (offsetOf r) ∧
    ∃ b, strviewStartswith object s substr 0 = .ok b ∧
      (b = true ↔ strviewFind object s substr 0 = .ok 0)

/-- What is looked for is not empty, and is not cut to 32 bits, or what is left of it is
not there. -/
def Searchable (object : List UInt8) (s : StringView) (text : List UInt8) : Prop :=
  text ≠ [] ∧ (text.length < 2 ^ 32 ∨ text.length % 2 ^ 32 = 0 ∨
    ∀ i, ¬OccursAt (text.take (text.length % 2 ^ 32)) ((s.bytes object).getD []) i)

section Agree

variable {object substr : List UInt8} {s : StringView}

private theorem not_occursAt_nil {needle : List UInt8} {i : ℕ} (h : needle ≠ []) :
    ¬OccursAt needle [] i := by
  intro hoccurs
  have hle := hoccurs.le
  have hpos := List.length_pos_iff.mpr h
  rw [List.length_nil] at hle
  omega

private theorem agree_null (hdata : s.data = none) (hsize : s.size = 0) (hnull : 0 ∈ substr) :
    Agree object s substr ↔ Searchable object s (cString substr) := by
  have hbytes : s.bytes object = none := by
    rw [StringView.bytes, hdata]
    rfl
  have hfind : strviewFind object s substr 0 = .ok (-1) := by
    rcases Nat.eq_zero_or_pos ((cString substr).length % 2 ^ 32) with hcut | hpos
    · exact strviewFind_zero hnull (by omega) hcut
    · rw [strviewFind_measured hnull, if_pos (lt_toSize_toInt (by omega) (by omega))]
  have hstart : strviewStartswith object s substr 0 =
      if 0 < (cString substr).length then .ok false else .error .nullPointer := by
    rw [strviewStartswith, if_pos Int.zero_lt_one, strlen, if_pos hnull, bind_ok, hsize, hdata]
  rw [Agree, Searchable, hbytes, hfind, hstart]
  constructor
  · rintro ⟨r, -, -, b, hb, -⟩
    split_ifs at hb with hpos
    refine ⟨List.length_pos_iff.mp hpos, .inr ?_⟩
    rcases Nat.eq_zero_or_pos ((cString substr).length % 2 ^ 32) with hcut | hcut
    · exact .inl hcut
    · refine .inr fun i => not_occursAt_nil (List.length_pos_iff.mp ?_)
      rw [List.length_take]
      omega
  · rintro ⟨hne, -⟩
    refine ⟨none, rfl, rfl, false, if_pos (List.length_pos_iff.mpr hne), ?_⟩
    exact iff_of_false Bool.false_ne_true fun h => absurd (Except.ok.inj h) (by decide)

private theorem agree_some {data : ℕ} (hdata : s.data = some data)
    (hvalid : data + s.size ≤ object.length)
    (hsize : s.size < 2 ^ 31) (hnull : 0 ∈ substr) :
    Agree object s substr ↔ Searchable object s (cString substr) := by
  obtain ⟨view, hview⟩ : ∃ view, (object.drop data).take s.size = view := ⟨_, rfl⟩
  have hbytes : s.bytes object = some view := by
    rw [StringView.bytes, hdata, Option.map_some, hview]
  have hlength : view.length = s.size := by
    rw [← hview, List.length_take, List.length_drop]
    omega
  obtain ⟨r, hrun, hfirst⟩ := StringAlgo.strstrn_finds view (cString substr)
  obtain ⟨b, hstart, hb⟩ := strviewStartswith_zero hview hdata hvalid hnull
  rw [hlength] at hrun
  rw [Agree, Searchable, hbytes, hrun, hstart, Option.getD_some]
  rcases Nat.eq_zero_or_pos ((cString substr).length % 2 ^ 32) with hcut | hpos
  · -- nothing is left, and -1 is returned
    rw [strviewFind_zero hnull hsize hcut]
    constructor
    · rintro ⟨r', hr', hoffset, -⟩
      obtain rfl := Except.ok.inj hr'
      obtain rfl : none = r := offsetOf_inj (Except.ok.inj hoffset)
      refine ⟨fun hempty => ?_, .inr (.inl hcut)⟩
      rw [hempty] at hfirst
      exact hfirst 0 first_nil.1
    · rintro ⟨hne, -⟩
      have hlong : view.length < (cString substr).length := by
        have hpos := List.length_pos_iff.mpr hne
        omega
      have hnone := first_none_of_lt hlong
      obtain rfl := hfirst.unique hnone
      refine ⟨none, rfl, rfl, b, rfl, iff_of_false ?_ ?_⟩
      · exact fun h => hnone 0 (hb.mp h)
      · exact fun h => absurd (Except.ok.inj h) (by decide)
  · obtain ⟨r', hfind, hfirst'⟩ := strviewFind_first hview hdata hvalid hsize hnull rfl hpos
    have hne : cString substr ≠ [] := by
      intro hempty
      rw [hempty] at hpos
      exact absurd hpos (by decide)
    have hstarts : r = r' → (b = true ↔ Except.ok (ε := Fault) (offsetOf r') = .ok 0) := by
      rintro rfl
      rw [hb, ← offsetOf_eq_zero hfirst]
      exact ⟨congrArg Except.ok, Except.ok.inj⟩
    have hagree : r = r' ↔ (cString substr).length < 2 ^ 32 ∨
        (cString substr).length % 2 ^ 32 = 0 ∨
        ∀ i, ¬OccursAt ((cString substr).take ((cString substr).length % 2 ^ 32)) view i := by
      by_cases hwhole : (cString substr).length < 2 ^ 32
      · rw [Nat.mod_eq_of_lt hwhole, List.take_length] at hfirst'
        exact iff_of_true (hfirst.unique hfirst') (.inl hwhole)
      · have hnone : First (cString substr) view none := first_none_of_lt (by omega)
        obtain rfl := hfirst.unique hnone
        rw [or_iff_right hwhole, or_iff_right (by omega)]
        constructor
        · rintro rfl
          exact hfirst'
        · exact fun hgone => First.unique hgone hfirst'
    rw [hfind, and_iff_right hne, ← hagree]
    constructor
    · rintro ⟨r'', hr'', hoffset, -⟩
      obtain rfl := Except.ok.inj hr''
      exact (offsetOf_inj (Except.ok.inj hoffset)).symm
    · rintro rfl
      exact ⟨r, rfl, rfl, b, rfl, hstarts rfl⟩

/-- The searches and the test agree on every text that is searchable, and on no other. -/
theorem searches_agree_iff (hvalid : s.Valid object) (hsize : s.size < 2 ^ 31)
    (hnull : 0 ∈ substr) :
    Agree object s substr ↔ Searchable object s (cString substr) := by
  rw [StringView.Valid] at hvalid
  cases hdata : s.data with
  | none =>
    rw [hdata] at hvalid
    exact agree_null hdata hvalid hnull
  | some data =>
    rw [hdata] at hvalid
    exact agree_some hdata hvalid hsize hnull

end Agree

/-- `b` is looked for in `ab`. -/
theorem searches_agree_iff_letter : Agree (ascii "ab") ⟨2, some 0⟩ (ascii "b" ++ [0]) ↔
    Searchable (ascii "ab") ⟨2, some 0⟩ (cString (ascii "b" ++ [0])) :=
  searches_agree_iff (Nat.le_refl 2) (by decide) (by decide)

/-- The empty text is at the place 0 of any text, but -1 is returned. -/
theorem not_agree : ¬∀ (object : List UInt8) (s : StringView) (substr : List UInt8),
    s.Valid object → s.size < 2 ^ 31 → 0 ∈ substr → Agree object s substr := by
  intro h
  obtain ⟨r, hrun, hfind, -⟩ := h [97] ⟨1, some 0⟩ [0] (Nat.le_refl 1) (by decide) (by decide)
  obtain rfl : some 0 = r := Except.ok.inj hrun
  have hminus : strviewFind [97] ⟨1, some 0⟩ [0] 0 = .ok (-1) := by decide
  exact absurd (Except.ok.inj (hminus.symm.trans hfind)) (by decide)

end Libromano.Strview
