/- The two parts that `strview_lsplit` and `strview_rsplit` give. The string is an object that
   ends with its null byte, so that a comparison that goes beyond it is seen. -/

import Libromano.Foundation.Occurrences
import Libromano.Strview.Model

set_option autoImplicit false
set_option relaxedAutoImplicit false

namespace Libromano.Strview

open Bytes Foundation

/-- The text before the first separator, and the rest that begins with it. -/
inductive LeftParts (text separator : List UInt8) : List UInt8 → List UInt8 → Prop
  | found (before after : List UInt8) (htext : text = before ++ (separator ++ after))
      (hfirst : ∀ i < before.length, ¬OccursAt separator text i) :
      LeftParts text separator before (separator ++ after)
  | absent (hnone : ∀ i, ¬OccursAt separator text i) : LeftParts text separator text []

/-- The text up to the last separator, which is part of it, and what comes after. -/
inductive RightParts (text separator : List UInt8) : List UInt8 → List UInt8 → Prop
  | found (before after : List UInt8) (htext : text = before ++ (separator ++ after))
      (hlast : ∀ i, OccursAt separator text i → i ≤ before.length) :
      RightParts text separator (before ++ separator) after
  | absent (hnone : ∀ i, ¬OccursAt separator text i) : RightParts text separator [] text

/-- What `strview_lsplit` is for: both views lie in the text and follow each other. -/
def LeftRight (text separator : List UInt8) : Prop :=
  ∃ res rest first second, strviewLsplit (text ++ [0]) separator = .ok (res, rest) ∧
    res.bytes (text ++ [0]) = some first ∧ rest.bytes (text ++ [0]) = some second ∧
    LeftParts text (cString separator) first second ∧ first ++ second = text

/-- What `strview_rsplit` is for: the view that is returned follows the other. -/
def RightRight (text separator : List UInt8) : Prop :=
  ∃ res rest first second, strviewRsplit (text ++ [0]) separator = .ok (res, rest) ∧
    rest.bytes (text ++ [0]) = some first ∧ res.bytes (text ++ [0]) = some second ∧
    RightParts text (cString separator) first second ∧ first ++ second = text

section Comparisons

variable {text separator after : List UInt8} {i : ℕ} {c : UInt8}

private theorem bytesAt_text {n : ℕ} (hfits : i + n ≤ text.length + 1) :
    bytesAt (text ++ [0]) i n = .ok (((text ++ [0]).drop i).take n) := by
  have hlength : (text ++ [0]).length = text.length + 1 := by
    rw [List.length_append, List.length_singleton]
  rw [bytesAt, Block.load, if_pos (hlength ▸ hfits)]

private theorem bytesAt_beyond {n : ℕ} (h : text.length + 1 < i + n) :
    bytesAt (text ++ [0]) i n = .error .outOfBounds := by
  have hlength : (text ++ [0]).length = text.length + 1 := by
    rw [List.length_append, List.length_singleton]
  rw [bytesAt, Block.load, if_neg (by omega)]

private theorem sameBytes_text (after : List UInt8) (hclean : 0 ∉ separator)
    (hpos : 0 < separator.length)
    (hfits : i + separator.length ≤ text.length + 1) :
    ∃ same, sameBytes (text ++ [0]) i (separator ++ 0 :: after) separator.length = .ok same ∧
      (same = true ↔ OccursAt separator text i) := by
  have hread : bytesAt (separator ++ 0 :: after) 0 separator.length = .ok separator :=
    bytesAt_append [] separator (0 :: after) rfl rfl
  refine ⟨((text ++ [0]).drop i).take separator.length == separator, ?_, ?_⟩
  · rw [sameBytes, bytesAt_text hfits, hread]
    rfl
  · rw [beq_iff_eq]
    rcases Nat.lt_or_ge text.length (i + separator.length) with hlong | hshort
    · -- the null byte is compared, and a separator has none
      have hnull : ((text ++ [0]).drop i).take separator.length = text.drop i ++ [0] := by
        rw [List.drop_append_of_le_length (by omega), List.take_of_length_le]
        rw [List.length_append, List.length_drop, List.length_singleton]
        omega
      rw [hnull]
      refine iff_of_false (fun heq => hclean ?_) fun hoccurs => ?_
      · rw [← heq]
        exact List.mem_append_right _ (List.mem_singleton_self 0)
      · have hle := hoccurs.le
        omega
    · rw [occursAt_iff_take hshort, List.drop_append_of_le_length (by omega),
        List.take_append_of_le_length]
      rw [List.length_drop]
      omega

private theorem byteAt_text (hclean : 0 ∉ text) (hi : i < text.length) :
    ∃ c, byteAt (text ++ [0]) i = .ok c ∧ c ≠ 0 := by
  refine ⟨text[i], ?_, ?_⟩
  · rw [byteAt, List.getElem?_append_left hi, List.getElem?_eq_getElem hi]
  · exact fun hzero => hclean (hzero ▸ List.getElem_mem hi)

private theorem byteAt_end : byteAt (text ++ [0]) text.length = .ok 0 :=
  byteAt_at text [] 0 rfl

end Comparisons

section Left

variable {text separator after : List UInt8} {i size fuel : ℕ}

private theorem lsplitLoop_skip (htext : 0 ∉ text) (hclean : 0 ∉ separator)
    (hpos : 0 < separator.length)
    (hsize : size < text.length) (hnot : ¬OccursAt separator text size)
    (hfits : size + separator.length ≤ text.length + 1) :
    lsplitLoop (text ++ [0]) (separator ++ 0 :: after) separator.length (fuel + 1) size =
      lsplitLoop (text ++ [0]) (separator ++ 0 :: after) separator.length fuel (size + 1) := by
  obtain ⟨c, hread, hc⟩ := byteAt_text htext hsize
  obtain ⟨same, hsame, hoccurs⟩ := sameBytes_text after hclean hpos hfits
  rw [lsplitLoop, hread, bind_ok, if_neg hc, hsame, bind_ok, if_neg fun h => hnot (hoccurs.mp h)]

private theorem lsplitLoop_found (htext : 0 ∉ text) (hclean : 0 ∉ separator)
    (hpos : 0 < separator.length)
    (hhere : OccursAt separator text i) (hfirst : ∀ j < i, ¬OccursAt separator text j)
    (hsize : size ≤ i) (hfuel : i - size < fuel) :
    lsplitLoop (text ++ [0]) (separator ++ 0 :: after) separator.length fuel size = .ok i := by
  have hle := hhere.le
  induction fuel generalizing size with
  | zero => omega
  | succ fuel ih =>
    rcases Nat.eq_or_lt_of_le hsize with rfl | hlt
    · have hlt : size < text.length := by omega
      obtain ⟨c, hread, hc⟩ := byteAt_text htext hlt
      obtain ⟨same, hsame, hoccurs⟩ := sameBytes_text after hclean hpos
        (Nat.le_succ_of_le hle)
      rw [lsplitLoop, hread, bind_ok, if_neg hc, hsame, bind_ok, if_pos (hoccurs.mpr hhere)]
    · rw [lsplitLoop_skip htext hclean hpos (by omega) (hfirst size hlt) (by omega)]
      exact ih hlt (by omega)

private theorem lsplitLoop_absent (htext : 0 ∉ text) (hclean : 0 ∉ separator)
    (hpos : 0 < separator.length)
    (hshort : separator.length ≤ 2) (hnone : ∀ i, ¬OccursAt separator text i)
    (hsize : size ≤ text.length) (hfuel : text.length - size < fuel) :
    lsplitLoop (text ++ [0]) (separator ++ 0 :: after) separator.length fuel size =
      .ok text.length := by
  induction fuel generalizing size with
  | zero => omega
  | succ fuel ih =>
    rcases Nat.eq_or_lt_of_le hsize with rfl | hlt
    · rw [lsplitLoop, byteAt_end, bind_ok, if_pos rfl]
    · rw [lsplitLoop_skip htext hclean hpos hlt (hnone size) (by omega)]
      exact ih hlt (by omega)

private theorem lsplitLoop_beyond (htext : 0 ∉ text) (hclean : 0 ∉ separator)
    (hlong : 2 < separator.length) (hnone : ∀ i, ¬OccursAt separator text i)
    (hsize : size < text.length) (hfuel : text.length - size < fuel) :
    lsplitLoop (text ++ [0]) (separator ++ 0 :: after) separator.length fuel size =
      .error .outOfBounds := by
  induction fuel generalizing size with
  | zero => omega
  | succ fuel ih =>
    rcases Nat.lt_or_ge (text.length + 1) (size + separator.length) with hbeyond | hfits
    · obtain ⟨c, hread, hc⟩ := byteAt_text htext hsize
      rw [lsplitLoop, hread, bind_ok, if_neg hc, sameBytes, bytesAt_beyond hbeyond]
      rfl
    · rw [lsplitLoop_skip htext hclean (by omega) hsize (hnone size) hfits]
      exact ih (by omega) (by omega)

private theorem strviewLsplit_ok (htext : 0 ∉ text) (hclean : 0 ∉ separator) (hi : i ≤ text.length)
    (hloop : lsplitLoop (text ++ [0]) (separator ++ 0 :: after) separator.length
      ((text ++ [0]).length + 1) 0 = .ok i) :
    strviewLsplit (text ++ [0]) (separator ++ 0 :: after) =
      .ok (⟨i, some 0⟩, ⟨text.length - i, some i⟩) := by
  have hrest : strlen ((text ++ [0]).drop i) = .ok (text.length - i) := by
    rw [List.drop_append_of_le_length hi, strlen_append fun h => htext (List.mem_of_mem_drop h),
      List.length_drop]
  rw [strviewLsplit, strlen_append hclean, bind_ok, hloop, bind_ok, hrest, bind_ok]

private theorem bytes_front (hi : i ≤ text.length) :
    StringView.bytes ⟨i, some 0⟩ (text ++ [0]) = some (text.take i) := by
  rw [StringView.bytes, Option.map_some, List.drop_zero, List.take_append_of_le_length hi]

private theorem bytes_back (hi : i ≤ text.length) :
    StringView.bytes ⟨text.length - i, some i⟩ (text ++ [0]) = some (text.drop i) := by
  rw [StringView.bytes, Option.map_some, List.drop_append_of_le_length hi]
  exact congrArg some (List.take_left' List.length_drop)

private theorem leftRight_iff (htext : 0 ∉ text) (hseparator : 0 ∈ separator)
    (hne : cString separator ≠ []) :
    LeftRight text separator ↔
      (∃ i, OccursAt (cString separator) text i) ∨ (cString separator).length ≤ 2 ∨ text = [] := by
  obtain ⟨after, hsplit, hclean⟩ := exists_cString hseparator
  rw [LeftRight]
  generalize cString separator = sep at hsplit hclean hne
  subst hsplit
  have hpos := List.length_pos_iff.mpr hne
  have hlength : (text ++ [0]).length = text.length + 1 := by
    rw [List.length_append, List.length_singleton]
  have hviews : ∀ i, i ≤ text.length → LeftParts text sep (text.take i) (text.drop i) →
      lsplitLoop (text ++ [0]) (sep ++ 0 :: after) sep.length ((text ++ [0]).length + 1) 0 = .ok i →
      ∃ res rest first second, strviewLsplit (text ++ [0]) (sep ++ 0 :: after) = .ok (res, rest) ∧
        res.bytes (text ++ [0]) = some first ∧ rest.bytes (text ++ [0]) = some second ∧
        LeftParts text sep first second ∧ first ++ second = text := fun i hi hparts hloop =>
    ⟨_, _, _, _, strviewLsplit_ok htext hclean hi hloop, bytes_front hi, bytes_back hi, hparts,
      List.take_append_drop i text⟩
  obtain ⟨r, hfirst⟩ := exists_first sep text
  cases r with
  | some i =>
    refine iff_of_true ?_ (.inl ⟨i, hfirst.1⟩)
    have hle := hfirst.1.le
    obtain ⟨⟨before, after', htext', rfl⟩, hbefore⟩ := hfirst
    refine hviews before.length (by omega) ?_ ?_
    · have hparts := LeftParts.found before after' htext' hbefore
      rwa [htext', List.take_left, List.drop_left, ← htext']
    · exact lsplitLoop_found htext hclean hpos ⟨before, after', htext', rfl⟩ hbefore
        (Nat.zero_le _) (by omega)
  | none =>
    have habsent : LeftParts text sep (text.take text.length) (text.drop text.length) := by
      rw [List.take_length, List.drop_length]
      exact .absent hfirst
    rcases Nat.lt_or_ge 2 sep.length with hlong | hshort
    · by_cases hempty : text = []
      · refine iff_of_true (hviews text.length le_rfl habsent ?_) (.inr (.inr hempty))
        rw [hempty]
        rfl
      · have hbeyond : lsplitLoop (text ++ [0]) (sep ++ 0 :: after) sep.length
            ((text ++ [0]).length + 1) 0 = .error .outOfBounds :=
          lsplitLoop_beyond htext hclean hlong hfirst (List.length_pos_iff.mpr hempty) (by omega)
        refine iff_of_false ?_ ?_
        · rintro ⟨res, rest, first, second, hrun, -⟩
          rw [strviewLsplit, strlen_append hclean, bind_ok, hbeyond, bind_error] at hrun
          cases hrun
        · rintro (⟨i, hoccurs⟩ | hshort | hnil)
          · exact hfirst i hoccurs
          · omega
          · exact hempty hnil
    · refine iff_of_true (hviews text.length le_rfl habsent ?_) (.inr (.inl hshort))
      exact lsplitLoop_absent htext hclean hpos hshort hfirst (Nat.zero_le _) (by omega)

end Left

section Right

variable {text separator after : List UInt8} {i k size fuel : ℕ}

/-- Going back from the end, the loop stops behind the last separator that ends before the
last byte, or goes on to before the string. -/
private theorem rsplitLoop_spec (hclean : 0 ∉ separator) (hpos : 0 < separator.length)
    (hk : k ≤ text.length) (hfuel : k < fuel) :
    (∃ i, OccursAt separator text i ∧ i + separator.length < k ∧
      (∀ j, OccursAt separator text j → j + separator.length < k → j ≤ i) ∧
      rsplitLoop (text ++ [0]) (separator ++ 0 :: after) separator.length fuel ((k : ℤ) - 1) size =
        .ok (((i + separator.length : ℕ) : ℤ), size + (k - 1 - (i + separator.length)))) ∨
    (∀ j, OccursAt separator text j → k ≤ j + separator.length) ∧
      rsplitLoop (text ++ [0]) (separator ++ 0 :: after) separator.length fuel ((k : ℤ) - 1) size =
        .error .outOfBounds := by
  induction fuel generalizing k size with
  | zero => omega
  | succ fuel ih =>
    rw [rsplitLoop]
    split_ifs with hbefore
    · exact .inr ⟨fun j _ => by omega, rfl⟩
    · obtain ⟨i, rfl⟩ : ∃ i, k = i + separator.length + 1 := ⟨k - 1 - separator.length, by omega⟩
      have hplace : (((i + separator.length + 1 : ℕ) : ℤ) - 1 - separator.length).toNat = i := by
        omega
      have hfits : i + separator.length ≤ text.length + 1 := by omega
      obtain ⟨same, hsame, hoccurs⟩ := sameBytes_text after hclean hpos hfits
      rw [hplace, hsame, bind_ok]
      split_ifs with hfound
      · refine .inl ⟨i, hoccurs.mp hfound, Nat.lt_succ_self _, fun j _ hj => by omega, ?_⟩
        refine congrArg Except.ok (Prod.ext ?_ ?_)
        · simp
        · simp
      · have hnot : ¬OccursAt separator text i := fun hhere => hfound (hoccurs.mpr hhere)
        have hback : ((i + separator.length + 1 : ℕ) : ℤ) - 1 - 1 = ((i + separator.length : ℕ) : ℤ) - 1 := by
          omega
        have hother : ∀ j, OccursAt separator text j → j ≠ i := by
          rintro j hj rfl
          exact hnot hj
        rw [hback]
        have hk' : i + separator.length ≤ text.length := by omega
        rcases ih hk' (Nat.lt_of_succ_lt_succ hfuel) with
          ⟨q, hq, hlt, hlast, hloop⟩ | ⟨hnone, hloop⟩
        · refine .inl ⟨q, hq, by omega, fun j hj hjk => hlast j hj ?_, hloop.trans ?_⟩
          · have hji := hother j hj
            omega
          · have hsteps : size + 1 + (i + separator.length - 1 - (q + separator.length)) =
                size + (i + separator.length + 1 - 1 - (q + separator.length)) := by
              omega
            rw [hsteps]
        · refine .inr ⟨fun j hj => ?_, hloop⟩
          have hji := hother j hj
          have hle := hnone j hj
          omega

private theorem rightRight_iff (hclean' : 0 ∉ text) (hseparator : 0 ∈ separator)
    (hne : cString separator ≠ []) :
    RightRight text separator ↔
      (∃ i, OccursAt (cString separator) text i) ∧ ¬cString separator <:+ text := by
  obtain ⟨after, hsplit, hclean⟩ := exists_cString hseparator
  rw [RightRight]
  generalize cString separator = sep at hsplit hclean hne
  subst hsplit
  have hpos := List.length_pos_iff.mpr hne
  have hsuffix : sep <:+ text ↔ ∃ j, OccursAt sep text j ∧ text.length ≤ j + sep.length := by
    constructor
    · rintro ⟨before, rfl⟩
      refine ⟨before.length, ⟨before, [], by rw [List.append_nil], rfl⟩, ?_⟩
      rw [List.length_append]
    · rintro ⟨j, ⟨before, after', rfl, rfl⟩, hend⟩
      rw [List.length_append, List.length_append] at hend
      have hnil : after' = [] := List.length_eq_zero_iff.mp (by omega)
      exact ⟨before, by rw [hnil, List.append_nil]⟩
  have hrun : strviewRsplit (text ++ [0]) (sep ++ 0 :: after) =
      rsplitLoop (text ++ [0]) (sep ++ 0 :: after) sep.length (text.length + 1)
        ((text.length : ℤ) - 1) 0 >>= fun last =>
          .ok (⟨last.2 + 1, some last.1.toNat⟩, ⟨last.1.toNat, some 0⟩) := by
    rw [strviewRsplit, strlen_append hclean', bind_ok, strlen_append hclean, bind_ok]
  rw [hrun, hsuffix]
  rcases rsplitLoop_spec hclean hpos (le_refl text.length) (Nat.lt_succ_self _) with
    ⟨i, hi, hlt, hlast, hloop⟩ | ⟨hnone, hloop⟩
  · have hstop : i + sep.length ≤ text.length := Nat.le_of_lt hlt
    have hsize : 0 + (text.length - 1 - (i + sep.length)) + 1 = text.length - (i + sep.length) := by
      omega
    rw [hloop, bind_ok]
    simp only [Int.toNat_natCast, hsize]
    constructor
    · rintro ⟨res, rest, first, second, hviews, hfront, hback, hparts, -⟩
      obtain ⟨rfl, rfl⟩ := Prod.mk.inj (Except.ok.inj hviews)
      obtain rfl := Option.some.inj ((bytes_front hstop).symm.trans hfront)
      refine ⟨⟨i, hi⟩, ?_⟩
      rintro ⟨j, hj, hend⟩
      generalize hfirst : text.take (i + sep.length) = first at hparts
      rcases hparts with ⟨before, after', htext, hlast'⟩ | hnone
      · have hlength := congrArg List.length hfirst
        rw [List.length_take, List.length_append] at hlength
        have hle := hlast' j hj
        omega
      · exact hnone i hi
    · rintro ⟨-, hend⟩
      refine ⟨_, _, _, _, rfl, bytes_front hstop, bytes_back hstop, ?_, List.take_append_drop _ text⟩
      obtain ⟨before, after', htext, rfl⟩ := hi
      have hparts := RightParts.found before after' htext fun j hj => hlast j hj (by
        by_contra hnot
        exact hend ⟨j, hj, Nat.le_of_not_lt hnot⟩)
      have hboth : before.length + sep.length = (before ++ sep).length := List.length_append.symm
      rw [hboth]
      rw [← List.append_assoc] at htext
      rwa [htext, List.take_left, List.drop_left, ← htext]
  · rw [hloop, bind_error]
    refine iff_of_false ?_ ?_
    · rintro ⟨res, rest, first, second, hrun, -⟩
      cases hrun
    · rintro ⟨⟨j, hj⟩, hend⟩
      exact hend ⟨j, hj, hnone j hj⟩

end Right

/-- Both do it if the separator occurs, but not at the end; the first does it also if the
comparisons stay in the string. -/
theorem parts_iff {text separator : List UInt8} (htext : 0 ∉ text) (hseparator : 0 ∈ separator)
    (hne : cString separator ≠ []) :
    (LeftRight text separator ∧ RightRight text separator ↔
      (∃ i, OccursAt (cString separator) text i) ∧ ¬cString separator <:+ text) ∧
    (LeftRight text separator ↔
      (∃ i, OccursAt (cString separator) text i) ∨ (cString separator).length ≤ 2 ∨ text = []) := by
  have hleft := leftRight_iff htext hseparator hne
  have hright := rightRight_iff htext hseparator hne
  refine ⟨⟨fun hboth => hright.mp hboth.2, fun hwhen => ⟨hleft.mpr (.inl hwhen.1), ?_⟩⟩, hleft⟩
  exact hright.mpr hwhen

/-- `a b`, at the space. -/
theorem parts_iff_space :
    (LeftRight (ascii "a b") (ascii " " ++ [0]) ∧ RightRight (ascii "a b") (ascii " " ++ [0]) ↔
      (∃ i, OccursAt (cString (ascii " " ++ [0])) (ascii "a b") i) ∧
        ¬cString (ascii " " ++ [0]) <:+ ascii "a b") ∧
    (LeftRight (ascii "a b") (ascii " " ++ [0]) ↔
      (∃ i, OccursAt (cString (ascii " " ++ [0])) (ascii "a b") i) ∨
        (cString (ascii " " ++ [0])).length ≤ 2 ∨ ascii "a b" = []) :=
  parts_iff (by decide) (by decide) (by decide)

/-- Without a separator `strview_rsplit` reads before the string. -/
theorem not_parts : ¬∀ text separator : List UInt8, 0 ∉ text → 0 ∈ separator →
    cString separator ≠ [] → LeftRight text separator ∧ RightRight text separator := by
  intro h
  obtain ⟨-, res, rest, first, second, hrun, -⟩ := h [97] [44, 0] (by decide) (by decide) (by decide)
  have hbefore : strviewRsplit ([97] ++ [0]) [44, 0] = .error .outOfBounds := by decide
  rw [hbefore] at hrun
  cases hrun

end Libromano.Strview
