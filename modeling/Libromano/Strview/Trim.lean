/- What `strview_trim` cuts off. The loop at the end begins on the null byte, and takes two bytes
   off whatever they are. -/

import Libromano.Strview.Model
import Mathlib.Data.List.Induction
import Mathlib.Data.List.TakeWhile

set_option autoImplicit false
set_option relaxedAutoImplicit false

namespace Libromano.Strview

open Bytes

def EndsInk (text : List UInt8) : Prop := ∃ before c, text = before ++ [c] ∧ isspace c = false

/-- The view is what is left of a text without the spaces around it. -/
inductive Trimmed (text : List UInt8) : StringView → Prop
  | blank (hblank : ∀ c ∈ text, isspace c = true) : Trimmed text strviewNull
  | core (lead core trail : List UInt8) (hsplit : text = lead ++ (core ++ trail))
      (hlead : ∀ c ∈ lead, isspace c = true) (hhead : ∃ c ∈ core.head?, isspace c = false)
      (hlast : EndsInk core) (htrail : ∀ c ∈ trail, isspace c = true) :
      Trimmed text ⟨core.length, some lead.length⟩

section Texts

variable {text lead core trail text' trail' : List UInt8} {c : UInt8}

private theorem EndsInk.dropWhile_reverse (hends : EndsInk text)
    (htrail : ∀ c ∈ trail, isspace c = true) :
    (text ++ trail).reverse.dropWhile isspace = text.reverse := by
  obtain ⟨before, c, rfl, hc⟩ := hends
  have hspaces : ∀ b ∈ trail.reverse, isspace b = true := fun b hb => htrail b (List.mem_reverse.mp hb)
  rw [List.reverse_append, List.dropWhile_append_of_pos hspaces, List.reverse_append,
    List.reverse_singleton, List.singleton_append, List.dropWhile_cons_of_neg (by simp [hc])]

private theorem EndsInk.unique (hends : EndsInk text) (hends' : EndsInk text')
    (htrail : ∀ c ∈ trail, isspace c = true) (htrail' : ∀ c ∈ trail', isspace c = true)
    (h : text ++ trail = text' ++ trail') : text = text' := by
  apply List.reverse_injective
  rw [← hends.dropWhile_reverse htrail, h, hends'.dropWhile_reverse htrail']

private theorem exists_core (h : ¬∀ c ∈ text, isspace c = true) :
    ∃ lead core trail, text = lead ++ (core ++ trail) ∧ (∀ c ∈ lead, isspace c = true) ∧
      (∃ c ∈ core.head?, isspace c = false) ∧ EndsInk core ∧ ∀ c ∈ trail, isspace c = true := by
  have hfront : text.takeWhile isspace ++ text.dropWhile isspace = text :=
    List.takeWhile_append_dropWhile
  obtain ⟨c, rest, hbody⟩ : ∃ c rest, text.dropWhile isspace = c :: rest := by
    refine List.exists_cons_of_ne_nil fun hnil => h ?_
    rw [hnil, List.append_nil] at hfront
    rw [← hfront]
    exact fun b hb => List.mem_takeWhile_imp hb
  have hc : isspace c = false := by
    have hhead := List.head?_dropWhile_not isspace text
    rwa [hbody] at hhead
  have hback : (rest.reverse.takeWhile isspace ++ rest.reverse.dropWhile isspace).reverse = rest := by
    rw [List.takeWhile_append_dropWhile, List.reverse_reverse]
  rw [List.reverse_append] at hback
  refine ⟨text.takeWhile isspace, c :: (rest.reverse.dropWhile isspace).reverse,
    (rest.reverse.takeWhile isspace).reverse, ?_, fun b hb => List.mem_takeWhile_imp hb,
    ⟨c, rfl, hc⟩, ?_, fun b hb => List.mem_takeWhile_imp (List.mem_reverse.mp hb)⟩
  · rw [List.cons_append, hback, ← hbody, hfront]
  · rcases hrest : rest.reverse.dropWhile isspace with _ | ⟨b, front⟩
    · exact ⟨[], c, rfl, hc⟩
    · refine ⟨c :: front.reverse, b, by simp, ?_⟩
      have hhead := List.head?_dropWhile_not isspace rest.reverse
      rwa [hrest] at hhead

end Texts

section Loops

variable {data lead text after core trail : List UInt8} {c : UInt8} {fuel place : ℕ}

private theorem isspace_zero : isspace 0 = false := by decide

private theorem skipSpaces_eq (before after : List UInt8) (hlead : ∀ b ∈ lead, isspace b = true)
    (hc : isspace c = false) (hplace : before.length = place) (hfuel : lead.length < fuel) :
    skipSpaces (before ++ (lead ++ c :: after)) fuel place = .ok (place + lead.length) := by
  induction lead generalizing before place fuel with
  | nil =>
    obtain ⟨fuel, rfl⟩ : ∃ n, fuel = n + 1 := ⟨fuel - 1, by simp at hfuel; omega⟩
    rw [List.nil_append, skipSpaces, byteAt_at before after c hplace.symm, bind_ok, hc,
      if_neg Bool.false_ne_true]
    rfl
  | cons b lead ih =>
    obtain ⟨fuel, rfl⟩ : ∃ n, fuel = n + 1 := ⟨fuel - 1, by simp at hfuel; omega⟩
    obtain ⟨hb, hlead⟩ := List.forall_mem_cons.mp hlead
    have hplace' : (before ++ [b]).length = place + 1 := by
      rw [List.length_append, hplace, List.length_singleton]
    have hrest := ih (before ++ [b]) hlead hplace' (Nat.lt_of_succ_lt_succ hfuel)
    rw [List.append_assoc, List.singleton_append] at hrest
    rw [List.cons_append, skipSpaces, byteAt_at before _ b hplace.symm, bind_ok, hb, if_pos rfl,
      hrest, List.length_cons]
    exact congrArg Except.ok (by omega)

private theorem trimLoop_eq (before after : List UInt8) (hplace : before.length = place)
    (hclean : 0 ∉ text)
    (hne : text ≠ []) : trimLoop (before ++ (text ++ 0 :: after)) place (fuel + 1) text.length =
      .ok (if text.length = 1 then 2 ^ 64 - 1 else text.length - 2) := by
  obtain ⟨front, b, rfl⟩ := (List.eq_nil_or_concat' text).resolve_left hne
  have hlength : (front ++ [b]).length = front.length + 1 := by
    rw [List.length_append, List.length_singleton]
  have hend : byteAt (before ++ (front ++ [b] ++ 0 :: after)) (place + (front.length + 1)) = .ok 0 := by
    rw [← List.append_assoc]
    refine byteAt_at (before ++ (front ++ [b])) after 0 ?_
    rw [List.length_append, hplace, hlength]
  have hlast : byteAt (before ++ (front ++ [b] ++ 0 :: after)) (place + front.length) = .ok b := by
    rw [List.append_assoc, ← List.append_assoc]
    refine byteAt_at (before ++ front) (0 :: after) b ?_
    rw [List.length_append, hplace]
  have hb : b ≠ 0 := by
    rintro rfl
    exact hclean (by simp)
  rw [hlength, trimLoop, if_pos (Nat.succ_pos _), hend]
  simp only [bind_ok, isspace_zero, Bool.false_eq_true, if_false, Nat.add_sub_cancel, hlast]
  rw [if_neg hb]
  refine congrArg Except.ok ?_
  split_ifs <;> omega

end Loops

section Trim

variable {data lead core trail : List UInt8}

private theorem strviewTrim_blank (hnull : 0 ∈ data)
    (hblank : ∀ c ∈ cString data, isspace c = true) :
    strviewTrim data = .ok strviewNull := by
  obtain ⟨after, hdata, -⟩ := exists_cString hnull
  generalize cString data = text at hdata hblank
  subst hdata
  have hstart : ([] : List UInt8).length = 0 := rfl
  have hfuel : text.length < (text ++ 0 :: after).length + 1 := by
    rw [List.length_append]
    omega
  have hskip := skipSpaces_eq [] after hblank isspace_zero hstart hfuel
  rw [List.nil_append, Nat.zero_add] at hskip
  rw [strviewTrim, hskip, bind_ok, byteAt_at text after 0 rfl, bind_ok, if_pos rfl]

private theorem strviewTrim_core (hnull : 0 ∈ data)
    (hsplit : cString data = lead ++ (core ++ trail))
    (hlead : ∀ c ∈ lead, isspace c = true) (hhead : ∃ c ∈ core.head?, isspace c = false) :
    strviewTrim data = .ok ⟨if (core ++ trail).length = 1 then 2 ^ 64 - 1
      else (core ++ trail).length - 2, some lead.length⟩ := by
  obtain ⟨after, hdata, hclean⟩ := exists_cString hnull
  obtain ⟨c, hfirst, hc⟩ := hhead
  obtain ⟨rest, rfl⟩ := List.head?_eq_some_iff.mp hfirst
  rw [hsplit] at hdata hclean
  subst hdata
  have hbody : 0 ∉ c :: rest ++ trail := fun hmem => hclean (List.mem_append_right _ hmem)
  have hc₀ : c ≠ 0 := by
    rintro rfl
    exact hbody List.mem_cons_self
  have hstart : ([] : List UInt8).length = 0 := rfl
  have hfuel : lead.length < (lead ++ (c :: rest ++ trail) ++ 0 :: after).length + 1 := by
    simp only [List.length_append]
    omega
  have hskip := skipSpaces_eq [] (rest ++ trail ++ 0 :: after) hlead hc hstart hfuel
  have hloop : trimLoop (lead ++ (c :: rest ++ trail ++ 0 :: after)) lead.length
      ((lead ++ (c :: rest ++ trail) ++ 0 :: after).length + 1) (c :: rest ++ trail).length =
        .ok (if (c :: rest ++ trail).length = 1 then 2 ^ 64 - 1 else (c :: rest ++ trail).length - 2) :=
    trimLoop_eq lead after rfl hbody (by simp)
  have hwhole : lead ++ (c :: rest ++ trail) ++ 0 :: after =
      lead ++ c :: (rest ++ trail ++ 0 :: after) := by simp
  have hgrouped : lead ++ (c :: rest ++ trail) ++ 0 :: after =
      lead ++ (c :: rest ++ trail ++ 0 :: after) := List.append_assoc ..
  rw [List.nil_append, Nat.zero_add, ← hwhole] at hskip
  rw [← hgrouped] at hloop
  have hread : byteAt (lead ++ (c :: rest ++ trail) ++ 0 :: after) lead.length = .ok c := by
    rw [hwhole]
    exact byteAt_at lead _ c rfl
  have hdrop : (lead ++ (c :: rest ++ trail) ++ 0 :: after).drop lead.length =
      c :: rest ++ trail ++ 0 :: after := by
    rw [hgrouped, List.drop_left]
  rw [strviewTrim, hskip, bind_ok, hread, bind_ok, if_neg hc₀, hdrop, strlen_append hbody, bind_ok,
    hloop]
  rfl

/-- The text ends in two spaces and no more. -/
def TwoSpaces (text : List UInt8) : Prop :=
  ∃ before c d e, text = before ++ [c, d, e] ∧ isspace c = false ∧ isspace d = true ∧ isspace e = true

private theorem twoSpaces_iff (hsplit : cString data = lead ++ (core ++ trail))
    (hlast : EndsInk core)
    (htrail : ∀ c ∈ trail, isspace c = true) : TwoSpaces (cString data) ↔ trail.length = 2 := by
  have hends : EndsInk (lead ++ core) := by
    obtain ⟨before, c, rfl, hc⟩ := hlast
    exact ⟨lead ++ before, c, (List.append_assoc ..).symm, hc⟩
  rw [hsplit, ← List.append_assoc]
  constructor
  · rintro ⟨before, c, d, e, htext, hc, hd, he⟩
    have hsame : lead ++ core = before ++ [c] := by
      have hspaces : ∀ b ∈ [d, e], isspace b = true :=
        List.forall_mem_cons.mpr ⟨hd, List.forall_mem_singleton.mpr he⟩
      exact hends.unique ⟨before, c, rfl, hc⟩ htrail hspaces (by simpa using htext)
    have hlength := congrArg List.length htext
    have hlength' := congrArg List.length hsame
    simp only [List.length_append, List.length_cons, List.length_nil] at hlength hlength'
    omega
  · intro htwo
    obtain ⟨d, e, rfl⟩ := List.length_eq_two.mp htwo
    obtain ⟨before, c, hbefore, hc⟩ := hends
    refine ⟨before, c, d, e, ?_, hc, htrail d (by simp), htrail e (by simp)⟩
    rw [hbefore, List.append_assoc]
    rfl

/-- The trimmed text is returned for texts of spaces and those that end in two spaces. -/
theorem strviewTrim_iff (hnull : 0 ∈ data) :
    (∃ view, strviewTrim data = .ok view ∧ Trimmed (cString data) view) ↔
      (∀ c ∈ cString data, isspace c = true) ∨ TwoSpaces (cString data) := by
  by_cases hblank : ∀ c ∈ cString data, isspace c = true
  · exact iff_of_true ⟨_, strviewTrim_blank hnull hblank, .blank hblank⟩ (.inl hblank)
  · rw [or_iff_right hblank]
    obtain ⟨lead, core, trail, hsplit, hlead, hhead, hlast, htrail⟩ := exists_core hblank
    rw [twoSpaces_iff hsplit hlast htrail, strviewTrim_core hnull hsplit hlead hhead]
    have hpos : 0 < core.length := by
      obtain ⟨before, c, rfl, -⟩ := hlast
      simp
    have hlength : (core ++ trail).length = core.length + trail.length := List.length_append
    constructor
    · rintro ⟨view, hview, htrimmed⟩
      rcases htrimmed with hblank' | ⟨lead', core', trail', hsplit', -, -, hlast', htrail'⟩
      · exact absurd hblank' hblank
      · obtain ⟨hsize, hdata⟩ := StringView.mk.inj (Except.ok.inj hview)
        have hboth := hsplit.symm.trans hsplit'
        obtain ⟨-, hrest⟩ := List.append_inj hboth (Option.some.inj hdata)
        have hcore := hlast.unique hlast' htrail htrail' hrest
        rw [← hcore] at hsize
        split_ifs at hsize with hone <;> omega
    · intro htwo
      have hview : (if (core ++ trail).length = 1 then 2 ^ 64 - 1 else (core ++ trail).length - 2) =
          core.length := by
        rw [if_neg (by omega)]
        omega
      rw [hview]
      exact ⟨_, rfl, .core lead core trail hsplit hlead hhead hlast htrail⟩

end Trim

/-- `a`, with two spaces behind it. -/
theorem strviewTrim_iff_two :
    (∃ view, strviewTrim (ascii " a  " ++ [0]) = .ok view ∧
      Trimmed (cString (ascii " a  " ++ [0])) view) ↔
      (∀ c ∈ cString (ascii " a  " ++ [0]), isspace c = true) ∨
        TwoSpaces (cString (ascii " a  " ++ [0])) :=
  strviewTrim_iff (by decide)

/-- Two letters are trimmed to nothing. -/
theorem strviewTrim_not_trimmed : ¬∀ data : List UInt8, 0 ∈ data →
    ∃ view, strviewTrim data = .ok view ∧ Trimmed (cString data) view := by
  intro h
  obtain ⟨view, hview, htrimmed⟩ := h [97, 98, 0] (by decide)
  have hempty : strviewTrim [97, 98, 0] = .ok ⟨0, some 0⟩ := rfl
  obtain rfl := Except.ok.inj (hempty.symm.trans hview)
  generalize hzero : (⟨0, some 0⟩ : StringView) = view at htrimmed
  rcases htrimmed with hblank | ⟨lead, core, trail, -, -, ⟨c, hc, -⟩, -, -⟩
  · exact absurd (hblank 97 (by decide)) (by decide)
  · obtain ⟨hsize, -⟩ := StringView.mk.inj hzero
    obtain rfl := List.length_eq_zero_iff.mp hsize.symm
    exact absurd hc (by simp)

end Libromano.Strview
