/- The views that `strview_split` gives one after the other. A view ends where the next call
   begins, and a separator that stands there is skipped, also on the first call. -/

import Libromano.Strview.Model
import Mathlib.Data.List.TakeWhile

set_option autoImplicit false
set_option relaxedAutoImplicit false

namespace Libromano.Strview

open Bytes

/-- The views of the calls until one returns 0. -/
def splitViews (data separator : List UInt8) : ℕ → StringView → Except Fault (List StringView)
  | 0, _ => .error .diverges
  | fuel + 1, stringView => do
    let (more, stringView) ← strviewSplit data separator stringView
    if more then do
      let views ← splitViews data separator fuel stringView
      .ok (stringView :: views)
    else .ok []

/-- The bytes of the views, with the separator between them. -/
def joined (data : List UInt8) (c : UInt8) (views : List StringView) : List UInt8 :=
  List.intercalate [c] (views.map fun view => (view.bytes data).getD [])

section Split

variable {data before field rest after : List UInt8} {c d : UInt8} {fuel steps : ℕ}

private theorem splitLoop_eq (hc : c ∉ field) (hnull : 0 ∉ field) (hd : d = c ∨ d = 0)
    (hfuel : field.length < fuel) :
    splitLoop (before ++ (field ++ d :: after)) c fuel before.length steps =
      .ok (steps + field.length) := by
  induction field generalizing before fuel steps with
  | nil =>
    obtain ⟨fuel, rfl⟩ := Nat.exists_eq_add_of_lt hfuel
    rw [List.length_nil, Nat.zero_add, List.nil_append, splitLoop, byteAt_at before after d rfl,
      bind_ok, if_pos hd]
    rfl
  | cons b field ih =>
    obtain ⟨hb, hc⟩ := not_or.mp (List.mem_cons.not.mp hc)
    obtain ⟨hb₀, hnull⟩ := not_or.mp (List.mem_cons.not.mp hnull)
    obtain ⟨fuel, rfl⟩ : ∃ n, fuel = n + 1 := Nat.exists_eq_succ_of_ne_zero (by omega)
    have hrest : splitLoop ((before ++ [b]) ++ (field ++ d :: after)) c fuel (before ++ [b]).length
        (steps + 1) = .ok (steps + 1 + field.length) := ih hc hnull (by simpa using hfuel)
    rw [List.append_assoc, List.length_append, List.length_singleton] at hrest
    rw [List.cons_append, splitLoop, byteAt_at before _ b rfl, bind_ok,
      if_neg (not_or.mpr ⟨Ne.symm hb, Ne.symm hb₀⟩), List.length_cons]
    exact hrest.trans (congrArg Except.ok (by omega))

def StringView.next (view : StringView) : ℕ :=
  match view.data with
  | some place => place + view.size
  | none => 0

private theorem strviewSplit_eq (view : StringView) (separator : List UInt8) :
    strviewSplit data separator view = (do
      let b ← byteAt data view.next
      if b = 0 then .ok (false, view)
      else do
        let first ← byteAt separator 0
        let start := if b = first then view.next + 1 else view.next
        let steps ← splitLoop data first (data.length + 1) start 0
        .ok (true, ⟨steps, some start⟩)) := rfl

def Ends (c : UInt8) (rest : List UInt8) : Prop := rest = [] ∨ ∃ rest', rest = c :: rest'

private theorem exists_field (c : UInt8) (text : List UInt8) :
    ∃ field rest, text = field ++ rest ∧ c ∉ field ∧ Ends c rest := by
  refine ⟨text.takeWhile (· ≠ c), text.dropWhile (· ≠ c), List.takeWhile_append_dropWhile.symm, ?_, ?_⟩
  · intro hmem
    have hne := List.mem_takeWhile_imp hmem
    rw [decide_eq_true_eq] at hne
    exact hne rfl
  · rcases hrest : text.dropWhile (· ≠ c) with _ | ⟨b, rest⟩
    · exact .inl rfl
    · have hhead := List.head?_dropWhile_not (· ≠ c) text
      rw [hrest] at hhead
      obtain rfl : b = c := by simpa using hhead
      exact .inr ⟨rest, rfl⟩

private theorem Ends.exists_cons (h : Ends c rest) :
    ∃ d after', rest ++ 0 :: after = d :: after' ∧ (d = c ∨ d = 0) := by
  rcases h with rfl | ⟨rest', rfl⟩
  · exact ⟨0, after, rfl, .inr rfl⟩
  · exact ⟨c, rest' ++ 0 :: after, rfl, .inl rfl⟩

private theorem strviewSplit_field {b : UInt8} (view : StringView)
    (hdata : data = before ++ (field ++ (rest ++ 0 :: after))) (hread : byteAt data view.next = .ok b)
    (hb : b ≠ 0) (hstart : (if b = c then view.next + 1 else view.next) = before.length)
    (hc : c ∉ field) (hnull : 0 ∉ field) (hends : Ends c rest) :
    strviewSplit data [c, 0] view = .ok (true, ⟨field.length, some before.length⟩) := by
  obtain ⟨d, after', hrest, hd⟩ := hends.exists_cons
  have hloop : splitLoop data c (data.length + 1) before.length 0 = .ok (0 + field.length) := by
    rw [hdata, hrest]
    exact splitLoop_eq hc hnull hd (by simp only [List.length_append]; omega)
  have hfirst : byteAt [c, 0] 0 = .ok c := rfl
  rw [strviewSplit_eq, hread, bind_ok, if_neg hb, hfirst, bind_ok]
  simp only [hstart, hloop, bind_ok, Nat.zero_add]

private theorem splitViews_more {view view' : StringView} {separator : List UInt8}
    (h : strviewSplit data separator view = .ok (true, view')) :
    splitViews data separator (fuel + 1) view = (do
      let views ← splitViews data separator fuel view'
      .ok (view' :: views)) := by
  rw [splitViews, h]
  rfl

private theorem splitViews_done {view : StringView} {separator : List UInt8}
    (h : strviewSplit data separator view = .ok (false, view)) :
    splitViews data separator (fuel + 1) view = .ok [] := by
  rw [splitViews, h]
  rfl

private theorem splitViews_rest (hdata : data = before ++ (field ++ (rest ++ 0 :: after)))
    (hc₀ : c ≠ 0)
    (hnull : 0 ∉ rest) (hends : Ends c rest) (hfuel : rest.length < fuel) :
    ∃ views, splitViews data [c, 0] fuel ⟨field.length, some before.length⟩ = .ok views ∧
      joined data c (⟨field.length, some before.length⟩ :: views) = field ++ rest := by
  have hbytes : StringView.bytes ⟨field.length, some before.length⟩ data = some field := by
    rw [StringView.bytes, Option.map_some, hdata, List.drop_left, List.take_left]
  induction fuel generalizing before field rest with
  | zero => omega
  | succ fuel ih =>
    rcases hends with rfl | ⟨rest', rfl⟩
    · have hread : byteAt data (before.length + field.length) = .ok 0 := by
        rw [hdata, ← List.append_assoc]
        exact byteAt_at (before ++ field) after 0 List.length_append.symm
      refine ⟨[], splitViews_done ?_, ?_⟩
      · rw [strviewSplit_eq, StringView.next, hread, bind_ok, if_pos rfl]
      · rw [joined, List.map_singleton, List.intercalate_singleton, hbytes, List.append_nil]
        rfl
    · obtain ⟨field', rest, rfl, hc, hends⟩ := exists_field c rest'
      obtain ⟨hnull, hnull'⟩ : 0 ∉ field' ∧ 0 ∉ rest := by
        simpa [hc₀.symm, not_or] using hnull
      have hread : byteAt data (before.length + field.length) = .ok c := by
        rw [hdata, ← List.append_assoc]
        exact byteAt_at (before ++ field) _ c List.length_append.symm
      have hdata' : data = (before ++ field ++ [c]) ++ (field' ++ (rest ++ 0 :: after)) := by
        rw [hdata]
        simp only [List.append_assoc, List.cons_append, List.nil_append]
      have hplace : before.length + field.length + 1 = (before ++ field ++ [c]).length := by
        simp only [List.length_append, List.length_singleton]
      have hstep := strviewSplit_field ⟨field.length, some before.length⟩ hdata' hread hc₀
        ((if_pos rfl).trans hplace) hc hnull hends
      have hbytes' : StringView.bytes ⟨field'.length, some (before ++ field ++ [c]).length⟩ data =
          some field' := by
        rw [StringView.bytes, Option.map_some, hdata', List.drop_left, List.take_left]
      have hshort : rest.length < fuel := by
        rw [List.length_cons, List.length_append] at hfuel
        omega
      obtain ⟨views, hviews, hjoined⟩ := ih hdata' hnull' hends hshort hbytes'
      refine ⟨⟨field'.length, some (before ++ field ++ [c]).length⟩ :: views, ?_, ?_⟩
      · rw [splitViews_more hstep, hviews, bind_ok]
      · rw [← hjoined, joined, List.map_cons, List.map_cons, List.intercalate_cons_cons, hbytes,
          List.append_assoc]
        rfl

private theorem splitViews_joined (hnull : 0 ∈ data) (hc₀ : c ≠ 0) (hne : cString data ≠ []) :
    ∃ views, splitViews data [c, 0] (data.length + 1) strviewNull = .ok views ∧
      joined data c views =
        if (cString data).head? = some c then (cString data).tail else cString data := by
  obtain ⟨after, hdata, hclean⟩ := exists_cString hnull
  obtain ⟨b, tail, htext⟩ := List.exists_cons_of_ne_nil hne
  rw [htext] at hdata hclean ⊢
  obtain ⟨hb, hclean'⟩ := not_or.mp (List.mem_cons.not.mp hclean)
  have hread : byteAt data 0 = .ok b := by
    rw [hdata]
    rfl
  -- what the first call begins with, and what it gives
  obtain ⟨before, text, hsplit, hstart, hnull, hresult⟩ : ∃ before text,
      data = before ++ (text ++ 0 :: after) ∧ (if b = c then 0 + 1 else 0) = before.length ∧
      0 ∉ text ∧ (if (b :: tail).head? = some c then (b :: tail).tail else b :: tail) = text := by
    by_cases hhead : b = c
    · exact ⟨[b], tail, hdata, if_pos hhead, hclean', if_pos (congrArg some hhead)⟩
    · exact ⟨[], b :: tail, hdata, if_neg hhead, hclean, if_neg fun h => hhead (Option.some.inj h)⟩
  obtain ⟨field, rest, rfl, hc, hends⟩ := exists_field c text
  obtain ⟨hfield, hrest⟩ := not_or.mp (List.mem_append.not.mp hnull)
  rw [List.append_assoc] at hsplit
  have hstep := strviewSplit_field strviewNull hsplit hread (Ne.symm hb) hstart hc hfield hends
  have hfuel : rest.length < data.length := by
    rw [hsplit]
    simp only [List.length_append, List.length_cons]
    omega
  obtain ⟨views, hviews, hjoined⟩ := splitViews_rest hsplit hc₀ hrest hends hfuel
  refine ⟨_, ?_, hjoined.trans hresult.symm⟩
  rw [splitViews_more hstep, hviews, bind_ok]

end Split

section Joined

variable {data : List UInt8} {c : UInt8}

/-- The views joined with the separator give a text back unless it begins with the separator. -/
theorem joined_iff (hnull : 0 ∈ data) (hc₀ : c ≠ 0) (hne : cString data ≠ []) :
    (∃ views, splitViews data [c, 0] (data.length + 1) strviewNull = .ok views ∧
      joined data c views = cString data) ↔ (cString data).head? ≠ some c := by
  obtain ⟨views, hviews, hjoined⟩ := splitViews_joined hnull hc₀ hne
  rw [hviews]
  constructor
  · rintro ⟨views', hviews', hgiven⟩ hhead
    obtain rfl := Except.ok.inj hviews'
    rw [hjoined, if_pos hhead] at hgiven
    have hlength := congrArg List.length hgiven
    have hpos := List.length_pos_iff.mpr hne
    rw [List.length_tail] at hlength
    omega
  · exact fun hhead => ⟨views, rfl, hjoined.trans (if_neg hhead)⟩

/-- `a,,`, with its two empty fields. -/
theorem joined_iff_fields :
    (∃ views, splitViews (ascii "a,," ++ [0]) [44, 0] ((ascii "a,," ++ [0]).length + 1) strviewNull =
      .ok views ∧ joined (ascii "a,," ++ [0]) 44 views = cString (ascii "a,," ++ [0])) ↔
      (cString (ascii "a,," ++ [0])).head? ≠ some 44 :=
  joined_iff (by decide) (by decide) (by decide)

/-- The empty field in front of `,a` is not given. -/
theorem not_joined : ¬∀ (data : List UInt8) (c : UInt8), 0 ∈ data → c ≠ 0 → cString data ≠ [] →
    ∃ views, splitViews data [c, 0] (data.length + 1) strviewNull = .ok views ∧
      joined data c views = cString data := by
  intro h
  obtain ⟨views, hviews, hjoined⟩ := h [44, 97, 0] 44 (by decide) (by decide) (by decide)
  have hone : splitViews [44, 97, 0] [44, 0] 4 strviewNull = .ok [⟨1, some 1⟩] := by decide
  obtain rfl := Except.ok.inj (hone.symm.trans hviews)
  exact absurd hjoined (by decide)

end Joined

end Libromano.Strview
