/- Lists with cells of their own: what changes one of them leaves the others as they are. -/

import Libromano.Json.Trees

set_option autoImplicit false
set_option relaxedAutoImplicit false

namespace Libromano.JsonHeap

open Foundation.Chains

section Separate

variable {α : Type} {infos : List Info} {cells cells' : List (Cell α)} {ends ends' : Info}
  {l l' : List (ℕ × α)} {i j : ℕ} {y : α}

structure Separate (infos : List Info) (cells : List (Cell α)) : Prop where
  chained : ∀ (i : ℕ) ends, infos[i]? = some ends → ∃ l, Chained cells ends l
  disjoint : ∀ (i j : ℕ) ends ends' l l', i ≠ j → infos[i]? = some ends → infos[j]? = some ends' →
    Segment cells ends.head l none → Segment cells ends'.head l' none →
    (addresses l).Disjoint (addresses l')

structure Rewired (cells : List (Cell α)) (l : List (ℕ × α)) (cells' : List (Cell α))
    (ends' : Info) (l' : List (ℕ × α)) : Prop where
  chained : Chained cells' ends' l'
  outside : ∀ a < cells.length, a ∉ addresses l → cells'[a]? = cells[a]?
  inside : ∀ a ∈ addresses l', a ∈ addresses l ∨ cells.length ≤ a

theorem separate_nil : Separate [] cells := by
  constructor
  · intro i ends hends
    cases hends
  · intro i j ends ends' l l' _ hends
    cases hends

private theorem Separate.kept (hsep : Separate infos cells) (hinfo : infos[i]? = some ends)
    (hl : Chained cells ends l) (hrewired : Rewired cells l cells' ends' l') (hij : j ≠ i)
    {other : Info} (hother : infos[j]? = some other) {m : List (ℕ × α)}
    (hm : Segment cells other.head m none) : Segment cells' other.head m none := by
  refine hm.frame fun a ha => hrewired.outside a (hm.lt a ha) fun hal => ?_
  exact hsep.disjoint i j ends other l m hij.symm hinfo hother hl.segment hm hal ha

theorem Separate.rewire (hsep : Separate infos cells) (hinfo : infos[i]? = some ends)
    (hl : Chained cells ends l) (hrewired : Rewired cells l cells' ends' l') :
    Separate (infos.set i ends') cells' := by
  have hi := (List.getElem?_eq_some_iff.mp hinfo).1
  -- the chains of the other infos are the old ones
  have hold : ∀ (j : ℕ) ends₁ m, j ≠ i → infos[j]? = some ends₁ → Segment cells' ends₁.head m none →
      Segment cells ends₁.head m none := by
    intro j ends₁ m hj hends₁ hm
    obtain ⟨m', hm'⟩ := hsep.chained j ends₁ hends₁
    have hkept := hsep.kept hinfo hl hrewired hj hends₁ hm'.segment
    rw [hm.unique hkept]
    exact hm'.segment
  have hapart : ∀ (j : ℕ) ends₁ m, j ≠ i → infos[j]? = some ends₁ → Segment cells ends₁.head m none →
      (addresses l').Disjoint (addresses m) := by
    intro j ends₁ m hj hends₁ hm a ha ham
    rcases hrewired.inside a ha with hmem | hnew
    · exact hsep.disjoint i j ends ends₁ l m hj.symm hinfo hends₁ hl.segment hm hmem ham
    · exact absurd (hm.lt a ham) (Nat.not_lt.mpr hnew)
  constructor
  · intro j ends₁ hends₁
    by_cases hj : j = i
    · subst hj
      rw [List.getElem?_set_self hi] at hends₁
      cases hends₁
      exact ⟨l', hrewired.chained⟩
    · rw [List.getElem?_set_ne (Ne.symm hj)] at hends₁
      obtain ⟨m, hm⟩ := hsep.chained j ends₁ hends₁
      exact ⟨m, hsep.kept hinfo hl hrewired hj hends₁ hm.segment, hm.tail⟩
  · intro j k ends₁ ends₂ m n hjk hends₁ hends₂ hm hn
    by_cases hj : j = i
    · subst hj
      rw [List.getElem?_set_self hi] at hends₁
      cases hends₁
      rw [List.getElem?_set_ne hjk] at hends₂
      rw [hm.unique hrewired.chained.segment]
      exact hapart k ends₂ n (Ne.symm hjk) hends₂ (hold k ends₂ n (Ne.symm hjk) hends₂ hn)
    · rw [List.getElem?_set_ne (Ne.symm hj)] at hends₁
      by_cases hk : k = i
      · subst hk
        rw [List.getElem?_set_self hi] at hends₂
        cases hends₂
        rw [hn.unique hrewired.chained.segment]
        intro a ha hb
        exact hapart j ends₁ m hjk hends₁ (hold j ends₁ m hjk hends₁ hm) hb ha
      · rw [List.getElem?_set_ne (Ne.symm hk)] at hends₂
        exact hsep.disjoint j k ends₁ ends₂ m n hjk hends₁ hends₂ (hold j ends₁ m hj hends₁ hm)
          (hold k ends₂ n hk hends₂ hn)

theorem Separate.holdsList (hsep : Separate infos cells) (hinfo : infos[i]? = some ends)
    (hl : Chained cells ends l) (hrewired : Rewired cells l cells' ends' l') (hij : j ≠ i)
    {xs : List α} (hxs : HoldsList infos cells j xs) :
    HoldsList (infos.set i ends') cells' j xs := by
  obtain ⟨other, m, hother, hm, hitems⟩ := hxs
  refine ⟨other, m, ?_, hsep.kept hinfo hl hrewired hij hother hm, hitems⟩
  rw [List.getElem?_set_ne hij.symm, hother]

theorem Separate.new (hsep : Separate infos cells) : Separate (infos ++ [⟨none, none⟩]) cells := by
  have hcases : ∀ (j : ℕ) ends₁, (infos ++ [⟨none, none⟩])[j]? = some ends₁ →
      infos[j]? = some ends₁ ∨ ends₁ = ⟨none, none⟩ := by
    intro j ends₁ hends₁
    rcases Nat.lt_or_ge j infos.length with hj | hj
    · rw [List.getElem?_append_left hj] at hends₁
      exact .inl hends₁
    · rw [List.getElem?_append_right hj] at hends₁
      exact .inr (List.mem_singleton.mp (List.mem_of_getElem? hends₁))
  constructor
  · intro j ends₁ hends₁
    rcases hcases j ends₁ hends₁ with hold | rfl
    · exact hsep.chained j ends₁ hold
    · exact ⟨[], chained_nil⟩
  · intro j k ends₁ ends₂ m n hjk hends₁ hends₂ hm hn
    rcases hcases j ends₁ hends₁ with hold₁ | rfl
    · rcases hcases k ends₂ hends₂ with hold₂ | rfl
      · exact hsep.disjoint j k ends₁ ends₂ m n hjk hold₁ hold₂ hm hn
      · rw [hn.eq_none_iff.mp rfl]
        exact List.disjoint_nil_right _
    · rw [hm.eq_none_iff.mp rfl]
      exact List.disjoint_nil_left _

theorem HoldsList.new {xs : List α} (hxs : HoldsList infos cells j xs) :
    HoldsList (infos ++ [⟨none, none⟩]) cells j xs := by
  obtain ⟨ends, l, hends, hl⟩ := hxs
  have hj := (List.getElem?_eq_some_iff.mp hends).1
  exact ⟨ends, l, by rw [List.getElem?_append_left hj, hends], hl⟩

theorem Rewired.refl (hl : Chained cells ends l) : Rewired cells l cells ends l :=
  ⟨hl, fun _ _ _ => rfl, fun _ ha => .inl ha⟩

theorem Rewired.link (hl : Chained cells ends l) (hlink : linkElement cells ends y =
    .ok (cells', ends')) : ∃ l', Rewired cells l cells' ends' l' := by
  by_cases htail : TailLost ends
  · rw [linkElement_lost htail] at hlink
    cases hlink
  obtain ⟨cells₁, ends₁, hlink₁, hchained, -, -⟩ := hl.link htail y
  cases hlink₁.symm.trans hlink
  refine ⟨_, hchained, ?_, ?_⟩
  · intro a ha hfresh
    rw [linkElement] at hlink
    cases hhead : ends.head with
    | none =>
      rw [hhead] at hlink
      cases hlink
      exact List.getElem?_append_left ha
    | some first =>
      cases hlast : ends.tail with
      | none => exact absurd ⟨by simp [hhead], hlast⟩ htail
      | some tail =>
        simp only [hhead, hlast] at hlink
        cases hlink
        have hmem : tail ∈ addresses l := by
          rcases hl.tail with rfl | hnone | htail
          · cases (hl.segment.eq_none_iff.mpr rfl).symm.trans hhead
          · cases hnone.symm.trans hlast
          · exact List.mem_of_getLast? (htail.symm.trans hlast)
        have hne : tail ≠ a := fun h => hfresh (h ▸ hmem)
        rw [getElem?_setNext_ne hne, List.getElem?_append_left ha]
  · intro a ha
    rw [addresses_append, List.mem_append] at ha
    rcases ha with hmem | hnew
    · exact .inl hmem
    · exact .inr (List.mem_singleton.mp hnew).ge

theorem Rewired.drop {cell : Cell α} (hl : Chained cells ends l)
    (hcell : deref cells ends.head = .ok cell) :
    ∃ l', Rewired cells l cells { ends with head := cell.next } l' := by
  rcases l with - | ⟨⟨a, x⟩, l⟩
  · rw [hl.segment.eq_none_iff.mpr rfl] at hcell
    cases hcell
  · obtain ⟨next, hnext, hchained⟩ := hl.drop
    rw [hl.segment.1, deref_eq hnext] at hcell
    cases hcell
    exact ⟨l, hchained, fun _ _ _ => rfl, fun b hb => .inl (List.mem_cons_of_mem _ hb)⟩

/-- Where a walk along a chain stopped: at its start, or behind another element. -/
def StopsAt (l : List (ℕ × α)) (p previous previous' current' : Option ℕ) : Prop :=
  (previous' = previous ∧ current' = p) ∨ ∃ before a x b y after,
    l = before ++ (a, x) :: (b, y) :: after ∧ previous' = some a ∧ current' = some b

theorem StopsAt.cons {a : ℕ} {x : α} {p next previous' current' : Option ℕ} (previous : Option ℕ)
    (hl : Segment cells next l none) (hcurrent : current' ≠ none)
    (h : StopsAt l next (some a) previous' current') :
    StopsAt ((a, x) :: l) p previous previous' current' := by
  refine .inr ?_
  rcases h with ⟨rfl, rfl⟩ | ⟨before, b, y, c, z, after, rfl, hprevious, hcurrent⟩
  · rcases l with - | ⟨⟨b, y⟩, l⟩
    · exact absurd hl hcurrent
    · exact ⟨[], a, x, b, y, l, rfl, rfl, hl.1⟩
  · exact ⟨(a, x) :: before, b, y, c, z, after, rfl, hprevious, hcurrent⟩

theorem Rewired.unlink {previous current : ℕ} (hl : Chained cells ends l)
    (hstops : StopsAt l ends.head none (some previous) (some current))
    (hunlink : unlinkElement cells ends previous current = .ok (cells', ends')) :
    ∃ l', Rewired cells l cells' ends' l' := by
  rcases hstops with ⟨hnone, -⟩ | ⟨before, a, x, b, y, after, rfl, ha, hb⟩
  · cases hnone
  cases ha
  cases hb
  obtain ⟨cells₁, ends₁, hunlink₁, hchained, -⟩ := hl.unlink
  cases hunlink₁.symm.trans hunlink
  refine ⟨_, hchained, ?_, ?_⟩
  · intro c _ hfresh
    obtain ⟨cell, -, hunlink⟩ := bind_eq_ok.mp hunlink
    cases hunlink
    refine getElem?_setNext_ne fun h => hfresh ?_
    rw [← h]
    simp
  · intro c hc
    refine .inl ?_
    simp only [addresses_append, addresses_cons, List.mem_append, List.mem_cons] at hc ⊢
    tauto

end Separate

end Libromano.JsonHeap
