/- The layout of a ring in Robin Hood order. How far the item of a slot lies from its home is told
   by the homes of all items, whatever the order in which they came. -/

import Libromano.Foundation.RobinHood
import Mathlib.Data.Multiset.Filter

set_option autoImplicit false
set_option relaxedAutoImplicit false

namespace Libromano.Foundation.RobinHood

variable {α β : Type} {n : ℕ} {home : α → ℕ} {home' : β → ℕ} {T : Slots α} {U : Slots β}

def held (n : ℕ) (T : Slots α) : Multiset α :=
  ((List.range n).filterMap fun k => (T k).map Prod.fst : List α)

def homes (n : ℕ) (home : α → ℕ) (T : Slots α) : Multiset ℕ :=
  (held n T).map fun a => home a % n

/-- The slot of a position after `v`, up to `h`. -/
def Window (n v h k : ℕ) : Prop := ∃ u, v < u ∧ u ≤ h ∧ k = u % n

def Within (n : ℕ) (home : α → ℕ) (T : Slots α) (v h k : ℕ) : Prop :=
  ∃ a p, T k = some (a, p) ∧ Window n v h (home a % n)

open Classical in
private theorem card_within (n : ℕ) (home : α → ℕ) (T : Slots α) (v h : ℕ) :
    ((Finset.range n).filter (Within n home T v h)).card =
      (homes n home T).countP (Window n v h) := by
  have hleft : ((Finset.range n).filter (Within n home T v h)).card =
      (List.range n).countP (Within n home T v h) := by
    rw [← Multiset.coe_countP, Multiset.countP_eq_card_filter]
    rfl
  have hright : (homes n home T).countP (Window n v h) =
      (List.range n).countP fun k => (((T k).map Prod.fst).map fun a =>
        decide (Window n v h (home a % n))).getD false := by
    rw [homes, held, Multiset.map_coe, Multiset.coe_countP, List.countP_map, List.countP_filterMap]
    rfl
  rw [hleft, hright]
  apply List.countP_congr
  intro k _
  rw [decide_eq_true_iff]
  unfold Within
  cases T k with
  | none => simp
  | some x =>
    obtain ⟨a, p⟩ := x
    simp

open Classical in
/-- The item of a slot lies at least `d` from its home exactly when, for some stretch that ends
at the slot, as many homes as the stretch has slots lie in it at least `d` before its end. -/
private theorem Ordered.far_iff (hT : Ordered n home T) {e : ℕ} (he : T e = none) {k d : ℕ}
    (hk : n ≤ k)
    (hn : 0 < n) :
    (∃ a p, T k = some (a, p) ∧ d ≤ p) ↔
      ∃ v, v + d < k ∧ k ≤ v + n ∧ k - v ≤ (homes n home T).countP (Window n v (k - d)) := by
  have hcard (v : ℕ) : (homes n home T).countP (Window n v (k - d)) =
      ((Finset.range n).filter (Within n home T v (k - d))).card :=
    (card_within n home T v (k - d)).symm
  constructor
  · rintro ⟨a, p, ha, hd⟩
    have hstand := hT.standing ha
    obtain ⟨v, hvk, hkv, hv, hrun⟩ := exists_last_vacant hT he hn hk
    have hlow (x : ℕ) (hx : v < x) {b : α} {q : ℕ} (hb : T x = some (b, q)) : v + q < x := by
      have := hT.le_of_run hv (x - (v + 1)) (b := b) (q := q)
        (by rw [show v + 1 + (x - (v + 1)) = x by omega, hb])
      omega
    have hfar := hlow k hvk ha
    refine ⟨v, by omega, hkv, ?_⟩
    -- the slots of the run have their homes in the run, none of them after the last home
    have hwithin : ∀ x ∈ Finset.Ioc v k, x % n ∈ (Finset.range n).filter
        (Within n home T v (k - d)) := by
      intro x hx
      obtain ⟨hvx, hxk⟩ := Finset.mem_Ioc.mp hx
      obtain ⟨⟨b, q⟩, hb⟩ : ∃ i, T x = some i := by
        rcases Nat.eq_or_lt_of_le hxk with rfl | hlt
        · exact ⟨_, ha⟩
        · exact Option.ne_none_iff_exists'.mp (hrun x hvx hlt)
      have hxq := hlow x hvx hb
      have hhigh : x + p ≤ k + q := by
        rcases Nat.eq_or_lt_of_le hxk with rfl | hlt
        · rw [ha] at hb
          cases hb
          exact Nat.le_refl _
        · rcases Nat.eq_zero_or_pos p with rfl | hp
          · omega
          · exact hstand.home_le hT hp hrun (k - x - 1) (by omega) hvx hb
      refine Finset.mem_filter.mpr ⟨Finset.mem_range.mpr (Nat.mod_lt _ hn), b, q, ?_, x - q, ?_⟩
      · rw [← hb]
        exact hT.periodic (Nat.mod_mod x n)
      · refine ⟨by omega, by omega, ?_⟩
        have hplaced : home b + q ≡ x - q + q [MOD n] := by
          rw [Nat.sub_add_cancel (by omega)]
          exact (hT.standing hb).placed
        exact Nat.ModEq.add_right_cancel' q hplaced
    have hinj : Set.InjOn (· % n) (Finset.Ioc v k : Finset ℕ) := by
      intro x hx y hy hxy
      obtain ⟨hvx, hxk⟩ := Finset.mem_Ioc.mp hx
      obtain ⟨hvy, hyk⟩ := Finset.mem_Ioc.mp hy
      have hmod : (v + 1 + (x - (v + 1))) % n = (v + 1 + (y - (v + 1))) % n := by
        rw [show v + 1 + (x - (v + 1)) = x by omega, show v + 1 + (y - (v + 1)) = y by omega]
        exact hxy
      have := turn_injective (by omega) (by omega) hmod
      omega
    rw [hcard]
    simpa using Finset.card_le_card_of_injOn _ hwithin hinj
  · rintro ⟨v, hvk, hkv, hcount⟩
    by_contra hnear
    -- then every such item stands before the slot
    have hbefore : ∀ x ∈ (Finset.range n).filter (Within n home T v (k - d)),
        ∃ y, v < y ∧ y < k ∧ y % n = x := by
      intro x hx
      obtain ⟨hxn, a, p, ha, u, hvu, huk, hhome⟩ := Finset.mem_filter.mp hx
      have hplace : (u + p) % n = x % n := by
        rw [← (hT.standing ha).placed]
        exact (Nat.ModEq.add_right p hhome).symm
      refine ⟨u + p, by omega, ?_, hplace.trans (Nat.mod_eq_of_lt (Finset.mem_range.mp hxn))⟩
      by_contra hbeyond
      have hstands : T (k + (u + p - k)) = some (a, p) := by
        rw [← ha, show k + (u + p - k) = u + p by omega]
        exact hT.periodic hplace
      obtain ⟨b, q, hb, hq⟩ := hT.back (u + p - k) hstands (by omega)
      exact hnear ⟨b, q, hb, by omega⟩
    choose! y hvy hyk hy using hbefore
    have hless := Finset.card_le_card_of_injOn y
      (s := (Finset.range n).filter (Within n home T v (k - d))) (t := Finset.Ioo v k)
      (fun x hx => Finset.mem_Ioo.mpr ⟨hvy x hx, hyk x hx⟩)
      (fun x hx x' hx' hxx' => by rw [← hy x hx, ← hy x' hx', hxx'])
    rw [← hcard, Nat.card_Ioo] at hless
    omega

theorem Ordered.distances_eq (hT : Ordered n home T) (hU : Ordered n home' U)
    (hhomes : homes n home T = homes n home' U) {e e' : ℕ} (he : T e = none) (he' : U e' = none)
    (k : ℕ) : (T k).map Prod.snd = (U k).map Prod.snd := by
  rcases Nat.eq_zero_or_pos n with rfl | hn
  · have hvacant (j : ℕ) : T j = none ∧ U j = none := by
      constructor
      · cases hj : T j with
        | none => rfl
        | some x => exact absurd (hT.standing hj).near (Nat.not_lt_zero _)
      · cases hj : U j with
        | none => rfl
        | some x => exact absurd (hU.standing hj).near (Nat.not_lt_zero _)
    rw [(hvacant k).1, (hvacant k).2]
    rfl
  have hfar (d : ℕ) : (∃ a p, T k = some (a, p) ∧ d ≤ p) ↔ ∃ a p, U k = some (a, p) ∧ d ≤ p := by
    rw [hT.periodic (Nat.add_mod_right k n).symm, hU.periodic (Nat.add_mod_right k n).symm,
      hT.far_iff he (Nat.le_add_left n k) hn, hU.far_iff he' (Nat.le_add_left n k) hn, hhomes]
  cases hTk : T k with
  | none =>
    cases hUk : U k with
    | none => rfl
    | some y =>
      obtain ⟨a, p, ha, -⟩ := (hfar 0).mpr ⟨y.1, y.2, hUk, Nat.zero_le _⟩
      cases hTk.symm.trans ha
  | some x =>
    obtain ⟨a, p, ha, hp⟩ := (hfar x.2).mp ⟨x.1, x.2, hTk, Nat.le_refl _⟩
    obtain ⟨b, q, hb, hq⟩ := (hfar p).mpr ⟨a, p, ha, Nat.le_refl _⟩
    cases hTk.symm.trans hb
    rw [ha]
    exact congrArg some (Nat.le_antisymm hp hq)

end Libromano.Foundation.RobinHood
