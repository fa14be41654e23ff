/- Open addressing in a ring of `n` slots. An item lies some probe distance after its home slot,
   and the Robin Hood order asks that an item away from home has a neighbour just before it whose
   distance is at most one smaller.

   Positions are natural numbers read modulo `n`, so that a walk along the ring is counting
   upwards and no statement has to mention the wrap-around.

   When the items of a ring of `m` slots are moved one by one into a ring whose size is a multiple
   of `m`, none of them gets further from home than the furthest was before. The homes of a full
   run of slots lie in that run, so the run cannot hold more items than the old ring had room for
   in the same window. -/

import Mathlib.Data.Int.ModEq
import Mathlib.Data.Finset.Card
import Mathlib.Order.Interval.Finset.Nat

set_option autoImplicit false
set_option relaxedAutoImplicit false

namespace Libromano.Foundation.RobinHood

/-- The ring of slots: each position is vacant or holds an item with its
probe distance. -/
abbrev Slots (α : Type) := ℕ → Option (α × ℕ)

variable {α : Type} {n : ℕ} {home : α → ℕ} {T : Slots α}

/-- Overwrite the slot at position `j`, in all its representatives. -/
def put (n : ℕ) (T : Slots α) (j : ℕ) (x : Option (α × ℕ)) : Slots α :=
  fun k => if k % n = j % n then x else T k

/-- What the item `a` at distance `p` needs in order to stand at position `j`:
the distance is counted from its home, and the slot before bears it out. -/
structure Carried (n : ℕ) (home : α → ℕ) (T : Slots α) (j : ℕ) (a : α) (p : ℕ) : Prop where
  placed : (home a + p) % n = j % n
  near : p < n
  behind : 0 < p → ∃ b q, T (j + (n - 1)) = some (b, q) ∧ p ≤ q + 1

structure Ordered (n : ℕ) (home : α → ℕ) (T : Slots α) : Prop where
  periodic : ∀ {j k}, j % n = k % n → T j = T k
  standing : ∀ {j a p}, T j = some (a, p) → Carried n home T j a p

/-- The ring where the item at `j` has been taken out and the slot after it
has not been looked at yet: that slot may be off by the one vacated step. -/
structure Shifting (n : ℕ) (home : α → ℕ) (T : Slots α) (j : ℕ) : Prop where
  periodic : ∀ {i k}, i % n = k % n → T i = T k
  vacant : T j = none
  placed : ∀ {k a p}, T k = some (a, p) → (home a + p) % n = k % n
  near : ∀ {k a p}, T k = some (a, p) → p < n
  behind : ∀ {k a p}, T k = some (a, p) → 0 < p → (k + (n - 1)) % n ≠ j % n →
    ∃ b q, T (k + (n - 1)) = some (b, q) ∧ p ≤ q + 1
  ahead : ∀ {a p}, T (j + 1) = some (a, p) → 1 < p →
    ∃ b q, T (j + (n - 1)) = some (b, q) ∧ p ≤ q + 2

theorem put_same {j k : ℕ} (x : Option (α × ℕ)) (h : k % n = j % n) : put n T j x k = x :=
  if_pos h

theorem put_other {j k : ℕ} (x : Option (α × ℕ)) (h : k % n ≠ j % n) : put n T j x k = T k :=
  if_neg h

private theorem put_periodic {j : ℕ} {x : Option (α × ℕ)} (hT : ∀ {i k}, i % n = k % n → T i = T k)
    {i k : ℕ} (h : i % n = k % n) : put n T j x i = put n T j x k := by
  simp only [put, h]
  rw [hT h]

private theorem mod_add_congr {j k : ℕ} (c : ℕ) (h : j % n = k % n) : (j + c) % n = (k + c) % n :=
  Nat.ModEq.add_right c h

theorem mod_succ_pred (hn : 0 < n) (j : ℕ) : (j + 1 + (n - 1)) % n = j % n := by
  rw [show j + 1 + (n - 1) = j + n by omega, Nat.add_mod_right]

private theorem mod_pred_succ (hn : 0 < n) (j : ℕ) : (j + (n - 1) + 1) % n = j % n := by
  rw [show j + (n - 1) + 1 = j + n by omega, Nat.add_mod_right]

private theorem mod_pred_ne (hn : 1 < n) (j : ℕ) : (j + (n - 1)) % n ≠ j % n := by
  intro h
  have hdvd : n - 1 ≡ 0 [MOD n] := Nat.ModEq.add_left_cancel' j h
  have := Nat.le_of_dvd (by omega) ((Nat.modEq_zero_iff_dvd).mp hdvd)
  omega

private theorem mod_succ_of_pred {j k : ℕ} (hn : 0 < n) (h : (k + (n - 1)) % n = j % n) :
    k % n = (j + 1) % n := by
  rw [← mod_add_congr 1 h, mod_pred_succ hn]

theorem exists_turn (hn : 0 < n) (e j : ℕ) : ∃ d < n, (e + d) % n = j % n := by
  refine ⟨(j + (n - e % n)) % n, Nat.mod_lt _ hn, ?_⟩
  have he : e % n < n := Nat.mod_lt _ hn
  calc (e + (j + (n - e % n)) % n) % n
      = (e % n + (j + (n - e % n))) % n := by simp [Nat.add_mod]
    _ = (j + n) % n := by congr 1; omega
    _ = j % n := Nat.add_mod_right j n

theorem turn_injective {s i k : ℕ} (hi : i < n) (hk : k < n) (h : (s + i) % n = (s + k) % n) :
    i = k := by
  have : i ≡ k [MOD n] := Nat.ModEq.add_left_cancel' s h
  exact Nat.ModEq.eq_of_lt_of_lt this hi hk

/-- Before an item at distance `p` there are `p` items, whose distances fall by
at most one a step. -/
theorem Ordered.back (hT : Ordered n home T) {a : α} {p : ℕ} (d : ℕ) {j : ℕ}
    (h : T (j + d) = some (a, p)) (hd : d ≤ p) : ∃ b q, T j = some (b, q) ∧ p ≤ q + d := by
  induction d generalizing a p with
  | zero => exact ⟨a, p, h, by omega⟩
  | succ d ih =>
    have hn : 0 < n := lt_of_le_of_lt (Nat.zero_le p) (hT.standing h).near
    obtain ⟨b, q, hb, hq⟩ := (hT.standing h).behind (by omega)
    rw [hT.periodic (show (j + (d + 1) + (n - 1)) % n = (j + d) % n from
      mod_succ_pred hn (j + d))] at hb
    obtain ⟨c, r, hc, hr⟩ := ih hb (by omega)
    exact ⟨c, r, hc, by omega⟩

private theorem Ordered.near_of_vacant (hT : Ordered n home T) {e j : ℕ} (he : T e = none) {a : α}
    {p : ℕ} (h : T j = some (a, p)) : p + 1 < n := by
  have hn := (hT.standing h).near
  obtain ⟨d, hd, hmod⟩ := exists_turn (by omega : 0 < n) e j
  by_contra hfar
  obtain ⟨b, q, hb, -⟩ := hT.back d ((hT.periodic hmod).trans h) (by omega)
  simp [he] at hb

/-- Writing the carried item over a vacant slot or over a nearer item keeps
the order. -/
theorem Ordered.put (hT : Ordered n home T) {j : ℕ} {a : α} {p : ℕ}
    (hc : Carried n home T j a p) (hout : ∀ b q, T j = some (b, q) → q ≤ p) :
    Ordered n home (put n T j (some (a, p))) where
  periodic := put_periodic hT.periodic
  standing := by
    intro k b q hk
    by_cases hkj : k % n = j % n
    · rw [put_same _ hkj] at hk
      obtain ⟨rfl, rfl⟩ := Prod.mk.inj (Option.some.inj hk)
      refine ⟨hc.placed.trans hkj.symm, hc.near, fun hpos => ?_⟩
      obtain ⟨c, r, hr, hle⟩ := hc.behind hpos
      have hpred : (k + (n - 1)) % n = (j + (n - 1)) % n := mod_add_congr _ hkj
      refine ⟨c, r, ?_, hle⟩
      rw [put_other _ (by rw [hpred]; exact mod_pred_ne (by have := hc.near; omega) j),
        hT.periodic hpred, hr]
    · rw [put_other _ hkj] at hk
      have hst := hT.standing hk
      refine ⟨hst.placed, hst.near, fun hpos => ?_⟩
      obtain ⟨c, r, hr, hle⟩ := hst.behind hpos
      by_cases hpj : (k + (n - 1)) % n = j % n
      · rw [hT.periodic hpj] at hr
        exact ⟨a, p, put_same _ hpj, hle.trans (Nat.succ_le_succ (hout c r hr))⟩
      · exact ⟨c, r, by rw [put_other _ hpj, hr], hle⟩

theorem Carried.displaced (hT : Ordered n home T) {j : ℕ} {a b : α} {p q : ℕ}
    (hc : Carried n home T j a p) (hj : T j = some (b, q)) (hlt : q < p) :
    Carried n home (put n T j (some (a, p))) (j + 1) b (q + 1) where
  placed := mod_add_congr 1 (hT.standing hj).placed
  near := lt_of_le_of_lt hlt hc.near
  behind _ := by
    have hn : 0 < n := lt_of_le_of_lt (Nat.zero_le p) hc.near
    exact ⟨a, p, put_same _ (mod_succ_pred hn j), by omega⟩

theorem Carried.passed (hT : Ordered n home T) {j e : ℕ} {a b : α} {p q : ℕ}
    (hc : Carried n home T j a p) (hj : T j = some (b, q)) (hle : p ≤ q) (he : T e = none) :
    Carried n home T (j + 1) a (p + 1) where
  placed := mod_add_congr 1 hc.placed
  near := lt_of_le_of_lt (Nat.succ_le_succ hle) (hT.near_of_vacant he hj)
  behind _ := by
    have hn : 0 < n := lt_of_le_of_lt (Nat.zero_le p) hc.near
    exact ⟨b, q, by rw [hT.periodic (mod_succ_pred hn j), hj], by omega⟩

theorem Carried.at_home {j : ℕ} {a : α} (hn : 0 < n) (h : home a % n = j % n) :
    Carried n home T j a 0 :=
  ⟨by simpa using h, hn, fun h0 => absurd h0 (lt_irrefl 0)⟩

theorem Ordered.take (hT : Ordered n home T) {j : ℕ} {b : α} {q : ℕ} (hj : T j = some (b, q)) :
    Shifting n home (RobinHood.put n T j none) j where
  periodic := put_periodic hT.periodic
  vacant := put_same _ rfl
  placed := by
    intro k a p hk
    by_cases hkj : k % n = j % n
    · simp [put_same _ hkj] at hk
    · exact (hT.standing (by rwa [put_other _ hkj] at hk)).placed
  near := by
    intro k a p hk
    by_cases hkj : k % n = j % n
    · simp [put_same _ hkj] at hk
    · exact (hT.standing (by rwa [put_other _ hkj] at hk)).near
  behind := by
    intro k a p hk hpos hne
    by_cases hkj : k % n = j % n
    · simp [put_same _ hkj] at hk
    · rw [put_other _ hkj] at hk
      obtain ⟨c, r, hr, hle⟩ := (hT.standing hk).behind hpos
      exact ⟨c, r, by rw [put_other _ hne, hr], hle⟩
  ahead := by
    intro a p ha hp
    by_cases hjj : (j + 1) % n = j % n
    · simp [put_same _ hjj] at ha
    rw [put_other _ hjj] at ha
    have hst := hT.standing ha
    have hn := hst.near
    obtain ⟨c, r, hr, hle⟩ := hst.behind (by omega)
    rw [hT.periodic (mod_succ_pred (by omega) j), hj] at hr
    obtain ⟨rfl, rfl⟩ := Prod.mk.inj (Option.some.inj hr)
    obtain ⟨d, s, hs, hle'⟩ := (hT.standing hj).behind (by omega)
    exact ⟨d, s, by rw [put_other _ (mod_pred_ne (by omega) j), hs], by omega⟩

/-- One step of the shift: the next item moves back by one and leaves its own
slot vacant. -/
theorem Shifting.step {j : ℕ} (hT : Shifting n home T j) {a : α} {p : ℕ}
    (ha : T (j + 1) = some (a, p)) (hp : 0 < p) :
    Shifting n home
      (RobinHood.put n (RobinHood.put n T j (some (a, p - 1))) (j + 1) none) (j + 1) := by
  have hn : 1 < n := by have := hT.near ha; omega
  have hjj : j % n ≠ (j + 1) % n := by
    intro h
    exact mod_pred_ne hn (j + 1) (by rw [mod_succ_pred (by omega), h])
  have hcases : ∀ {k b q},
      RobinHood.put n (RobinHood.put n T j (some (a, p - 1))) (j + 1) none k = some (b, q) →
      (k % n = j % n ∧ b = a ∧ q = p - 1) ∨
        (k % n ≠ j % n ∧ k % n ≠ (j + 1) % n ∧ T k = some (b, q)) := by
    intro k b q hk
    by_cases hk1 : k % n = (j + 1) % n
    · simp [put_same _ hk1] at hk
    rw [put_other _ hk1] at hk
    by_cases hk0 : k % n = j % n
    · rw [put_same _ hk0] at hk
      obtain ⟨rfl, rfl⟩ := Prod.mk.inj (Option.some.inj hk)
      exact Or.inl ⟨hk0, rfl, rfl⟩
    · rw [put_other _ hk0] at hk
      exact Or.inr ⟨hk0, hk1, hk⟩
  refine ⟨put_periodic (put_periodic hT.periodic), put_same _ rfl, ?_, ?_, ?_, ?_⟩
  · intro k b q hk
    rcases hcases hk with ⟨hkj, rfl, rfl⟩ | ⟨_, _, hk'⟩
    · have hpl := hT.placed ha
      rw [show home b + p = home b + (p - 1) + 1 by omega] at hpl
      exact (Nat.ModEq.add_right_cancel' 1 hpl).trans hkj.symm
    · exact hT.placed hk'
  · intro k b q hk
    rcases hcases hk with ⟨_, rfl, rfl⟩ | ⟨_, _, hk'⟩
    · have := hT.near ha
      omega
    · exact hT.near hk'
  · intro k b q hk hq hne
    rcases hcases hk with ⟨hkj, rfl, rfl⟩ | ⟨hk0, hk1, hk'⟩
    · obtain ⟨c, r, hr, hle⟩ := hT.ahead ha (by omega)
      have hpred : (k + (n - 1)) % n = (j + (n - 1)) % n := mod_add_congr _ hkj
      refine ⟨c, r, ?_, by omega⟩
      rw [put_other _ hne, put_other _ (by rw [hpred]; exact mod_pred_ne hn j),
        hT.periodic hpred, hr]
    · have hpj : (k + (n - 1)) % n ≠ j % n := fun h => hk1 (mod_succ_of_pred (by omega) h)
      obtain ⟨c, r, hr, hle⟩ := hT.behind hk' hq hpj
      exact ⟨c, r, by rw [put_other _ hne, put_other _ hpj, hr], hle⟩
  · intro b q hb hq
    rcases hcases hb with ⟨hwrap, rfl, rfl⟩ | ⟨hk0, hk1, hb'⟩
    · -- the slot after next is this one only in a ring of two, where `p = 1`
      have := hT.near ha
      have := turn_injective (i := 2) (k := 0) (by omega) (by omega) hwrap
      omega
    · have hback : (j + 1 + (n - 1)) % n = j % n := mod_succ_pred (by omega) j
      have hpj : (j + 1 + 1 + (n - 1)) % n = (j + 1) % n := mod_succ_pred (by omega) (j + 1)
      obtain ⟨c, r, hr, hle⟩ := hT.behind hb' (by omega) (by rw [hpj]; exact hjj.symm)
      rw [hT.periodic hpj, ha] at hr
      obtain ⟨rfl, rfl⟩ := Prod.mk.inj (Option.some.inj hr)
      refine ⟨a, p - 1, ?_, by omega⟩
      rw [put_other _ (by rw [hback]; exact hjj), put_same _ hback]

theorem Shifting.finish {j : ℕ} (hT : Shifting n home T j)
    (hend : ∀ a p, T (j + 1) = some (a, p) → p = 0) : Ordered n home T where
  periodic := hT.periodic
  standing := by
    intro k a p hk
    refine ⟨hT.placed hk, hT.near hk, fun hpos => ?_⟩
    by_cases hpj : (k + (n - 1)) % n = j % n
    · have hn := hT.near hk
      have hkj : k % n = (j + 1) % n := mod_succ_of_pred (by omega) hpj
      have := hend a p (by rw [← hT.periodic hkj, hk])
      omega
    · exact hT.behind hk hpos hpj

theorem exists_last_vacant (hT : Ordered n home T) {e J : ℕ} (he : T e = none) (hn : 0 < n)
    (hJ : n ≤ J) :
    ∃ v, v < J ∧ J ≤ v + n ∧ T v = none ∧ ∀ x, v < x → x < J → T x ≠ none := by
  obtain ⟨d, hd, hmod⟩ := exists_turn hn (J - n) e
  have hex : ∃ i, T (J - 1 - i) = none := by
    refine ⟨n - 1 - d, ?_⟩
    rw [show J - 1 - (n - 1 - d) = J - n + d by omega, hT.periodic hmod, he]
  classical
  have hfind : T (J - 1 - Nat.find hex) = none := Nat.find_spec hex
  have hle : Nat.find hex ≤ n - 1 - d := by
    apply Nat.find_min'
    rw [show J - 1 - (n - 1 - d) = J - n + d by omega, hT.periodic hmod, he]
  refine ⟨J - 1 - Nat.find hex, by omega, by omega, hfind, fun x hx hxJ hnone => ?_⟩
  exact Nat.find_min hex (m := J - 1 - x) (by omega)
    (by rwa [show J - 1 - (J - 1 - x) = x by omega])

theorem Ordered.le_of_run (hT : Ordered n home T) {v : ℕ} (hv : T v = none) (d : ℕ) {b : α}
    {q : ℕ} (h : T (v + 1 + d) = some (b, q)) : q ≤ d := by
  induction d generalizing b q with
  | zero =>
    by_contra hq
    have hn := (hT.standing h).near
    obtain ⟨c, r, hc, -⟩ := (hT.standing h).behind (by omega)
    rw [hT.periodic (show (v + 1 + 0 + (n - 1)) % n = v % n from mod_succ_pred (by omega) v),
      hv] at hc
    simp at hc
  | succ d ih =>
    by_contra hq
    have hn := (hT.standing h).near
    obtain ⟨c, r, hc, hle⟩ := (hT.standing h).behind (by omega)
    rw [hT.periodic (show (v + 1 + (d + 1) + (n - 1)) % n = (v + 1 + d) % n from
      mod_succ_pred (by omega) (v + 1 + d))] at hc
    have := ih hc
    omega

theorem Carried.home_le (hT : Ordered n home T) {v J : ℕ} {a : α} {p : ℕ}
    (hc : Carried n home T J a p) (hp : 0 < p)
    (hrun : ∀ x, v < x → x < J → T x ≠ none) (d : ℕ) {x : ℕ} (hx : x + d + 1 = J) (hvx : v < x)
    {b : α} {q : ℕ} (h : T x = some (b, q)) : x + p ≤ J + q := by
  have hn := hc.near
  induction d generalizing x b q with
  | zero =>
    obtain ⟨c, r, hr, hle⟩ := hc.behind hp
    rw [hT.periodic (show (J + (n - 1)) % n = x % n by
      rw [← hx]; exact mod_succ_pred (by omega) x), h] at hr
    obtain ⟨rfl, rfl⟩ := Prod.mk.inj (Option.some.inj hr)
    omega
  | succ d ih =>
    obtain ⟨⟨c, r⟩, hr⟩ := Option.ne_none_iff_exists'.mp (hrun (x + 1) (by omega) (by omega))
    have hle := ih (x := x + 1) (by omega) (by omega) hr
    by_cases hr0 : r = 0
    · omega
    · obtain ⟨c', r', hr', hle'⟩ := (hT.standing hr).behind (by omega)
      rw [hT.periodic (mod_succ_pred (by omega) x), h] at hr'
      obtain ⟨rfl, rfl⟩ := Prod.mk.inj (Option.some.inj hr')
      omega

/-- The items of `T` and the carried item all come from the ring `T₀` of `m`
slots, where none was further than `B` from home. Then the carried item is not
further than `B` from home either. -/
theorem Carried.le_of_moved {m B : ℕ} (T₀ : Slots α) (hT : Ordered n home T) {j e : ℕ} {a : α}
    {p : ℕ} (hc : Carried n home T j a p) (he : T e = none) (hmn : m ∣ n)
    (honce : ∀ {i k b q r}, T i = some (b, q) → T k = some (b, r) → i % n = k % n)
    (hfresh : ∀ k q, T k ≠ some (a, q)) (hper : ∀ {i k}, i % m = k % m → T₀ i = T₀ k)
    (hold : ∀ b, (b = a ∨ ∃ k q, T k = some (b, q)) →
      ∃ s r, T₀ s = some (b, r) ∧ r ≤ B ∧ (home b + r) % m = s % m) : p ≤ B := by
  rcases Nat.eq_zero_or_pos p with rfl | hp
  · exact Nat.zero_le B
  have hn := hc.near
  let J := j + n
  have hJ : J % n = j % n := Nat.add_mod_right j n
  have hcJ : Carried n home T J a p :=
    ⟨hc.placed.trans hJ.symm, hn, fun h0 => by
      obtain ⟨b, q, hb, hle⟩ := hc.behind h0
      exact ⟨b, q, by rw [hT.periodic (mod_add_congr (n - 1) hJ), hb], hle⟩⟩
  obtain ⟨v, hvJ, hJv, hv, hrun⟩ := exists_last_vacant hT he (by omega) (show n ≤ J by omega)
  have hpJ : v + 1 + p ≤ J := by
    obtain ⟨b, q, hb, hle⟩ := hcJ.behind hp
    have hJ1 : (J + (n - 1)) % n = (J - 1) % n := by
      rw [show J + (n - 1) = J - 1 + n by omega, Nat.add_mod_right]
    rw [hT.periodic hJ1] at hb
    rcases Nat.eq_or_lt_of_le (show v ≤ J - 1 by omega) with hvJ' | hvJ'
    · rw [← hvJ', hv] at hb
      simp at hb
    · have := hT.le_of_run hv (J - 1 - (v + 1)) (b := b) (q := q)
        (by rw [show v + 1 + (J - 1 - (v + 1)) = J - 1 by omega, hb])
      omega
  -- `Stands x b`: the item `b` occupies place `x` of the run, or is carried just after it
  let Stands : ℕ → α → Prop := fun x b => (x < J ∧ ∃ q, T x = some (b, q)) ∨ (x = J ∧ b = a)
  have hwindow : ∀ x, v < x → x ≤ J → ∃ b u s r, Stands x b ∧ v + 1 ≤ u ∧ u ≤ J - p + B ∧
      T₀ s = some (b, r) ∧ u % m = s % m := by
    intro x hvx hxJ
    rcases Nat.eq_or_lt_of_le hxJ with rfl | hxJ
    · obtain ⟨s, r, hs, hr, hmod⟩ := hold a (Or.inl rfl)
      refine ⟨a, J - p + r, s, r, Or.inr ⟨rfl, rfl⟩, by omega, by omega, hs, ?_⟩
      rw [← hmod]
      refine Nat.ModEq.add_right r (Nat.ModEq.of_dvd hmn ?_)
      have hpl : home a + p ≡ J - p + p [MOD n] := by
        rw [Nat.sub_add_cancel (by omega)]
        exact hcJ.placed
      exact (Nat.ModEq.add_right_cancel' p hpl).symm
    · obtain ⟨⟨b, q⟩, hb⟩ := Option.ne_none_iff_exists'.mp (hrun x hvx hxJ)
      obtain ⟨s, r, hs, hr, hmod⟩ := hold b (Or.inr ⟨x, q, hb⟩)
      have hlow := hT.le_of_run hv (x - (v + 1)) (b := b) (q := q)
        (by rw [show v + 1 + (x - (v + 1)) = x by omega, hb])
      have hhigh := hcJ.home_le hT hp hrun (J - x - 1) (by omega) hvx hb
      refine ⟨b, x - q + r, s, r, Or.inl ⟨hxJ, q, hb⟩, by omega, by omega, hs, ?_⟩
      rw [← hmod]
      refine Nat.ModEq.add_right r (Nat.ModEq.of_dvd hmn ?_)
      have hpl : home b + q ≡ x - q + q [MOD n] := by
        rw [Nat.sub_add_cancel (by omega)]
        exact (hT.standing hb).placed
      exact (Nat.ModEq.add_right_cancel' q hpl).symm
  have : Nonempty α := ⟨a⟩
  choose! item window slot dist hitem using hwindow
  have hinj : Set.InjOn window (Finset.Icc (v + 1) J : Finset ℕ) := by
    intro x hx y hy hxy
    simp only [Finset.coe_Icc, Set.mem_Icc] at hx hy
    obtain ⟨hsx, -, -, htx, hmx⟩ := hitem x (by omega) hx.2
    obtain ⟨hsy, -, -, hty, hmy⟩ := hitem y (by omega) hy.2
    have hslots : slot x % m = slot y % m := by rw [← hmx, ← hmy, hxy]
    have hsame : item x = item y := by
      rw [hper hslots, hty] at htx
      exact (Prod.mk.inj (Option.some.inj htx)).1.symm
    rcases hsx with ⟨hxJ, q, hq⟩ | ⟨hxJ, hxa⟩ <;> rcases hsy with ⟨hyJ, r, hr⟩ | ⟨hyJ, hya⟩
    · rw [hsame] at hq
      have hxy' := honce hq hr
      rw [show x = v + (x - v) by omega, show y = v + (y - v) by omega] at hxy'
      have := turn_injective (by omega) (by omega) hxy'
      omega
    · exact absurd hq (by rw [hsame, hya]; exact hfresh x q)
    · exact absurd hr (by rw [← hsame, hxa]; exact hfresh y r)
    · omega
  have hmaps : ∀ x ∈ Finset.Icc (v + 1) J, window x ∈ Finset.Icc (v + 1) (J - p + B) := by
    intro x hx
    simp only [Finset.mem_Icc] at hx ⊢
    obtain ⟨-, hlow, hhigh, -⟩ := hitem x (by omega) hx.2
    exact ⟨hlow, hhigh⟩
  have hcard := Finset.card_le_card_of_injOn window hmaps hinj
  simp only [Nat.card_Icc] at hcard
  omega

end Libromano.Foundation.RobinHood
