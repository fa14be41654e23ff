/- Singly linked chains of cells in a store in which cells are only ever added. An address is the
   place of a cell in the store. -/

import Mathlib.Data.List.Nodup
import Mathlib.Data.List.Perm.Subperm

set_option autoImplicit false
set_option relaxedAutoImplicit false

namespace Libromano.Foundation.Chains

structure Cell (α : Type) where
  item : α
  next : Option ℕ

variable {α : Type} {cells cells' : List (Cell α)} {p q r : Option ℕ} {l l' l₂ : List (ℕ × α)}
  {a b : ℕ} {x y : α}

/-- The chain from one pointer to another, with the address and the item of each cell. -/
def Segment (cells : List (Cell α)) : Option ℕ → List (ℕ × α) → Option ℕ → Prop
  | p, [], q => p = q
  | p, (a, x) :: l, q => p = some a ∧ ∃ next, cells[a]? = some ⟨x, next⟩ ∧ Segment cells next l q

def addresses (l : List (ℕ × α)) : List ℕ := l.map Prod.fst

def items (l : List (ℕ × α)) : List α := l.map Prod.snd

@[simp] theorem addresses_append : addresses (l ++ l') = addresses l ++ addresses l' :=
  List.map_append

@[simp] theorem addresses_cons : addresses ((a, x) :: l) = a :: addresses l := rfl

theorem getLast?_addresses_append (h : l' ≠ []) :
    (addresses (l ++ l')).getLast? = (addresses l').getLast? := by
  rw [addresses_append]
  exact List.getLast?_append_of_ne_nil _ (List.map_eq_nil_iff.not.mpr h)

theorem items_append : items (l ++ l') = items l ++ items l' := List.map_append

theorem items_cons : items ((a, x) :: l) = x :: items l := rfl

theorem Segment.append : Segment cells p (l ++ l') q ↔
    ∃ r, Segment cells p l r ∧ Segment cells r l' q := by
  induction l generalizing p with
  | nil => simp [Segment]
  | cons head l ih =>
    obtain ⟨a, x⟩ := head
    simp only [List.cons_append, Segment, ih]
    constructor
    · rintro ⟨hp, next, hcell, r, hl, hl'⟩
      exact ⟨r, ⟨hp, next, hcell, hl⟩, hl'⟩
    · rintro ⟨r, ⟨hp, next, hcell, hl⟩, hl'⟩
      exact ⟨hp, next, hcell, r, hl, hl'⟩

theorem Segment.singleton : Segment cells p [(a, x)] q ↔
    p = some a ∧ cells[a]? = some ⟨x, q⟩ := by
  constructor
  · rintro ⟨hp, next, hcell, rfl⟩
    exact ⟨hp, hcell⟩
  · rintro ⟨hp, hcell⟩
    exact ⟨hp, q, hcell, rfl⟩

theorem Segment.lt (h : Segment cells p l q) : ∀ a ∈ addresses l, a < cells.length := by
  induction l generalizing p with
  | nil => exact List.forall_mem_nil _
  | cons head l ih =>
    obtain ⟨a, x⟩ := head
    obtain ⟨-, next, hcell, hl⟩ := h
    exact List.forall_mem_cons.mpr ⟨(List.getElem?_eq_some_iff.mp hcell).1, ih hl⟩

theorem Segment.frame (h : Segment cells p l q)
    (hsame : ∀ a ∈ addresses l, cells'[a]? = cells[a]?) : Segment cells' p l q := by
  induction l generalizing p with
  | nil => exact h
  | cons head l ih =>
    obtain ⟨a, x⟩ := head
    obtain ⟨hp, next, hcell, hl⟩ := h
    obtain ⟨ha, hsame⟩ := List.forall_mem_cons.mp hsame
    exact ⟨hp, next, ha.trans hcell, ih hl hsame⟩

theorem Segment.unique (h : Segment cells p l none) (h' : Segment cells p l' none) : l = l' := by
  induction l generalizing p l' with
  | nil =>
    cases l' with
    | nil => rfl
    | cons head l' => exact absurd (h.symm.trans h'.1) (Option.some_ne_none _).symm
  | cons head l ih =>
    obtain ⟨a, x⟩ := head
    obtain ⟨rfl, next, hcell, hl⟩ := h
    cases l' with
    | nil => exact absurd h' (Option.some_ne_none _)
    | cons head' l' =>
      obtain ⟨a', x'⟩ := head'
      obtain ⟨ha, next', hcell', hl'⟩ := h'
      cases ha
      cases hcell.symm.trans hcell'
      rw [ih hl hl']

theorem Segment.nodup (h : Segment cells p l none) : (addresses l).Nodup := by
  induction l generalizing p with
  | nil => exact List.nodup_nil
  | cons head l ih =>
    obtain ⟨a, x⟩ := head
    have hwhole := h
    obtain ⟨rfl, next, hcell, hl⟩ := h
    refine List.nodup_cons.mpr ⟨?_, ih hl⟩
    intro ha
    obtain ⟨⟨a', x'⟩, hmem, rfl⟩ := List.mem_map.mp ha
    obtain ⟨before, after, rfl⟩ := List.append_of_mem hmem
    obtain ⟨r, -, hafter⟩ := Segment.append.mp hl
    obtain rfl : r = some a' := hafter.1
    have hlength := congrArg List.length (hwhole.unique hafter)
    simp at hlength
    omega

theorem Segment.length_le (h : Segment cells p l none) : l.length ≤ cells.length := by
  have hsubset : addresses l ⊆ List.range cells.length := fun a ha => List.mem_range.mpr (h.lt a ha)
  have hle := (List.subperm_of_subset h.nodup hsubset).length_le
  rwa [addresses, List.length_map, List.length_range] at hle

def setNext (cells : List (Cell α)) (a : ℕ) (next : Option ℕ) : List (Cell α) :=
  cells.modify a fun cell => { cell with next := next }

@[simp] theorem length_setNext : (setNext cells a p).length = cells.length := by simp [setNext]

private theorem getElem?_setNext_self (h : cells[a]? = some ⟨x, p⟩) :
    (setNext cells a q)[a]? = some ⟨x, q⟩ := by
  simp [setNext, h]

theorem getElem?_setNext_ne (h : a ≠ b) : (setNext cells a q)[b]? = cells[b]? := by
  simp [setNext, h]

private theorem Segment.concat (h : Segment cells p l q) (cell : Cell α) :
    Segment (cells ++ [cell]) p l q :=
  h.frame fun a ha => List.getElem?_append_left (h.lt a ha)

private theorem Segment.setNext (h : Segment cells p l q) (ha : a ∉ addresses l) :
    Segment (setNext cells a r) p l q :=
  h.frame fun _ hb => getElem?_setNext_ne fun hab => ha (hab ▸ hb)

theorem Segment.link (h : Segment cells p (l ++ [(a, x)]) none) :
    Segment (Chains.setNext (cells ++ [⟨y, none⟩]) a (some cells.length)) p
      (l ++ [(a, x), (cells.length, y)]) none := by
  have hnodup := h.nodup
  have ha := h.lt a (by simp [addresses])
  obtain ⟨r, hl, hlast⟩ := Segment.append.mp h
  obtain ⟨hr, hcell⟩ := Segment.singleton.mp hlast
  have hfresh : a ∉ addresses l := by
    rw [addresses_append, List.nodup_append] at hnodup
    exact fun hmem => hnodup.2.2 a hmem a (by simp) rfl
  refine Segment.append.mpr ⟨r, (hl.concat _).setNext hfresh, hr, some cells.length, ?_, rfl, none,
    ?_, rfl⟩
  · refine getElem?_setNext_self (p := none) ?_
    rw [List.getElem?_append_left ha, hcell]
  · rw [getElem?_setNext_ne (Nat.ne_of_lt ha), List.getElem?_concat_length]

theorem Segment.relink (h : Segment cells p (l ++ (a, x) :: l') none) (hq : Segment cells q l₂ none)
    (ha : a ∉ addresses l₂) : Segment (Chains.setNext cells a q) p (l ++ (a, x) :: l₂) none := by
  have hnodup := h.nodup
  obtain ⟨r, hl, hr, next, hcell, -⟩ := Segment.append.mp h
  refine Segment.append.mpr ⟨r, hl.setNext ?_, hr, q, ?_, hq.setNext ha⟩
  · rw [addresses_append, List.nodup_append] at hnodup
    intro hmem
    exact hnodup.2.2 a hmem a (by simp) rfl
  · exact getElem?_setNext_self hcell

theorem Segment.unlink (h : Segment cells p (l ++ (a, x) :: (b, y) :: l') none) :
    ∃ next, cells[b]? = some ⟨y, next⟩ ∧
      Segment (Chains.setNext cells a next) p (l ++ (a, x) :: l') none := by
  have hnodup := h.nodup
  obtain ⟨-, -, -, -, -, -, next, hcell, hl'⟩ := Segment.append.mp h
  refine ⟨next, hcell, h.relink hl' ?_⟩
  rw [addresses_append, List.nodup_append] at hnodup
  have hrest := hnodup.2.1
  simp only [addresses_cons, List.nodup_cons, List.mem_cons, not_or] at hrest
  exact hrest.1.2

theorem Segment.eq_none_iff (h : Segment cells p l none) : p = none ↔ l = [] := by
  cases l with
  | nil => exact ⟨fun _ => rfl, fun _ => h⟩
  | cons head l => simp [h.1]

theorem Segment.eq_head? (h : Segment cells p l none) : p = (addresses l).head? := by
  cases l with
  | nil => exact h
  | cons head l => exact h.1

end Libromano.Foundation.Chains
