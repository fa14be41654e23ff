/- What a vector keeps from one operation to the next, as long as the size of no allocation wraps
   around, and what growing does. -/

import Libromano.Vectors.Model

set_option autoImplicit false
set_option relaxedAutoImplicit false

namespace Libromano.Vectors

open Foundation

/-- The allocation is as large as the header and the capacity ask for. -/
structure Inv (v : Vector) : Prop where
  elementSize : 0 < v.elementSize
  capacity : 0 < v.capacity
  allocated : v.allocated = headerSize + v.capacity * v.elementSize
  bounded : v.allocated < 2 ^ 63
  size : v.size ≤ v.capacity

structure Extends (v v' : Vector) : Prop where
  size : v'.size = v.size
  elementSize : v'.elementSize = v.elementSize
  capacity : v.capacity ≤ v'.capacity
  bytes : ∀ i < v.allocated, v'.bytes i = v.bytes i

private theorem Extends.refl (v : Vector) : Extends v v := ⟨rfl, rfl, Nat.le_refl _, fun _ _ => rfl⟩

def AllInside (accesses : List Access) : Prop := ∀ a ∈ accesses, a.Inside

theorem AllInside.append {p q : List Access} (hp : AllInside p) (hq : AllInside q) :
    AllInside (p ++ q) :=
  List.forall_mem_append.mpr ⟨hp, hq⟩

private theorem grownCapacity_bounds {capacity : ℕ} (h : 0 < capacity) :
    capacity < grownCapacity capacity ∧ grownCapacity capacity ≤ 2 * capacity := by
  obtain ⟨hle, hge⟩ := Significand.round_error 24 capacity
  obtain ⟨hle', hge'⟩ := Significand.round_error 24
    (Significand.round 24 capacity * goldenRatioSignificand)
  rw [grownCapacity, goldenRatioSignificand] at *
  by_cases hone : capacity = 1
  · subst hone
    decide
  · omega

section Inv

variable {v : Vector}

theorem Inv.mul_le (h : Inv v) {n : ℕ} (hn : n ≤ v.capacity) :
    headerSize + n * v.elementSize ≤ v.allocated := by
  rw [h.allocated]
  exact Nat.add_le_add_left (Nat.mul_le_mul_right _ hn) _

theorem Inv.vectorAt_eq (h : Inv v) {i : ℕ} (hi : i ≤ v.capacity) :
    vectorAt v i = headerSize + i * v.elementSize := by
  have hle := h.mul_le hi
  have hlt := h.bounded
  rw [vectorAt, Nat.mod_eq_of_lt (by omega)]

theorem Inv.mul_mod (h : Inv v) {n : ℕ} (hn : n ≤ v.capacity) :
    n * v.elementSize % 2 ^ 64 = n * v.elementSize := by
  have hle := h.mul_le hn
  have hlt := h.bounded
  exact Nat.mod_eq_of_lt (by omega)

theorem Inv.header (h : Inv v) : headerSize ≤ v.allocated := by
  rw [h.allocated]
  exact Nat.le_add_right _ _

theorem Inv.word_inside (h : Inv v) {start : ℕ} (hstart : start ≤ 16) :
    (v.access start 8).Inside := by
  have hheader := h.header
  simp only [Access.Inside, Vector.access, headerSize] at hheader ⊢
  omega

theorem Inv.words_inside (h : Inv v) :
    AllInside [v.sizeWord, v.capacityWord, v.elementSizeWord] := by
  intro a ha
  simp only [List.mem_cons, List.not_mem_nil, or_false] at ha
  rcases ha with rfl | rfl | rfl
  · exact h.word_inside (by decide)
  · exact h.word_inside (by decide)
  · exact h.word_inside (by decide)

theorem Inv.access_inside (h : Inv v) {i n : ℕ} (hn : i + n ≤ v.capacity) :
    (v.access (vectorAt v i) (n * v.elementSize)).Inside := by
  have hle := h.mul_le hn
  rw [Access.Inside, Vector.access, h.vectorAt_eq (by omega)]
  rw [Nat.add_mul] at hle
  simp only
  omega

theorem Inv.setSize (h : Inv v) {n : ℕ} (hn : n ≤ v.capacity) :
    Inv (v.setSize n) ∧ (v.setSize n).size = n := by
  have hmod : n % 2 ^ 64 = n := by
    have hle := h.mul_le hn
    have hlt := h.bounded
    have hsize := Nat.le_mul_of_pos_right n h.elementSize
    exact Nat.mod_eq_of_lt (by omega)
  refine ⟨{ h with size := ?_ }, hmod⟩
  rw [Vector.setSize, hmod]
  exact hn

theorem Inv.setSize_pred (h : Inv v) (hpos : 0 < v.size) :
    Inv (v.setSize (sizePred v.size)) ∧ (v.setSize (sizePred v.size)).size = v.size - 1 := by
  have hle : v.size - 1 ≤ v.capacity := Nat.le_trans (Nat.sub_le _ _) h.size
  rw [sizePred, if_neg hpos.ne']
  exact h.setSize hle

theorem Inv.memcpy (h : Inv v) (dst : ℕ) (data : List UInt8) : Inv (v.memcpy dst data) :=
  { h with }

theorem Inv.memmove (h : Inv v) (env : Unwritten) (dst src n : ℕ) :
    Inv (v.memmove env dst src n) :=
  { h with }

end Inv

section Resize

variable {env : Unwritten} {v v' : Vector} {accesses : List Access}

theorem malloc_eq_ok {n m : ℕ} : malloc n = .ok m ↔ n < 2 ^ 63 ∧ n = m := by
  rw [malloc]
  split_ifs with h
  · exact ⟨fun hm => ⟨h, Except.ok.inj hm⟩, fun hm => congrArg _ hm.2⟩
  · exact ⟨fun hm => (nomatch hm), fun hm => absurd hm.1 h⟩

private theorem realloc_ok {n : ℕ} (h : realloc env v n = .ok v')
    (hheader : headerSize ≤ v.allocated)
    (hn : v.allocated ≤ n) :
    n < 2 ^ 63 ∧ v'.allocated = n ∧ v'.size = v.size ∧ v'.capacity = v.capacity ∧
      v'.elementSize = v.elementSize ∧ ∀ i < v.allocated, v'.bytes i = v.bytes i := by
  obtain ⟨allocated, hmalloc, h⟩ := bind_eq_ok.mp h
  obtain ⟨hlt, rfl⟩ := malloc_eq_ok.mp hmalloc
  cases h
  rw [headerSize] at hheader
  have hmin : min v.allocated n = v.allocated := Nat.min_eq_left hn
  refine ⟨hlt, rfl, ?_, ?_, ?_, ?_⟩
  · exact if_pos (by omega)
  · exact if_pos (by omega)
  · exact if_pos (by omega)
  · exact fun i hi => if_pos (by omega)

theorem Inv.resize (h : Inv v) {n : ℕ} (hn : v.capacity < n)
    (hsize : headerSize + n * v.elementSize < 2 ^ 64)
    (hresize : vectorResize env v n = .ok (v', accesses)) :
    AllInside accesses ∧ Inv v' ∧ Extends v v' ∧ v'.capacity = n := by
  rw [vectorResize, if_neg (by omega), allocationSize, Nat.mod_eq_of_lt hsize] at hresize
  obtain ⟨w, hrealloc, hresize⟩ := bind_eq_ok.mp hresize
  cases hresize
  have hle : v.allocated ≤ headerSize + n * v.elementSize := by
    rw [h.allocated]
    exact Nat.add_le_add_left (Nat.mul_le_mul_right _ hn.le) _
  obtain ⟨hlt, hallocated, hsize', -, helement, hbytes⟩ := realloc_ok hrealloc h.header hle
  have hinv : Inv { w with capacity := n } := by
    refine ⟨?_, Nat.zero_lt_of_lt hn, ?_, ?_, ?_⟩
    · exact helement ▸ h.elementSize
    · simp only [hallocated, helement]
    · exact hallocated ▸ hlt
    · simp only [hsize']
      exact h.size.trans hn.le
  refine ⟨?_, hinv, ⟨hsize', helement, hn.le, hbytes⟩, rfl⟩
  intro a ha
  simp only [List.mem_append, List.mem_cons, List.not_mem_nil, or_false] at ha
  rcases ha with (rfl | rfl) | rfl
  · exact h.word_inside (by decide)
  · exact h.word_inside (by decide)
  · exact hinv.word_inside (by decide)

theorem Inv.growIfFull (h : Inv v) (hgrow : growIfFull env v = .ok (v', accesses)) :
    AllInside accesses ∧ Inv v' ∧ Extends v v' ∧ v.size < v'.capacity := by
  rw [Vectors.growIfFull] at hgrow
  split_ifs at hgrow with hfull
  · obtain ⟨⟨w, grown⟩, hgrown, hgrow⟩ := bind_eq_ok.mp hgrow
    cases hgrow
    obtain ⟨⟨w', resized⟩, hresize, hgrown⟩ := bind_eq_ok.mp hgrown
    cases hgrown
    obtain ⟨hgt, hle⟩ := grownCapacity_bounds h.capacity
    have hbound : headerSize + grownCapacity v.capacity * v.elementSize < 2 ^ 64 := by
      have hlt := h.bounded
      have hmul := Nat.mul_le_mul_right v.elementSize hle
      rw [h.allocated] at hlt
      rw [Nat.mul_assoc] at hmul
      omega
    have hmod : grownCapacity v.capacity % 2 ^ 64 = grownCapacity v.capacity := by
      have hsize := Nat.le_mul_of_pos_right (grownCapacity v.capacity) h.elementSize
      exact Nat.mod_eq_of_lt (by omega)
    rw [hmod] at hresize
    obtain ⟨hinside, hinv, hextends, hcapacity⟩ := h.resize hgt hbound hresize
    refine ⟨h.words_inside.append ?_, hinv, hextends, by rw [hcapacity, ← hfull]; exact hgt⟩
    exact List.forall_mem_cons.mpr ⟨h.word_inside (by decide), hinside⟩
  · cases hgrow
    exact ⟨h.words_inside, h, .refl v, Nat.lt_of_le_of_ne h.size (Ne.symm hfull)⟩

end Resize

end Libromano.Vectors
