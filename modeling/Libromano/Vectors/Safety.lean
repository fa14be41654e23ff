/- Every access of a vector operation lies inside the allocation exactly when no allocation has
   wrapped around, nothing was shrunk and nothing is removed from a full vector. -/

import Libromano.Vectors.Invariant

set_option autoImplicit false
set_option relaxedAutoImplicit false

namespace Libromano.Vectors

/-- What is asked of a vector: the allocation holds the header and the capacity. -/
structure Holds (v : Vector) : Prop where
  allocated : headerSize + v.capacity * v.elementSize ≤ v.allocated
  size : v.size ≤ v.capacity

private theorem Inv.holds {v : Vector} (h : Inv v) : Holds v := ⟨h.allocated.ge, h.size⟩

/-- The sizes that the operation asks for do not wrap around. -/
def Op.Sized (v : Vector) : Op → Prop
  | .resize newCapacity =>
    newCapacity ≤ v.capacity ∨ headerSize + newCapacity * v.elementSize < 2 ^ 64
  | .shrinkToFit => False
  | _ => True

/-- There is room for the element behind the last, which a removal moves as well. -/
def Op.Roomy (v : Vector) : Op → Prop
  | .remove _ => v.size < v.capacity
  | .popFront => v.size < v.capacity
  | _ => True

/-- The step returns, its accesses are inside, and what is asked of a vector holds. -/
def Good (env : Unwritten) (v : Vector) (op : Op) : Prop :=
  ∃ v' accesses, step env v op = .ok (v', accesses) ∧ AllInside accesses ∧ Holds v'

section Step

variable {env : Unwritten} {v v' : Vector} {op : Op} {accesses : List Access}

/-- The invariant is kept by every step whose sizes do not wrap around. -/
theorem Inv.step (h : Inv v) (hallowed : op.Allowed v) (hsized : op.Sized v)
    (hstep : step env v op = .ok (v', accesses)) : Inv v' := by
  cases op with
  | pushBack element =>
    obtain ⟨⟨w, grown⟩, hgrow, hstep⟩ := bind_eq_ok.mp hstep
    cases hstep
    obtain ⟨-, hw, -, hroom⟩ := h.growIfFull hgrow
    exact ((hw.memcpy _ _).setSize hroom).1
  | emplaceBack element =>
    obtain ⟨⟨slot, w', grown'⟩, hemplace, hstep⟩ := bind_eq_ok.mp hstep
    cases hstep
    obtain ⟨⟨w, grown⟩, hgrow, hemplace⟩ := bind_eq_ok.mp hemplace
    cases hemplace
    obtain ⟨-, hw, -, hroom⟩ := h.growIfFull hgrow
    exact (hw.setSize hroom).1.memcpy _ _
  | insert element position =>
    obtain ⟨⟨w, grown⟩, hgrow, hstep⟩ := bind_eq_ok.mp hstep
    cases hstep
    obtain ⟨-, hw, -, hroom⟩ := h.growIfFull hgrow
    exact (((hw.memmove _ _ _ _).memcpy _ _).setSize hroom).1
  | remove position =>
    cases hstep
    have hmoved := h.memmove env (vectorAt v position) (vectorAt v position + v.elementSize)
      ((v.size - position) * v.elementSize % 2 ^ 64)
    exact (hmoved.setSize_pred (Nat.zero_lt_of_lt hallowed)).1
  | pop =>
    cases hstep
    exact (h.setSize_pred hallowed).1
  | popFront =>
    cases hstep
    exact (h.setSize_pred hallowed).1.memmove _ _ _ _
  | resize newCapacity =>
    by_cases hle : newCapacity ≤ v.capacity
    · simp only [Vectors.step, vectorResize, if_pos (Or.inr hle)] at hstep
      cases hstep
      exact h
    · exact (h.resize (Nat.not_le.mp hle) (hsized.resolve_left hle) hstep).2.1
  | shrinkToFit => exact hsized.elim

private theorem Inv.slot_inside (hw : Inv v') (h : Extends v v') {i n : ℕ}
    (hn : i + n ≤ v'.capacity) :
    (v'.access (vectorAt v' i) (n * v.elementSize)).Inside := by
  rw [← h.elementSize]
  exact hw.access_inside hn

private theorem Inv.step_inside (h : Inv v) (hallowed : op.Allowed v) (hsized : op.Sized v)
    (hroomy : op.Roomy v) (hstep : Vectors.step env v op = .ok (v', accesses)) :
    AllInside accesses := by
  cases op with
  | pushBack element =>
    obtain ⟨⟨w, grown⟩, hgrow, hstep⟩ := bind_eq_ok.mp hstep
    cases hstep
    obtain ⟨hinside, hw, hextends, hroom⟩ := h.growIfFull hgrow
    have hslot := hw.slot_inside (n := 1) hextends hroom
    rw [Nat.one_mul] at hslot
    refine hinside.append ?_
    intro a ha
    simp only [List.mem_cons, List.not_mem_nil, or_false] at ha
    rcases ha with rfl | rfl | rfl
    · exact hw.word_inside (by decide)
    · exact hslot
    · exact hw.word_inside (by decide)
  | emplaceBack element =>
    obtain ⟨⟨slot, w', grown'⟩, hemplace, hstep⟩ := bind_eq_ok.mp hstep
    cases hstep
    obtain ⟨⟨w, grown⟩, hgrow, hemplace⟩ := bind_eq_ok.mp hemplace
    cases hemplace
    obtain ⟨hinside, hw, hextends, hroom⟩ := h.growIfFull hgrow
    have hslot := hw.slot_inside (n := 1) hextends hroom
    rw [Nat.one_mul] at hslot
    refine (hinside.append ?_).append (List.forall_mem_singleton.mpr hslot)
    intro a ha
    simp only [List.mem_cons, List.not_mem_nil, or_false] at ha
    rcases ha with rfl | rfl
    · exact hw.word_inside (by decide)
    · exact hw.word_inside (by decide)
  | insert element position =>
    obtain ⟨⟨w, grown⟩, hgrow, hstep⟩ := bind_eq_ok.mp hstep
    cases hstep
    obtain ⟨hinside, hw, hextends, hroom⟩ := h.growIfFull hgrow
    have hposition : position ≤ v.size := hallowed.2
    have hmod := h.mul_mod (Nat.le_trans (Nat.sub_le v.size position) h.size)
    have hslot := hw.slot_inside (i := position) (n := 1) hextends (by omega)
    have hsource := hw.slot_inside (i := position) (n := v.size - position) hextends (by omega)
    have htarget := hw.slot_inside (i := position) (n := v.size - position + 1) hextends (by omega)
    rw [Nat.one_mul] at hslot
    refine hinside.append ?_
    intro a ha
    simp only [List.mem_cons, List.not_mem_nil, or_false, hmod] at ha
    rcases ha with rfl | rfl | rfl | rfl | rfl
    · exact hw.word_inside (by decide)
    · exact hsource
    · rw [Nat.succ_mul] at htarget
      simp only [Access.Inside, Vector.access] at htarget ⊢
      omega
    · exact hslot
    · exact hw.word_inside (by decide)
  | remove position =>
    cases hstep
    have hposition : position < v.size := hallowed
    have hroom : v.size < v.capacity := hroomy
    have hmod := h.mul_mod (Nat.le_trans (Nat.sub_le v.size position) h.size)
    have hsource := h.access_inside (i := position) (n := v.size - position + 1) (by omega)
    have htarget := h.access_inside (i := position) (n := v.size - position) (by omega)
    intro a ha
    simp only [List.mem_cons, List.not_mem_nil, or_false, hmod] at ha
    rcases ha with rfl | rfl | rfl | rfl
    · exact h.word_inside (by decide)
    · exact h.word_inside (by decide)
    · rw [Nat.succ_mul] at hsource
      simp only [Access.Inside, Vector.access] at hsource ⊢
      omega
    · exact htarget
  | pop =>
    cases hstep
    exact List.forall_mem_singleton.mpr (h.word_inside (by decide))
  | popFront =>
    cases hstep
    have hroom : v.size < v.capacity := hroomy
    have hmod := h.mul_mod h.size
    intro a ha
    simp only [List.mem_cons, List.not_mem_nil, or_false, hmod] at ha
    rcases ha with rfl | rfl | rfl | rfl
    · exact h.word_inside (by decide)
    · exact h.word_inside (by decide)
    · exact h.access_inside (by omega)
    · exact h.access_inside (by omega)
  | resize newCapacity =>
    by_cases hle : newCapacity ≤ v.capacity
    · simp only [Vectors.step, vectorResize, if_pos (Or.inr hle)] at hstep
      cases hstep
      exact List.forall_mem_cons.mpr ⟨h.word_inside (by decide),
        List.forall_mem_singleton.mpr (h.word_inside (by decide))⟩
    · exact (h.resize (Nat.not_le.mp hle) (hsized.resolve_left hle) hstep).1
  | shrinkToFit => exact hsized.elim

private theorem not_holds {n capacity : ℕ} (hrealloc : realloc env v n = .ok v')
    (hheader : headerSize ≤ v.allocated) (hn : n < headerSize + capacity * v.elementSize) :
    ¬Holds { v' with capacity := capacity } := by
  intro hholds
  obtain ⟨allocated, hmalloc, hrealloc⟩ := bind_eq_ok.mp hrealloc
  obtain ⟨hlt, rfl⟩ := malloc_eq_ok.mp hmalloc
  cases hrealloc
  have hle := hholds.allocated
  rw [headerSize] at hheader hn
  simp only [headerSize] at hle
  -- the element size is lost only when the allocation is smaller than the header
  rw [if_pos (by omega)] at hle
  omega

private theorem Inv.not_good (h : Inv v) (hallowed : op.Allowed v)
    (hbad : ¬(op.Sized v ∧ op.Roomy v)) :
    ¬Good env v op := by
  rintro ⟨v', accesses, hstep, hinside, hholds⟩
  cases op with
  | pushBack | emplaceBack | insert | pop => exact hbad ⟨trivial, trivial⟩
  | remove position =>
    cases hstep
    have hposition : position < v.size := hallowed
    have hfull : v.size = v.capacity :=
      Nat.le_antisymm h.size (Nat.not_lt.mp fun hroom => hbad ⟨trivial, hroom⟩)
    have hmod := h.mul_mod (Nat.le_trans (Nat.sub_le v.size position) h.size)
    have haccess := hinside (v.access (vectorAt v position + v.elementSize)
      ((v.size - position) * v.elementSize % 2 ^ 64)) (by simp)
    have hmul : position * v.elementSize + (v.size - position) * v.elementSize =
        v.capacity * v.elementSize := by
      rw [← Nat.add_mul, ← hfull]
      congr 1
      omega
    have hpos := h.elementSize
    rw [hmod, h.vectorAt_eq (by omega), Access.Inside, Vector.access, h.allocated] at haccess
    simp only at haccess
    omega
  | popFront =>
    cases hstep
    have hfull : v.size = v.capacity :=
      Nat.le_antisymm h.size (Nat.not_lt.mp fun hroom => hbad ⟨trivial, hroom⟩)
    have hmod := h.mul_mod h.size
    have haccess := hinside (v.access (vectorAt v 1) (v.size * v.elementSize % 2 ^ 64)) (by simp)
    have hpos := h.elementSize
    rw [hmod, h.vectorAt_eq h.capacity, Access.Inside, Vector.access, h.allocated, hfull] at haccess
    simp only at haccess
    omega
  | resize newCapacity =>
    have hlt : v.capacity < newCapacity :=
      Nat.not_le.mp fun hle => hbad ⟨.inl hle, trivial⟩
    have hwrap : 2 ^ 64 ≤ headerSize + newCapacity * v.elementSize :=
      Nat.not_lt.mp fun hsize => hbad ⟨.inr hsize, trivial⟩
    rw [Vectors.step, vectorResize, if_neg (by omega)] at hstep
    obtain ⟨w, hrealloc, hstep⟩ := bind_eq_ok.mp hstep
    cases hstep
    refine not_holds hrealloc h.header ?_ hholds
    exact (Nat.mod_lt _ (Nat.two_pow_pos 64)).trans_le hwrap
  | shrinkToFit =>
    obtain ⟨w, hrealloc, hstep⟩ := bind_eq_ok.mp hstep
    cases hstep
    refine not_holds hrealloc h.header ?_ hholds
    rw [h.mul_mod h.size]
    exact Nat.lt_add_of_pos_left (by decide)

/-- The invariant and what the accesses do, by the run. -/
private theorem Inv.along_good_iff (h : Inv v) {ops : List (Unwritten × Op)}
    (hallowed : Along (fun _ v op => op.Allowed v) v ops)
    (hreturns : Along (fun env v op => ∃ result, Vectors.step env v op = .ok result) v ops) :
    Along Good v ops ↔ Along (fun _ v op => op.Sized v ∧ op.Roomy v) v ops := by
  induction ops generalizing v with
  | nil => exact Iff.rfl
  | cons head ops ih =>
    obtain ⟨env, op⟩ := head
    obtain ⟨hop, hallowed⟩ := hallowed
    obtain ⟨⟨⟨v', accesses⟩, hstep⟩, hreturns⟩ := hreturns
    constructor
    · rintro ⟨hgood, hrest⟩
      have hfits : op.Sized v ∧ op.Roomy v := by
        by_contra hbad
        exact h.not_good hop hbad hgood
      refine ⟨hfits, ?_⟩
      intro w accesses hstep
      have hinv := h.step hop hfits.1 hstep
      exact (ih hinv (hallowed _ _ hstep) (hreturns _ _ hstep)).mp (hrest _ _ hstep)
    · rintro ⟨hfits, hrest⟩
      refine ⟨⟨v', accesses, hstep, h.step_inside hop hfits.1 hfits.2 hstep,
        (h.step hop hfits.1 hstep).holds⟩, ?_⟩
      intro w accesses hstep
      have hinv := h.step hop hfits.1 hstep
      exact (ih hinv (hallowed _ _ hstep) (hreturns _ _ hstep)).mpr (hrest _ _ hstep)

end Step

section New

variable {env : Unwritten} {initialCapacity elementSize : ℕ} {v : Vector} {accesses : List Access}

theorem vectorNew_ok (h : vectorNew env initialCapacity elementSize = .ok (v, accesses)) :
    v.size = 0 ∧ v.capacity = firstCapacity initialCapacity ∧ v.elementSize = elementSize ∧
      v.allocated = (headerSize + firstCapacity initialCapacity * elementSize) % 2 ^ 64 ∧
      v.allocated < 2 ^ 63 ∧ accesses = [v.sizeWord, v.capacityWord, v.elementSizeWord] := by
  obtain ⟨allocated, hmalloc, h⟩ := bind_eq_ok.mp h
  obtain ⟨hlt, rfl⟩ := malloc_eq_ok.mp hmalloc
  cases h
  exact ⟨rfl, rfl, rfl, rfl, hlt, rfl⟩

theorem inv_vectorNew (h : vectorNew env initialCapacity elementSize = .ok (v, accesses))
    (helement : 0 < elementSize)
    (hsize : headerSize + firstCapacity initialCapacity * elementSize < 2 ^ 64) :
    Inv v ∧ AllInside accesses := by
  obtain ⟨hzero, hcapacity, rfl, hallocated, hbounded, rfl⟩ := vectorNew_ok h
  have hpos : 0 < firstCapacity initialCapacity := by
    rw [firstCapacity]
    split_ifs <;> omega
  rw [Nat.mod_eq_of_lt hsize, ← hcapacity] at hallocated
  have hinv : Inv v := ⟨helement, hcapacity ▸ hpos, hallocated, hbounded, by omega⟩
  exact ⟨hinv, hinv.words_inside⟩

/-- Every range that a vector reads or writes lies inside its allocation, which
holds the header and the capacity, exactly when no size wraps around, nothing is
shrunk and nothing is removed from a full vector. -/
theorem vectorNew_good_iff (helement : 0 < elementSize)
    (hnew : vectorNew env initialCapacity elementSize = .ok (v, accesses))
    {ops : List (Unwritten × Op)} (hallowed : Along (fun _ v op => op.Allowed v) v ops)
    (hreturns : Along (fun env v op => ∃ result, step env v op = .ok result) v ops) :
    AllInside accesses ∧ Holds v ∧ Along Good v ops ↔
      headerSize + firstCapacity initialCapacity * elementSize < 2 ^ 64 ∧
        Along (fun _ v op => op.Sized v ∧ op.Roomy v) v ops := by
  constructor
  · rintro ⟨-, hholds, hgood⟩
    have hsize : headerSize + firstCapacity initialCapacity * elementSize < 2 ^ 64 := by
      obtain ⟨-, hcapacity, rfl, hallocated, -, -⟩ := vectorNew_ok hnew
      have hle := hholds.allocated
      rw [hcapacity, hallocated] at hle
      exact hle.trans_lt (Nat.mod_lt _ (Nat.two_pow_pos 64))
    obtain ⟨hinv, -⟩ := inv_vectorNew hnew helement hsize
    exact ⟨hsize, (hinv.along_good_iff hallowed hreturns).mp hgood⟩
  · rintro ⟨hsize, hfits⟩
    obtain ⟨hinv, hinside⟩ := inv_vectorNew hnew helement hsize
    exact ⟨hinside, hinv.holds, (hinv.along_good_iff hallowed hreturns).mpr hfits⟩

/-- An element is pushed into a vector of capacity two and removed again. -/
theorem vectorNew_good_iff_remove : ∃ v accesses,
    vectorNew ⟨fun _ => 0, fun _ => 0⟩ 2 1 = .ok (v, accesses) ∧
      AllInside accesses ∧ Holds v ∧
        Along Good v [(⟨fun _ => 0, fun _ => 0⟩, .pushBack [7]),
          (⟨fun _ => 0, fun _ => 0⟩, .remove 0)] := by
  have hnew : vectorNew ⟨fun _ => 0, fun _ => 0⟩ 2 1 = .ok (_, _) := rfl
  refine ⟨_, _, hnew, (vectorNew_good_iff Nat.zero_lt_one hnew ?_ ?_).mpr ⟨by decide, ?_⟩⟩
  · refine ⟨rfl, fun v' accesses hstep => ?_⟩
    cases hstep
    exact ⟨Nat.zero_lt_one, fun _ _ _ => trivial⟩
  · refine ⟨⟨_, rfl⟩, fun v' accesses hstep => ?_⟩
    cases hstep
    exact ⟨⟨_, rfl⟩, fun _ _ _ => trivial⟩
  · refine ⟨⟨trivial, trivial⟩, fun v' accesses hstep => ?_⟩
    cases hstep
    exact ⟨⟨trivial, Nat.one_lt_two⟩, fun _ _ _ => trivial⟩

/-- The only element of a vector of capacity one is removed. -/
theorem vectors_not_good :
    ¬∀ env initialCapacity elementSize v accesses ops, 0 < elementSize →
      vectorNew env initialCapacity elementSize = .ok (v, accesses) →
      Along (fun _ v op => op.Allowed v) v ops →
      Along (fun env v op => ∃ result, step env v op = .ok result) v ops →
      AllInside accesses ∧ Holds v ∧ Along Good v ops := by
  intro h
  have hnew : vectorNew ⟨fun _ => 0, fun _ => 0⟩ 1 1 = .ok (_, _) := rfl
  obtain ⟨-, -, -, hrest⟩ := h _ _ _ _ _ [(⟨fun _ => 0, fun _ => 0⟩, .pushBack [7]),
    (⟨fun _ => 0, fun _ => 0⟩, .popFront)] Nat.zero_lt_one hnew
    ⟨rfl, fun _ _ hstep => by cases hstep; exact ⟨Nat.zero_lt_one, fun _ _ _ => trivial⟩⟩
    ⟨⟨_, rfl⟩, fun _ _ hstep => by cases hstep; exact ⟨⟨_, rfl⟩, fun _ _ _ => trivial⟩⟩
  obtain ⟨hinv, -⟩ := inv_vectorNew hnew Nat.zero_lt_one (by decide)
  have hpushed := @Inv.step ⟨fun _ => 0, fun _ => 0⟩ _ _ (.pushBack [7]) _ hinv rfl trivial rfl
  refine hpushed.not_good ?_ ?_ (hrest _ _ rfl).1
  · exact Nat.zero_lt_one
  · exact fun hfits => Nat.lt_irrefl 1 hfits.2

end New

end Libromano.Vectors
