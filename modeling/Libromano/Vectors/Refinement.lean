/- The elements of a vector change as those of a list do, and `vectorFind` looks for the first of
   them. -/

import Libromano.Vectors.Safety

set_option autoImplicit false
set_option relaxedAutoImplicit false

namespace Libromano.Vectors

open Foundation

/-- The byte strings of the elements, as they are read. -/
def elements (env : Unwritten) (v : Vector) : List (List UInt8) :=
  (List.range v.size).map (element env v)

/-- What the operation does to a list. -/
def Op.apply (l : List (List UInt8)) : Op → List (List UInt8)
  | .pushBack element => l ++ [element]
  | .emplaceBack element => l ++ [element]
  | .insert element position => l.insertIdx position element
  | .remove position => l.eraseIdx position
  | .pop => l.dropLast
  | .popFront => l.tail
  | .resize _ => l
  | .shrinkToFit => l

def run (v : Vector) (ops : List (Unwritten × Op)) : Except Fault Vector :=
  ops.foldlM (fun v (env, op) => Prod.fst <$> step env v op) v

section Elements

variable {env : Unwritten} {v v' : Vector} {op : Op} {accesses : List Access}

def Vector.records (v : Vector) : List (List UInt8) :=
  Slots.slots v.bytes headerSize v.elementSize v.size

private theorem Inv.cell_lt (h : Inv v) {i k : ℕ} (hi : i < v.capacity) (hk : k < v.elementSize) :
    headerSize + i * v.elementSize + k < v.allocated := by
  have hle := h.mul_le (Nat.succ_le_of_lt hi)
  rw [Nat.succ_mul] at hle
  omega

private theorem Inv.slot_contents (h : Inv v) (env : Unwritten) {i : ℕ} (hi : i < v.capacity) :
    Slots.slot (v.contents env) headerSize v.elementSize i =
      Slots.slot v.bytes headerSize v.elementSize i :=
  Slots.slot_congr fun _ hk => if_pos (h.cell_lt hi hk)

private theorem Inv.elements_eq (h : Inv v) (env : Unwritten) : elements env v = v.records := by
  apply List.map_congr_left
  intro i hi
  have hlt : i < v.capacity := (List.mem_range.mp hi).trans_le h.size
  rw [← h.slot_contents env hlt, element, h.vectorAt_eq hlt.le]
  rfl

private theorem Extends.records (h : Inv v) (hextends : Extends v v') : v'.records = v.records := by
  rw [Vector.records, Vector.records, hextends.size, hextends.elementSize]
  refine Slots.slots_congr fun i hi => Slots.slot_congr fun k hk => ?_
  exact hextends.bytes _ (h.cell_lt (hi.trans_le h.size) hk)

private theorem records_setSize {n size : ℕ} (h : (v.setSize n).size = size) :
    (v.setSize n).records = Slots.slots v.bytes headerSize v.elementSize size := by
  rw [Vector.records, h]
  rfl

private theorem length_records : v.records.length = v.size := Slots.length_slots _

private theorem Inv.records_push (hw : Inv v') (h : Inv v) (hextends : Extends v v')
    (hroom : v.size < v'.capacity) {data : List UInt8} (hdata : data.length = v.elementSize) :
    ((v'.memcpy (vectorAt v' v.size) data).setSize (v.size + 1)).records = v.records ++ [data] := by
  rw [← hextends.elementSize] at hdata
  rw [← hextends.records h, records_setSize ((hw.memcpy _ _).setSize hroom).2,
    hw.vectorAt_eq hroom.le]
  refine (Slots.slots_push hdata v.size).trans ?_
  rw [Vector.records, hextends.size]

/-- The step lemma: the elements change as the list does. -/
private theorem Inv.step_records (h : Inv v) (hallowed : op.Allowed v) (hsized : op.Sized v)
    (hstep : Vectors.step env v op = .ok (v', accesses)) : v'.records = op.apply v.records := by
  cases op with
  | pushBack element =>
    obtain ⟨⟨w, grown⟩, hgrow, hstep⟩ := bind_eq_ok.mp hstep
    cases hstep
    obtain ⟨-, hw, hextends, hroom⟩ := h.growIfFull hgrow
    exact hw.records_push h hextends hroom hallowed
  | emplaceBack element =>
    obtain ⟨⟨slot, w', grown'⟩, hemplace, hstep⟩ := bind_eq_ok.mp hstep
    cases hstep
    obtain ⟨⟨w, grown⟩, hgrow, hemplace⟩ := bind_eq_ok.mp hemplace
    cases hemplace
    obtain ⟨-, hw, hextends, hroom⟩ := h.growIfFull hgrow
    exact hw.records_push h hextends hroom hallowed
  | insert element position =>
    obtain ⟨⟨w, grown⟩, hgrow, hstep⟩ := bind_eq_ok.mp hstep
    cases hstep
    obtain ⟨-, hw, hextends, hroom⟩ := h.growIfFull hgrow
    obtain ⟨hdata, hposition⟩ := hallowed
    have hroom' : position ≤ w.capacity := hposition.trans hroom.le
    have hmod := h.mul_mod (Nat.le_trans (Nat.sub_le v.size position) h.size)
    have hnext : headerSize + position * w.elementSize + v.elementSize =
        headerSize + (position + 1) * w.elementSize := by
      rw [Nat.succ_mul, ← Nat.add_assoc, hextends.elementSize]
    rw [← hextends.elementSize] at hdata
    have hrecords : v.records = Slots.slots w.bytes headerSize w.elementSize v.size := by
      rw [← hextends.records h, Vector.records, hextends.size]
    rw [Op.apply, hrecords, hmod,
      records_setSize (((hw.memmove _ _ _ _).memcpy _ _).setSize hroom).2,
      hw.vectorAt_eq hroom', hnext, ← hextends.elementSize]
    apply Slots.slots_insert hdata hposition
    intro i hi
    exact hw.slot_contents env (hi.trans hroom)
  | remove position =>
    cases hstep
    have hposition : position < v.size := hallowed
    have hmod := h.mul_mod (Nat.le_trans (Nat.sub_le v.size position) h.size)
    have hmoved := h.memmove env (vectorAt v position) (vectorAt v position + v.elementSize)
      ((v.size - position) * v.elementSize)
    have hnext : headerSize + position * v.elementSize + v.elementSize =
        headerSize + (position + 1) * v.elementSize := by
      rw [Nat.succ_mul, Nat.add_assoc]
    rw [hmod]
    refine (records_setSize (hmoved.setSize_pred (Nat.zero_lt_of_lt hposition)).2).trans ?_
    rw [h.vectorAt_eq (hposition.le.trans h.size), hnext]
    exact Slots.slots_erase hposition fun i hi => h.slot_contents env (hi.trans_le h.size)
  | pop =>
    cases hstep
    exact (records_setSize (h.setSize_pred hallowed).2).trans (Slots.slots_dropLast v.size)
  | popFront =>
    cases hstep
    have hpos : 0 < v.size := hallowed
    obtain ⟨-, hsize⟩ := h.setSize_pred hpos
    rw [h.mul_mod h.size, h.vectorAt_eq (Nat.zero_le _), h.vectorAt_eq h.capacity, Op.apply,
      ← List.eraseIdx_zero, Vector.records, Vector.memmove, hsize]
    exact Slots.slots_erase hpos fun i hi => h.slot_contents env (hi.trans_le h.size)
  | resize newCapacity =>
    by_cases hle : newCapacity ≤ v.capacity
    · simp only [Vectors.step, vectorResize, if_pos (Or.inr hle)] at hstep
      cases hstep
      rfl
    · obtain ⟨-, -, hextends, -⟩ :=
        h.resize (Nat.not_le.mp hle) (hsized.resolve_left hle) hstep
      exact hextends.records h
  | shrinkToFit => exact hsized.elim

private theorem findLoop_eq (value : List UInt8) {turns i : ℕ} :
    findLoop env v value turns i =
      (((List.range' i turns).map (element env v)).findIdx? (· = value)).elim vectorNotFound
        (i + ·) := by
  induction turns generalizing i with
  | zero => rfl
  | succ turns ih =>
    rw [findLoop, List.range'_succ, List.map_cons, List.findIdx?_cons]
    by_cases heq : element env v i = value
    · simp [heq]
    · rw [if_neg (Ne.symm heq), ih]
      cases hfound : ((List.range' (i + 1) turns).map (element env v)).findIdx? (· = value) with
      | none => simp [heq]
      | some k =>
        simp [heq]
        omega

private theorem vectorFind_eq (env : Unwritten) (v : Vector) (value : List UInt8) :
    vectorFind env v value =
      ((elements env v).findIdx? (· = value)).getD vectorNotFound := by
  rw [vectorFind, findLoop_eq, elements, List.range_eq_range']
  cases ((List.range' 0 v.size).map (element env v)).findIdx? (· = value) with
  | none => rfl
  | some k => simp

/-- The run lemma. -/
private theorem Inv.run_records (h : Inv v) {ops : List (Unwritten × Op)}
    (hallowed : Along (fun _ v op => op.Allowed v) v ops)
    (hsized : Along (fun _ v op => op.Sized v) v ops) (hrun : run v ops = .ok v') :
    Inv v' ∧ v'.records = ops.foldl (fun l op => op.2.apply l) v.records := by
  induction ops generalizing v with
  | nil =>
    cases hrun
    exact ⟨h, rfl⟩
  | cons head ops ih =>
    obtain ⟨env, op⟩ := head
    obtain ⟨hop, hallowed⟩ := hallowed
    obtain ⟨hsize, hsized⟩ := hsized
    rw [run, List.foldlM_cons] at hrun
    obtain ⟨w, hmap, hrun⟩ := bind_eq_ok.mp hrun
    cases hstep : Vectors.step env v op with
    | error e =>
      simp only [hstep] at hmap
      cases hmap
    | ok result =>
      obtain ⟨w', accesses⟩ := result
      simp only [hstep] at hmap
      cases hmap
      have hinv := h.step hop hsize hstep
      obtain ⟨hlast, hrecords⟩ := ih hinv (hallowed _ _ hstep) (hsized _ _ hstep) hrun
      refine ⟨hlast, ?_⟩
      rw [hrecords, h.step_records hop hsize hstep, List.foldl_cons]

private theorem realloc_yields {n : ℕ} : Yields (realloc env v n) fun _ => True := by
  have hmalloc : Yields (malloc n) fun _ => True := by
    rw [malloc]
    split_ifs
    · exact trivial
    · exact Yields.noMemory
  exact hmalloc.bind fun _ _ => trivial

private theorem vectorResize_yields {n : ℕ} : Yields (vectorResize env v n) fun _ => True := by
  rw [vectorResize]
  split_ifs
  · exact trivial
  · exact realloc_yields.bind fun _ _ => trivial

private theorem growIfFull_yields : Yields (growIfFull env v) fun _ => True := by
  have hgrow : Yields (vectorGrow env v) fun _ => True :=
    vectorResize_yields.bind fun ⟨_, _⟩ _ => trivial
  rw [growIfFull]
  split_ifs
  · exact hgrow.bind fun ⟨_, _⟩ _ => trivial
  · exact trivial

private theorem step_yields : Yields (step env v op) fun _ => True := by
  cases op with
  | pushBack element => exact growIfFull_yields.bind fun ⟨_, _⟩ _ => trivial
  | emplaceBack element =>
    have hemplace : Yields (vectorEmplaceBack env v) fun _ => True :=
      growIfFull_yields.bind fun ⟨_, _⟩ _ => trivial
    exact hemplace.bind fun ⟨_, _, _⟩ _ => trivial
  | insert element position => exact growIfFull_yields.bind fun ⟨_, _⟩ _ => trivial
  | remove | pop | popFront => exact trivial
  | resize newCapacity => exact vectorResize_yields
  | shrinkToFit => exact realloc_yields.bind fun _ _ => trivial

private theorem run_yields {ops : List (Unwritten × Op)} :
    Yields (run v ops) fun v' => run v ops = .ok v' := by
  have hreturns : Yields (run v ops) fun _ => True := by
    refine Yields.foldlM (fun _ _ => True) (fun head _ w _ => ?_) trivial
    have hstep : Yields (step head.1 w head.2) fun _ => True := step_yields
    cases hresult : step head.1 w head.2 with
    | error e =>
      rw [hresult] at hstep
      simp only [hresult]
      exact hstep
    | ok result =>
      simp only [hresult]
      exact trivial
  exact hreturns.mono fun _ hrun _ => hrun

end Elements

/-- In a run in which no size wraps around, the elements are those of the list,
whatever is read behind the allocation, and the search finds the first of them. -/
theorem vectorNew_refines {env : Unwritten} {initialCapacity elementSize : ℕ} {v : Vector}
    {accesses : List Access} {ops : List (Unwritten × Op)} (helement : 0 < elementSize)
    (hnew : vectorNew env initialCapacity elementSize = .ok (v, accesses))
    (hallowed : Along (fun _ v op => op.Allowed v) v ops)
    (hsize : headerSize + firstCapacity initialCapacity * elementSize < 2 ^ 64)
    (hsized : Along (fun _ v op => op.Sized v) v ops) :
    Yields (run v ops) fun v' => ∀ env',
      elements env' v' = ops.foldl (fun l op => op.2.apply l) [] ∧
        ∀ value, vectorFind env' v' value =
          ((ops.foldl (fun l op => op.2.apply l) []).findIdx? (· = value)).getD vectorNotFound := by
  obtain ⟨hinv, -⟩ := inv_vectorNew hnew helement hsize
  have hempty : v.records = [] := by
    rw [← List.length_eq_zero_iff, length_records]
    exact (vectorNew_ok hnew).1
  apply run_yields.mono
  intro v' _ hrun env'
  obtain ⟨hlast, hrecords⟩ := hinv.run_records hallowed hsized hrun
  have helements : elements env' v' = ops.foldl (fun l op => op.2.apply l) [] := by
    rw [hlast.elements_eq, hrecords, hempty]
  refine ⟨helements, ?_⟩
  intro value
  rw [vectorFind_eq, helements]

/-- The first element is removed from a full vector. -/
theorem vectorNew_refines_remove : ∃ v v' accesses,
    vectorNew ⟨fun _ => 0, fun _ => 0⟩ 2 1 = .ok (v, accesses) ∧
      run v [(⟨fun _ => 0, fun _ => 0⟩, .pushBack [7]), (⟨fun _ => 0, fun _ => 0⟩, .pushBack [9]),
        (⟨fun _ => 0, fun _ => 0⟩, .remove 0)] = .ok v' ∧
      elements ⟨fun _ => 0, fun _ => 5⟩ v' = [[9]] := by
  have hnew : vectorNew ⟨fun _ => 0, fun _ => 0⟩ 2 1 = .ok (_, _) := rfl
  refine ⟨_, _, _, hnew, rfl, ?_⟩
  have hyields := @vectorNew_refines ⟨fun _ => 0, fun _ => 0⟩ 2 1 _ _
    [(⟨fun _ => 0, fun _ => 0⟩, .pushBack [7]), (⟨fun _ => 0, fun _ => 0⟩, .pushBack [9]),
      (⟨fun _ => 0, fun _ => 0⟩, .remove 0)] Nat.zero_lt_one hnew ?_ (by decide) ?_
  · exact (hyields.of_ok rfl ⟨fun _ => 0, fun _ => 5⟩).1
  · refine ⟨rfl, fun _ _ h => ?_⟩
    cases h
    refine ⟨rfl, fun _ _ h => ?_⟩
    cases h
    exact ⟨Nat.zero_lt_two, fun _ _ _ => trivial⟩
  · exact ⟨trivial, fun _ _ _ => ⟨trivial, fun _ _ _ => ⟨trivial, fun _ _ _ => trivial⟩⟩⟩

/-- The size of a vector of `2 ^ 61` elements of eight bytes wraps around to that
of its header, and what is pushed into it is lost. -/
theorem vectors_not_refine :
    ¬∀ env initialCapacity elementSize v accesses ops, 0 < elementSize →
      vectorNew env initialCapacity elementSize = .ok (v, accesses) →
      Along (fun _ v op => op.Allowed v ∧ op ≠ .shrinkToFit) v ops →
      Yields (run v ops) fun v' => ∀ env',
        elements env' v' = ops.foldl (fun l op => op.2.apply l) [] := by
  intro h
  have hnew : vectorNew ⟨fun _ => 0, fun _ => 0⟩ (2 ^ 61) 8 = .ok (_, _) := rfl
  have hrun := h _ _ _ _ _ [(⟨fun _ => 0, fun _ => 0⟩, .pushBack [1, 1, 1, 1, 1, 1, 1, 1])]
    (by decide) hnew ⟨⟨rfl, by simp⟩, fun _ _ _ => trivial⟩
  have helements := Yields.of_ok hrun rfl ⟨fun _ => 0, fun _ => 0⟩
  exact absurd helements (by decide)

end Libromano.Vectors
