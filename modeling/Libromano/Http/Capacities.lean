/- Buffers of any initial capacity, and runs of calls on them. Memory is granted. -/

import Libromano.Foundation.Objects
import Libromano.Http.Buffers

set_option autoImplicit false
set_option relaxedAutoImplicit false

namespace Libromano.Http

open Bytes Foundation.Objects

def bufferInit (initialCapacity : ℕ) : Buffer := ⟨initialCapacity, []⟩

/-- `emplace` is `buffer_prepare_emplace`, after which some data are written at `buffer_back`
and `buffer_emplace_size` is called with their size. -/
inductive BufferOp
  | append (data : List UInt8)
  | emplace (n : ℕ) (data : List UInt8)
  | reset

def bufferStep (buffer : Buffer) : BufferOp → Except Fault Buffer
  | .append data => do
    let appended ← bufferAppend buffer data data.length
    .ok (appended.getD buffer)
  | .emplace n data => do
    match ← bufferCheckResize buffer n with
    | none => .ok buffer
    | some buffer => buffer.write data
  | .reset => .ok (bufferReset buffer)

def collect (_ : Buffer) (op : BufferOp) (content : List UInt8) : List UInt8 :=
  match op with
  | .append data => content ++ data
  | .emplace _ data => content ++ data
  | .reset => []

def content : Spec Buffer BufferOp (List UInt8) where
  Shows buffer content := buffer.bytes = content ∧ buffer.bytes.length ≤ buffer.capacity
  apply := collect
  Effect _ _ _ := True

/-- The number of bytes for which a call makes room. -/
def BufferOp.asked : BufferOp → ℕ
  | .append data => data.length
  | .emplace n _ => n
  | .reset => 0

/-- No more is written than was asked for, and the size stays below `2 ^ 62`. -/
def BufferOp.Allowed (buffer : Buffer) (op : BufferOp) : Prop :=
  buffer.bytes.length + op.asked < 2 ^ 62 ∧
    match op with
    | .emplace n data => data.length ≤ n
    | _ => True

variable {buffer : Buffer} {needed capacity n : ℕ} {data : List UInt8} {op : BufferOp}
  {ops : List BufferOp}

private theorem doubled_zero (hneeded : 0 < needed) (fuel : ℕ) :
    doubled needed fuel 0 = .error .diverges := by
  induction fuel with
  | zero => rfl
  | succ fuel ih =>
    have hbelow : 0 < int64Max := by decide
    rw [doubled, if_pos ⟨hneeded, hbelow⟩, Nat.zero_mul]
    exact ih

private theorem doubled_ends (hneeded : needed ≤ 2 ^ 62) (fuel : ℕ) (hpos : 0 < capacity)
    (hfuel : needed ≤ capacity * 2 ^ fuel) :
    ∃ capacity', doubled needed (fuel + 1) capacity = .ok capacity' ∧ needed ≤ capacity' ∧
      capacity ≤ capacity' ∧ (capacity' = capacity ∨ capacity' ≤ int64Max) := by
  have hmax : int64Max = 2 ^ 63 - 1 := rfl
  induction fuel generalizing capacity with
  | zero =>
    rw [Nat.pow_zero, Nat.mul_one] at hfuel
    refine ⟨capacity, ?_, hfuel, Nat.le_refl _, .inl rfl⟩
    rw [doubled, if_neg fun h => Nat.not_lt.mpr hfuel h.1]
  | succ fuel ih =>
    by_cases hless : capacity < needed
    · have hmore : needed ≤ capacity * 2 * 2 ^ fuel := by
        rwa [Nat.mul_assoc, ← Nat.pow_succ']
      obtain ⟨capacity', hdoubled, hneeded', hle, hobject⟩ := ih (by omega) hmore
      refine ⟨capacity', ?_, hneeded', by omega, .inr (by omega)⟩
      rw [doubled, if_pos ⟨hless, by omega⟩]
      exact hdoubled
    · refine ⟨capacity, ?_, Nat.le_of_not_lt hless, Nat.le_refl _, .inl rfl⟩
      rw [doubled, if_neg fun h => hless h.1]

private theorem checkResize_room (hpos : 0 < buffer.capacity)
    (hsize : buffer.bytes.length + n < 2 ^ 62) :
    ∃ capacity', bufferCheckResize buffer n = .ok (some { buffer with capacity := capacity' }) ∧
      0 < capacity' ∧ buffer.bytes.length + n ≤ capacity' := by
  by_cases hfull : buffer.capacity ≤ buffer.bytes.length + n
  · have hfuel : buffer.bytes.length + n ≤ buffer.capacity * 2 ^ 63 := by
      have hone : 1 * 2 ^ 63 ≤ buffer.capacity * 2 ^ 63 := Nat.mul_le_mul_right _ hpos
      omega
    obtain ⟨capacity', hdoubled, hroom, hle, hobject⟩ :=
      doubled_ends (Nat.le_of_lt hsize) 63 hpos hfuel
    have hmax : int64Max = 2 ^ 63 - 1 := rfl
    refine ⟨capacity', ?_, by omega, hroom⟩
    rw [bufferCheckResize, if_pos hfull, bufferResize, hdoubled, bind_ok, if_pos (by omega)]
  · exact ⟨buffer.capacity, if_neg hfull, hpos, by omega⟩

private theorem bufferStep_room (hpos : 0 < buffer.capacity) (hallowed : op.Allowed buffer) :
    ∃ buffer', bufferStep buffer op = .ok buffer' ∧ 0 < buffer'.capacity ∧
      buffer'.bytes = collect buffer op buffer.bytes ∧
      buffer'.bytes.length ≤ buffer'.capacity := by
  obtain ⟨hsize, hdata⟩ := hallowed
  cases op with
  | append data =>
    rw [BufferOp.asked] at hsize
    obtain ⟨capacity', hresize, hpos', hroom⟩ := checkResize_room hpos hsize
    have hread : bytesAt data 0 data.length = .ok data := by
      simpa using bytesAt_append [] data [] rfl rfl
    refine ⟨⟨capacity', buffer.bytes ++ data⟩, ?_, hpos', rfl, ?_⟩
    · have hwrite : ({ buffer with capacity := capacity' } : Buffer).write data =
          .ok ⟨capacity', buffer.bytes ++ data⟩ := if_pos hroom
      simp only [bufferStep, bufferAppend, hresize, bind_ok, hread, hwrite, Option.getD_some]
    · rw [List.length_append]
      exact hroom
  | emplace n data =>
    rw [BufferOp.asked] at hsize
    obtain ⟨capacity', hresize, hpos', hroom⟩ := checkResize_room hpos hsize
    have hroom' : buffer.bytes.length + data.length ≤ capacity' :=
      Nat.le_trans (Nat.add_le_add_left hdata _) hroom
    refine ⟨⟨capacity', buffer.bytes ++ data⟩, ?_, hpos', rfl, ?_⟩
    · have hwrite : ({ buffer with capacity := capacity' } : Buffer).write data =
          .ok ⟨capacity', buffer.bytes ++ data⟩ := if_pos hroom'
      simp only [bufferStep, hresize, bind_ok, hwrite]
    · rw [List.length_append]
      exact hroom'
  | reset => exact ⟨bufferReset buffer, rfl, hpos, rfl, Nat.zero_le _⟩

private theorem bufferStep_zero (hallowed : op.Allowed (bufferInit 0)) :
    bufferStep (bufferInit 0) op =
      if op.asked = 0 then .ok (bufferInit 0) else .error .diverges := by
  have hresize : ∀ n, bufferCheckResize (bufferInit 0) n =
      if n = 0 then .ok (some (bufferInit 0)) else .error .diverges := by
    intro n
    have hfull : (bufferInit 0).capacity ≤ (bufferInit 0).bytes.length + n := Nat.zero_le _
    rw [bufferCheckResize, if_pos hfull, bufferResize]
    by_cases hn : n = 0
    · subst hn
      rfl
    · have hdoubled : doubled ((bufferInit 0).bytes.length + n) 64 (bufferInit 0).capacity =
          .error .diverges := doubled_zero (by omega) 64
      rw [hdoubled, if_neg hn]
      rfl
  cases op with
  | append data =>
    rw [bufferStep, bufferAppend, hresize, BufferOp.asked]
    by_cases hn : data.length = 0
    · obtain rfl := List.length_eq_zero_iff.mp hn
      rfl
    · rw [if_neg hn, if_neg hn]
      rfl
  | emplace n data =>
    rw [bufferStep, hresize, BufferOp.asked]
    by_cases hn : n = 0
    · obtain rfl := List.length_eq_zero_iff.mp (Nat.le_zero.mp (hn ▸ hallowed.2))
      rw [if_pos hn, if_pos hn]
      rfl
    · rw [if_neg hn, if_neg hn]
      rfl
  | reset => rfl

private theorem behaves_of_pos {bytes : List UInt8} (hpos : 0 < buffer.capacity)
    (hbytes : buffer.bytes = bytes) (hfits : buffer.bytes.length ≤ buffer.capacity)
    (hallowed : Along bufferStep (fun buffer op => op.Allowed buffer) buffer ops) :
    Behaves bufferStep content buffer bytes ops := by
  refine Behaves.of_along (Q := fun _ _ => True)
    (I := fun buffer bytes => 0 < buffer.capacity ∧ buffer.bytes = bytes ∧
      buffer.bytes.length ≤ buffer.capacity) ?_ ?_ ⟨hpos, hbytes, hfits⟩ hallowed
    (along_of_forall fun _ _ => trivial)
  · rintro buffer bytes ⟨-, hbytes, hfits⟩
    exact ⟨hbytes, hfits⟩
  · rintro buffer bytes op ⟨hpos, rfl, -⟩ hallowed -
    obtain ⟨buffer', hstep, hpos', hbytes', hfits'⟩ := bufferStep_room hpos hallowed
    exact ⟨buffer', hstep, trivial, hpos', hbytes', hfits'⟩

private theorem behaves_zero_iff
    (hallowed : Along bufferStep (fun buffer op => op.Allowed buffer) (bufferInit 0) ops) :
    Behaves bufferStep content (bufferInit 0) [] ops ↔ ∀ op ∈ ops, op.asked = 0 := by
  induction ops with
  | nil => exact iff_of_true ⟨rfl, Nat.le_refl 0⟩ (by simp)
  | cons op ops ih =>
    obtain ⟨hop, hallowed⟩ := hallowed
    have hstep := bufferStep_zero hop
    rw [List.forall_mem_cons]
    by_cases hasked : op.asked = 0
    · rw [if_pos hasked] at hstep
      have hcollect : collect (bufferInit 0) op [] = [] := by
        cases op with
        | append data => exact List.length_eq_zero_iff.mp hasked
        | emplace n data =>
          exact List.length_eq_zero_iff.mp (Nat.le_zero.mp (hasked ▸ hop.2))
        | reset => rfl
      have hrest := ih (hallowed _ hstep)
      rw [behaves_cons hstep, and_iff_right hasked, ← hrest]
      show _ ∧ True ∧ Behaves bufferStep content (bufferInit 0) (collect (bufferInit 0) op []) ops ↔ _
      rw [hcollect, and_iff_right trivial]
      exact and_iff_right ⟨rfl, Nat.le_refl 0⟩
    · rw [if_neg hasked] at hstep
      refine iff_of_false ?_ fun h => hasked h.1
      rintro ⟨-, buffer', hstep', -⟩
      rw [hstep] at hstep'
      cases hstep'

/-- A buffer holds what was added to it, unless it began without capacity and a byte is asked
for. -/
theorem bufferInit_behaves_iff (initialCapacity : ℕ) (ops : List BufferOp)
    (hallowed : Along bufferStep (fun buffer op => op.Allowed buffer) (bufferInit initialCapacity)
      ops) :
    Behaves bufferStep content (bufferInit initialCapacity) [] ops ↔
      initialCapacity ≠ 0 ∨ ∀ op ∈ ops, op.asked = 0 := by
  by_cases hzero : initialCapacity = 0
  · subst hzero
    rw [behaves_zero_iff hallowed, or_iff_right (not_not.mpr rfl)]
  · refine iff_of_true ?_ (.inl hzero)
    exact behaves_of_pos (Nat.pos_of_ne_zero hzero) rfl (Nat.zero_le _) hallowed

theorem bufferInit_behaves_iff_one :
    Behaves bufferStep content (bufferInit 1) [] [.append [7], .reset] ↔
      1 ≠ 0 ∨ ∀ op ∈ [BufferOp.append [7], .reset], op.asked = 0 :=
  bufferInit_behaves_iff 1 [.append [7], .reset]
    ⟨⟨by decide, trivial⟩, fun _ hstep => by cases hstep; exact ⟨⟨by decide, trivial⟩, fun _ _ => trivial⟩⟩

/-- The loop does not end. -/
theorem buffers_not_behave :
    bufferStep (bufferInit 0) (.append [7]) = .error .diverges ∧
    (∀ fuel, doubled 1 fuel 0 = .error .diverges) ∧
    ¬Behaves bufferStep content (bufferInit 0) [] [.append [7]] := by
  have hstep : bufferStep (bufferInit 0) (.append [7]) = .error .diverges :=
    (bufferStep_zero ⟨by decide, trivial⟩).trans (if_neg (by decide))
  refine ⟨hstep, doubled_zero (Nat.lt_succ_self 0), ?_⟩
  rintro ⟨-, buffer', hstep', -⟩
  rw [hstep] at hstep'
  cases hstep'

end Libromano.Http
