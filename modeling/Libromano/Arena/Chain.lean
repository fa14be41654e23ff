/- The chain of the blocks of an arena, and what `arena_release` frees. Only the links to previous
   blocks are ever set. -/

import Libromano.Arena.Runs
import Libromano.Foundation.Objects
import Mathlib.Algebra.BigOperators.Group.List.Basic
import Mathlib.Data.List.Perm.Basic

set_option autoImplicit false
set_option relaxedAutoImplicit false

namespace Libromano.ArenaBlocks

open Foundation.Objects

/-- The loops over the blocks before and behind the current one. A link is read before its
block is freed. -/
def freeLoop (link : ArenaBlock → Option ℕ) (m : Memory) :
    ℕ → Option ℕ → Except Fault (List ℕ)
  | _, none => .ok []
  | 0, some _ => .error .diverges
  | fuel + 1, some block => do
    let header ← m.header block
    let freed ← freeLoop link m fuel (link header)
    .ok (block :: freed)

def arenaRelease (m : Memory) (arena : Arena) : Except Fault (List ℕ) := do
  let current ← m.header arena.currentBlock
  let previous ← freeLoop ArenaBlock.previous m m.allocations.length current.previous
  let next ← freeLoop ArenaBlock.next m m.allocations.length current.next
  .ok (previous ++ next ++ [arena.currentBlock])

def Linked (m : Memory) (block block' : ℕ) : Prop :=
  ∃ a, m.allocations[block]? = some a ∧
    (a.header.previous = some block' ∨ a.header.next = some block')

structure Found (s : State) : Prop where
  linked : ∀ block < s.memory.allocations.length,
    Relation.ReflTransGen (Linked s.memory) s.arena.currentBlock block
  freed : ∃ blocks, arenaRelease s.memory s.arena = .ok blocks ∧
    blocks.Perm (List.range s.memory.allocations.length)

def State.capacities (s : State) : ℕ := (s.memory.allocations.map (·.header.capacity)).sum

def Allocation.fixed (a : Allocation) : ℕ × Option ℕ × Option ℕ :=
  (a.header.capacity, a.header.previous, a.header.next)

def Memory.fixed (m : Memory) : List (ℕ × Option ℕ × Option ℕ) := m.allocations.map Allocation.fixed

variable {m m' : Memory} {arena arena' : Arena} {s s' : State} {r : Request} {granted : Bool}
  {blockSize : ℕ}

private theorem fixed_setOffset (m : Memory) (block offset : ℕ) :
    (m.setOffset block offset).fixed = m.fixed := by
  apply List.ext_getElem?
  intro b
  rw [Memory.fixed, Memory.fixed, List.getElem?_map, List.getElem?_map, getElem?_setOffset]
  cases m.allocations[b]? with
  | none => rfl
  | some a => by_cases hb : block = b <;> simp [hb, Allocation.fixed]

private theorem arenaResize_ok (h : arenaResize m arena granted = .ok (some (arena', m'))) :
    m'.fixed = m.fixed ++ [(arena.blockSize, some arena.currentBlock, none)] ∧
      arena' = ⟨m.allocations.length, (arena.capacity + arena.blockSize) % 2 ^ 64,
        arena.blockSize⟩ := by
  obtain ⟨⟨made, m₁⟩, hinit, h⟩ := bind_eq_ok.mp h
  unfold arenaBlockInit at hinit
  dsimp only at hinit
  split at hinit
  case isFalse =>
    cases hinit
    cases h
  case isTrue =>
    split at hinit
    case isFalse => cases hinit
    case isTrue =>
      cases hinit
      cases h
      refine ⟨?_, rfl⟩
      simp only [Memory.fixed, modify_concat, List.map_append, List.map_singleton]
      rfl

private theorem step_push_ok (h : step s (.push r granted) = .ok s') :
    s'.arena.blockSize = s.arena.blockSize ∧
    ((s'.memory.fixed = s.memory.fixed ∧ s'.arena = s.arena) ∨
      (s'.memory.fixed = s.memory.fixed ++ [(s.arena.blockSize, some s.arena.currentBlock, none)] ∧
        s'.arena = ⟨s.memory.allocations.length, (s.arena.capacity + s.arena.blockSize) % 2 ^ 64,
          s.arena.blockSize⟩)) := by
  obtain ⟨pushed, hpush, h⟩ := bind_eq_ok.mp h
  obtain ⟨current, -, hpush⟩ := bind_eq_ok.mp hpush
  have hlast {m₁ : Memory} {arena₁ : Arena} {pushed : Option (Region × Arena × Memory)}
      (hcurrent : some <$> ArenaBlocks.pushCurrent m₁ arena₁ r = .ok pushed) :
      ∃ region m', pushed = some (region, arena₁, m') ∧ m'.fixed = m₁.fixed := by
    cases hdone : ArenaBlocks.pushCurrent m₁ arena₁ r with
    | error fault =>
      rw [hdone] at hcurrent
      cases hcurrent
    | ok done =>
      rw [hdone] at hcurrent
      cases hcurrent
      obtain ⟨region, arena₂, m'⟩ := done
      obtain ⟨current, -, -, rfl, hallocations⟩ := pushCurrent_ok hdone
      refine ⟨region, m', rfl, ?_⟩
      rw [Memory.fixed, hallocations]
      exact fixed_setOffset _ _ _
  split at hpush
  case isTrue =>
    obtain ⟨resized, hresize, hpush⟩ := bind_eq_ok.mp hpush
    cases resized with
    | none =>
      cases hpush
      cases h
      exact ⟨rfl, .inl ⟨rfl, rfl⟩⟩
    | some made =>
      obtain ⟨arena₁, m₁⟩ := made
      obtain ⟨hfixed, rfl⟩ := arenaResize_ok hresize
      obtain ⟨region, m', rfl, hfixed'⟩ := hlast hpush
      cases h
      exact ⟨rfl, .inr ⟨hfixed'.trans hfixed, rfl⟩⟩
  case isFalse =>
    obtain ⟨region, m', rfl, hfixed'⟩ := hlast hpush
    cases h
    exact ⟨rfl, .inl ⟨hfixed', rfl⟩⟩

private theorem clearLoop_fixed {fuel current first : ℕ}
    (h : clearLoop fuel m current = .ok (first, m')) :
    m'.fixed = m.fixed := by
  induction fuel generalizing m current with
  | zero => cases h
  | succ fuel ih =>
    obtain ⟨block, -, h⟩ := bind_eq_ok.mp h
    split at h
    case h_1 =>
      cases h
      exact fixed_setOffset _ _ _
    case h_2 previous hprevious => exact (ih h).trans (fixed_setOffset _ _ _)

private theorem step_clear_ok (h : step s .clear = .ok s') :
    s'.memory.fixed = s.memory.fixed ∧ s'.arena.blockSize = s.arena.blockSize ∧
      s'.arena.capacity = s.arena.capacity := by
  obtain ⟨⟨arena', m'⟩, hclear, h⟩ := bind_eq_ok.mp h
  cases h
  obtain ⟨⟨first, m''⟩, hloop, hclear⟩ := bind_eq_ok.mp hclear
  cases hclear
  exact ⟨clearLoop_fixed hloop, rfl, rfl⟩

def prior : ℕ → Option ℕ
  | 0 => none
  | block + 1 => some block

/-- The current block is the last one, and each leads to the one before. -/
structure Chained (blockSize : ℕ) (s : State) : Prop where
  last : s.arena.currentBlock + 1 = s.memory.allocations.length
  size : s.arena.blockSize = blockSize
  fixed : s.memory.fixed =
    (List.range s.memory.allocations.length).map fun block => (blockSize, prior block, none)

private theorem length_fixed (m : Memory) : m.fixed.length = m.allocations.length :=
  List.length_map _

private theorem exists_chained {n b : ℕ}
    (h : m.fixed = (List.range n).map fun block => (blockSize, prior block, none)) (hb : b < n) :
    ∃ a, m.allocations[b]? = some a ∧ a.header.previous = prior b ∧ a.header.next = none := by
  have hget := congrArg (·[b]?) h
  simp only [Memory.fixed, List.getElem?_map, List.getElem?_range hb, Option.map_some] at hget
  obtain ⟨a, ha, hfixed⟩ := Option.map_eq_some_iff.mp hget
  refine ⟨a, ha, ?_, ?_⟩
  · exact congrArg (·.2.1) hfixed
  · exact congrArg (·.2.2) hfixed

private theorem freeLoop_chained {n : ℕ}
    (h : m.fixed = (List.range n).map fun block => (blockSize, prior block, none)) {k fuel : ℕ}
    (hk : k ≤ n) (hfuel : k ≤ fuel) :
    freeLoop ArenaBlock.previous m fuel (prior k) = .ok (List.range k).reverse := by
  induction k generalizing fuel with
  | zero => cases fuel <;> rfl
  | succ k ih =>
    obtain ⟨fuel, rfl⟩ : ∃ fuel', fuel = fuel' + 1 := ⟨fuel - 1, by omega⟩
    obtain ⟨a, ha, hprevious, -⟩ := exists_chained h hk
    rw [prior, freeLoop, header_eq ha, bind_ok, hprevious, ih (by omega) (by omega), bind_ok,
      List.range_succ, List.reverse_append, List.reverse_singleton, List.singleton_append]

private theorem Chained.found (h : Chained blockSize s) : Found s := by
  have hlast := h.last
  refine ⟨?_, ?_⟩
  · intro block hblock
    -- from the last block on, one link after the other
    have hpath : ∀ k, block ≤ k → k < s.memory.allocations.length →
        Relation.ReflTransGen (Linked s.memory) k block := by
      intro k hk
      induction k, hk using Nat.le_induction with
      | base => exact fun _ => .refl
      | succ k hk ih =>
        intro hlt
        obtain ⟨a, ha, hprevious, -⟩ := exists_chained h.fixed hlt
        exact .head ⟨a, ha, .inl hprevious⟩ (ih (by omega))
    exact hpath _ (by omega) (by omega)
  · obtain ⟨a, ha, hprevious, hnext⟩ :=
      exists_chained (b := s.arena.currentBlock) h.fixed (by omega)
    refine ⟨(List.range s.arena.currentBlock).reverse ++ [] ++ [s.arena.currentBlock], ?_, ?_⟩
    · have hnone : freeLoop ArenaBlock.next s.memory s.memory.allocations.length none = .ok [] := by
        cases s.memory.allocations.length <;> rfl
      rw [arenaRelease, header_eq ha, bind_ok, hprevious,
        freeLoop_chained h.fixed (by omega) (by omega), bind_ok, hnext, hnone, bind_ok]
    · rw [List.append_nil, ← hlast, List.range_succ]
      exact (List.reverse_perm _).append_right _

/-- The call is not a clear that goes back over a link. -/
def NoStepBack (s : State) : Op → Prop
  | .push _ _ => True
  | .clear => ∀ a, s.memory.allocations[s.arena.currentBlock]? = some a → a.header.previous = none

private theorem Chained.push (h : Chained blockSize s) (hstep : step s (.push r granted) = .ok s') :
    Chained blockSize s' := by
  obtain ⟨hsize, ⟨hfixed, harena⟩ | ⟨hfixed, harena⟩⟩ := step_push_ok hstep
  · have hlength : s'.memory.allocations.length = s.memory.allocations.length := by
      rw [← length_fixed, hfixed, length_fixed]
    refine ⟨?_, hsize.trans h.size, ?_⟩
    · rw [harena, hlength, h.last]
    · rw [hfixed, hlength, h.fixed]
  · have hlength : s'.memory.allocations.length = s.memory.allocations.length + 1 := by
      rw [← length_fixed, hfixed, List.length_append, length_fixed, List.length_singleton]
    have hprior : prior s.memory.allocations.length = some s.arena.currentBlock := by
      rw [← h.last]
      rfl
    refine ⟨?_, hsize.trans h.size, ?_⟩
    · rw [harena, hlength]
    · rw [hfixed, hlength, h.fixed, List.range_succ, List.map_append, List.map_singleton, hprior,
        h.size]

private theorem Chained.clear (h : Chained blockSize s) (hback : NoStepBack s .clear)
    (hstep : step s .clear = .ok s') : Chained blockSize s' := by
  obtain ⟨a, ha, -, -⟩ :=
    exists_chained (b := s.arena.currentBlock) h.fixed (by have := h.last; omega)
  have hloop : clearLoop s.memory.allocations.length s.memory s.arena.currentBlock =
      .ok (s.arena.currentBlock, s.memory.setOffset s.arena.currentBlock 0) := by
    rw [← h.last, clearLoop, header_eq ha, bind_ok, hback a ha]
  rw [step, arenaClear, hloop] at hstep
  cases hstep
  refine ⟨?_, h.size, ?_⟩
  · rw [length_setOffset, h.last]
  · rw [length_setOffset, fixed_setOffset, h.fixed]

private theorem clearLoop_chained {n : ℕ}
    (h : m.fixed = (List.range n).map fun block => (blockSize, prior block, none)) {fuel k : ℕ}
    (hk : k < n) (hfuel : k < fuel) : ∃ m', clearLoop fuel m k = .ok (0, m') := by
  induction fuel generalizing m k with
  | zero => exact absurd hfuel (Nat.not_lt_zero _)
  | succ fuel ih =>
    obtain ⟨a, ha, hprevious, -⟩ := exists_chained h hk
    rw [clearLoop, header_eq ha, bind_ok, hprevious]
    cases k with
    | zero => exact ⟨_, rfl⟩
    | succ k => exact ih ((fixed_setOffset _ _ _).trans h) (by omega) (by omega)

private theorem Chained.not_found (h : Chained blockSize s) (hback : ¬NoStepBack s .clear) :
    ∃ s', step s .clear = .ok s' ∧ ¬Found s' := by
  have hlast := h.last
  have hmany : 1 < s.memory.allocations.length := by
    obtain ⟨a, ha, hprevious, -⟩ :=
      exists_chained (b := s.arena.currentBlock) h.fixed (by omega)
    by_contra hfew
    apply hback
    intro a' ha'
    cases ha.symm.trans ha'
    have hzero : s.arena.currentBlock = 0 := by omega
    rw [hprevious, hzero]
    rfl
  have hcurrent : s.arena.currentBlock < s.memory.allocations.length := by omega
  obtain ⟨m', hloop⟩ := clearLoop_chained h.fixed hcurrent hcurrent
  refine ⟨⟨m', { s.arena with currentBlock := 0 }, []⟩, ?_, ?_⟩
  · rw [step, arenaClear, hloop]
    rfl
  · intro hfound
    have hfixed := clearLoop_fixed hloop
    have hlength : m'.allocations.length = s.memory.allocations.length := by
      rw [← length_fixed, hfixed, length_fixed]
    obtain heq | ⟨block, ⟨a, ha, hlink⟩, -⟩ :=
      (hfound.linked 1 (by rw [hlength]; exact hmany)).cases_head
    · cases heq
    · obtain ⟨a', ha', hprevious, hnext⟩ :=
        exists_chained (m := m') (hfixed.trans h.fixed) (Nat.zero_lt_of_lt hmany)
      cases ha.symm.trans ha'
      rw [hprevious, hnext] at hlink
      obtain hlink | hlink := hlink <;> cases hlink

/-- Every block has the same capacity, and the arena counts them. -/
structure Counted (blockSize : ℕ) (s : State) : Prop where
  size : s.arena.blockSize = blockSize
  blocks : ∀ fixed ∈ s.memory.fixed, fixed.1 = blockSize
  count : s.arena.capacity = s.memory.allocations.length * blockSize % 2 ^ 64

private theorem Counted.capacities (h : Counted blockSize s) :
    s.capacities = s.memory.allocations.length * blockSize := by
  have hcapacity : ∀ a ∈ s.memory.allocations, a.header.capacity = blockSize :=
    fun a ha => h.blocks _ (List.mem_map_of_mem ha)
  rw [State.capacities, List.map_congr_left hcapacity, List.map_const', List.sum_const_nat]

private theorem Counted.capacity_iff (h : Counted blockSize s) :
    s.arena.capacity = s.capacities ↔ s.capacities < 2 ^ 64 := by
  rw [h.count, ← h.capacities]
  exact Nat.mod_eq_iff_lt (by decide)

private theorem Counted.step (h : Counted blockSize s) {op : Op} (hstep : step s op = .ok s') :
    Counted blockSize s' := by
  cases op with
  | push r granted =>
    obtain ⟨hsize, ⟨hfixed, harena⟩ | ⟨hfixed, harena⟩⟩ := step_push_ok hstep
    · refine ⟨hsize.trans h.size, hfixed ▸ h.blocks, ?_⟩
      rw [harena, h.count, ← length_fixed, ← length_fixed s'.memory, hfixed]
    · refine ⟨hsize.trans h.size, ?_, ?_⟩
      · rw [hfixed]
        exact List.forall_mem_append.mpr ⟨h.blocks, List.forall_mem_singleton.mpr h.size⟩
      · rw [harena, ← length_fixed s'.memory, hfixed, List.length_append, length_fixed,
          List.length_singleton, Nat.succ_mul, h.count, h.size, Nat.mod_add_mod]
  | clear =>
    obtain ⟨hfixed, hsize, hcapacity⟩ := step_clear_ok hstep
    refine ⟨hsize.trans h.size, hfixed ▸ h.blocks, ?_⟩
    rw [hcapacity, h.count, ← length_fixed, ← length_fixed s'.memory, hfixed]

/-- The blocks are all found, and their capacities are those that the arena counts. -/
def Intact (s : State) : Prop := Found s ∧ s.arena.capacity = s.capacities

private theorem arenaInit_ok {bytes : ℕ → ℕ → UInt8} (hsize : blockSize < 2 ^ 64)
    (h : arenaInit bytes granted blockSize = .ok (some (arena, m))) :
    Chained blockSize ⟨m, arena, []⟩ ∧ Counted blockSize ⟨m, arena, []⟩ := by
  obtain ⟨⟨made, m₁⟩, hinit, h⟩ := bind_eq_ok.mp h
  unfold arenaBlockInit at hinit
  dsimp only at hinit
  split at hinit
  case isFalse =>
    cases hinit
    cases h
  case isTrue =>
    split at hinit
    case isFalse => cases hinit
    case isTrue =>
      cases hinit
      cases h
      have hcount : blockSize = 1 * blockSize % 2 ^ 64 := by
        rw [Nat.one_mul, Nat.mod_eq_of_lt hsize]
      exact ⟨⟨rfl, rfl, rfl⟩, rfl, by simp [Memory.fixed, Allocation.fixed], hcount⟩

/-- The blocks stay in the chain exactly as long as no clear goes back over a link; and they
have less than `2 ^ 64` bytes together, as far as the count goes. -/
theorem arenaInit_intact_iff (bytes : ℕ → ℕ → UInt8) (hsize : blockSize < 2 ^ 64)
    (hinit : arenaInit bytes granted blockSize = .ok (some (arena, m))) (ops : List Op) :
    Throughout step Intact ⟨m, arena, []⟩ ops ↔
      Along step NoStepBack ⟨m, arena, []⟩ ops ∧
        Throughout step (fun s => s.capacities < 2 ^ 64) ⟨m, arena, []⟩ ops := by
  obtain ⟨hchained, hcounted⟩ := arenaInit_ok hsize hinit
  unfold Intact
  rw [throughout_and]
  refine and_congr ?_ ?_
  · refine throughout_iff_along (I := Chained blockSize) (fun s h => h.found) ?_ ?_ hchained
    · intro s op s' h hfits hstep
      cases op with
      | push r granted => exact h.push hstep
      | clear => exact h.clear hfits hstep
    · intro s op h hmisfits
      cases op with
      | push r granted => exact absurd trivial hmisfits
      | clear => exact h.not_found hmisfits
  · exact throughout_congr (I := Counted blockSize) (fun s h => h.capacity_iff)
      (fun s op s' h hstep => h.step hstep) hcounted

theorem arenaInit_intact_iff_push : ∃ arena m,
    arenaInit (fun _ _ => 0) true 16 = .ok (some (arena, m)) ∧
    (Throughout step Intact ⟨m, arena, []⟩ [.push (textRequest 15) true] ↔
      Along step NoStepBack ⟨m, arena, []⟩ [.push (textRequest 15) true] ∧
        Throughout step (fun s => s.capacities < 2 ^ 64) ⟨m, arena, []⟩
          [.push (textRequest 15) true]) := by
  have hinit : arenaInit (fun _ _ => 0) true 16 = .ok (some (_, _)) := rfl
  exact ⟨_, _, hinit, arenaInit_intact_iff (fun _ _ => 0) (by decide) hinit _⟩

/-- The second block is lost when the arena is cleared. -/
theorem arenas_not_intact : ∃ arena m,
    arenaInit (fun _ _ => 0) true 16 = .ok (some (arena, m)) ∧
    ¬Throughout step Intact ⟨m, arena, []⟩ [.push (textRequest 15) true, .clear] := by
  refine ⟨_, _, rfl, ?_⟩
  rintro ⟨-, hrest⟩
  obtain ⟨-, hrest⟩ := hrest _ rfl
  have hinit := arenaInit_ok (by decide : 16 < 2 ^ 64)
    (rfl : arenaInit (fun _ _ => 0) true 16 = .ok (some (_, _)))
  have hpush := hinit.1.push (rfl : step _ (.push (textRequest 15) true) = .ok _)
  obtain ⟨s', hstep, hnot⟩ := hpush.not_found fun hback => by cases hback _ rfl
  exact hnot (hrest s' hstep).1

end Libromano.ArenaBlocks
