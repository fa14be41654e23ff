/- The regions that an arena returns lie in its blocks and apart from each other as long as no
   request is larger than a block. -/

import Libromano.Arena.Blocks

set_option autoImplicit false
set_option relaxedAutoImplicit false

namespace Libromano.ArenaBlocks

/-- A block with its number: its header and its size are what `arena_block_init`
made them, and its links lead to earlier blocks. -/
structure Allocation.Formed (blockSize block : ℕ) (a : Allocation) : Prop where
  size : a.size = blockSize + sizeofArenaBlock
  address : a.header.address = block
  capacity : a.header.capacity = blockSize
  offset : a.header.offset ≤ blockSize
  previous : ∀ b, a.header.previous = some b → b < block

def Memory.Formed (blockSize : ℕ) (m : Memory) : Prop :=
  ∀ (block : ℕ) (a : Allocation), m.allocations[block]? = some a → a.Formed blockSize block

/-- The invariant of a run. The regions end before what is free in their block. -/
structure Inv (blockSize : ℕ) (s : State) : Prop where
  formed : s.memory.Formed blockSize
  size : s.arena.blockSize = blockSize
  current : s.arena.currentBlock < s.memory.allocations.length
  owned : ∀ r ∈ s.live, Owns s.memory s.arena r.block
  taken : ∀ r ∈ s.live, ∃ a, s.memory.allocations[r.block]? = some a ∧
    r.start + r.size ≤ a.header.offset
  disjoint : s.live.Pairwise Region.Disjoint

section Memory

variable {blockSize : ℕ} {m m' : Memory} {block : ℕ}

theorem header_eq {a : Allocation} (h : m.allocations[block]? = some a) :
    m.header block = .ok a.header := by
  rw [Memory.header, h]

@[simp] theorem length_setOffset (offset : ℕ) :
    (m.setOffset block offset).allocations.length = m.allocations.length := by
  simp [Memory.setOffset]

theorem getElem?_setOffset (offset b : ℕ) :
    (m.setOffset block offset).allocations[b]? = m.allocations[b]?.map fun a =>
      if block = b then { a with header := { a.header with offset := offset } } else a := by
  rw [Memory.setOffset, List.getElem?_modify]
  cases m.allocations[b]? <;> simp

theorem Memory.Formed.setOffset (h : m.Formed blockSize) {offset : ℕ} (hle : offset ≤ blockSize) :
    (m.setOffset block offset).Formed blockSize := by
  intro b a ha
  rw [getElem?_setOffset, Option.map_eq_some_iff] at ha
  obtain ⟨a, ha, rfl⟩ := ha
  split_ifs
  · exact { h b a ha with offset := hle }
  · exact h b a ha

private theorem Owns.mono {arena arena' : Arena} (h : Owns m arena block)
    (hcurrent : Owns m' arena' arena.currentBlock)
    (hlink : ∀ (b : ℕ) (a : Allocation), m.allocations[b]? = some a →
      ∃ a' : Allocation, m'.allocations[b]? = some a' ∧ a'.header.previous = a.header.previous) :
    Owns m' arena' block := by
  induction h with
  | refl => exact hcurrent
  | tail _ hstep ih =>
    obtain ⟨a, ha, hprevious⟩ := hstep
    obtain ⟨a', ha', hsame⟩ := hlink _ a ha
    exact ih.tail ⟨a', ha', hsame.trans hprevious⟩

private theorem Owns.setOffset {arena : Arena} (h : Owns m arena block) (b offset : ℕ) :
    Owns (m.setOffset b offset) arena block := by
  refine h.mono .refl ?_
  intro c a ha
  rw [getElem?_setOffset, ha]
  refine ⟨_, rfl, ?_⟩
  split_ifs <;> rfl

end Memory

section Step

variable {blockSize : ℕ} {s : State} {r : Request}

theorem Inv.sound (h : Inv blockSize s) : Sound s where
  owned := h.owned
  inside := by
    intro r hr
    obtain ⟨a, ha, hle⟩ := h.taken r hr
    have hformed := h.formed _ a ha
    have hoffset := hformed.offset
    refine ⟨a, ha, ?_⟩
    rw [hformed.size]
    omega
  disjoint := h.disjoint

private theorem copyData_eq {m : Memory} {current : ArenaBlock}
    (hinside : m.Inside (r.region current)) :
    ∃ bytes, copyData m r current = .ok ⟨m.allocations, bytes⟩ ∧
      ∀ q : Region, q.Disjoint (r.region current) → ∀ i < q.size,
        bytes q.block (q.start + i) = m.bytes q.block (q.start + i) := by
  rw [copyData]
  cases r.data with
  | none => exact ⟨m.bytes, rfl, fun _ _ _ _ => rfl⟩
  | some source =>
    simp only [Memory.memcpy, if_pos hinside]
    refine ⟨_, rfl, ?_⟩
    intro q hq i hi
    apply dif_neg
    rintro ⟨hblock, hstart, hlt⟩
    rcases hq with hne | hle | hle
    · exact hne hblock
    · omega
    · omega

theorem Inv.pushCurrent (h : Inv blockSize s) (hsize : blockSize < 2 ^ 64) {current : Allocation}
    (hcurrent : s.memory.allocations[s.arena.currentBlock]? = some current)
    (hfits : current.header.offset + r.dataSize ≤ blockSize) :
    ∃ region arena m, pushCurrent s.memory s.arena r = .ok (region, arena, m) ∧
      Inv blockSize ⟨m, arena, region :: s.live⟩ ∧ Keeps s ⟨m, arena, region :: s.live⟩ := by
  have hformed := h.formed _ _ hcurrent
  have haddress : (r.region current.header).block = s.arena.currentBlock := hformed.address
  have hinside : s.memory.Inside (r.region current.header) := by
    refine ⟨current, by rw [haddress]; exact hcurrent, ?_⟩
    rw [hformed.size]
    simp only [Request.region]
    omega
  -- no byte that was handed out before is a byte of the region
  have hapart : ∀ q ∈ s.live, q.Disjoint (r.region current.header) := by
    intro q hq
    obtain ⟨a, ha, hle⟩ := h.taken q hq
    by_cases hblock : q.block = s.arena.currentBlock
    · rw [hblock, hcurrent] at ha
      cases ha
      exact .inr (.inl hle)
    · exact .inl (haddress ▸ hblock)
  obtain ⟨bytes, hcopy, hbytes⟩ := copyData_eq hinside
  refine ⟨r.region current.header, s.arena, Memory.setOffset ⟨s.memory.allocations, bytes⟩
    s.arena.currentBlock (current.header.offset + r.dataSize), ?_, ⟨?_, h.size, ?_, ?_, ?_, ?_⟩,
    fun q hq _ => hbytes q (hapart q hq)⟩
  · rw [ArenaBlocks.pushCurrent, header_eq hcurrent, bind_ok, hcopy, bind_ok,
      Nat.mod_eq_of_lt (by omega : current.header.offset + r.dataSize < 2 ^ 64)]
  · exact Memory.Formed.setOffset (m := ⟨s.memory.allocations, bytes⟩) h.formed hfits
  · simpa using h.current
  · intro q hq
    apply Owns.setOffset
    rcases List.mem_cons.mp hq with rfl | hq
    · rw [haddress]
      exact .refl
    · exact h.owned q hq
  · intro q hq
    simp only [getElem?_setOffset]
    rcases List.mem_cons.mp hq with rfl | hq
    · rw [haddress, hcurrent]
      exact ⟨_, rfl, by simp [Request.region]⟩
    · obtain ⟨a, ha, hle⟩ := h.taken q hq
      rw [ha]
      refine ⟨_, rfl, ?_⟩
      split_ifs with hblock
      · rw [← hblock, hcurrent] at ha
        cases ha
        exact Nat.le_trans hle (Nat.le_add_right _ _)
      · exact hle
  · exact List.pairwise_cons.mpr ⟨fun q hq => (hapart q hq).symm, h.disjoint⟩

theorem pushCurrent_ok {m m' : Memory} {arena arena' : Arena} {region : Region}
    (h : ArenaBlocks.pushCurrent m arena r = .ok (region, arena', m')) :
    ∃ current, m.header arena.currentBlock = .ok current ∧ region = r.region current ∧
      arena' = arena ∧ m'.allocations = (m.setOffset arena.currentBlock
        ((current.offset + r.dataSize) % 2 ^ 64)).allocations := by
  obtain ⟨current, hcurrent, h⟩ := bind_eq_ok.mp h
  obtain ⟨copied, hcopy, h⟩ := bind_eq_ok.mp h
  cases h
  refine ⟨current, hcurrent, rfl, rfl, ?_⟩
  rw [copyData] at hcopy
  split at hcopy
  · simp only [Memory.memcpy] at hcopy
    split_ifs at hcopy
    cases hcopy
    rfl
  · cases hcopy
    rfl

theorem arenaBlockInit_eq {m : Memory} {granted : Bool}
    (hsize : blockSize + sizeofArenaBlock < 2 ^ 64) :
    arenaBlockInit m granted blockSize =
      if Memory.mallocGives granted (blockSize + sizeofArenaBlock) then
        .ok (some m.allocations.length, { m with allocations := m.allocations ++
          [⟨blockSize + sizeofArenaBlock, ⟨m.allocations.length, blockSize, 0, none, none⟩⟩] })
      else .ok (none, m) := by
  simp only [arenaBlockInit, Nat.mod_eq_of_lt hsize]
  rw [if_pos (Nat.le_add_left _ _)]

theorem modify_concat {α : Type} (l : List α) (a : α) (f : α → α) :
    (l ++ [a]).modify l.length f = l ++ [f a] := by
  induction l with
  | nil => rfl
  | cons b l ih => simpa using ih

/-- The block that `arena_resize` adds. It is empty and leads to the one before it. -/
def State.added (s : State) : Allocation :=
  ⟨s.arena.blockSize + sizeofArenaBlock,
    ⟨s.memory.allocations.length, s.arena.blockSize, 0, some s.arena.currentBlock, none⟩⟩

def State.resized (s : State) : State :=
  ⟨⟨s.memory.allocations ++ [s.added], s.memory.bytes⟩,
    ⟨s.memory.allocations.length, (s.arena.capacity + s.arena.blockSize) % 2 ^ 64,
      s.arena.blockSize⟩, s.live⟩

theorem getElem?_resized : s.resized.memory.allocations[s.resized.arena.currentBlock]? =
    some s.added :=
  List.getElem?_concat_length

theorem arenaResize_eq (hsize : s.arena.blockSize + sizeofArenaBlock < 2 ^ 63) :
    arenaResize s.memory s.arena true = .ok (some (s.resized.arena, s.resized.memory)) := by
  have hgives : Memory.mallocGives true (s.arena.blockSize + sizeofArenaBlock) = true := by
    simpa [Memory.mallocGives] using hsize
  rw [arenaResize, arenaBlockInit_eq (by omega), if_pos hgives, bind_ok]
  simp only [modify_concat, State.resized, State.added]

theorem Inv.resized (h : Inv blockSize s) : Inv blockSize s.resized := by
  have hold {b : ℕ} {a : Allocation} (ha : s.memory.allocations[b]? = some a) :
      s.resized.memory.allocations[b]? = some a := by
    rw [State.resized, List.getElem?_append_left (List.getElem?_eq_some_iff.mp ha).1, ha]
  refine ⟨?_, h.size, ?_, ?_, ?_, h.disjoint⟩
  · intro b a ha
    rcases Nat.lt_trichotomy b s.memory.allocations.length with hlt | rfl | hlt
    · rw [State.resized, List.getElem?_append_left hlt] at ha
      exact h.formed b a ha
    · cases getElem?_resized.symm.trans ha
      simp only [State.added, h.size]
      exact ⟨rfl, rfl, rfl, Nat.zero_le _, fun p hp => Option.some.inj hp ▸ h.current⟩
    · rw [State.resized, List.getElem?_eq_none (by simp; omega)] at ha
      cases ha
  · simp [State.resized]
  · intro q hq
    refine (h.owned q hq).mono (.single ⟨s.added, getElem?_resized, rfl⟩) ?_
    exact fun b a ha => ⟨a, hold ha, rfl⟩
  · intro q hq
    obtain ⟨a, ha, hle⟩ := h.taken q hq
    exact ⟨a, hold ha, hle⟩

end Step

end Libromano.ArenaBlocks
