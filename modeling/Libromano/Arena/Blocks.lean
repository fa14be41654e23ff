/- The arenas of `arena.c` with the headers of their blocks and the bytes in them. Sizes are
   `size_t`. Pointers are the numbers of the allocations they lead to, and an allocation is an
   `ArenaBlock` header followed by its payload. -/

import Libromano.Arena
import Libromano.Fault
import Mathlib.Algebra.Order.Ring.Nat
import Mathlib.Logic.Relation

set_option autoImplicit false
set_option relaxedAutoImplicit false

namespace Libromano.ArenaBlocks

/-- `ArenaBlock`. The address is that of the payload. -/
structure ArenaBlock where
  address : ℕ
  capacity : ℕ
  offset : ℕ
  previous : Option ℕ
  next : Option ℕ
  deriving DecidableEq

/-- `sizeof(ArenaBlock)`. -/
def sizeofArenaBlock : ℕ := 40

/-- What `malloc` gave, and the header that was written into it. -/
structure Allocation where
  size : ℕ
  header : ArenaBlock

/-- The allocations of an arena, and the bytes of their payloads. -/
structure Memory where
  allocations : List Allocation
  bytes : ℕ → ℕ → UInt8

structure Arena where
  currentBlock : ℕ
  capacity : ℕ
  blockSize : ℕ

/-- What is asked of `arena_push`: a size, and the data to copy unless it is null. -/
structure Request where
  dataSize : ℕ
  isSize : dataSize < 2 ^ 64
  data : Option (Fin dataSize → UInt8)

namespace Memory

/-- No object is larger than `PTRDIFF_MAX`; a smaller one may be refused. -/
def mallocGives (granted : Bool) (size : ℕ) : Bool := granted && decide (size < 2 ^ 63)

def header (m : Memory) (block : ℕ) : Except Fault ArenaBlock :=
  match m.allocations[block]? with
  | some a => .ok a.header
  | none => .error .nullPointer

def setOffset (m : Memory) (block offset : ℕ) : Memory :=
  { m with allocations := m.allocations.modify block fun a =>
      { a with header := { a.header with offset := offset } } }

def Inside (m : Memory) (r : Region) : Prop :=
  ∃ a, m.allocations[r.block]? = some a ∧ sizeofArenaBlock + (r.start + r.size) ≤ a.size

instance (m : Memory) (r : Region) : Decidable (m.Inside r) :=
  match h : m.allocations[r.block]? with
  | none => isFalse fun ⟨_, ha, _⟩ => Option.some_ne_none _ (ha.symm.trans h)
  | some a => decidable_of_iff (sizeofArenaBlock + (r.start + r.size) ≤ a.size)
      ⟨fun ha => ⟨a, h, ha⟩, fun ⟨_, hb, hle⟩ => Option.some.inj (h.symm.trans hb) ▸ hle⟩

def replaced (bytes : ℕ → ℕ → UInt8) (r : Region) (source : Fin r.size → UInt8) :
    ℕ → ℕ → UInt8 := fun block i =>
  if h : block = r.block ∧ r.start ≤ i ∧ i < r.start + r.size then source ⟨i - r.start, by omega⟩
  else bytes block i

/-- `memcpy` of as many bytes as the region has. -/
def memcpy (m : Memory) (r : Region) (source : Fin r.size → UInt8) : Except Fault Memory :=
  if m.Inside r then .ok { m with bytes := replaced m.bytes r source }
  else .error .outOfBounds

end Memory

/-- A new block has the number behind those of all others. A header for which
the allocation has no room is written past its end. -/
def arenaBlockInit (m : Memory) (granted : Bool) (blockSize : ℕ) :
    Except Fault (Option ℕ × Memory) :=
  let totalSize := (blockSize + sizeofArenaBlock) % 2 ^ 64
  if Memory.mallocGives granted totalSize then
    let addr := m.allocations.length
    if sizeofArenaBlock ≤ totalSize then
      .ok (some addr, { m with
        allocations := m.allocations ++ [⟨totalSize, ⟨addr, blockSize, 0, none, none⟩⟩] })
    else .error .outOfBounds
  else .ok (none, m)

def arenaInit (bytes : ℕ → ℕ → UInt8) (granted : Bool) (blockSize : ℕ) :
    Except Fault (Option (Arena × Memory)) := do
  match ← arenaBlockInit ⟨[], bytes⟩ granted blockSize with
  | (none, _) => .ok none
  | (some block, m) => .ok (some (⟨block, blockSize, blockSize⟩, m))

def arenaCheckResize (current : ArenaBlock) (newSize : ℕ) : Bool :=
  current.capacity ≤ (current.offset + newSize) % 2 ^ 64

def arenaResize (m : Memory) (arena : Arena) (granted : Bool) :
    Except Fault (Option (Arena × Memory)) := do
  match ← arenaBlockInit m granted arena.blockSize with
  | (none, _) => .ok none
  | (some block, m) =>
    .ok (some (⟨block, (arena.capacity + arena.blockSize) % 2 ^ 64, arena.blockSize⟩,
      { m with allocations := m.allocations.modify block fun a =>
          { a with header := { a.header with previous := some arena.currentBlock } } }))

def Request.region (r : Request) (current : ArenaBlock) : Region :=
  ⟨current.address, current.offset, r.dataSize⟩

def copyData (m : Memory) (r : Request) (current : ArenaBlock) : Except Fault Memory :=
  match r.data with
  | some source => m.memcpy (r.region current) source
  | none => .ok m

/-- What `arena_push` does once the current block is chosen. -/
def pushCurrent (m : Memory) (arena : Arena) (r : Request) :
    Except Fault (Region × Arena × Memory) := do
  let current ← m.header arena.currentBlock
  let m ← copyData m r current
  .ok (r.region current, arena,
    m.setOffset arena.currentBlock ((current.offset + r.dataSize) % 2 ^ 64))

def arenaPush (m : Memory) (arena : Arena) (r : Request) (granted : Bool) :
    Except Fault (Option (Region × Arena × Memory)) := do
  let current ← m.header arena.currentBlock
  if arenaCheckResize current r.dataSize then
    match ← arenaResize m arena granted with
    | none => .ok none
    | some (arena, m) => some <$> pushCurrent m arena r
  else some <$> pushCurrent m arena r

/-- The loop of `arena_clear` over the previous blocks. -/
def clearLoop : ℕ → Memory → ℕ → Except Fault (ℕ × Memory)
  | 0, _, _ => .error .diverges
  | fuel + 1, m, current => do
    let block ← m.header current
    match block.previous with
    | none => .ok (current, m.setOffset current 0)
    | some previous => clearLoop fuel (m.setOffset current 0) previous

def arenaClear (m : Memory) (arena : Arena) : Except Fault (Arena × Memory) := do
  let (current, m) ← clearLoop m.allocations.length m arena.currentBlock
  .ok ({ arena with currentBlock := current }, m)

/-- A call, with what the system says if it asks for memory. -/
inductive Op
  | push (r : Request) (granted : Bool)
  | clear

/-- The arena and the regions that were returned since it was cleared last. -/
structure State where
  memory : Memory
  arena : Arena
  live : List Region

def step (s : State) : Op → Except Fault State
  | .push r granted => do
    match ← arenaPush s.memory s.arena r granted with
    | none => .ok s
    | some (region, arena, m) => .ok ⟨m, arena, region :: s.live⟩
  | .clear => do
    let (arena, m) ← arenaClear s.memory s.arena
    .ok ⟨m, arena, []⟩

/-- The arena owns a block when the links to previous blocks lead to it. -/
def Owns (m : Memory) (arena : Arena) (block : ℕ) : Prop :=
  Relation.ReflTransGen (fun b c => ∃ a, m.allocations[b]? = some a ∧ a.header.previous = some c)
    arena.currentBlock block

/-- What is asked of a state: the regions lie in blocks of the arena, apart from
each other. -/
structure Sound (s : State) : Prop where
  owned : ∀ r ∈ s.live, Owns s.memory s.arena r.block
  inside : ∀ r ∈ s.live, s.memory.Inside r
  disjoint : s.live.Pairwise Region.Disjoint

def Keeps (s s' : State) : Prop :=
  ∀ r ∈ s.live, r ∈ s'.live → ∀ i < r.size,
    s'.memory.bytes r.block (r.start + i) = s.memory.bytes r.block (r.start + i)

/-- In every state of the run the regions are as they should be, and every step
returns and keeps their bytes. -/
def Safe (s : State) : List Op → Prop
  | [] => Sound s
  | op :: ops => Sound s ∧ ∃ s', step s op = .ok s' ∧ Keeps s s' ∧ Safe s' ops

/-- The arena is set up, and whatever is done with it is safe. -/
def RunSafe (bytes : ℕ → ℕ → UInt8) (granted : Bool) (blockSize : ℕ) (ops : List Op) : Prop :=
  ∃ made, arenaInit bytes granted blockSize = .ok made ∧
    ∀ arena m, made = some (arena, m) → Safe ⟨m, arena, []⟩ ops

end Libromano.ArenaBlocks
