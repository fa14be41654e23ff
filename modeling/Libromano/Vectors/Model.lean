/- The vectors of `vector.c`. Sizes are `size_t`, and addresses count from the start of the
   allocation, which begins with the header of three words. Every operation gives the ranges that
   it reads and writes beside its result. -/

import Libromano.Fault
import Libromano.Foundation.Significand
import Libromano.Foundation.Slots

set_option autoImplicit false
set_option relaxedAutoImplicit false

namespace Libromano.Vectors

open Foundation

/-- The three words of the header, and the allocation that they stand in. -/
structure Vector where
  size : ℕ
  capacity : ℕ
  elementSize : ℕ
  /-- The size in bytes of the allocation. -/
  allocated : ℕ
  bytes : ℕ → UInt8

/-- `3 * sizeof(size_t)`. -/
def headerSize : ℕ := 24

/-- A range that is read or written, and the size of the allocation at that time. -/
structure Access where
  start : ℕ
  length : ℕ
  allocated : ℕ

def Access.Inside (a : Access) : Prop := a.start + a.length ≤ a.allocated

/-- What stands in memory that nothing was written to. -/
structure Unwritten where
  word : ℕ → ℕ
  byte : ℕ → UInt8

namespace Vector

def access (v : Vector) (start length : ℕ) : Access := ⟨start, length, v.allocated⟩

/-- The accesses of `vector_size`, `vector_capacity` and `vector_element_size`. -/
def sizeWord (v : Vector) : Access := v.access 0 8

def capacityWord (v : Vector) : Access := v.access 8 8

def elementSizeWord (v : Vector) : Access := v.access 16 8

/-- The bytes as they are read: those behind the allocation may be anything. -/
def contents (env : Unwritten) (v : Vector) : ℕ → UInt8 := fun i =>
  if i < v.allocated then v.bytes i else env.byte i

def memcpy (v : Vector) (dst : ℕ) (data : List UInt8) : Vector :=
  { v with bytes := Slots.put v.bytes dst data }

def memmove (env : Unwritten) (v : Vector) (dst src n : ℕ) : Vector :=
  { v with bytes := Slots.move v.bytes (v.contents env) dst src n }

def setSize (v : Vector) (size : ℕ) : Vector := { v with size := size % 2 ^ 64 }

end Vector

/-- `vec_size - 1`. -/
def sizePred (size : ℕ) : ℕ := if size = 0 then 2 ^ 64 - 1 else size - 1

def allocationSize (capacity elementSize : ℕ) : ℕ := (headerSize + capacity * elementSize) % 2 ^ 64

/-- No object is larger than `PTRDIFF_MAX`. -/
def malloc (n : ℕ) : Except Fault ℕ := if n < 2 ^ 63 then .ok n else .error .outOfMemory

/-- `realloc` keeps what the old and the new allocation have in common. -/
def realloc (env : Unwritten) (v : Vector) (n : ℕ) : Except Fault Vector := do
  let allocated ← malloc n
  let word (k old : ℕ) : ℕ := if 8 * (k + 1) ≤ min v.allocated allocated then old else env.word k
  .ok {
    size := word 0 v.size
    capacity := word 1 v.capacity
    elementSize := word 2 v.elementSize
    allocated
    bytes := fun i => if i < min v.allocated allocated then v.bytes i else env.byte i }

/-- The capacity that `vector_new` takes. -/
def firstCapacity (initialCapacity : ℕ) : ℕ := if initialCapacity = 0 then 128 else initialCapacity

/-- `vector_new`, and `vector_init`. -/
def vectorNew (env : Unwritten) (initialCapacity elementSize : ℕ) :
    Except Fault (Vector × List Access) := do
  let capacity := firstCapacity initialCapacity
  let allocated ← malloc (allocationSize capacity elementSize)
  let v : Vector := { size := 0, capacity, elementSize, allocated, bytes := env.byte }
  .ok (v, [v.sizeWord, v.capacityWord, v.elementSizeWord])

def vectorAt (v : Vector) (index : ℕ) : ℕ := headerSize + index * v.elementSize % 2 ^ 64

def vectorResize (env : Unwritten) (v : Vector) (newCapacity : ℕ) :
    Except Fault (Vector × List Access) :=
  let words := [v.capacityWord, v.elementSizeWord]
  if newCapacity = 0 ∨ newCapacity ≤ v.capacity then .ok (v, words)
  else do
    let v ← realloc env v (allocationSize newCapacity v.elementSize)
    .ok ({ v with capacity := newCapacity }, words ++ [v.capacityWord])

/-- The significand of `GOLDEN_RATIO`, the float nearest to 1.61, in units of
`2 ^ (-23)`. -/
def goldenRatioSignificand : ℕ := 13505659

/-- `round((float)capacity * GOLDEN_RATIO)`. Its conversion to a `size_t` is
undefined from `2 ^ 64` on; the residue taken in `_vector_grow` stands for it. -/
def grownCapacity (capacity : ℕ) : ℕ :=
  (Significand.round 24 (Significand.round 24 capacity * goldenRatioSignificand) + 2 ^ 22) / 2 ^ 23

def vectorGrow (env : Unwritten) (v : Vector) : Except Fault (Vector × List Access) := do
  let (v', accesses) ← vectorResize env v (grownCapacity v.capacity % 2 ^ 64)
  .ok (v', v.capacityWord :: accesses)

/-- The growth that comes before an insertion, with the words read for its test. -/
def growIfFull (env : Unwritten) (v : Vector) : Except Fault (Vector × List Access) := do
  let words := [v.sizeWord, v.capacityWord, v.elementSizeWord]
  if v.capacity = v.size then
    let (v, accesses) ← vectorGrow env v
    .ok (v, words ++ accesses)
  else .ok (v, words)

def vectorPushBack (env : Unwritten) (v : Vector) (element : List UInt8) :
    Except Fault (Vector × List Access) := do
  let (v', accesses) ← growIfFull env v
  let address := vectorAt v' v.size
  .ok ((v'.memcpy address element).setSize (v.size + 1),
    accesses ++ [v'.elementSizeWord, v'.access address v.elementSize, v'.sizeWord])

def vectorEmplaceBack (env : Unwritten) (v : Vector) :
    Except Fault (ℕ × Vector × List Access) := do
  let (v', accesses) ← growIfFull env v
  .ok (vectorAt v' v.size, v'.setSize (v.size + 1), accesses ++ [v'.elementSizeWord, v'.sizeWord])

def vectorInsert (env : Unwritten) (v : Vector) (element : List UInt8) (position : ℕ) :
    Except Fault (Vector × List Access) := do
  let (v', accesses) ← growIfFull env v
  let address := vectorAt v' position
  let n := (v.size - position) * v.elementSize % 2 ^ 64
  let moved := v'.memmove env (address + v.elementSize) address n
  .ok ((moved.memcpy address element).setSize (v.size + 1),
    accesses ++ [v'.elementSizeWord, v'.access address n, v'.access (address + v.elementSize) n,
      v'.access address v.elementSize, v'.sizeWord])

def vectorRemove (env : Unwritten) (v : Vector) (position : ℕ) : Vector × List Access :=
  let address := vectorAt v position
  let n := (v.size - position) * v.elementSize % 2 ^ 64
  ((v.memmove env address (address + v.elementSize) n).setSize (sizePred v.size),
    [v.sizeWord, v.elementSizeWord, v.access (address + v.elementSize) n, v.access address n])

def vectorPop (v : Vector) : Vector × List Access :=
  (v.setSize (sizePred v.size), [v.sizeWord])

def vectorPopFront (env : Unwritten) (v : Vector) : Vector × List Access :=
  let n := v.size * v.elementSize % 2 ^ 64
  ((v.setSize (sizePred v.size)).memmove env (vectorAt v 0) (vectorAt v 1) n,
    [v.sizeWord, v.elementSizeWord, v.access (vectorAt v 1) n, v.access (vectorAt v 0) n])

/-- The header is left out of the new size. -/
def vectorShrinkToFit (env : Unwritten) (v : Vector) : Except Fault (Vector × List Access) := do
  let v' ← realloc env v (v.size * v.elementSize % 2 ^ 64)
  .ok ({ v' with capacity := v.size }, [v.sizeWord, v.elementSizeWord, v'.capacityWord])

def vectorNotFound : ℕ := 2 ^ 64 - 1

def element (env : Unwritten) (v : Vector) (index : ℕ) : List UInt8 :=
  (List.range v.elementSize).map fun k => v.contents env (vectorAt v index + k)

/-- The loop of `vector_find` from an index on, with the number of turns left. -/
def findLoop (env : Unwritten) (v : Vector) (value : List UInt8) : ℕ → ℕ → ℕ
  | 0, _ => vectorNotFound
  | turns + 1, i => if value = element env v i then i else findLoop env v value turns (i + 1)

def vectorFind (env : Unwritten) (v : Vector) (value : List UInt8) : ℕ :=
  findLoop env v value v.size 0

/-- An operation. The slot that `_vector_emplace_back` returns is written next. -/
inductive Op
  | pushBack (element : List UInt8)
  | emplaceBack (element : List UInt8)
  | insert (element : List UInt8) (position : ℕ)
  | remove (position : ℕ)
  | pop
  | popFront
  | resize (newCapacity : ℕ)
  | shrinkToFit

def step (env : Unwritten) (v : Vector) : Op → Except Fault (Vector × List Access)
  | .pushBack element => vectorPushBack env v element
  | .emplaceBack element => do
    let (slot, v', accesses) ← vectorEmplaceBack env v
    .ok (v'.memcpy slot element, accesses ++ [v'.access slot v.elementSize])
  | .insert element position => vectorInsert env v element position
  | .remove position => .ok (vectorRemove env v position)
  | .pop => .ok (vectorPop v)
  | .popFront => .ok (vectorPopFront env v)
  | .resize newCapacity => vectorResize env v newCapacity
  | .shrinkToFit => vectorShrinkToFit env v

/-- The caller keeps to the elements that there are. -/
def Op.Allowed (v : Vector) : Op → Prop
  | .pushBack element => element.length = v.elementSize
  | .emplaceBack element => element.length = v.elementSize
  | .insert element position => element.length = v.elementSize ∧ position ≤ v.size
  | .remove position => position < v.size
  | .pop => 0 < v.size
  | .popFront => 0 < v.size
  | .resize _ => True
  | .shrinkToFit => True

/-- Something holds of every step of a run, whatever stands in fresh memory. -/
def Along (P : Unwritten → Vector → Op → Prop) : Vector → List (Unwritten × Op) → Prop
  | _, [] => True
  | v, (env, op) :: ops => P env v op ∧
    ∀ v' accesses, step env v op = .ok (v', accesses) → Along P v' ops

end Libromano.Vectors
