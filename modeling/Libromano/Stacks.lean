/- The stacks of `stack.c`, which no function grows. An element is pushed behind the others in the
   one allocation, behind the header of three words. -/

import Libromano.Fault
import Libromano.Foundation.Block
import Libromano.Foundation.Objects
import Mathlib.Algebra.Order.BigOperators.Group.List
import Mathlib.Algebra.Order.Ring.Nat
import Mathlib.Data.List.Induction

set_option autoImplicit false
set_option relaxedAutoImplicit false

namespace Libromano.Stacks

open Foundation Foundation.Objects

structure Stack where
  size : ℕ
  capacity : ℕ
  elementSize : ℕ
  /-- The bytes of the allocation behind the header. -/
  data : List UInt8
  deriving DecidableEq

/-- `HEADER_SIZE * sizeof(size_t)`. -/
def headerSize : ℕ := 24

/-- The capacity that `stack_init` takes. -/
def firstCapacity (initialCapacity : ℕ) : ℕ := if initialCapacity = 0 then 128 else initialCapacity

/-- The size of the allocation, as it is computed. -/
def allocationSize (capacity elementSize : ℕ) : ℕ := (headerSize + capacity * elementSize) % 2 ^ 64

/-- No object is larger than `PTRDIFF_MAX`. A null pointer is not tested for. -/
def stackInit (initialCapacity elementSize : ℕ) : Except Fault Stack :=
  let capacity := firstCapacity initialCapacity
  let allocated := allocationSize capacity elementSize
  if 2 ^ 63 ≤ allocated then .error .nullPointer
  else if allocated < headerSize then .error .outOfBounds
  else .ok ⟨0, capacity, elementSize, List.replicate (allocated - headerSize) 0⟩

def stackTop (stack : Stack) : Option ℕ :=
  if stack.size = 0 then none else some ((stack.size - 1) * stack.elementSize % 2 ^ 64)

def stackPush (stack : Stack) (element : List UInt8) : Except Fault Stack :=
  let stack := { stack with size := (stack.size + 1) % 2 ^ 64 }
  match stackTop stack with
  | none => .error .nullPointer
  | some address =>
    match Block.store stack.data address element with
    | none => .error .outOfBounds
    | some data => .ok { stack with data := data }

/-- What stands at `stack_top`. -/
def topElement (stack : Stack) : Except Fault (Option (List UInt8)) :=
  match stackTop stack with
  | none => .ok none
  | some address =>
    match Block.load stack.data address stack.elementSize with
    | none => .error .outOfBounds
    | some element => .ok (some element)

/-- The caller may want the element, which is given beside the stack. -/
def stackPop (stack : Stack) (wanted : Bool) : Except Fault (Option (List UInt8) × Stack) :=
  if stack.size = 0 then .ok (none, stack)
  else do
    let element ← if wanted then topElement stack else .ok none
    .ok (element, { stack with size := stack.size - 1 })

inductive Op
  | push (element : List UInt8)
  | pop (wanted : Bool)

/-- The elements that the calls of `stack_pop` gave, one after the other. -/
abbrev Popped := List (Option (List UInt8))

def step (s : Stack × Popped) : Op → Except Fault (Stack × Popped)
  | .push element => do
    let stack ← stackPush s.1 element
    .ok (stack, s.2)
  | .pop wanted => do
    let (element, stack) ← stackPop s.1 wanted
    .ok (stack, s.2 ++ [element])

def apply (_ : Stack × Popped) (op : Op) (t : List (List UInt8) × Popped) :
    List (List UInt8) × Popped :=
  match op with
  | .push element => (t.1 ++ [element], t.2)
  | .pop wanted => (t.1.dropLast, t.2 ++ [if wanted then t.1.getLast? else none])

/-- Size and top are those of the list, and so is what was popped. -/
structure Shows (s : Stack × Popped) (t : List (List UInt8) × Popped) : Prop where
  size : s.1.size = t.1.length
  top : topElement s.1 = .ok t.1.getLast?
  popped : s.2 = t.2

def lifo : Spec (Stack × Popped) Op (List (List UInt8) × Popped) where
  Shows := Shows
  apply := apply
  Effect _ _ _ := True

/-- The caller gives elements of the right size. -/
def Op.Sized (elementSize : ℕ) : Op → Prop
  | .push element => element.length = elementSize
  | .pop _ => True

variable {stack : Stack} {elements : List (List UInt8)} {element : List UInt8}
  {elementSize room : ℕ}

/-- The elements stand one behind the other from the start of the data. -/
structure Inv (width space : ℕ) (stack : Stack) (elements : List (List UInt8)) : Prop where
  size : stack.size = elements.length
  elementSize : stack.elementSize = width
  sized : ∀ element ∈ elements, element.length = width
  data : ∃ rest, stack.data = elements.flatten ++ rest
  room : stack.data.length = space
  object : space < 2 ^ 63

private theorem length_flatten_of_sized (h : ∀ element ∈ elements, element.length = elementSize) :
    elements.flatten.length = elements.length * elementSize := by
  induction elements with
  | nil => simp
  | cons element elements ih =>
    obtain ⟨helement, helements⟩ := List.forall_mem_cons.mp h
    rw [List.flatten_cons, List.length_append, helement, ih helements, List.length_cons,
      Nat.succ_mul, Nat.add_comm]

private theorem Inv.length_le (h : Inv elementSize room stack elements) :
    elements.length * elementSize ≤ room := by
  obtain ⟨rest, hdata⟩ := h.data
  rw [← h.room, hdata, List.length_append, length_flatten_of_sized h.sized]
  exact Nat.le_add_right _ _

private theorem Inv.topElement (h : Inv elementSize room stack elements) :
    topElement stack = .ok elements.getLast? := by
  obtain ⟨rest, hdata⟩ := h.data
  have hle := h.length_le
  have hobject := h.object
  unfold Stacks.topElement stackTop
  rw [h.size]
  induction elements using List.reverseRecOn with
  | nil => rfl
  | append_singleton elements element _ =>
    obtain ⟨hsized, helement⟩ := List.forall_mem_append.mp h.sized
    have hlength := length_flatten_of_sized hsized
    rw [List.length_append, List.length_singleton, Nat.succ_mul] at hle
    have haddress : elements.length * elementSize % 2 ^ 64 = elements.flatten.length := by
      rw [hlength, Nat.mod_eq_of_lt (by omega)]
    rw [if_neg (by simp), List.length_append, List.length_singleton, Nat.add_sub_cancel,
      h.elementSize, haddress, hdata, List.flatten_append, List.flatten_singleton,
      List.append_assoc]
    dsimp only
    rw [Block.load_append rfl (helement element (List.mem_singleton_self _)),
      List.getLast?_append, List.getLast?_singleton, Option.some_or]

private theorem Inv.shows (h : Inv elementSize room stack elements) (popped : Popped) :
    Shows (stack, popped) (elements, popped) :=
  ⟨h.size, h.topElement, rfl⟩

private theorem Inv.stackTop_succ (h : Inv elementSize room stack elements)
    (hpos : 0 < elementSize) :
    (stack.size + 1) % 2 ^ 64 = elements.length + 1 ∧
      elements.length * elementSize % 2 ^ 64 = elements.flatten.length := by
  have hle := h.length_le
  have hobject := h.object
  have hlength : elements.length ≤ elements.length * elementSize := Nat.le_mul_of_pos_right _ hpos
  rw [h.size, length_flatten_of_sized h.sized]
  constructor <;> exact Nat.mod_eq_of_lt (by omega)

private theorem Inv.push (h : Inv elementSize room stack elements) (hpos : 0 < elementSize)
    (helement : element.length = elementSize)
    (hroom : (elements.length + 1) * elementSize ≤ room) :
    ∃ stack', stackPush stack element = .ok stack' ∧
      Inv elementSize room stack' (elements ++ [element]) := by
  obtain ⟨rest, hdata⟩ := h.data
  obtain ⟨hsize, haddress⟩ := h.stackTop_succ hpos
  have hlength := length_flatten_of_sized h.sized
  have hrest : elementSize ≤ rest.length := by
    rw [← h.room, hdata, List.length_append, hlength, Nat.succ_mul] at hroom
    omega
  have hstore : Block.store stack.data elements.flatten.length element =
      some (elements.flatten ++ (element ++ rest.drop elementSize)) := by
    have hsplit : stack.data =
        elements.flatten ++ (rest.take elementSize ++ rest.drop elementSize) := by
      rw [List.take_append_drop, hdata]
    rw [hsplit]
    exact Block.store_append rfl (by rw [helement, List.length_take, Nat.min_eq_left hrest])
  refine ⟨⟨elements.length + 1, stack.capacity, stack.elementSize,
    elements.flatten ++ (element ++ rest.drop elementSize)⟩, ?_, ?_⟩
  · unfold stackPush stackTop
    simp only [hsize, Nat.add_sub_cancel, h.elementSize, haddress, Nat.succ_ne_zero, if_false,
      hstore]
  · refine ⟨by simp, h.elementSize, ?_, ⟨rest.drop elementSize, by simp⟩, ?_, h.object⟩
    · exact List.forall_mem_append.mpr ⟨h.sized, List.forall_mem_singleton.mpr helement⟩
    · rw [← h.room, hdata]
      simp only [List.length_append, List.length_drop, helement]
      omega

private theorem Inv.not_push (h : Inv elementSize room stack elements) (hpos : 0 < elementSize)
    (helement : element.length = elementSize)
    (hroom : room < (elements.length + 1) * elementSize) :
    stackPush stack element = .error .outOfBounds := by
  obtain ⟨hsize, haddress⟩ := h.stackTop_succ hpos
  have hstore : Block.store stack.data elements.flatten.length element = none := by
    apply Block.store_eq_none
    rw [length_flatten_of_sized h.sized, helement, h.room]
    rwa [Nat.succ_mul] at hroom
  unfold stackPush stackTop
  simp only [hsize, Nat.add_sub_cancel, h.elementSize, haddress, Nat.succ_ne_zero, if_false,
    hstore]

private theorem Inv.pop (h : Inv elementSize room stack elements) (wanted : Bool) :
    ∃ stack', stackPop stack wanted = .ok (if wanted then elements.getLast? else none, stack') ∧
      Inv elementSize room stack' elements.dropLast := by
  unfold stackPop
  by_cases hempty : stack.size = 0
  · obtain rfl : elements = [] := List.length_eq_zero_iff.mp (h.size ▸ hempty)
    refine ⟨stack, ?_, h⟩
    rw [if_pos hempty]
    cases wanted <;> rfl
  · refine ⟨{ stack with size := stack.size - 1 }, ?_, ?_⟩
    · rw [if_neg hempty, h.topElement]
      cases wanted <;> rfl
    · obtain ⟨rest, hdata⟩ := h.data
      have hne : elements ≠ [] := by
        rintro rfl
        exact hempty h.size
      refine ⟨?_, h.elementSize, fun element hmem => h.sized element (List.dropLast_subset _ hmem),
        ⟨elements.getLast hne ++ rest, ?_⟩, h.room, h.object⟩
      · simp only [List.length_dropLast, h.size]
      · have hlast := congrArg List.flatten (List.dropLast_append_getLast hne)
        rw [List.flatten_append, List.flatten_singleton] at hlast
        rw [hdata, ← hlast, List.append_assoc]

/-- What a new stack and the calls on it should be. -/
def IsList (initialCapacity elementSize : ℕ) (ops : List Op) : Prop :=
  ∃ stack, stackInit initialCapacity elementSize = .ok stack ∧
    Behaves step lifo (stack, []) ([], []) ops

/-- From some depth on, the pushes have room for one more element. -/
def Fits (elementSize room : ℕ) : ℕ → List Op → Prop
  | _, [] => True
  | depth, .push _ :: ops => (depth + 1) * elementSize ≤ room ∧ Fits elementSize room (depth + 1) ops
  | depth, .pop _ :: ops => Fits elementSize room (depth - 1) ops

private theorem stackInit_iff {initialCapacity : ℕ} (P : Stack → Prop) :
    (∃ stack, stackInit initialCapacity elementSize = .ok stack ∧ P stack) ↔
      headerSize ≤ allocationSize (firstCapacity initialCapacity) elementSize ∧
      allocationSize (firstCapacity initialCapacity) elementSize < 2 ^ 63 ∧
      P ⟨0, firstCapacity initialCapacity, elementSize,
        List.replicate (allocationSize (firstCapacity initialCapacity) elementSize - headerSize) 0⟩ := by
  unfold stackInit
  dsimp only
  split
  case isTrue hobject =>
    refine iff_of_false ?_ fun h => absurd h.2.1 (Nat.not_lt.mpr hobject)
    rintro ⟨stack, hinit, -⟩
    cases hinit
  case isFalse hobject =>
    split
    case isTrue hheader =>
      refine iff_of_false ?_ fun h => absurd h.1 (Nat.not_le.mpr hheader)
      rintro ⟨stack, hinit, -⟩
      cases hinit
    case isFalse hheader =>
      constructor
      · rintro ⟨stack, hinit, hP⟩
        cases hinit
        exact ⟨Nat.not_lt.mp hheader, Nat.not_le.mp hobject, hP⟩
      · rintro ⟨-, -, hP⟩
        exact ⟨_, rfl, hP⟩

private theorem inv_init {capacity : ℕ} (hroom : room < 2 ^ 63) :
    Inv elementSize room ⟨0, capacity, elementSize, List.replicate room 0⟩ [] :=
  ⟨rfl, rfl, by simp, ⟨_, rfl⟩, List.length_replicate, hroom⟩

private theorem Inv.behaves_iff (h : Inv elementSize room stack elements) (hpos : 0 < elementSize)
    {ops : List Op} (hsized : ∀ op ∈ ops, op.Sized elementSize) (popped : Popped) :
    Behaves step lifo (stack, popped) (elements, popped) ops ↔
      Fits elementSize room elements.length ops := by
  induction ops generalizing stack elements popped with
  | nil => exact iff_of_true (h.shows popped) trivial
  | cons op ops ih =>
    obtain ⟨hop, hops⟩ := List.forall_mem_cons.mp hsized
    cases op with
    | push element =>
      rw [Fits]
      by_cases hroom : (elements.length + 1) * elementSize ≤ room
      · obtain ⟨stack', hpush, h'⟩ := h.push hpos hop hroom
        have hstep : step (stack, popped) (.push element) = .ok (stack', popped) := by
          simp [step, hpush]
        have hrest := ih h' hops popped
        rw [List.length_append, List.length_singleton] at hrest
        rw [behaves_cons hstep, and_iff_right hroom]
        exact (and_iff_right (h.shows popped)).trans ((and_iff_right trivial).trans hrest)
      · refine iff_of_false ?_ fun hfits => hroom hfits.1
        rintro ⟨-, s', hstep, -⟩
        rw [step, h.not_push hpos hop (Nat.lt_of_not_le hroom)] at hstep
        cases hstep
    | pop wanted =>
      obtain ⟨stack', hpop, h'⟩ := h.pop wanted
      have hstep : step (stack, popped) (.pop wanted) =
          .ok (stack', popped ++ [if wanted then elements.getLast? else none]) := by
        simp [step, hpop]
      have hrest := ih h' hops (popped ++ [if wanted then elements.getLast? else none])
      rw [List.length_dropLast] at hrest
      rw [Fits, behaves_cons hstep]
      exact (and_iff_right (h.shows popped)).trans ((and_iff_right trivial).trans hrest)

/-- A stack is a list exactly when its allocation holds the header and, at every push, one
more element. -/
theorem stackInit_isList_iff (initialCapacity : ℕ) (hpos : 1 ≤ elementSize) (ops : List Op)
    (hsized : ∀ op ∈ ops, op.Sized elementSize) :
    IsList initialCapacity elementSize ops ↔
      headerSize ≤ allocationSize (firstCapacity initialCapacity) elementSize ∧
      allocationSize (firstCapacity initialCapacity) elementSize < 2 ^ 63 ∧
      Fits elementSize (allocationSize (firstCapacity initialCapacity) elementSize - headerSize)
        0 ops := by
  unfold IsList
  rw [stackInit_iff]
  refine and_congr_right fun _ => and_congr_right fun hobject => ?_
  exact (inv_init (by omega)).behaves_iff hpos hsized []

theorem stackInit_isList_iff_pair :
    IsList 2 1 [.push [7], .push [8], .pop true, .push [9]] ↔
      headerSize ≤ allocationSize (firstCapacity 2) 1 ∧
      allocationSize (firstCapacity 2) 1 < 2 ^ 63 ∧
      Fits 1 (allocationSize (firstCapacity 2) 1 - headerSize) 0
        [.push [7], .push [8], .pop true, .push [9]] :=
  stackInit_isList_iff 2 (Nat.le_refl 1) _ (by simp [Op.Sized])

/-- The second push is written behind the allocation. -/
theorem stacks_not_isList : ¬IsList 1 1 [.push [7], .push [8]] := by
  rintro ⟨stack, hinit, -, s', hpush, -, -, s'', hpush', -⟩
  cases hinit
  cases hpush
  cases hpush'

end Libromano.Stacks
