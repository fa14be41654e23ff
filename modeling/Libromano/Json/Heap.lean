/- The nodes of a document as they stand in its arenas, and the functions that change them. Every
   kind of object has a store of its own in which nothing is ever freed; a pointer is a place in a
   store. The bytes of strings and keys are copied and not changed any more, so that they stand
   where the pointers to them would. -/

import Libromano.Foundation.Chains
import Libromano.Json.Parser

set_option autoImplicit false
set_option relaxedAutoImplicit false

namespace Libromano.JsonHeap

open Foundation.Chains
open Bytes (cString)

inductive JsonTag
  | null
  | bool
  | u64
  | i64
  | f64
  | str
  | array
  | dict
  deriving DecidableEq

/-- `JsonValueUnion`. A pointer that is read as something else is not modelled. -/
inductive JsonValueUnion (F : Type)
  | zero
  | b (b : Bool)
  | u64 (u64 : UInt64)
  | i64 (i64 : Int64)
  | f64 (f64 : F)
  | str (str : List UInt8)
  | arrayInfo (info : ℕ)
  | dictInfo (info : ℕ)

/-- `JsonValue`, with the two parts of its tags. -/
structure Node (F : Type) where
  tag : JsonTag
  size : UInt32
  value : JsonValueUnion F

/-- `JsonArrayInfo` and `JsonDictInfo`. -/
structure Info where
  head : Option ℕ
  tail : Option ℕ

structure JsonKeyValue where
  key : List UInt8
  value : ℕ

/-- The stores of a document. -/
structure Heap (F : Type) where
  values : List (Node F)
  arrayInfos : List Info
  arrayElements : List (Cell ℕ)
  dictInfos : List Info
  dictElements : List (Cell JsonKeyValue)

section Links

variable {α : Type}

def deref (store : List α) (p : Option ℕ) : Except Fault α :=
  match p with
  | none => .error .nullPointer
  | some a =>
    match store[a]? with
    | none => .error .outOfBounds
    | some x => .ok x

def linkElement (cells : List (Cell α)) (info : Info) (item : α) :
    Except Fault (List (Cell α) × Info) := do
  let element := cells.length
  let cells := cells ++ [⟨item, none⟩]
  match info.head with
  | none => .ok (cells, ⟨some element, some element⟩)
  | some _ =>
    match info.tail with
    | none => .error .nullPointer
    | some tail => .ok (setNext cells tail (some element), { info with tail := some element })

/-- The part of the pop functions that unlinks an element with a predecessor. -/
def unlinkElement (cells : List (Cell α)) (info : Info) (previous current : ℕ) :
    Except Fault (List (Cell α) × Info) := do
  let cell ← deref cells (some current)
  .ok (setNext cells previous cell.next,
    if info.tail = some current then { info with tail := cell.next } else info)

def currentItem (cells : List (Cell α)) (current : Option ℕ) : Except Fault (Option ℕ × Option α) :=
  match current with
  | none => .ok (none, none)
  | some _ => do
    let cell ← deref cells current
    .ok (current, some cell.item)

end Links

section Values

variable {F : Type}

def Node.arrayInfo (node : Node F) : Except Fault ℕ :=
  match node.value with
  | .arrayInfo info => .ok info
  | _ => .error .outOfBounds

def Node.dictInfo (node : Node F) : Except Fault ℕ :=
  match node.value with
  | .dictInfo info => .ok info
  | _ => .error .outOfBounds

namespace Heap

def setNode (h : Heap F) (value : ℕ) (f : Node F → Node F) : Heap F :=
  { h with values := h.values.modify value f }

def incrSize (h : Heap F) (value : ℕ) : Heap F :=
  h.setNode value fun node => { node with size := node.size + 1 }

def decrSize (h : Heap F) (value : ℕ) : Heap F :=
  h.setNode value fun node => { node with size := node.size - 1 }

/-- The pointer that an append function stores. -/
def stored (h : Heap F) (value : ℕ) (reference : Bool) : ℕ :=
  if reference then value else h.values.length

def store (h : Heap F) (value : ℕ) (reference : Bool) : Except Fault (Heap F) := do
  if reference then .ok h
  else
    let node ← deref h.values (some value)
    .ok { h with values := h.values ++ [node] }

end Heap

def newNode (h : Heap F) (node : Node F) : Heap F × ℕ :=
  ({ h with values := h.values ++ [node] }, h.values.length)

/-- `granted` says whether `arena_push` gives what it is asked for. -/
def newScalar (h : Heap F) (node : Node F) (granted : Bool) : Except Fault (Heap F × ℕ) :=
  if granted then .ok (newNode h node) else .error .nullPointer

def jsonNullNew (h : Heap F) (granted : Bool) : Except Fault (Heap F × ℕ) :=
  newScalar h ⟨.null, 0, .zero⟩ granted

def jsonBoolNew (h : Heap F) (b granted : Bool) : Except Fault (Heap F × ℕ) :=
  newScalar h ⟨.bool, 0, .b b⟩ granted

def jsonU64New (h : Heap F) (u64 : UInt64) (granted : Bool) : Except Fault (Heap F × ℕ) :=
  newScalar h ⟨.u64, 0, .u64 u64⟩ granted

def jsonI64New (h : Heap F) (i64 : Int64) (granted : Bool) : Except Fault (Heap F × ℕ) :=
  newScalar h ⟨.i64, 0, .i64 i64⟩ granted

def jsonF64New (h : Heap F) (f64 : F) (granted : Bool) : Except Fault (Heap F × ℕ) :=
  newScalar h ⟨.f64, 0, .f64 f64⟩ granted

/-- `holds` says which requests the block of the string arena has room for. -/
def jsonStrNew (holds : ℕ → Bool) (h : Heap F) (str : List UInt8) (granted : Bool) :
    Except Fault (Heap F × ℕ) :=
  if holds ((cString str).length + 1) then
    newScalar h ⟨.str, UInt32.ofNat (cString str).length, .str (cString str)⟩ granted
  else .error .arenaOverrun

/-- `json_set_tags` alone. -/
def jsonNullSet (h : Heap F) (value : ℕ) : Except Fault (Heap F) := do
  let _ ← deref h.values (some value)
  .ok (h.setNode value fun node => { node with tag := .null })

/-- `json_set_tags`, and the member of the union that goes with the tag. The size stays. -/
def setValue (h : Heap F) (value : ℕ) (tag : JsonTag) (union : JsonValueUnion F) :
    Except Fault (Heap F) := do
  let _ ← deref h.values (some value)
  .ok (h.setNode value fun node => { node with tag := tag, value := union })

def jsonBoolSet (h : Heap F) (value : ℕ) (b : Bool) : Except Fault (Heap F) :=
  setValue h value .bool (.b b)

def jsonU64Set (h : Heap F) (value : ℕ) (u64 : UInt64) : Except Fault (Heap F) :=
  setValue h value .u64 (.u64 u64)

def jsonI64Set (h : Heap F) (value : ℕ) (i64 : Int64) : Except Fault (Heap F) :=
  setValue h value .i64 (.i64 i64)

def jsonF64Set (h : Heap F) (value : ℕ) (f64 : F) : Except Fault (Heap F) :=
  setValue h value .f64 (.f64 f64)

def jsonStrSet (holds : ℕ → Bool) (h : Heap F) (value : ℕ) (str : List UInt8) (granted : Bool) :
    Except Fault (Heap F) :=
  if granted then
    if holds ((cString str).length + 1) then setValue h value .str (.str (cString str))
    else .error .arenaOverrun
  else .error .nullPointer

def jsonArrayNew (h : Heap F) (granted : Bool) : Except Fault (Heap F × ℕ) :=
  if granted then
    .ok (newNode { h with arrayInfos := h.arrayInfos ++ [⟨none, none⟩] }
      ⟨.array, 0, .arrayInfo h.arrayInfos.length⟩)
  else .error .nullPointer

def jsonArrayGetSize (h : Heap F) (value : ℕ) : Except Fault ℕ := do
  let node ← deref h.values (some value)
  .ok (if node.tag = .array then node.size.toNat else 0)

/-- A new element is written to at once, so that it must not be null. -/
def jsonArrayAppend (h : Heap F) (array value : ℕ) (reference granted : Bool) :
    Except Fault (Heap F) := do
  let node ← deref h.values (some array)
  let info ← node.arrayInfo
  let ends ← deref h.arrayInfos (some info)
  if granted then
    let (arrayElements, ends) ← linkElement h.arrayElements ends (h.stored value reference)
    let copied ← h.store value reference
    .ok ({ copied with arrayElements, arrayInfos := h.arrayInfos.set info ends }.incrSize array)
  else .error .nullPointer

/-- The loop of `json_array_pop`, with the number of elements still to pass. -/
def arrayPopLoop (cells : List (Cell ℕ)) : ℕ → Option ℕ → Option ℕ →
    Except Fault (Option ℕ × Option ℕ)
  | 0, previous, current => do
    let _ ← deref cells current
    .ok (previous, current)
  | turns + 1, previous, current => do
    let cell ← deref cells current
    match cell.next with
    | none => .ok (previous, current)
    | some next => arrayPopLoop cells turns current (some next)

def jsonArrayPop (h : Heap F) (array index : ℕ) : Except Fault (Heap F) := do
  let size ← jsonArrayGetSize h array
  if size ≤ index then .ok h
  else
    let node ← deref h.values (some array)
    let info ← node.arrayInfo
    let ends ← deref h.arrayInfos (some info)
    if index = 0 then
      let cell ← deref h.arrayElements ends.head
      .ok ({ h with arrayInfos := h.arrayInfos.set info { ends with head := cell.next } }.decrSize
        array)
    else
      match ← arrayPopLoop h.arrayElements index none ends.head with
      | (some previous, some current) =>
        let (arrayElements, ends) ← unlinkElement h.arrayElements ends previous current
        .ok ({ h with arrayElements, arrayInfos := h.arrayInfos.set info ends }.decrSize array)
      | (_, current) =>
        .ok ({ h with arrayInfos := h.arrayInfos.set info { ends with head := current } }.decrSize
          array)

def jsonArrayGetNext (h : Heap F) (array : ℕ) (iterator : Option ℕ) :
    Except Fault (Option ℕ × Option ℕ) := do
  let current ← match iterator with
    | none => do
      let node ← deref h.values (some array)
      let info ← node.arrayInfo
      let ends ← deref h.arrayInfos (some info)
      .ok ends.head
    | some _ => do
      let cell ← deref h.arrayElements iterator
      .ok cell.next
  currentItem h.arrayElements current

def jsonDictNew (h : Heap F) (granted : Bool) : Except Fault (Heap F × ℕ) :=
  if granted then
    .ok (newNode { h with dictInfos := h.dictInfos ++ [⟨none, none⟩] }
      ⟨.dict, 0, .dictInfo h.dictInfos.length⟩)
  else .error .nullPointer

def jsonDictGetSize (h : Heap F) (value : ℕ) : Except Fault ℕ := do
  let node ← deref h.values (some value)
  .ok (if node.tag = .dict then node.size.toNat else 0)

def jsonDictAppend (holds : ℕ → Bool) (h : Heap F) (dict : ℕ) (key : List UInt8) (value : ℕ)
    (reference granted : Bool) : Except Fault (Heap F) := do
  let node ← deref h.values (some dict)
  let info ← node.dictInfo
  let ends ← deref h.dictInfos (some info)
  if granted then
    let (dictElements, ends) ←
      linkElement h.dictElements ends ⟨cString key, h.stored value reference⟩
    if holds ((cString key).length + 1) then
      let copied ← h.store value reference
      .ok ({ copied with dictElements, dictInfos := h.dictInfos.set info ends }.incrSize dict)
    else .error .arenaOverrun
  else .error .nullPointer

/-- The search of `json_dict_find` and `json_dict_pop`: the element with the key, and
the one before it. -/
def dictFindLoop (cells : List (Cell JsonKeyValue)) (key : List UInt8) :
    ℕ → Option ℕ → Option ℕ → Except Fault (Option ℕ × Option ℕ)
  | 0, _, _ => .error .diverges
  | fuel + 1, previous, current =>
    match current with
    | none => .ok (previous, none)
    | some _ => do
      let cell ← deref cells current
      if cell.item.key = key then .ok (previous, current)
      else dictFindLoop cells key fuel current cell.next

def jsonDictFind (h : Heap F) (dict : ℕ) (key : List UInt8) : Except Fault (Option ℕ) := do
  let node ← deref h.values (some dict)
  let info ← node.dictInfo
  let ends ← deref h.dictInfos (some info)
  match ← dictFindLoop h.dictElements (cString key) (h.dictElements.length + 1) none ends.head with
  | (_, none) => .ok none
  | (_, some current) =>
    let cell ← deref h.dictElements (some current)
    .ok (some cell.item.value)

def jsonDictPop (h : Heap F) (dict : ℕ) (key : List UInt8) : Except Fault (Heap F) := do
  let node ← deref h.values (some dict)
  let info ← node.dictInfo
  let ends ← deref h.dictInfos (some info)
  match ← dictFindLoop h.dictElements (cString key) (h.dictElements.length + 1) none ends.head with
  | (_, none) => .ok h
  | (none, some current) =>
    .ok ({ h with dictInfos := h.dictInfos.set info { ends with head := some current } }.decrSize
      dict)
  | (some previous, some current) =>
    let (dictElements, ends) ← unlinkElement h.dictElements ends previous current
    .ok ({ h with dictElements, dictInfos := h.dictInfos.set info ends }.decrSize dict)

def jsonDictGetNext (h : Heap F) (dict : ℕ) (iterator : Option ℕ) :
    Except Fault (Option ℕ × Option JsonKeyValue) := do
  let current ← match iterator with
    | none => do
      let node ← deref h.values (some dict)
      let info ← node.dictInfo
      let ends ← deref h.dictInfos (some info)
      .ok ends.head
    | some _ => do
      let cell ← deref h.dictElements iterator
      .ok cell.next
  currentItem h.dictElements current

end Values

end Libromano.JsonHeap
