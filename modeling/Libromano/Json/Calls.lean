/- The calls that build and change a document, and what each of them may touch. -/

import Libromano.Foundation.Objects
import Libromano.Json.Separation

set_option autoImplicit false
set_option relaxedAutoImplicit false

namespace Libromano.JsonHeap

open Foundation.Chains
open Bytes (cString)

variable {F : Type}

/-- The calls of the interface that change a document. -/
inductive Call (F : Type)
  | nullNew (granted : Bool)
  | boolNew (b granted : Bool)
  | u64New (u64 : UInt64) (granted : Bool)
  | i64New (i64 : Int64) (granted : Bool)
  | f64New (f64 : F) (granted : Bool)
  | strNew (str : List UInt8) (granted : Bool)
  | arrayNew (granted : Bool)
  | dictNew (granted : Bool)
  | nullSet (value : ℕ)
  | boolSet (value : ℕ) (b : Bool)
  | u64Set (value : ℕ) (u64 : UInt64)
  | i64Set (value : ℕ) (i64 : Int64)
  | f64Set (value : ℕ) (f64 : F)
  | strSet (value : ℕ) (str : List UInt8) (granted : Bool)
  | arrayAppend (array value : ℕ) (reference granted : Bool)
  | arrayPop (array index : ℕ)
  | dictAppend (dict : ℕ) (key : List UInt8) (value : ℕ) (reference granted : Bool)
  | dictPop (dict : ℕ) (key : List UInt8)

namespace Call

def step (holds : ℕ → Bool) (h : Heap F) : Call F → Except Fault (Heap F)
  | nullNew granted => Prod.fst <$> jsonNullNew h granted
  | boolNew b granted => Prod.fst <$> jsonBoolNew h b granted
  | u64New u64 granted => Prod.fst <$> jsonU64New h u64 granted
  | i64New i64 granted => Prod.fst <$> jsonI64New h i64 granted
  | f64New f64 granted => Prod.fst <$> jsonF64New h f64 granted
  | strNew str granted => Prod.fst <$> jsonStrNew holds h str granted
  | arrayNew granted => Prod.fst <$> jsonArrayNew h granted
  | dictNew granted => Prod.fst <$> jsonDictNew h granted
  | nullSet value => jsonNullSet h value
  | boolSet value b => jsonBoolSet h value b
  | u64Set value u64 => jsonU64Set h value u64
  | i64Set value i64 => jsonI64Set h value i64
  | f64Set value f64 => jsonF64Set h value f64
  | strSet value str granted => jsonStrSet holds h value str granted
  | arrayAppend array value reference granted => jsonArrayAppend h array value reference granted
  | arrayPop array index => jsonArrayPop h array index
  | dictAppend dict key value reference granted =>
    jsonDictAppend holds h dict key value reference granted
  | dictPop dict key => jsonDictPop h dict key

def sets : Call F → Option (ℕ × (Node F → Node F))
  | nullSet value => some (value, fun node => { node with tag := .null })
  | boolSet value b => some (value, fun node => { node with tag := .bool, value := .b b })
  | u64Set value u64 => some (value, fun node => { node with tag := .u64, value := .u64 u64 })
  | i64Set value i64 => some (value, fun node => { node with tag := .i64, value := .i64 i64 })
  | f64Set value f64 => some (value, fun node => { node with tag := .f64, value := .f64 f64 })
  | strSet value str _ =>
    some (value, fun node => { node with tag := .str, value := .str (cString str) })
  | _ => none

end Call

def HasArray (h : Heap F) (p info : ℕ) : Prop :=
  ∃ node, h.values[p]? = some node ∧ node.value = .arrayInfo info

def HasDict (h : Heap F) (p info : ℕ) : Prop :=
  ∃ node, h.values[p]? = some node ∧ node.value = .dictInfo info

namespace Call

def Overwrites (h : Heap F) (q : ℕ) (call : Call F) : Prop :=
  ∃ f node, call.sets = some (q, f) ∧ h.values[q]? = some node ∧ f node ≠ node

def RelinksArray (h : Heap F) (info : ℕ) : Call F → Prop
  | arrayAppend array _ _ _ => HasArray h array info
  | arrayPop array index => HasArray h array info ∧
    ∃ size, jsonArrayGetSize h array = .ok size ∧ index < size
  | _ => False

/-- The call changes the entries of a dict. The first entry is not removed. -/
def RelinksDict (h : Heap F) (info : ℕ) : Call F → Prop
  | dictAppend dict _ _ _ _ => HasDict h dict info
  | dictPop dict key => HasDict h dict info ∧ jsonDictFind h dict key ≠ .ok none ∧
    ∀ iterator entry, jsonDictGetNext h dict none = .ok (iterator, some entry) →
      entry.key ≠ cString key
  | _ => False

def Resizes (h : Heap F) (q : ℕ) : Call F → Prop
  | arrayAppend array _ _ _ => q = array
  | arrayPop array index => q = array ∧ ∃ size, jsonArrayGetSize h array = .ok size ∧ index < size
  | dictAppend dict _ _ _ _ => q = dict
  | dictPop dict key => q = dict ∧ jsonDictFind h dict key ≠ .ok none
  | _ => False

/-- The call does not touch a value and what is below it. -/
structure Spares (h : Heap F) (p : ℕ) (call : Call F) : Prop where
  nodes : ∀ q, Reaches h p q → ¬call.Overwrites h q
  arrays : ∀ q size info, Reaches h p q → h.values[q]? = some ⟨.array, size, .arrayInfo info⟩ →
    ¬call.RelinksArray h info
  dicts : ∀ q size info, Reaches h p q → h.values[q]? = some ⟨.dict, size, .dictInfo info⟩ →
    ¬call.RelinksDict h info
  size : ¬call.Resizes h p

end Call

end Libromano.JsonHeap
