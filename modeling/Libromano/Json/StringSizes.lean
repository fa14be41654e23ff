/- The sizes of the string nodes, which stand in the upper half of the tags. A node that the
   parser makes for a string takes over what its memory held before. -/

import Libromano.Json.Effects
import Mathlib.Data.List.TakeWhile

set_option autoImplicit false
set_option relaxedAutoImplicit false

namespace Libromano.JsonHeap

open Foundation.Objects Foundation.Chains
open Bytes (cString)
open Json (JsonValue jsonLoads Stop)

variable {F : Type}

def jsonStrGet (h : Heap F) (value : ℕ) : Except Fault (Option (List UInt8)) := do
  let node ← deref h.values (some value)
  if node.tag ≠ .str then .ok none
  else
    match node.value with
    | .str str => .ok (some str)
    | _ => .error .outOfBounds

def jsonStrGetSize (h : Heap F) (value : ℕ) : Except Fault ℕ := do
  let node ← deref h.values (some value)
  .ok (if node.tag ≠ .str then 0 else node.size.toNat)

mutual

/-- The nodes that the parser makes of a value, with the calls that it makes. `fresh` is the upper
half of the tags in the memory of the node that comes at a place: for a string it stays. -/
def loadValue (holds : ℕ → Bool) (fresh : ℕ → UInt32) (h : Heap F) :
    JsonValue F → Except Fault (Heap F × ℕ)
  | .null => jsonNullNew h true
  | .bool b => jsonBoolNew h b true
  | .u64 n => jsonU64New h n true
  | .i64 n => jsonI64New h n true
  | .f64 x => jsonF64New h x true
  | .str s => .ok (newNode h ⟨.str, fresh h.values.length, .str s⟩)
  | .array vs => do
    let (h, array) ← jsonArrayNew h true
    let h ← loadElements holds fresh h array vs
    .ok (h, array)
  | .dict kvs => do
    let (h, dict) ← jsonDictNew h true
    let h ← loadMembers holds fresh h dict kvs
    .ok (h, dict)

/-- The loop of `json_parse_array`. -/
def loadElements (holds : ℕ → Bool) (fresh : ℕ → UInt32) (h : Heap F) (array : ℕ) :
    List (JsonValue F) → Except Fault (Heap F)
  | [] => .ok h
  | v :: vs => do
    let (h, element) ← loadValue holds fresh h v
    let h ← jsonArrayAppend h array element true true
    loadElements holds fresh h array vs

/-- The loop of `parse_dict`. The node of a key is dropped once its string has been taken. -/
def loadMembers (holds : ℕ → Bool) (fresh : ℕ → UInt32) (h : Heap F) (dict : ℕ) :
    List (List UInt8 × JsonValue F) → Except Fault (Heap F)
  | [] => .ok h
  | (k, v) :: kvs => do
    let (h, value) ← loadValue holds fresh h v
    let h ← jsonDictAppend holds h dict k value true true
    loadMembers holds fresh h dict kvs

end

inductive StringCall
  | strNew (str : List UInt8)
  | strSet (value : ℕ) (str : List UInt8)
  | loads (text : List UInt8) (fresh : ℕ → UInt32)

/-- A text that is not accepted makes no node that can be reached. -/
def StringCall.step [Float64 F] (holds : ℕ → Bool) (h : Heap F) : StringCall → Except Fault (Heap F)
  | .strNew str => Prod.fst <$> jsonStrNew holds h str true
  | .strSet value str => jsonStrSet holds h value str true
  | .loads text fresh =>
    match (jsonLoads holds text : Except Stop (JsonValue F)) with
    | .ok root => Prod.fst <$> loadValue holds fresh h root
    | .error (.null _) => .ok h
    | .error (.fault fault) => .error fault

def SizesRight (h : Heap F) : Prop :=
  ∀ (value : ℕ) (node : Node F), h.values[value]? = some node → node.tag = .str →
    ∃ str, jsonStrGet h value = .ok (some str) ∧
      jsonStrGetSize h value = .ok (cString str).length

mutual

def preorder : JsonValue F → List (JsonValue F)
  | .array vs => .array vs :: preorderElements vs
  | .dict kvs => .dict kvs :: preorderMembers kvs
  | v => [v]

def preorderElements : List (JsonValue F) → List (JsonValue F)
  | [] => []
  | v :: vs => preorder v ++ preorderElements vs

def preorderMembers : List (List UInt8 × JsonValue F) → List (JsonValue F)
  | [] => []
  | (_, v) :: kvs => preorder v ++ preorderMembers kvs

end

/-- The size that stands in the tags already, or that `json_str_new` can put there, is that of the
string. -/
def SizeFits [Float64 F] (holds : ℕ → Bool) (h : Heap F) : StringCall → Prop
  | .strNew str => (cString str).length < 2 ^ 32
  | .strSet value str =>
    ∀ node, h.values[value]? = some node → node.size.toNat = (cString str).length
  | .loads text fresh => ∀ root : JsonValue F, jsonLoads holds text = .ok root →
    ∀ i str, (preorder root)[i]? = some (.str str) →
      (fresh (h.values.length + i)).toNat = (cString str).length

theorem sizesRight_iff {h : Heap F} : SizesRight h ↔
    ∀ (value : ℕ) (node : Node F), h.values[value]? = some node → node.tag = .str →
      ∃ str, node.value = .str str ∧ node.size.toNat = (cString str).length := by
  refine forall_congr' fun value => forall_congr' fun node => forall_congr' fun hnode =>
    forall_congr' fun htag => exists_congr fun str => ?_
  have hderef : deref h.values (some value) = .ok node := deref_some.mpr hnode
  unfold jsonStrGet jsonStrGetSize
  rw [hderef, bind_ok, bind_ok, if_neg (not_not.mpr htag), if_neg (not_not.mpr htag)]
  cases node.value <;> simp

section Loads

variable {holds : ℕ → Bool} {fresh : ℕ → UInt32} {h h₁ h₂ h' : Heap F} {vs ws : List (JsonValue F)}

/-- The string nodes are those from before and those of the strings among the values, with the
sizes of the fresh memory. -/
structure Loaded (fresh : ℕ → UInt32) (h h' : Heap F) (vs : List (JsonValue F)) : Prop where
  length : h'.values.length = h.values.length + vs.length
  strings : ∀ (p : ℕ) (node : Node F), h'.values[p]? = some node → node.tag = .str →
    h.values[p]? = some node ∨
      ∃ i str, p = h.values.length + i ∧ vs[i]? = some (.str str) ∧ node = ⟨.str, fresh p, .str str⟩

def NoString (h : Heap F) (p : ℕ) : Prop := ∃ node, h.values[p]? = some node ∧ node.tag ≠ .str

theorem Loaded.refl (fresh : ℕ → UInt32) (h : Heap F) : Loaded fresh h h [] :=
  ⟨rfl, fun _ _ hnode _ => .inl hnode⟩

theorem Loaded.trans (h₁₂ : Loaded fresh h h₁ vs) (h₂₃ : Loaded fresh h₁ h₂ ws) :
    Loaded fresh h h₂ (vs ++ ws) := by
  refine ⟨by rw [h₂₃.length, h₁₂.length, List.length_append, Nat.add_assoc], ?_⟩
  intro p node hnode htag
  rcases h₂₃.strings p node hnode htag with hold | ⟨i, str, rfl, hstr, hnew⟩
  · rcases h₁₂.strings p node hold htag with hold | ⟨i, str, rfl, hstr, hnew⟩
    · exact .inl hold
    · have hlt := (List.getElem?_eq_some_iff.mp hstr).1
      exact .inr ⟨i, str, rfl, by rw [List.getElem?_append_left hlt, hstr], hnew⟩
  · refine .inr ⟨vs.length + i, str, by rw [h₁₂.length, Nat.add_assoc], ?_, hnew⟩
    rw [List.getElem?_append_right (Nat.le_add_right _ _), Nat.add_sub_cancel_left, hstr]

theorem Loaded.noString (hloaded : Loaded fresh h h' vs) {p : ℕ} (hp : NoString h p) :
    NoString h' p := by
  obtain ⟨node, hnode, htag⟩ := hp
  have hlt := (List.getElem?_eq_some_iff.mp hnode).1
  have hlt' : p < h'.values.length := by
    rw [hloaded.length]
    omega
  refine ⟨h'.values[p], List.getElem?_eq_getElem hlt', fun hstr => ?_⟩
  rcases hloaded.strings p _ (List.getElem?_eq_getElem hlt') hstr with hold | ⟨i, str, hi, -⟩
  · cases hnode.symm.trans hold
    exact htag hstr
  · omega

theorem loaded_newNode {h₀ : Heap F} (hsame : h₀.values = h.values) {v : JsonValue F}
    {node : Node F}
    (hnode : node.tag = .str → ∃ str, v = .str str ∧ node = ⟨.str, fresh h.values.length, .str str⟩) :
    Loaded fresh h (newNode h₀ node).1 [v] := by
  unfold newNode
  rw [hsame]
  refine ⟨by simp, ?_⟩
  intro p node' hnode' htag
  rcases Nat.lt_trichotomy p h.values.length with hlt | rfl | hgt
  · rw [List.getElem?_append_left hlt] at hnode'
    exact .inl hnode'
  · rw [List.getElem?_append_right (le_refl _), Nat.sub_self] at hnode'
    cases hnode'
    obtain ⟨str, rfl, hnew⟩ := hnode htag
    exact .inr ⟨0, str, rfl, rfl, hnew⟩
  · rw [List.getElem?_eq_none (by simp; omega)] at hnode'
    cases hnode'

theorem loaded_incrSize {h₀ : Heap F} (hsame : h₀.values = h.values) {p : ℕ} (hp : NoString h p) :
    Loaded fresh h (h₀.incrSize p) [] := by
  unfold Heap.incrSize Heap.setNode
  rw [hsame]
  refine ⟨by simp, ?_⟩
  intro q node hnode htag
  obtain ⟨container, hcontainer, hne⟩ := hp
  by_cases hq : q = p
  · subst hq
    rw [List.getElem?_modify_eq, hcontainer] at hnode
    cases hnode
    exact absurd htag hne
  · rw [List.getElem?_modify_ne _ _ (Ne.symm hq)] at hnode
    exact .inl hnode

theorem loaded_arrayAppend {array value : ℕ} (hp : NoString h array)
    (happend : jsonArrayAppend h array value true true = .ok h') : Loaded fresh h h' [] := by
  unfold jsonArrayAppend at happend
  obtain ⟨node, -, happend⟩ := bind_eq_ok.mp happend
  obtain ⟨info, -, happend⟩ := bind_eq_ok.mp happend
  obtain ⟨ends, -, happend⟩ := bind_eq_ok.mp happend
  obtain ⟨linked, -, happend⟩ := bind_eq_ok.mp happend
  obtain ⟨copied, hcopied, happend⟩ := bind_eq_ok.mp happend
  cases hcopied
  cases happend
  refine loaded_incrSize ?_ hp
  rfl

theorem loaded_dictAppend {dict value : ℕ} {key : List UInt8} (hp : NoString h dict)
    (happend : jsonDictAppend holds h dict key value true true = .ok h') : Loaded fresh h h' [] := by
  unfold jsonDictAppend at happend
  obtain ⟨node, -, happend⟩ := bind_eq_ok.mp happend
  obtain ⟨info, -, happend⟩ := bind_eq_ok.mp happend
  obtain ⟨ends, -, happend⟩ := bind_eq_ok.mp happend
  obtain ⟨linked, -, happend⟩ := bind_eq_ok.mp happend
  dsimp only at happend
  split at happend
  case isFalse => cases happend
  case isTrue =>
    obtain ⟨copied, hcopied, happend⟩ := bind_eq_ok.mp happend
    cases hcopied
    cases happend
    refine loaded_incrSize ?_ hp
    rfl

def LoadsNodes (holds : ℕ → Bool) (fresh : ℕ → UInt32) (v : JsonValue F) : Prop :=
  ∀ (h : Heap F) (loaded : Heap F × ℕ), loadValue holds fresh h v = .ok loaded →
    Loaded fresh h loaded.1 (preorder v)

theorem loadElements_loaded {vs : List (JsonValue F)} (hvs : ∀ v ∈ vs, LoadsNodes holds fresh v)
    {array : ℕ} (hp : NoString h array) (hload : loadElements holds fresh h array vs = .ok h') :
    Loaded fresh h h' (preorderElements vs) := by
  induction vs generalizing h with
  | nil =>
    rw [loadElements] at hload
    cases hload
    exact Loaded.refl fresh _
  | cons v vs ih =>
    rw [loadElements] at hload
    obtain ⟨loaded, hvalue, hload⟩ := bind_eq_ok.mp hload
    obtain ⟨appended, happend, hload⟩ := bind_eq_ok.mp hload
    have hfirst := hvs v List.mem_cons_self h loaded hvalue
    have happended := hfirst.trans (loaded_arrayAppend (hfirst.noString hp) happend)
    rw [List.append_nil] at happended
    rw [preorderElements]
    exact happended.trans (ih (fun v hv => hvs v (List.mem_cons_of_mem _ hv))
      (happended.noString hp) hload)

theorem loadMembers_loaded {kvs : List (List UInt8 × JsonValue F)}
    (hkvs : ∀ kv ∈ kvs, LoadsNodes holds fresh kv.2) {dict : ℕ} (hp : NoString h dict)
    (hload : loadMembers holds fresh h dict kvs = .ok h') :
    Loaded fresh h h' (preorderMembers kvs) := by
  induction kvs generalizing h with
  | nil =>
    rw [loadMembers] at hload
    cases hload
    exact Loaded.refl fresh _
  | cons kv kvs ih =>
    obtain ⟨k, v⟩ := kv
    rw [loadMembers] at hload
    obtain ⟨loaded, hvalue, hload⟩ := bind_eq_ok.mp hload
    obtain ⟨appended, happend, hload⟩ := bind_eq_ok.mp hload
    have hfirst := hkvs (k, v) List.mem_cons_self h loaded hvalue
    have happended := hfirst.trans (loaded_dictAppend (hfirst.noString hp) happend)
    rw [List.append_nil] at happended
    rw [preorderMembers]
    exact happended.trans (ih (fun kv hkv => hkvs kv (List.mem_cons_of_mem _ hkv))
      (happended.noString hp) hload)

theorem noString_newNode {h₀ : Heap F} {node : Node F} (htag : node.tag ≠ .str) :
    NoString (newNode h₀ node).1 (newNode h₀ node).2 := ⟨node, by simp [newNode], htag⟩

theorem loadValue_loaded (v : JsonValue F) : LoadsNodes holds fresh v := by
  induction v using JsonValue.induction with
  | null | bool | u64 | i64 | f64 =>
    intro h loaded hload
    rw [loadValue] at hload
    cases hload
    exact loaded_newNode rfl fun htag => by cases htag
  | str s =>
    intro h loaded hload
    rw [loadValue] at hload
    cases hload
    exact loaded_newNode rfl fun _ => ⟨s, rfl, rfl⟩
  | array vs ih =>
    intro h loaded hload
    rw [loadValue] at hload
    obtain ⟨made, hmade, hload⟩ := bind_eq_ok.mp hload
    obtain ⟨filled, hfilled, hload⟩ := bind_eq_ok.mp hload
    cases hmade
    cases hload
    rw [preorder]
    show Loaded fresh h filled ([.array vs] ++ preorderElements vs)
    refine Loaded.trans (loaded_newNode ?_ ?_) (loadElements_loaded ih (noString_newNode ?_) hfilled)
    · rfl
    · intro htag
      cases htag
    · intro htag
      cases htag
  | dict kvs ih =>
    intro h loaded hload
    rw [loadValue] at hload
    obtain ⟨made, hmade, hload⟩ := bind_eq_ok.mp hload
    obtain ⟨filled, hfilled, hload⟩ := bind_eq_ok.mp hload
    cases hmade
    cases hload
    rw [preorder]
    show Loaded fresh h filled ([.dict kvs] ++ preorderMembers kvs)
    refine Loaded.trans (loaded_newNode ?_ ?_) (loadMembers_loaded ih (noString_newNode ?_) hfilled)
    · rfl
    · intro htag
      cases htag
    · intro htag
      cases htag

end Loads

section Runs

variable {holds : ℕ → Bool} {h h' : Heap F}

theorem cString_cString (str : List UInt8) : cString (cString str) = cString str :=
  List.takeWhile_idem

theorem Loaded.sizesRight {fresh : ℕ → UInt32} {vs : List (JsonValue F)}
    (hloaded : Loaded fresh h h' vs) (hright : SizesRight h)
    (hsizes : ∀ i str, vs[i]? = some (.str str) →
      (fresh (h.values.length + i)).toNat = (cString str).length) : SizesRight h' := by
  rw [sizesRight_iff] at hright ⊢
  intro p node hnode htag
  rcases hloaded.strings p node hnode htag with hold | ⟨i, str, rfl, hstr, rfl⟩
  · exact hright p node hold htag
  · exact ⟨str, rfl, hsizes i str hstr⟩

theorem strNew_sizesRight {str : List UInt8} (hright : SizesRight h)
    (hfits : (cString str).length < 2 ^ 32)
    (hstep : Prod.fst <$> jsonStrNew holds h str true = .ok h') : SizesRight h' := by
  unfold jsonStrNew at hstep
  split at hstep
  case isFalse => cases hstep
  case isTrue =>
    cases hstep
    have hloaded : Loaded (fun _ => UInt32.ofNat (cString str).length) h
        (newNode h ⟨.str, UInt32.ofNat (cString str).length, .str (cString str)⟩).1
        [.str (cString str)] := loaded_newNode rfl fun _ => ⟨_, rfl, rfl⟩
    apply hloaded.sizesRight hright
    intro i str' hstr
    obtain ⟨-, hstr'⟩ := List.mem_singleton.mp (List.mem_of_getElem? hstr)
    rw [UInt32.toNat_ofNat_of_lt' hfits, cString_cString]

theorem strSet_sizesRight {value : ℕ} {str : List UInt8} (hright : SizesRight h)
    (hfits : ∀ node, h.values[value]? = some node → node.size.toNat = (cString str).length)
    (hstep : jsonStrSet holds h value str true = .ok h') : SizesRight h' := by
  unfold jsonStrSet setValue at hstep
  rw [if_pos rfl] at hstep
  split at hstep
  case isFalse => cases hstep
  case isTrue =>
    obtain ⟨node, hderef, hstep⟩ := bind_eq_ok.mp hstep
    cases hstep
    rw [sizesRight_iff] at hright ⊢
    intro p node' hnode' htag
    by_cases hp : value = p
    · subst hp
      have hnode := deref_some.mp hderef
      rw [Heap.setNode, List.getElem?_modify_eq, hnode] at hnode'
      cases hnode'
      exact ⟨_, rfl, by rw [cString_cString]; exact hfits node hnode⟩
    · refine hright p node' ?_ htag
      rwa [Heap.setNode, List.getElem?_modify_ne _ _ hp] at hnode'

theorem step_sizesRight [Float64 F] {call : StringCall} (hright : SizesRight h)
    (hfits : SizeFits holds h call) (hstep : call.step holds h = .ok h') : SizesRight h' := by
  cases call with
  | strNew str => exact strNew_sizesRight hright hfits hstep
  | strSet value str => exact strSet_sizesRight hright hfits hstep
  | loads text fresh =>
    dsimp only [StringCall.step] at hstep
    split at hstep
    case h_1 root hroot =>
      cases hload : loadValue holds fresh h root with
      | error fault =>
        rw [hload] at hstep
        cases hstep
      | ok loaded =>
        rw [hload] at hstep
        cases hstep
        exact (loadValue_loaded root h loaded hload).sizesRight hright (hfits root hroot)
    case h_2 =>
      cases hstep
      exact hright
    case h_3 => cases hstep

/-- In a run whose calls all find or put the size of the string, the sizes are right in every
state. -/
theorem stringCalls_sizesRight [Float64 F] (holds : ℕ → Bool) (h : Heap F) (calls : List StringCall)
    (hright : SizesRight h) (hfits : Along (StringCall.step holds) (SizeFits holds) h calls) :
    Throughout (StringCall.step holds) SizesRight h calls :=
  throughout_of_along (fun _ _ _ hright hfits hstep => step_sizesRight hright hfits hstep) hright hfits

/-- `"a"` is loaded where the size of one character stands already, and set to `"b"`. -/
theorem stringCalls_sizesRight_loads :
    Throughout (StringCall.step (fun _ => true)) SizesRight (⟨[], [], [], [], []⟩ : Heap ℚ)
      [.loads [34, 97, 34] fun _ => 1, .strSet 0 [98]] := by
  refine stringCalls_sizesRight _ _ _ (fun value node hnode => by cases hnode) ⟨?_, ?_⟩
  · intro root hroot i str hstr
    have hone : (Except.ok (.str [97]) : Except Stop (JsonValue ℚ)) = .ok root := hroot
    cases hone
    obtain ⟨-, hstr'⟩ := List.mem_singleton.mp (List.mem_of_getElem? hstr)
    rfl
  · intro h hload
    have hone : (Except.ok ⟨[⟨.str, 1, .str [97]⟩], [], [], [], []⟩ : Except Fault (Heap ℚ)) = .ok h :=
      hload
    cases hone
    refine ⟨fun node hnode => ?_, fun _ _ => trivial⟩
    cases hnode
    rfl

/-- `json_str_new` of one character, then `json_str_set` of two. -/
theorem stringCalls_not_sizesRight :
    ¬∀ calls : List StringCall,
      Throughout (StringCall.step (fun _ => true)) SizesRight (⟨[], [], [], [], []⟩ : Heap ℚ) calls := by
  intro h
  have hrun := h [.strNew [97], .strSet 0 [98, 99]]
  have hright := ((hrun.2 _ rfl).2 _ rfl).start
  obtain ⟨str, hget, hsize⟩ := hright 0 _ rfl rfl
  cases hget
  cases hsize

end Runs

end Libromano.JsonHeap
