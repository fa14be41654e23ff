/- The trees of `json.c`. Arrays and dicts are linked lists in the code and lists here; a dict
   keeps its keys in the order in which they were appended, and keeps every one of them. -/

import Mathlib.Data.List.Basic

set_option autoImplicit false
set_option relaxedAutoImplicit false

namespace Libromano.Json

inductive JsonValue (F : Type)
  | null
  | bool (b : Bool)
  | u64 (u64 : UInt64)
  | i64 (i64 : Int64)
  | f64 (f64 : F)
  | str (str : List UInt8)
  | array (elements : List (JsonValue F))
  | dict (elements : List (List UInt8 × JsonValue F))

namespace JsonValue

variable {F : Type}

@[elab_as_elim]
theorem induction {P : JsonValue F → Prop} (null : P .null) (bool : ∀ b, P (.bool b))
    (u64 : ∀ n, P (.u64 n)) (i64 : ∀ n, P (.i64 n)) (f64 : ∀ x, P (.f64 x))
    (str : ∀ s, P (.str s)) (array : ∀ vs, (∀ v ∈ vs, P v) → P (.array vs))
    (dict : ∀ kvs, (∀ kv ∈ kvs, P kv.2) → P (.dict kvs)) (v : JsonValue F) : P v := by
  refine @JsonValue.rec F P (fun vs => ∀ v ∈ vs, P v) (fun kvs => ∀ kv ∈ kvs, P kv.2)
    (fun kv => P kv.2) null bool u64 i64 f64 str array dict ?_ ?_ ?_ ?_ ?_ v
  · simp
  · intro v vs hv hvs
    exact List.forall_mem_cons.mpr ⟨hv, hvs⟩
  · simp
  · intro kv kvs hkv hkvs
    exact List.forall_mem_cons.mpr ⟨hkv, hkvs⟩
  · intro k v hv
    exact hv

mutual

/-- The scalars of a tree from left to right, and each key as a string before its value. -/
def leaves : JsonValue F → List (JsonValue F)
  | .array vs => leavesList vs
  | .dict kvs => leavesDict kvs
  | v => [v]

def leavesList : List (JsonValue F) → List (JsonValue F)
  | [] => []
  | v :: vs => leaves v ++ leavesList vs

def leavesDict : List (List UInt8 × JsonValue F) → List (JsonValue F)
  | [] => []
  | (k, v) :: kvs => .str k :: leaves v ++ leavesDict kvs

end

theorem leavesList_eq (vs : List (JsonValue F)) : leavesList vs = vs.flatMap leaves := by
  induction vs with
  | nil => rfl
  | cons v vs ih => exact (congrArg (leaves v ++ ·) ih).trans List.flatMap_cons.symm

theorem leavesDict_eq (kvs : List (List UInt8 × JsonValue F)) :
    leavesDict kvs = kvs.flatMap fun kv => .str kv.1 :: leaves kv.2 := by
  induction kvs with
  | nil => rfl
  | cons kv kvs ih => exact congrArg (.str kv.1 :: leaves kv.2 ++ ·) ih

@[simp] theorem leaves_array (vs : List (JsonValue F)) :
    leaves (.array vs) = vs.flatMap leaves := leavesList_eq vs

@[simp] theorem leaves_dict (kvs : List (List UInt8 × JsonValue F)) :
    leaves (.dict kvs) = kvs.flatMap fun kv => .str kv.1 :: leaves kv.2 :=
  leavesDict_eq kvs

def FloatFree (v : JsonValue F) : Prop := ∀ x : F, .f64 x ∉ v.leaves

/-- Every string of the tree, the keys among them, satisfies `P`. -/
def StringsSatisfy (P : List UInt8 → Prop) (v : JsonValue F) : Prop := ∀ s, .str s ∈ v.leaves → P s

@[simp] theorem stringsSatisfy_str {P : List UInt8 → Prop} {s : List UInt8} :
    StringsSatisfy P (.str s : JsonValue F) ↔ P s := by simp [StringsSatisfy, leaves]

theorem stringsSatisfy_array {P : List UInt8 → Prop} {vs : List (JsonValue F)} :
    StringsSatisfy P (.array vs) ↔ ∀ v ∈ vs, StringsSatisfy P v := by
  simp only [StringsSatisfy, leaves_array, List.mem_flatMap]
  exact ⟨fun h v hv s hs => h s ⟨v, hv, hs⟩, fun h s ⟨v, hv, hs⟩ => h v hv s hs⟩

theorem stringsSatisfy_dict {P : List UInt8 → Prop} {kvs : List (List UInt8 × JsonValue F)} :
    StringsSatisfy P (.dict kvs) ↔ ∀ kv ∈ kvs, P kv.1 ∧ StringsSatisfy P kv.2 := by
  simp only [StringsSatisfy, leaves_dict, List.mem_flatMap, List.mem_cons, JsonValue.str.injEq]
  constructor
  · intro h kv hkv
    exact ⟨h kv.1 ⟨kv, hkv, .inl rfl⟩, fun s hs => h s ⟨kv, hkv, .inr hs⟩⟩
  · rintro h s ⟨kv, hkv, rfl | hs⟩
    · exact (h kv hkv).1
    · exact (h kv hkv).2 s hs

theorem floatFree_array {vs : List (JsonValue F)} :
    FloatFree (.array vs) ↔ ∀ v ∈ vs, FloatFree v := by
  simp only [FloatFree, leaves_array, List.mem_flatMap, not_exists, not_and]
  exact ⟨fun h v hv x => h x v hv, fun h x v hv => h v hv x⟩

theorem floatFree_dict {kvs : List (List UInt8 × JsonValue F)} :
    FloatFree (.dict kvs) ↔ ∀ kv ∈ kvs, FloatFree kv.2 := by
  simp only [FloatFree, leaves_dict, List.mem_flatMap, List.mem_cons, reduceCtorEq, false_or,
    not_exists, not_and]
  exact ⟨fun h kv hkv x => h x kv hkv, fun h x kv hkv => h kv hkv x⟩

mutual

/-- The tree with `f` applied to every string, and with each integer that is
not negative as a `u64`. -/
def rewrite (f : List UInt8 → List UInt8) : JsonValue F → JsonValue F
  | .null => .null
  | .bool b => .bool b
  | .u64 n => .u64 n
  | .i64 x => if x < 0 then .i64 x else .u64 x.toUInt64
  | .f64 x => .f64 x
  | .str s => .str (f s)
  | .array vs => .array (rewriteList f vs)
  | .dict kvs => .dict (rewriteDict f kvs)

def rewriteList (f : List UInt8 → List UInt8) : List (JsonValue F) → List (JsonValue F)
  | [] => []
  | v :: vs => rewrite f v :: rewriteList f vs

def rewriteDict (f : List UInt8 → List UInt8) :
    List (List UInt8 × JsonValue F) → List (List UInt8 × JsonValue F)
  | [] => []
  | (k, v) :: kvs => (f k, rewrite f v) :: rewriteDict f kvs

end

/-- Two trees are the same when they differ at most in whether an integer is held as a `u64` or
as an `i64`. -/
def Same (v w : JsonValue F) : Prop := rewrite id v = rewrite id w

theorem rewriteList_eq (f : List UInt8 → List UInt8) (vs : List (JsonValue F)) :
    rewriteList f vs = vs.map (rewrite f) := by
  induction vs with
  | nil => rfl
  | cons v vs ih => exact congrArg (rewrite f v :: ·) ih

theorem rewriteDict_eq (f : List UInt8 → List UInt8) (kvs : List (List UInt8 × JsonValue F)) :
    rewriteDict f kvs = kvs.map fun kv => (f kv.1, rewrite f kv.2) := by
  induction kvs with
  | nil => rfl
  | cons kv kvs ih => exact congrArg ((f kv.1, rewrite f kv.2) :: ·) ih

@[simp] theorem rewrite_array (f : List UInt8 → List UInt8) (vs : List (JsonValue F)) :
    rewrite f (.array vs) = .array (vs.map (rewrite f)) :=
  congrArg JsonValue.array (rewriteList_eq f vs)

@[simp] theorem rewrite_dict (f : List UInt8 → List UInt8)
    (kvs : List (List UInt8 × JsonValue F)) :
    rewrite f (.dict kvs) = .dict (kvs.map fun kv => (f kv.1, rewrite f kv.2)) :=
  congrArg JsonValue.dict (rewriteDict_eq f kvs)

theorem rewrite_rewrite (f g : List UInt8 → List UInt8) (v : JsonValue F) :
    rewrite f (rewrite g v) = rewrite (f ∘ g) v := by
  induction v using JsonValue.induction with
  | i64 x =>
    simp only [rewrite]
    split_ifs with h
    · simp [rewrite, h]
    · rfl
  | array vs ih =>
    simp only [rewrite_array, List.map_map]
    exact congrArg _ (List.map_congr_left ih)
  | dict kvs ih =>
    simp only [rewrite_dict, List.map_map]
    refine congrArg _ (List.map_congr_left fun kv hkv => ?_)
    exact Prod.ext rfl (ih kv hkv)
  | _ => rfl

theorem rewrite_eq_rewrite_iff {f g : List UInt8 → List UInt8} {v : JsonValue F} :
    rewrite f v = rewrite g v ↔ StringsSatisfy (fun s => f s = g s) v := by
  induction v using JsonValue.induction with
  | i64 x => simp [rewrite, StringsSatisfy, leaves]
  | str s => simp [rewrite]
  | array vs ih =>
    rw [stringsSatisfy_array, rewrite_array, rewrite_array, JsonValue.array.injEq,
      List.map_inj_left]
    exact forall₂_congr ih
  | dict kvs ih =>
    rw [stringsSatisfy_dict, rewrite_dict, rewrite_dict, JsonValue.dict.injEq,
      List.map_inj_left]
    apply forall₂_congr
    intro kv hkv
    rw [Prod.mk.injEq, ih kv hkv]
  | _ => simp [rewrite, StringsSatisfy, leaves]

theorem same_rewrite_iff {f : List UInt8 → List UInt8} {v : JsonValue F} :
    Same v (rewrite f v) ↔ StringsSatisfy (fun s => f s = s) v := by
  rw [Same, rewrite_rewrite, Function.id_comp, eq_comm, rewrite_eq_rewrite_iff]
  rfl

end JsonValue

end Libromano.Json
