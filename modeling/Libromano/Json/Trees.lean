/- The trees that nodes denote, and what they depend on. -/

import Libromano.Json.Links
import Mathlib.Logic.Relation

set_option autoImplicit false
set_option relaxedAutoImplicit false

namespace Libromano.JsonHeap

open Foundation.Chains (Cell Segment items)
open Json (JsonValue)

variable {F : Type}

section Content

variable {α : Type}

/-- What a list holds that starts at the head of one of the infos. -/
def HoldsList (infos : List Info) (cells : List (Cell α)) (info : ℕ) (xs : List α) : Prop :=
  ∃ ends l, infos[info]? = some ends ∧ Segment cells ends.head l none ∧ items l = xs

end Content

inductive Content (F : Type)
  | scalar (v : JsonValue F)
  | array (values : List ℕ)
  | dict (entries : List JsonKeyValue)

def Content.children : Content F → List ℕ
  | scalar _ => []
  | array values => values
  | dict entries => entries.map JsonKeyValue.value

def Node.scalar (node : Node F) : Option (JsonValue F) :=
  match node.tag, node.value with
  | .null, _ => some .null
  | .bool, .b b => some (.bool b)
  | .u64, .u64 u64 => some (.u64 u64)
  | .i64, .i64 i64 => some (.i64 i64)
  | .f64, .f64 f64 => some (.f64 f64)
  | .str, .str str => some (.str str)
  | _, _ => none

def Shows (h : Heap F) (p : ℕ) : Content F → Prop
  | .scalar v => ∃ node, h.values[p]? = some node ∧ node.scalar = some v
  | .array values => ∃ size info, h.values[p]? = some ⟨.array, size, .arrayInfo info⟩ ∧
    HoldsList h.arrayInfos h.arrayElements info values
  | .dict entries => ∃ size info, h.values[p]? = some ⟨.dict, size, .dictInfo info⟩ ∧
    HoldsList h.dictInfos h.dictElements info entries

mutual

def Denotes (h : Heap F) : ℕ → JsonValue F → Prop
  | p, .array vs => ∃ values, Shows h p (.array values) ∧ DenotesList h values vs
  | p, .dict kvs => ∃ entries, Shows h p (.dict entries) ∧ DenotesDict h entries kvs
  | p, v => Shows h p (.scalar v)

def DenotesList (h : Heap F) : List ℕ → List (JsonValue F) → Prop
  | [], [] => True
  | p :: values, v :: vs => Denotes h p v ∧ DenotesList h values vs
  | _, _ => False

def DenotesDict (h : Heap F) : List JsonKeyValue → List (List UInt8 × JsonValue F) → Prop
  | [], [] => True
  | entry :: entries, (k, v) :: kvs => entry.key = k ∧ Denotes h entry.value v ∧
    DenotesDict h entries kvs
  | _, _ => False

end

def Child (h : Heap F) (p q : ℕ) : Prop := ∃ content, Shows h p content ∧ q ∈ content.children

def Reaches (h : Heap F) : ℕ → ℕ → Prop := Relation.ReflTransGen (Child h)

/-- The size that a list reports is the number of elements that its iteration yields. -/
def SizeMatches (h : Heap F) (p : ℕ) : JsonValue F → Prop
  | .array _ => ∃ fuel values, iterate (jsonArrayGetNext h p) fuel none = .ok values ∧
    jsonArrayGetSize h p = .ok values.length
  | .dict _ => ∃ fuel entries, iterate (jsonDictGetNext h p) fuel none = .ok entries ∧
    jsonDictGetSize h p = .ok entries.length
  | _ => True

structure Intact (h : Heap F) (p : ℕ) (v : JsonValue F) : Prop where
  denotes : Denotes h p v
  size : SizeMatches h p v

section Transfer

variable {h h' : Heap F} {p p' : ℕ}

theorem DenotesList.mono {values : List ℕ} {vs : List (JsonValue F)} (hl : DenotesList h values vs)
    (hmono : ∀ q ∈ values, ∀ v ∈ vs, Denotes h q v → Denotes h' q v) :
    DenotesList h' values vs := by
  induction vs generalizing values with
  | nil =>
    cases values with
    | nil => trivial
    | cons p values => exact hl
  | cons v vs ih =>
    cases values with
    | nil => exact hl
    | cons p values =>
      obtain ⟨hp, hl⟩ := hl
      refine ⟨hmono p List.mem_cons_self v List.mem_cons_self hp, ih hl ?_⟩
      intro q hq w hw
      exact hmono q (List.mem_cons_of_mem _ hq) w (List.mem_cons_of_mem _ hw)

theorem DenotesDict.mono {entries : List JsonKeyValue} {kvs : List (List UInt8 × JsonValue F)}
    (hl : DenotesDict h entries kvs)
    (hmono : ∀ entry ∈ entries, ∀ kv ∈ kvs, Denotes h entry.value kv.2 →
      Denotes h' entry.value kv.2) : DenotesDict h' entries kvs := by
  induction kvs generalizing entries with
  | nil =>
    cases entries with
    | nil => trivial
    | cons entry entries => exact hl
  | cons kv kvs ih =>
    cases entries with
    | nil => exact hl
    | cons entry entries =>
      obtain ⟨hkey, hvalue, hl⟩ := hl
      refine ⟨hkey, hmono entry List.mem_cons_self kv List.mem_cons_self hvalue, ih hl ?_⟩
      intro e he w hw
      exact hmono e (List.mem_cons_of_mem _ he) w (List.mem_cons_of_mem _ hw)

theorem Denotes.mono {v : JsonValue F} (hv : Denotes h p v)
    (hroot : ∀ content, Shows h p content → Shows h' p' content)
    (hbelow : ∀ q, Relation.TransGen (Child h) p q →
      ∀ content, Shows h q content → Shows h' q content) : Denotes h' p' v := by
  induction v using JsonValue.induction generalizing p p' with
  | array vs ih =>
    obtain ⟨values, hshows, hl⟩ := hv
    refine ⟨values, hroot _ hshows, hl.mono fun q hq v hv hqv => ?_⟩
    have hchild : Child h p q := ⟨_, hshows, hq⟩
    exact ih v hv hqv (hbelow q (.single hchild)) fun r hr => hbelow r (.head hchild hr)
  | dict kvs ih =>
    obtain ⟨entries, hshows, hl⟩ := hv
    refine ⟨entries, hroot _ hshows, hl.mono fun entry hentry kv hkv hvalue => ?_⟩
    have hchild : Child h p entry.value := ⟨_, hshows, List.mem_map_of_mem hentry⟩
    exact ih kv hkv hvalue (hbelow _ (.single hchild)) fun r hr => hbelow r (.head hchild hr)
  | _ => exact hroot (.scalar _) hv

theorem iterate_of_shows_array {values : List ℕ} (hshows : Shows h p (.array values)) :
    ∃ fuel, iterate (jsonArrayGetNext h p) fuel none = .ok values := by
  obtain ⟨size, info, hnode, ends, l, hinfo, hl, rfl⟩ := hshows
  exact ⟨_, iterate_array hnode hinfo hl⟩

theorem iterate_of_shows_dict {entries : List JsonKeyValue} (hshows : Shows h p (.dict entries)) :
    ∃ fuel, iterate (jsonDictGetNext h p) fuel none = .ok entries := by
  obtain ⟨size, info, hnode, ends, l, hinfo, hl, rfl⟩ := hshows
  exact ⟨_, iterate_dict hnode hinfo hl⟩

theorem Intact.transfer {v : JsonValue F} (hv : Intact h p v)
    (hnode : h'.values[p']? = h.values[p]?)
    (hroot : ∀ content, Shows h p content → Shows h' p' content)
    (hbelow : ∀ q, Relation.TransGen (Child h) p q →
      ∀ content, Shows h q content → Shows h' q content) : Intact h' p' v := by
  refine ⟨hv.denotes.mono hroot hbelow, ?_⟩
  obtain ⟨hdenotes, hsize⟩ := hv
  cases v with
  | array vs =>
    obtain ⟨values, hshows, -⟩ := hdenotes
    obtain ⟨fuel, values', hnext, hsize⟩ := hsize
    obtain ⟨fuel', hnext'⟩ := iterate_of_shows_array hshows
    cases iterate_unique hnext hnext'
    obtain ⟨fuel, hnext⟩ := iterate_of_shows_array (hroot _ hshows)
    refine ⟨fuel, values, hnext, ?_⟩
    rw [← hsize, jsonArrayGetSize, jsonArrayGetSize, deref, deref, hnode]
  | dict kvs =>
    obtain ⟨entries, hshows, -⟩ := hdenotes
    obtain ⟨fuel, entries', hnext, hsize⟩ := hsize
    obtain ⟨fuel', hnext'⟩ := iterate_of_shows_dict hshows
    cases iterate_unique hnext hnext'
    obtain ⟨fuel, hnext⟩ := iterate_of_shows_dict (hroot _ hshows)
    refine ⟨fuel, entries, hnext, ?_⟩
    rw [← hsize, jsonDictGetSize, jsonDictGetSize, deref, deref, hnode]
  | _ => trivial

end Transfer

end Libromano.JsonHeap
