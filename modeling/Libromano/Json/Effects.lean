/- What the calls do to a document: each of them touches what it says it may touch, and the lists
   keep their own cells. -/

import Libromano.Json.Calls

set_option autoImplicit false
set_option relaxedAutoImplicit false

namespace Libromano.JsonHeap

open Foundation.Chains
open Bytes (cString)

variable {F : Type}

structure Formed (h : Heap F) : Prop where
  arrays : Separate h.arrayInfos h.arrayElements
  dicts : Separate h.dictInfos h.dictElements

structure Changes (h h' : Heap F) (call : Call F) : Prop where
  formed : Formed h'
  same : ∀ q < h.values.length, ¬call.Overwrites h q → ¬call.Resizes h q →
    h'.values[q]? = h.values[q]?
  kind : ∀ q node, ¬call.Overwrites h q → h.values[q]? = some node →
    ∃ size, h'.values[q]? = some { node with size := size }
  arrays : ∀ info xs, ¬call.RelinksArray h info →
    HoldsList h.arrayInfos h.arrayElements info xs →
    HoldsList h'.arrayInfos h'.arrayElements info xs
  dicts : ∀ info xs, ¬call.RelinksDict h info →
    HoldsList h.dictInfos h.dictElements info xs → HoldsList h'.dictInfos h'.dictElements info xs

def SizeOnly (f : Node F → Node F) : Prop := ∀ node, ∃ size, f node = { node with size := size }

/-- What an append or a pop function does to a document: nodes may be added, the list
of an array is rewired and the size of the array changes. -/
inductive ArrayStep (h : Heap F) (array info : ℕ) : Heap F → Prop
  | intro {ends ends' : Info} {l l' : List (ℕ × ℕ)} {cells : List (Cell ℕ)}
    {values : List (Node F)} {f : Node F → Node F} (harray : HasArray h array info)
    (hinfo : h.arrayInfos[info]? = some ends) (hl : Chained h.arrayElements ends l)
    (hrewired : Rewired h.arrayElements l cells ends' l') (hvalues : h.values <+: values)
    (hf : SizeOnly f) :
    ArrayStep h array info (Heap.setNode { h with
      values := values
      arrayElements := cells
      arrayInfos := h.arrayInfos.set info ends' } array f)

inductive DictStep (h : Heap F) (dict info : ℕ) : Heap F → Prop
  | intro {ends ends' : Info} {l l' : List (ℕ × JsonKeyValue)} {cells : List (Cell JsonKeyValue)}
    {values : List (Node F)} {f : Node F → Node F} (hdict : HasDict h dict info)
    (hinfo : h.dictInfos[info]? = some ends) (hl : Chained h.dictElements ends l)
    (hrewired : Rewired h.dictElements l cells ends' l') (hvalues : h.values <+: values)
    (hf : SizeOnly f) :
    DictStep h dict info (Heap.setNode { h with
      values := values
      dictElements := cells
      dictInfos := h.dictInfos.set info ends' } dict f)

section Steps

variable {h h' : Heap F} {call : Call F} {p q info : ℕ} {values : List (Node F)}
  {f : Node F → Node F}

private theorem getElem?_extended (hvalues : h.values <+: values) (hq : q < h.values.length) :
    values[q]? = h.values[q]? := by
  obtain ⟨nodes, rfl⟩ := hvalues
  exact List.getElem?_append_left hq

private theorem getElem?_sized (hvalues : h.values <+: values) (hf : SizeOnly f) {node : Node F}
    (hnode : h.values[q]? = some node) :
    ∃ size, (values.modify p f)[q]? = some { node with size := size } := by
  have hq := (List.getElem?_eq_some_iff.mp hnode).1
  have hold := (getElem?_extended hvalues hq).trans hnode
  by_cases hpq : p = q
  · subst hpq
    obtain ⟨size, hsize⟩ := hf node
    refine ⟨size, ?_⟩
    rw [List.getElem?_modify_eq, hold]
    exact congrArg some hsize
  · exact ⟨node.size, by rw [List.getElem?_modify_ne _ _ hpq, hold]⟩

private theorem ArrayStep.changes (hformed : Formed h) (hstep : ArrayStep h p info h')
    (hrelinks : call.RelinksArray h info) (hresizes : call.Resizes h p) : Changes h h' call := by
  obtain ⟨-, hinfo, hl, hrewired, hvalues, hf⟩ := hstep
  refine ⟨⟨hformed.arrays.rewire hinfo hl hrewired, hformed.dicts⟩, ?_, ?_, ?_, fun _ _ _ h => h⟩
  · intro q hq _ hsize
    have hne : p ≠ q := fun hpq => hsize (hpq ▸ hresizes)
    exact (List.getElem?_modify_ne _ _ hne).trans (getElem?_extended hvalues hq)
  · exact fun q node _ hnode => getElem?_sized hvalues hf hnode
  · intro i xs hi hxs
    have hne : i ≠ info := fun hii => hi (hii ▸ hrelinks)
    exact hformed.arrays.holdsList hinfo hl hrewired hne hxs

private theorem DictStep.changes (hformed : Formed h) (hstep : DictStep h p info h')
    (hrelinks : call.RelinksDict h info) (hresizes : call.Resizes h p) : Changes h h' call := by
  obtain ⟨-, hinfo, hl, hrewired, hvalues, hf⟩ := hstep
  refine ⟨⟨hformed.arrays, hformed.dicts.rewire hinfo hl hrewired⟩, ?_, ?_, fun _ _ _ h => h, ?_⟩
  · intro q hq _ hsize
    have hne : p ≠ q := fun hpq => hsize (hpq ▸ hresizes)
    exact (List.getElem?_modify_ne _ _ hne).trans (getElem?_extended hvalues hq)
  · exact fun q node _ hnode => getElem?_sized hvalues hf hnode
  · intro i xs hi hxs
    have hne : i ≠ info := fun hii => hi (hii ▸ hrelinks)
    exact hformed.dicts.holdsList hinfo hl hrewired hne hxs

private theorem changes_resize (hformed : Formed h) (hf : SizeOnly f)
    (hresizes : call.Resizes h p) :
    Changes h (h.setNode p f) call := by
  refine ⟨⟨hformed.arrays, hformed.dicts⟩, ?_, ?_, fun _ _ _ h => h, fun _ _ _ h => h⟩
  · intro q _ _ hsize
    exact getElem?_setNode_ne fun hpq => hsize (hpq ▸ hresizes)
  · exact fun q node _ hnode => getElem?_sized (List.prefix_refl _) hf hnode

private theorem changes_refl (hformed : Formed h) : Changes h h call :=
  ⟨hformed, fun _ _ _ _ => rfl, fun _ node _ hnode => ⟨node.size, hnode⟩, fun _ _ _ h => h,
    fun _ _ _ h => h⟩

private theorem changes_grow (hformed : Formed h) (node : Node F) :
    Changes h { h with values := h.values ++ [node] } call := by
  refine ⟨⟨hformed.arrays, hformed.dicts⟩, ?_, ?_, fun _ _ _ h => h, fun _ _ _ h => h⟩
  · exact fun q hq _ _ => List.getElem?_append_left hq
  · intro q node _ hnode
    have hq := (List.getElem?_eq_some_iff.mp hnode).1
    exact ⟨node.size, (List.getElem?_append_left hq).trans hnode⟩

private theorem changes_set (hformed : Formed h) (hsets : call.sets = some (p, f)) :
    Changes h (h.setNode p f) call := by
  have hsame : ∀ q < h.values.length, ¬call.Overwrites h q →
      (h.setNode p f).values[q]? = h.values[q]? := by
    intro q hq hover
    by_cases hpq : q = p
    · subst hpq
      have hnode := List.getElem?_eq_getElem hq
      rw [getElem?_setNode_self hnode, hnode]
      by_contra hne
      exact hover ⟨f, _, hsets, hnode, fun hf => hne (congrArg some hf)⟩
    · exact getElem?_setNode_ne hpq
  refine ⟨⟨hformed.arrays, hformed.dicts⟩, ?_, ?_, fun _ _ _ h => h, fun _ _ _ h => h⟩
  · exact fun q hq hover _ => hsame q hq hover
  · intro q node hover hnode
    have hq := (List.getElem?_eq_some_iff.mp hnode).1
    exact ⟨node.size, (hsame q hq hover).trans hnode⟩

theorem deref_some {α : Type} {store : List α} {a : ℕ} {x : α} :
    deref store (some a) = .ok x ↔ store[a]? = some x := by
  cases hx : store[a]? <;> simp [deref, hx]

private theorem exists_of_deref {α : Type} {store : List α} {p : Option ℕ} {x : α}
    (h : deref store p = .ok x) : ∃ a, p = some a ∧ store[a]? = some x := by
  cases p with
  | none => cases h
  | some a => exact ⟨a, rfl, deref_some.mp h⟩

private theorem arrayInfo_eq_ok {node : Node F} :
    node.arrayInfo = .ok info ↔ node.value = .arrayInfo info := by
  cases hvalue : node.value <;> simp [Node.arrayInfo, hvalue]

private theorem dictInfo_eq_ok {node : Node F} :
    node.dictInfo = .ok info ↔ node.value = .dictInfo info := by
  cases hvalue : node.value <;> simp [Node.dictInfo, hvalue]

private theorem store_eq_ok {value : ℕ} {reference : Bool} {copied : Heap F}
    (hstore : h.store value reference = .ok copied) :
    ∃ nodes, copied = { h with values := h.values ++ nodes } ∧
      (reference = false → ∃ node, h.values[value]? = some node ∧ nodes = [node]) := by
  cases reference with
  | true =>
    cases hstore
    exact ⟨[], by rw [List.append_nil], fun h => by cases h⟩
  | false =>
    obtain ⟨node, hnode, hstore⟩ := bind_eq_ok.mp hstore
    rw [deref_some] at hnode
    cases hstore
    exact ⟨[node], rfl, fun _ => ⟨node, hnode, rfl⟩⟩

private theorem sizeOnly_incr : SizeOnly fun node : Node F => { node with size := node.size + 1 } :=
  fun node => ⟨node.size + 1, rfl⟩

private theorem sizeOnly_decr : SizeOnly fun node : Node F => { node with size := node.size - 1 } :=
  fun node => ⟨node.size - 1, rfl⟩

private theorem getElem?_copy {node : Node F} (hp : p < h.values.length) :
    ((h.values ++ [node]).modify p f)[h.values.length]? = some node := by
  rw [List.getElem?_modify_ne _ _ (Nat.ne_of_lt hp), List.getElem?_concat_length]

theorem jsonArrayAppend_step (hformed : Formed h) {array value : ℕ} {reference granted : Bool}
    (happend : jsonArrayAppend h array value reference granted = .ok h') :
    ∃ info, ArrayStep h array info h' ∧ (reference = false →
      ∃ node, h.values[value]? = some node ∧ h'.values[h.values.length]? = some node) := by
  obtain ⟨node, hnode, happend⟩ := bind_eq_ok.mp happend
  obtain ⟨info, hvalue, happend⟩ := bind_eq_ok.mp happend
  obtain ⟨ends, hinfo, happend⟩ := bind_eq_ok.mp happend
  rw [deref_some] at hnode hinfo
  cases granted with
  | false => cases happend
  | true =>
    obtain ⟨⟨cells, ends'⟩, hlink, happend⟩ := bind_eq_ok.mp happend
    obtain ⟨copied, hstore, happend⟩ := bind_eq_ok.mp happend
    obtain ⟨nodes, rfl, hcopy⟩ := store_eq_ok hstore
    obtain ⟨l, hl⟩ := hformed.arrays.chained info ends hinfo
    obtain ⟨l', hrewired⟩ := Rewired.link hl hlink
    cases happend
    refine ⟨info, .intro ⟨node, hnode, arrayInfo_eq_ok.mp hvalue⟩ hinfo hl hrewired
      (List.prefix_append _ _) sizeOnly_incr, fun hreference => ?_⟩
    obtain ⟨copy, hcopied, rfl⟩ := hcopy hreference
    exact ⟨copy, hcopied, getElem?_copy (List.getElem?_eq_some_iff.mp hnode).1⟩

theorem jsonDictAppend_step (hformed : Formed h) {holds : ℕ → Bool} {dict value : ℕ}
    {key : List UInt8} {reference granted : Bool}
    (happend : jsonDictAppend holds h dict key value reference granted = .ok h') :
    ∃ info, DictStep h dict info h' ∧ (reference = false →
      ∃ node, h.values[value]? = some node ∧ h'.values[h.values.length]? = some node) := by
  obtain ⟨node, hnode, happend⟩ := bind_eq_ok.mp happend
  obtain ⟨info, hvalue, happend⟩ := bind_eq_ok.mp happend
  obtain ⟨ends, hinfo, happend⟩ := bind_eq_ok.mp happend
  rw [deref_some] at hnode hinfo
  cases granted with
  | false => cases happend
  | true =>
    obtain ⟨⟨cells, ends'⟩, hlink, happend⟩ := bind_eq_ok.mp happend
    simp only at happend
    split_ifs at happend with hholds
    · obtain ⟨copied, hstore, happend⟩ := bind_eq_ok.mp happend
      obtain ⟨nodes, rfl, hcopy⟩ := store_eq_ok hstore
      obtain ⟨l, hl⟩ := hformed.dicts.chained info ends hinfo
      obtain ⟨l', hrewired⟩ := Rewired.link hl hlink
      cases happend
      refine ⟨info, .intro ⟨node, hnode, dictInfo_eq_ok.mp hvalue⟩ hinfo hl hrewired
        (List.prefix_append _ _) sizeOnly_incr, fun hreference => ?_⟩
      obtain ⟨copy, hcopied, rfl⟩ := hcopy hreference
      exact ⟨copy, hcopied, getElem?_copy (List.getElem?_eq_some_iff.mp hnode).1⟩

private theorem arrayPopLoop_stops {cells : List (Cell ℕ)} {l : List (ℕ × ℕ)} {turns : ℕ}
    {p previous previous' current' : Option ℕ} (hl : Segment cells p l none)
    (hloop : arrayPopLoop cells turns previous p = .ok (previous', current')) :
    StopsAt l p previous previous' current' ∧ current' ≠ none := by
  induction turns generalizing p previous l with
  | zero =>
    obtain ⟨cell, hcell, hloop⟩ := bind_eq_ok.mp hloop
    obtain ⟨a, rfl, -⟩ := exists_of_deref hcell
    cases hloop
    exact ⟨.inl ⟨rfl, rfl⟩, Option.some_ne_none a⟩
  | succ turns ih =>
    obtain ⟨cell, hderef, hloop⟩ := bind_eq_ok.mp hloop
    obtain ⟨a, rfl, hcell⟩ := exists_of_deref hderef
    cases hnext : cell.next with
    | none =>
      simp only [hnext] at hloop
      cases hloop
      exact ⟨.inl ⟨rfl, rfl⟩, Option.some_ne_none a⟩
    | some next =>
      simp only [hnext] at hloop
      rcases l with - | ⟨⟨b, x⟩, l⟩
      · cases hl
      obtain ⟨hb, next', hcell', hl⟩ := hl
      cases hb
      cases hcell.symm.trans hcell'
      cases hnext
      obtain ⟨hstops, hcurrent⟩ := ih hl hloop
      exact ⟨hstops.cons previous hl hcurrent, hcurrent⟩

private theorem dictFindLoop_stops {cells : List (Cell JsonKeyValue)} {key : List UInt8}
    {l : List (ℕ × JsonKeyValue)} {fuel : ℕ} {p previous previous' current' : Option ℕ}
    (hl : Segment cells p l none)
    (hloop : dictFindLoop cells key fuel previous p = .ok (previous', current'))
    (hcurrent : current' ≠ none) : StopsAt l p previous previous' current' := by
  induction fuel generalizing p previous l with
  | zero => cases hloop
  | succ fuel ih =>
    rcases l with - | ⟨⟨a, x⟩, l⟩
    · obtain rfl : p = none := hl
      cases hloop
      exact absurd rfl hcurrent
    · obtain ⟨rfl, next, hcell, hl⟩ := hl
      rw [dictFindLoop, deref_eq hcell] at hloop
      simp only [bind_ok] at hloop
      split_ifs at hloop with hkey
      · cases hloop
        exact .inl ⟨rfl, rfl⟩
      · exact (ih hl hloop).cons previous hl hcurrent

private theorem jsonArrayPop_changes (hformed : Formed h) {array index : ℕ}
    (hpop : jsonArrayPop h array index = .ok h') : Changes h h' (.arrayPop array index) := by
  obtain ⟨size, hsize, hpop⟩ := bind_eq_ok.mp hpop
  by_cases hle : size ≤ index
  · rw [if_pos hle] at hpop
    cases hpop
    exact changes_refl hformed
  rw [if_neg hle] at hpop
  have hin : ∃ size, jsonArrayGetSize h array = .ok size ∧ index < size :=
    ⟨size, hsize, Nat.not_le.mp hle⟩
  obtain ⟨node, hnode, hpop⟩ := bind_eq_ok.mp hpop
  obtain ⟨info, hvalue, hpop⟩ := bind_eq_ok.mp hpop
  obtain ⟨ends, hinfo, hpop⟩ := bind_eq_ok.mp hpop
  rw [deref_some] at hnode hinfo
  have harray : HasArray h array info := ⟨node, hnode, arrayInfo_eq_ok.mp hvalue⟩
  obtain ⟨l, hl⟩ := hformed.arrays.chained info ends hinfo
  have hstep : ∀ {cells ends' l'}, Rewired h.arrayElements l cells ends' l' →
      Changes h (Heap.decrSize
        { h with
          arrayElements := cells
          arrayInfos := h.arrayInfos.set info ends' } array) (.arrayPop array index) :=
    fun hrewired => (ArrayStep.intro harray hinfo hl hrewired (List.prefix_refl h.values)
      sizeOnly_decr).changes hformed ⟨harray, hin⟩ ⟨rfl, hin⟩
  split_ifs at hpop with hzero
  · obtain ⟨cell, hcell, hpop⟩ := bind_eq_ok.mp hpop
    cases hpop
    obtain ⟨l', hrewired⟩ := Rewired.drop hl hcell
    exact hstep hrewired
  · obtain ⟨⟨previous, current⟩, hloop, hpop⟩ := bind_eq_ok.mp hpop
    obtain ⟨hstops, hcurrent⟩ := arrayPopLoop_stops hl.segment hloop
    obtain ⟨current, rfl⟩ := Option.ne_none_iff_exists'.mp hcurrent
    cases previous with
    | none =>
      cases hpop
      rcases hstops with ⟨-, hhead⟩ | ⟨_, _, _, _, _, _, -, hnone, -⟩
      · rw [hhead]
        exact hstep (Rewired.refl hl)
      · cases hnone
    | some previous =>
      obtain ⟨⟨cells, ends'⟩, hunlink, hpop⟩ := bind_eq_ok.mp hpop
      cases hpop
      obtain ⟨l', hrewired⟩ := Rewired.unlink hl hstops hunlink
      exact hstep hrewired

private theorem jsonDictPop_changes (hformed : Formed h) {dict : ℕ} {key : List UInt8}
    (hpop : jsonDictPop h dict key = .ok h') : Changes h h' (.dictPop dict key) := by
  obtain ⟨node, hnode, hpop⟩ := bind_eq_ok.mp hpop
  obtain ⟨info, hvalue, hpop⟩ := bind_eq_ok.mp hpop
  obtain ⟨ends, hinfo, hpop⟩ := bind_eq_ok.mp hpop
  obtain ⟨⟨previous, current⟩, hloop, hpop⟩ := bind_eq_ok.mp hpop
  rw [deref_some] at hnode hinfo
  have hdict : HasDict h dict info := ⟨node, hnode, dictInfo_eq_ok.mp hvalue⟩
  obtain ⟨l, hl⟩ := hformed.dicts.chained info ends hinfo
  cases current with
  | none =>
    cases hpop
    exact changes_refl hformed
  | some current =>
    have hstops := dictFindLoop_stops hl.segment hloop (Option.some_ne_none current)
    have hfind : jsonDictFind h dict key ≠ .ok none := by
      rw [jsonDictFind, deref_some.mpr hnode, bind_ok, hvalue, bind_ok, deref_some.mpr hinfo,
        bind_ok, hloop, bind_ok]
      intro hnone
      obtain ⟨cell, -, hnone⟩ := bind_eq_ok.mp hnone
      cases hnone
    cases previous with
    | none =>
      cases hpop
      rcases hstops with ⟨-, hhead⟩ | ⟨_, _, _, _, _, _, -, hnone, -⟩
      · -- the head is put back where it was
        have hset : h.dictInfos.set info { ends with head := some current } = h.dictInfos := by
          obtain ⟨hlt, rfl⟩ := List.getElem?_eq_some_iff.mp hinfo
          rw [hhead]
          exact List.set_getElem_self hlt
        rw [hset]
        exact changes_resize hformed sizeOnly_decr ⟨rfl, hfind⟩
      · cases hnone
    | some previous =>
      obtain ⟨⟨cells, ends'⟩, hunlink, hpop⟩ := bind_eq_ok.mp hpop
      cases hpop
      obtain ⟨l', hrewired⟩ := Rewired.unlink hl hstops hunlink
      refine (DictStep.intro hdict hinfo hl hrewired (List.prefix_refl h.values)
        sizeOnly_decr).changes hformed ⟨hdict, hfind, ?_⟩ ⟨rfl, hfind⟩
      -- a predecessor was found, so that the first key is another
      intro iterator entry hnext hentry
      rw [jsonDictGetNext, deref_some.mpr hnode, bind_ok, hvalue, bind_ok, deref_some.mpr hinfo]
        at hnext
      rcases l with - | ⟨⟨a, x⟩, l⟩
      · rw [hl.segment.eq_none_iff.mpr rfl] at hloop
        cases hloop
      · obtain ⟨hhead, next, hcell, -⟩ := hl.segment
        simp only [bind_ok] at hnext
        rw [hhead, currentItem, deref_eq hcell] at hnext
        cases hnext
        rw [hhead, dictFindLoop, deref_eq hcell] at hloop
        simp only [bind_ok, if_pos hentry] at hloop
        cases hloop

private theorem newScalar_changes (hformed : Formed h) {node : Node F} {granted : Bool}
    (hnew : Prod.fst <$> newScalar h node granted = .ok h') : Changes h h' call := by
  cases granted with
  | false => cases hnew
  | true =>
    cases hnew
    exact changes_grow hformed node

private theorem setValue_changes (hformed : Formed h) {tag : JsonTag} {union : JsonValueUnion F}
    (hsets : call.sets = some (p, fun node => { node with tag := tag, value := union }))
    (hset : setValue h p tag union = .ok h') : Changes h h' call := by
  obtain ⟨node, -, hset⟩ := bind_eq_ok.mp hset
  cases hset
  exact changes_set hformed hsets

/-- The step lemma: a call touches what it says and nothing else. -/
theorem Call.step_changes {holds : ℕ → Bool} (hformed : Formed h)
    (hstep : call.step holds h = .ok h') : Changes h h' call := by
  cases call with
  | strNew str granted =>
    rw [Call.step, jsonStrNew] at hstep
    split_ifs at hstep
    · exact newScalar_changes hformed hstep
    · cases hstep
  | arrayNew granted =>
    cases granted with
    | false => cases hstep
    | true =>
      cases hstep
      obtain ⟨-, hsame, hkind, -, -⟩ : Changes h _ (.arrayNew true) := changes_grow hformed
        ⟨.array, 0, .arrayInfo h.arrayInfos.length⟩
      exact ⟨⟨hformed.arrays.new, hformed.dicts⟩, hsame, hkind, fun _ _ _ h => h.new,
        fun _ _ _ h => h⟩
  | dictNew granted =>
    cases granted with
    | false => cases hstep
    | true =>
      cases hstep
      obtain ⟨-, hsame, hkind, -, -⟩ : Changes h _ (.dictNew true) := changes_grow hformed
        ⟨.dict, 0, .dictInfo h.dictInfos.length⟩
      exact ⟨⟨hformed.arrays, hformed.dicts.new⟩, hsame, hkind, fun _ _ _ h => h,
        fun _ _ _ h => h.new⟩
  | nullSet value =>
    obtain ⟨node, -, hstep⟩ := bind_eq_ok.mp hstep
    cases hstep
    exact changes_set hformed rfl
  | strSet value str granted =>
    rw [Call.step, jsonStrSet] at hstep
    split_ifs at hstep
    exact setValue_changes hformed rfl hstep
  | boolSet value b => exact setValue_changes hformed rfl hstep
  | u64Set value u64 => exact setValue_changes hformed rfl hstep
  | i64Set value i64 => exact setValue_changes hformed rfl hstep
  | f64Set value f64 => exact setValue_changes hformed rfl hstep
  | arrayAppend array value reference granted =>
    obtain ⟨info, harray, -⟩ := jsonArrayAppend_step hformed hstep
    have hhas : HasArray h array info := by
      cases harray
      assumption
    exact harray.changes hformed hhas rfl
  | dictAppend dict key value reference granted =>
    obtain ⟨info, hdict, -⟩ := jsonDictAppend_step hformed hstep
    have hhas : HasDict h dict info := by
      cases hdict
      assumption
    exact hdict.changes hformed hhas rfl
  | arrayPop array index => exact jsonArrayPop_changes hformed hstep
  | dictPop dict key => exact jsonDictPop_changes hformed hstep
  | _ => exact newScalar_changes hformed hstep

end Steps

end Libromano.JsonHeap
