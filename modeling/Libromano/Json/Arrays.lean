/- The arrays of a document behave as lists, as long as nothing is appended to one whose tail was
   lost. -/

import Libromano.Foundation.Objects
import Libromano.Json.Links

set_option autoImplicit false
set_option relaxedAutoImplicit false

namespace Libromano.JsonHeap

open Foundation.Chains Foundation.Objects

variable {F : Type}

/-- An operation on an array. -/
inductive ArrayOp
  | append (value : ℕ) (reference granted : Bool)
  | pop (index : ℕ)

namespace ArrayOp

def step (array : ℕ) (h : Heap F) : ArrayOp → Except Fault (Heap F)
  | append value reference granted => jsonArrayAppend h array value reference granted
  | pop index => jsonArrayPop h array index

def apply (h : Heap F) (values : List ℕ) : ArrayOp → List ℕ
  | append value reference _ => values ++ [h.stored value reference]
  | pop index => values.eraseIdx index

/-- The value is one of the document. -/
def Allowed (h : Heap F) : ArrayOp → Prop
  | append value _ _ => value < h.values.length
  | pop _ => True

def Copies (h h' : Heap F) : ArrayOp → Prop
  | append value false _ => h'.values[h.stored value false]? = h.values[value]?
  | _ => True

end ArrayOp

/-- The iteration from a fresh iterator gives the list, and the size is its length. -/
def ListsArray (h : Heap F) (array : ℕ) (values : List ℕ) : Prop :=
  (∃ fuel, iterate (jsonArrayGetNext h array) fuel none = .ok values) ∧
    jsonArrayGetSize h array = .ok values.length

/-- An array is a list of pointers. -/
def arraySpec (array : ℕ) : Spec (Heap F) ArrayOp (List ℕ) where
  Shows h values := ListsArray h array values
  apply h op values := op.apply h values
  Effect h op h' := op.Copies h h'

def ArrayTailLost (h : Heap F) (array : ℕ) : Prop :=
  ∃ node info ends, h.values[array]? = some node ∧ node.value = .arrayInfo info ∧
    h.arrayInfos[info]? = some ends ∧ TailLost ends

/-- There is memory, the tail was not lost, and the size does not run out of its bits. -/
def ArrayOp.Fits (array : ℕ) (h : Heap F) : ArrayOp → Prop
  | append _ _ granted => granted = true ∧ ¬ArrayTailLost h array ∧
    ∀ size, jsonArrayGetSize h array = .ok size → size + 1 < 2 ^ 32
  | pop _ => True

/-- The invariant: the node, its two ends and the chain between them. -/
structure IsArray (h : Heap F) (array : ℕ) (size : UInt32) (info : ℕ) (ends : Info)
    (l : List (ℕ × ℕ)) : Prop where
  node : h.values[array]? = some ⟨.array, size, .arrayInfo info⟩
  info : h.arrayInfos[info]? = some ends
  chained : Chained h.arrayElements ends l
  size : size.toNat = l.length

section Array

variable {h h' : Heap F} {array info : ℕ} {size : UInt32} {ends : Info} {l : List (ℕ × ℕ)}

private theorem IsArray.getSize (hl : IsArray h array size info ends l) :
    jsonArrayGetSize h array = .ok l.length := by
  rw [jsonArrayGetSize, deref_eq hl.node, ← hl.size]
  rfl

private theorem IsArray.lists (hl : IsArray h array size info ends l) :
    ListsArray h array (items l) :=
  ⟨⟨_, iterate_array hl.node hl.info hl.chained.segment⟩,
    by rw [hl.getSize, items, List.length_map]⟩

private theorem IsArray.tailLost_iff (hl : IsArray h array size info ends l) :
    ArrayTailLost h array ↔ TailLost ends := by
  constructor
  · rintro ⟨node, info', ends', hnode, hvalue, hinfo, hlost⟩
    cases hl.node.symm.trans hnode
    cases hvalue
    cases hl.info.symm.trans hinfo
    exact hlost
  · exact fun hlost => ⟨_, info, ends, hl.node, rfl, hl.info, hlost⟩

private theorem IsArray.append (hl : IsArray h array size info ends l) {value : ℕ}
    (reference : Bool)
    (hvalue : value < h.values.length) (htail : ¬TailLost ends) :
    ∃ h' ends', jsonArrayAppend h array value reference true = .ok h' ∧
      (∀ p ≠ array, p < h.values.length → h'.values[p]? = h.values[p]?) ∧
      (reference = false → h'.values[h.stored value reference]? = h.values[value]?) ∧
      h'.values[array]? = some ⟨.array, size + 1, .arrayInfo info⟩ ∧
      h'.arrayInfos[info]? = some ends' ∧
      Chained h'.arrayElements ends' (l ++ [(h.arrayElements.length, h.stored value reference)]) := by
  obtain ⟨cells, ends', hlink, hchained, -, -⟩ := hl.chained.link htail (h.stored value reference)
  obtain ⟨copied, hcopied, hinfos, -, -, -, hvalues, hcopy⟩ :=
    store_ok reference hvalue
  have harray := (List.getElem?_eq_some_iff.mp hl.node).1
  refine ⟨Heap.incrSize
    { copied with
      arrayElements := cells
      arrayInfos := h.arrayInfos.set info ends' } array, ends', ?_, ?_, ?_, ?_, ?_, hchained⟩
  · rw [jsonArrayAppend, deref_eq hl.node, bind_ok, Node.arrayInfo, bind_ok, deref_eq hl.info,
      bind_ok, if_pos rfl, hlink, bind_ok, hcopied]
    rfl
  · intro p hp hlt
    exact (getElem?_setNode_ne hp).trans (hvalues p hlt)
  · rintro rfl
    exact (getElem?_setNode_ne (Nat.ne_of_gt harray)).trans hcopy
  · exact getElem?_setNode_self ((hvalues array harray).trans hl.node)
  · exact List.getElem?_set_self (List.getElem?_eq_some_iff.mp hl.info).1

private theorem arrayPopLoop_eq {cells : List (Cell ℕ)} {p previous : Option ℕ}
    {l l' : List (ℕ × ℕ)}
    {a b x y : ℕ} (hl : Segment cells p (l ++ (a, x) :: (b, y) :: l') none) :
    arrayPopLoop cells (l.length + 1) previous p = .ok (some a, some b) := by
  induction l generalizing p previous with
  | nil =>
    obtain ⟨rfl, next, hcell, rfl, next', hcell', -⟩ := hl
    rw [List.length_nil, arrayPopLoop, deref_eq hcell]
    simp only [bind_ok]
    rw [arrayPopLoop, deref_eq hcell']
    rfl
  | cons head l ih =>
    obtain ⟨c, z⟩ := head
    obtain ⟨rfl, next, hcell, hl⟩ := hl
    obtain ⟨d, hd⟩ : ∃ d, next = some d := by
      cases l with
      | nil => exact ⟨a, hl.1⟩
      | cons head l => exact ⟨head.1, hl.1⟩
    subst hd
    rw [List.length_cons, arrayPopLoop, deref_eq hcell]
    exact ih hl

private theorem exists_split {α : Type} {l : List α} {i : ℕ} (hi : i < l.length) (hpos : 0 < i) :
    ∃ before x y after, l = before ++ x :: y :: after ∧ before.length + 1 = i := by
  refine ⟨l.take (i - 1), l[i - 1], l[i], l.drop (i + 1), ?_, ?_⟩
  · have hsucc : i - 1 + 1 = i := by omega
    conv_lhs => rw [← List.take_append_drop (i - 1) l]
    rw [List.drop_eq_getElem_cons (by omega : i - 1 < l.length)]
    simp only [hsucc]
    rw [List.drop_eq_getElem_cons hi]
  · rw [List.length_take_of_le (by omega)]
    omega

/-- The step lemma for removal. -/
private theorem IsArray.pop (hl : IsArray h array size info ends l) (index : ℕ) :
    ∃ h' size' ends' l', jsonArrayPop h array index = .ok h' ∧
      IsArray h' array size' info ends' l' ∧ items l' = (items l).eraseIdx index := by
  rw [jsonArrayPop, hl.getSize, bind_ok]
  by_cases hindex : l.length ≤ index
  · rw [if_pos hindex]
    refine ⟨h, size, ends, l, rfl, hl, (List.eraseIdx_of_length_le ?_).symm⟩
    rwa [items, List.length_map]
  rw [if_neg hindex, deref_eq hl.node, bind_ok, Node.arrayInfo, bind_ok, deref_eq hl.info, bind_ok]
  have hpred : (size - 1).toNat = l.length - 1 := by
    rw [toNat_pred (by rw [hl.size]; omega), hl.size]
  rcases Nat.eq_zero_or_pos index with rfl | hpos
  · rcases l with - | ⟨⟨a, x⟩, l⟩
    · simp at hindex
    obtain ⟨next, hcell, hchained⟩ := hl.chained.drop
    rw [if_pos rfl, hl.chained.segment.1, deref_eq hcell]
    refine ⟨_, size - 1, _, l, rfl, ⟨?_, ?_, hchained, hpred⟩, rfl⟩
    · exact getElem?_setNode_self hl.node
    · exact List.getElem?_set_self (List.getElem?_eq_some_iff.mp hl.info).1
  · obtain ⟨before, ⟨a, x⟩, ⟨b, y⟩, after, rfl, rfl⟩ := exists_split (Nat.not_le.mp hindex) hpos
    obtain ⟨cells, ends', hunlink, hchained, -⟩ := hl.chained.unlink
    rw [if_neg (Nat.succ_ne_zero _), arrayPopLoop_eq hl.chained.segment]
    simp only [bind_ok, hunlink]
    refine ⟨_, size - 1, ends', before ++ (a, x) :: after, rfl, ⟨?_, ?_, hchained, ?_⟩, ?_⟩
    · exact getElem?_setNode_self hl.node
    · exact List.getElem?_set_self (List.getElem?_eq_some_iff.mp hl.info).1
    · rw [hpred]
      simp
    · have hlength : (items before).length ≤ before.length + 1 := by simp [items]
      simp [items, List.eraseIdx_append_of_length_le]

private theorem IsArray.not_lists (hl : IsArray h array size info ends l) {op : ArrayOp}
    (hallowed : op.Allowed h) (hfits : ¬op.Fits array h) (hstep : op.step array h = .ok h') :
    ¬ListsArray h' array (op.apply h (items l)) := by
  cases op with
  | pop index => exact absurd trivial hfits
  | append value reference granted =>
    rintro ⟨-, hlists⟩
    have hstep' : jsonArrayAppend h array value reference granted = .ok h' := hstep
    cases granted with
    | false =>
      rw [jsonArrayAppend, deref_eq hl.node, bind_ok, Node.arrayInfo, bind_ok,
        deref_eq hl.info] at hstep'
      cases hstep'
    | true =>
      by_cases htail : TailLost ends
      · rw [jsonArrayAppend, deref_eq hl.node, bind_ok, Node.arrayInfo, bind_ok, deref_eq hl.info,
          bind_ok, if_pos rfl, linkElement_lost htail] at hstep'
        cases hstep'
      · have hsize : ¬size.toNat + 1 < 2 ^ 32 := by
          intro hsize
          refine hfits ⟨rfl, mt hl.tailLost_iff.mp htail, fun n hn => ?_⟩
          cases hl.getSize.symm.trans hn
          rwa [← hl.size]
        obtain ⟨h'', ends', happend, -, -, hnode, -⟩ := hl.append reference hallowed htail
        cases hstep'.symm.trans happend
        have hget : jsonArrayGetSize h' array = .ok (size + 1).toNat := by
          rw [jsonArrayGetSize, deref_eq hnode]
          rfl
        have hsame : (size + 1).toNat = (items l).length + 1 := by
          rw [hget, ArrayOp.apply, List.length_append] at hlists
          exact Except.ok.inj hlists
        rw [items, List.length_map, ← hl.size] at hsame
        exact toNat_succ_ne hsize hsame

end Array

section Run

variable {h h' : Heap F} {array info : ℕ} {size : UInt32} {ends : Info} {l : List (ℕ × ℕ)}

/-- The step lemma for both operations. -/
private theorem IsArray.step (hl : IsArray h array size info ends l) {op : ArrayOp}
    (hallowed : op.Allowed h) (hfits : op.Fits array h) :
    ∃ h' size' ends' l', op.step array h = .ok h' ∧ op.Copies h h' ∧
      IsArray h' array size' info ends' l' ∧ items l' = op.apply h (items l) := by
  cases op with
  | append value reference granted =>
    obtain ⟨rfl, htail, hsize⟩ := hfits
    obtain ⟨h', ends', happend, -, hcopy, hnode, hinfo, hchained⟩ :=
      hl.append reference hallowed (mt hl.tailLost_iff.mpr htail)
    refine ⟨h', size + 1, ends', _, happend, ?_, ⟨hnode, hinfo, hchained, ?_⟩, List.map_append⟩
    · cases reference with
      | true => trivial
      | false => exact hcopy rfl
    · have hlt := hsize _ hl.getSize
      rw [toNat_succ (by rw [hl.size]; exact hlt), hl.size, List.length_append]
      rfl
  | pop index =>
    obtain ⟨h', size', ends', l', hpop, hl', hitems⟩ := hl.pop index
    exact ⟨h', size', ends', l', hpop, trivial, hl', hitems⟩

private theorem isArray_new {h₀ : Heap F} (hnew : jsonArrayNew h₀ true = .ok (h, array)) :
    IsArray h array 0 h₀.arrayInfos.length ⟨none, none⟩ [] := by
  cases hnew
  exact ⟨List.getElem?_concat_length, List.getElem?_concat_length, chained_nil, rfl⟩

/-- A new array behaves as a list exactly in the runs in which every append is
given its memory, finds a tail if there are elements, and leaves a size that can
be held. -/
theorem jsonArrayNew_behaves_iff {h₀ h : Heap F} {array : ℕ}
    (hnew : jsonArrayNew h₀ true = .ok (h, array)) {ops : List ArrayOp}
    (hallowed : Along (ArrayOp.step array) (fun h op => op.Allowed h) h ops) :
    Behaves (ArrayOp.step array) (arraySpec array) h [] ops ↔
      Along (ArrayOp.step array) (fun h op => op.Fits array h) h ops := by
  refine behaves_iff (I := fun h values => ∃ size info ends l,
    IsArray h array size info ends l ∧ items l = values) ?_ ?_ ?_ ⟨_, _, _, [], isArray_new hnew, rfl⟩
    hallowed
  · rintro h - ⟨size, info, ends, l, hl, rfl⟩
    exact hl.lists
  · rintro h - op ⟨size, info, ends, l, hl, rfl⟩ hop hfits
    obtain ⟨h', size', ends', l', hstep, hcopies, hl', hitems⟩ := hl.step hop hfits
    exact ⟨h', hstep, hcopies, size', info, ends', l', hl', hitems⟩
  · rintro h - op ⟨size, info, ends, l, hl, rfl⟩ hop hfits h' hstep
    exact hl.not_lists hop hfits hstep

/-- The value is appended twice, and the first is removed. -/
theorem jsonArrayNew_behaves_iff_pop : ∃ (h : Heap ℚ) (array : ℕ),
    jsonArrayNew oneValue true = .ok (h, array) ∧
      Behaves (ArrayOp.step array) (arraySpec array) h []
        [.append 0 true true, .append 0 false true, .pop 0] := by
  refine ⟨_, _, rfl, (jsonArrayNew_behaves_iff rfl ?_).mpr ?_⟩
  · refine ⟨Nat.zero_lt_two, fun h hstep => ?_⟩
    cases hstep
    refine ⟨Nat.zero_lt_two, fun h hstep => ?_⟩
    cases hstep
    exact ⟨trivial, fun _ _ => trivial⟩
  · refine ⟨⟨rfl, ?_, ?_⟩, fun h hstep => ?_⟩
    · rintro ⟨node, info, ends, hnode, hvalue, hinfo, hlost⟩
      cases hnode
      cases hvalue
      cases hinfo
      exact hlost.1 rfl
    · intro size hsize
      cases hsize
      decide
    · cases hstep
      refine ⟨⟨rfl, ?_, ?_⟩, fun h hstep => ?_⟩
      · rintro ⟨node, info, ends, hnode, hvalue, hinfo, hlost⟩
        cases hnode
        cases hvalue
        cases hinfo
        cases hlost.2
      · intro size hsize
        cases hsize
        decide
      · cases hstep
        exact ⟨trivial, fun _ _ => trivial⟩

/-- After the last of two elements was removed the next append finds no tail. -/
theorem jsonArrays_not_behave :
    ¬∀ (h₀ h : Heap ℚ) array ops, jsonArrayNew h₀ true = .ok (h, array) →
      Along (ArrayOp.step array) (fun h op => op.Allowed h ∧ ∀ value reference granted,
        op = .append value reference granted → granted = true) h ops →
      Behaves (ArrayOp.step array) (arraySpec array) h [] ops := by
  intro hall
  have hbehaves := hall oneValue _ _
    [.append 0 true true, .append 0 true true, .pop 1, .append 0 true true] rfl ?_
  · obtain ⟨-, h₁, hstep₁, -, -, h₂, hstep₂, -, -, h₃, hstep₃, -, -, h₄, hstep₄, -⟩ := hbehaves
    cases hstep₁
    cases hstep₂
    cases hstep₃
    cases hstep₄
  · refine ⟨⟨Nat.zero_lt_two, fun _ _ _ h => by cases h; rfl⟩, fun h hstep => ?_⟩
    cases hstep
    refine ⟨⟨Nat.zero_lt_two, fun _ _ _ h => by cases h; rfl⟩, fun h hstep => ?_⟩
    cases hstep
    refine ⟨⟨trivial, fun _ _ _ h => by cases h⟩, fun h hstep => ?_⟩
    cases hstep
    refine ⟨⟨Nat.zero_lt_two, fun _ _ _ h => by cases h; rfl⟩, fun h hstep => ?_⟩
    cases hstep

end Run

end Libromano.JsonHeap
