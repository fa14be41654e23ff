/- The dicts of a document behave as association lists in the order of insertion, as long as no
   first entry is removed and nothing is appended to a dict whose tail was lost. -/

import Libromano.Foundation.Objects
import Libromano.Json.Links

set_option autoImplicit false
set_option relaxedAutoImplicit false

namespace Libromano.JsonHeap

open Foundation.Chains Foundation.Objects
open Bytes (cString)

variable {F : Type}

/-- An operation on a dict. -/
inductive DictOp
  | append (key : List UInt8) (value : ℕ) (reference granted : Bool)
  | pop (key : List UInt8)

namespace DictOp

def step (holds : ℕ → Bool) (dict : ℕ) (h : Heap F) : DictOp → Except Fault (Heap F)
  | append key value reference granted => jsonDictAppend holds h dict key value reference granted
  | pop key => jsonDictPop h dict key

def apply (h : Heap F) (entries : List JsonKeyValue) : DictOp → List JsonKeyValue
  | append key value reference _ => entries ++ [⟨cString key, h.stored value reference⟩]
  | pop key => entries.eraseP fun entry => entry.key = cString key

/-- The value is one of the document. -/
def Allowed (h : Heap F) : DictOp → Prop
  | append _ value _ _ => value < h.values.length
  | pop _ => True

def Copies (h h' : Heap F) : DictOp → Prop
  | append _ value false _ => h'.values[h.stored value false]? = h.values[value]?
  | _ => True

end DictOp

/-- The iteration from a fresh iterator gives the entries, the size is their number,
and a key is found where it stands first. -/
structure ListsDict (h : Heap F) (dict : ℕ) (entries : List JsonKeyValue) : Prop where
  next : ∃ fuel, iterate (jsonDictGetNext h dict) fuel none = .ok entries
  size : jsonDictGetSize h dict = .ok entries.length
  find : ∀ key, jsonDictFind h dict key =
    .ok ((entries.find? fun entry => entry.key = cString key).map JsonKeyValue.value)

/-- A dict is a list of entries. -/
def dictSpec (dict : ℕ) : Spec (Heap F) DictOp (List JsonKeyValue) where
  Shows h entries := ListsDict h dict entries
  apply h op entries := op.apply h entries
  Effect h op h' := op.Copies h h'

def DictTailLost (h : Heap F) (dict : ℕ) : Prop :=
  ∃ node info ends, h.values[dict]? = some node ∧ node.value = .dictInfo info ∧
    h.dictInfos[info]? = some ends ∧ TailLost ends

/-- There is memory, the tail was not lost, and the size does not run out of its
bits; the key to remove is not that of the first entry. -/
def DictOp.Fits (holds : ℕ → Bool) (dict : ℕ) (h : Heap F) : DictOp → Prop
  | append key _ _ granted => granted = true ∧ holds ((cString key).length + 1) = true ∧
    ¬DictTailLost h dict ∧ ∀ size, jsonDictGetSize h dict = .ok size → size + 1 < 2 ^ 32
  | pop key => ∀ iterator entry, jsonDictGetNext h dict none = .ok (iterator, some entry) →
    entry.key ≠ cString key

/-- The invariant: the node, its two ends and the chain between them. -/
structure IsDict (h : Heap F) (dict : ℕ) (size : UInt32) (info : ℕ) (ends : Info)
    (l : List (ℕ × JsonKeyValue)) : Prop where
  node : h.values[dict]? = some ⟨.dict, size, .dictInfo info⟩
  info : h.dictInfos[info]? = some ends
  chained : Chained h.dictElements ends l
  size : size.toNat = l.length

section Search

variable {cells : List (Cell JsonKeyValue)} {key : List UInt8} {p : Option ℕ}
  {l l' : List (ℕ × JsonKeyValue)} {a fuel : ℕ} {x : JsonKeyValue}

private theorem dictFindLoop_absent (previous : Option ℕ) (h : Segment cells p l none)
    (hfuel : l.length < fuel) (habsent : ∀ entry ∈ items l, entry.key ≠ key) :
    ∃ previous', dictFindLoop cells key fuel previous p = .ok (previous', none) := by
  induction l generalizing p previous fuel with
  | nil =>
    obtain ⟨fuel, rfl⟩ := Nat.exists_eq_add_one.mpr (Nat.zero_lt_of_lt hfuel)
    obtain rfl : p = none := h
    exact ⟨previous, rfl⟩
  | cons head l ih =>
    obtain ⟨a, x⟩ := head
    obtain ⟨fuel, rfl⟩ := Nat.exists_eq_add_one.mpr (Nat.zero_lt_of_lt hfuel)
    obtain ⟨rfl, next, hcell, hl⟩ := h
    obtain ⟨hx, habsent⟩ := List.forall_mem_cons.mp habsent
    rw [dictFindLoop, deref_eq hcell]
    simp only [bind_ok, if_neg hx]
    exact ih _ hl (Nat.lt_of_succ_lt_succ hfuel) habsent

private theorem dictFindLoop_present (previous : Option ℕ)
    (h : Segment cells p (l ++ (a, x) :: l') none)
    (hfuel : l.length < fuel) (hbefore : ∀ entry ∈ items l, entry.key ≠ key) (hx : x.key = key) :
    dictFindLoop cells key fuel previous p = .ok ((addresses l).getLast?.or previous, some a) := by
  induction l generalizing p previous fuel with
  | nil =>
    obtain ⟨fuel, rfl⟩ := Nat.exists_eq_add_one.mpr (Nat.zero_lt_of_lt hfuel)
    obtain ⟨rfl, next, hcell, -⟩ := h
    rw [dictFindLoop, deref_eq hcell]
    simp only [bind_ok, if_pos hx]
    rfl
  | cons head l ih =>
    obtain ⟨b, y⟩ := head
    obtain ⟨fuel, rfl⟩ := Nat.exists_eq_add_one.mpr (Nat.zero_lt_of_lt hfuel)
    obtain ⟨rfl, next, hcell, hl⟩ := h
    obtain ⟨hy, hbefore⟩ := List.forall_mem_cons.mp hbefore
    rw [dictFindLoop, deref_eq hcell]
    simp only [bind_ok, if_neg hy]
    rw [ih _ hl (Nat.lt_of_succ_lt_succ hfuel) hbefore, addresses_cons, List.getLast?_cons]
    cases (addresses l).getLast? <;> rfl

private theorem absent_or_present (l : List (ℕ × JsonKeyValue)) (key : List UInt8) :
    (∀ entry ∈ items l, entry.key ≠ key) ∨
      ∃ before a x after, l = before ++ (a, x) :: after ∧
        (∀ entry ∈ items before, entry.key ≠ key) ∧ x.key = key := by
  induction l with
  | nil => exact .inl (List.forall_mem_nil _)
  | cons head l ih =>
    obtain ⟨a, x⟩ := head
    by_cases hx : x.key = key
    · exact .inr ⟨[], a, x, l, rfl, List.forall_mem_nil _, hx⟩
    · rcases ih with habsent | ⟨before, b, y, after, rfl, hbefore, hy⟩
      · exact .inl (List.forall_mem_cons.mpr ⟨hx, habsent⟩)
      · exact .inr ⟨(a, x) :: before, b, y, after, rfl,
          List.forall_mem_cons.mpr ⟨hx, hbefore⟩, hy⟩

private theorem find?_absent (habsent : ∀ entry ∈ items l, entry.key ≠ key) :
    (items l).find? (fun entry => entry.key = key) = none :=
  List.find?_eq_none.mpr fun entry hentry => by simpa using habsent entry hentry

private theorem find?_present (hbefore : ∀ entry ∈ items l, entry.key ≠ key) (hx : x.key = key) :
    (items (l ++ (a, x) :: l')).find? (fun entry => entry.key = key) = some x := by
  rw [items_append, List.find?_append, find?_absent hbefore, items_cons]
  simp [hx]

private theorem eraseP_absent (habsent : ∀ entry ∈ items l, entry.key ≠ key) :
    (items l).eraseP (fun entry => entry.key = key) = items l :=
  List.eraseP_of_forall_not fun entry hentry => by simpa using habsent entry hentry

private theorem eraseP_present (hbefore : ∀ entry ∈ items l, entry.key ≠ key) (hx : x.key = key) :
    (items (l ++ (a, x) :: l')).eraseP (fun entry => entry.key = key) = items (l ++ l') := by
  rw [items_append, items_append,
    List.eraseP_append_right _ fun entry hentry => by simpa using hbefore entry hentry]
  rw [items_cons]
  simp [hx]

end Search

section Dict

variable {h h' : Heap F} {dict info : ℕ} {size : UInt32} {ends : Info}
  {l : List (ℕ × JsonKeyValue)} {holds : ℕ → Bool}

private theorem IsDict.getSize (hl : IsDict h dict size info ends l) :
    jsonDictGetSize h dict = .ok l.length := by
  rw [jsonDictGetSize, deref_eq hl.node, ← hl.size]
  rfl

private theorem IsDict.getNext {a : ℕ} {x : JsonKeyValue}
    (hl : IsDict h dict size info ends ((a, x) :: l)) :
    jsonDictGetNext h dict none = .ok (some a, some x) := by
  obtain ⟨hhead, next, hcell, -⟩ := hl.chained.segment
  rw [jsonDictGetNext, deref_eq hl.node, bind_ok, Node.dictInfo, bind_ok, deref_eq hl.info]
  simp only [bind_ok]
  rw [hhead, currentItem, deref_eq hcell]
  rfl

private theorem IsDict.find (hl : IsDict h dict size info ends l) (key : List UInt8) :
    jsonDictFind h dict key =
      .ok (((items l).find? fun entry => entry.key = cString key).map JsonKeyValue.value) := by
  have hfuel := Nat.lt_succ_of_le hl.chained.segment.length_le
  rw [jsonDictFind, deref_eq hl.node, bind_ok, Node.dictInfo, bind_ok, deref_eq hl.info, bind_ok]
  rcases absent_or_present l (cString key) with habsent | ⟨before, a, x, after, rfl, hbefore, hx⟩
  · obtain ⟨previous, hloop⟩ := dictFindLoop_absent none hl.chained.segment hfuel habsent
    rw [hloop, find?_absent habsent]
    rfl
  · have hbefore_lt : before.length < h.dictElements.length + 1 := by
      rw [List.length_append] at hfuel
      omega
    obtain ⟨-, -, -, next, hcell, -⟩ := Segment.append.mp hl.chained.segment
    rw [dictFindLoop_present none hl.chained.segment hbefore_lt hbefore hx, find?_present hbefore hx]
    simp only [bind_ok, deref_eq hcell]
    rfl

private theorem IsDict.lists (hl : IsDict h dict size info ends l) : ListsDict h dict (items l) :=
  ⟨⟨_, iterate_dict hl.node hl.info hl.chained.segment⟩,
    by rw [hl.getSize, items, List.length_map], hl.find⟩

private theorem IsDict.tailLost_iff (hl : IsDict h dict size info ends l) :
    DictTailLost h dict ↔ TailLost ends := by
  constructor
  · rintro ⟨node, info', ends', hnode, hvalue, hinfo, hlost⟩
    cases hl.node.symm.trans hnode
    cases hvalue
    cases hl.info.symm.trans hinfo
    exact hlost
  · exact fun hlost => ⟨_, info, ends, hl.node, rfl, hl.info, hlost⟩

private theorem IsDict.append (hl : IsDict h dict size info ends l) {key : List UInt8} {value : ℕ}
    (reference : Bool) (hholds : holds ((cString key).length + 1) = true)
    (hvalue : value < h.values.length) (htail : ¬TailLost ends) :
    ∃ h' ends', jsonDictAppend holds h dict key value reference true = .ok h' ∧
      (reference = false → h'.values[h.stored value reference]? = h.values[value]?) ∧
      h'.values[dict]? = some ⟨.dict, size + 1, .dictInfo info⟩ ∧
      h'.dictInfos[info]? = some ends' ∧
      Chained h'.dictElements ends'
        (l ++ [(h.dictElements.length, ⟨cString key, h.stored value reference⟩)]) := by
  obtain ⟨cells, ends', hlink, hchained, -, -⟩ :=
    hl.chained.link htail ⟨cString key, h.stored value reference⟩
  obtain ⟨copied, hcopied, -, -, hinfos, -, hvalues, hcopy⟩ := store_ok reference hvalue
  have hdict := (List.getElem?_eq_some_iff.mp hl.node).1
  refine ⟨Heap.incrSize
    { copied with
      dictElements := cells
      dictInfos := h.dictInfos.set info ends' } dict, ends', ?_, ?_, ?_, ?_, hchained⟩
  · rw [jsonDictAppend, deref_eq hl.node, bind_ok, Node.dictInfo, bind_ok, deref_eq hl.info,
      bind_ok, if_pos rfl, hlink, bind_ok]
    simp only [if_pos hholds, hcopied]
    rfl
  · rintro rfl
    exact (getElem?_setNode_ne (Nat.ne_of_gt hdict)).trans hcopy
  · exact getElem?_setNode_self ((hvalues dict hdict).trans hl.node)
  · exact List.getElem?_set_self (List.getElem?_eq_some_iff.mp hl.info).1

private theorem IsDict.pop_first {a : ℕ} {x : JsonKeyValue}
    (hl : IsDict h dict size info ends ((a, x) :: l))
    {key : List UInt8} (hx : x.key = cString key) :
    ∃ h', jsonDictPop h dict key = .ok h' ∧
      h'.values[dict]? = some ⟨.dict, size - 1, .dictInfo info⟩ ∧
      h'.dictInfos[info]? = some ends ∧ Chained h'.dictElements ends ((a, x) :: l) := by
  have hhead := hl.chained.segment.1
  have hloop := dictFindLoop_present (l := []) none hl.chained.segment
    (Nat.succ_pos h.dictElements.length) (List.forall_mem_nil _) hx
  rw [jsonDictPop, deref_eq hl.node, bind_ok, Node.dictInfo, bind_ok, deref_eq hl.info, bind_ok,
    hloop]
  refine ⟨_, rfl, getElem?_setNode_self hl.node, ?_, hl.chained⟩
  rw [← hhead]
  exact List.getElem?_set_self (List.getElem?_eq_some_iff.mp hl.info).1

private theorem IsDict.pop (hl : IsDict h dict size info ends l) {key : List UInt8}
    (hfirst : ∀ a x rest, l = (a, x) :: rest → x.key ≠ cString key) :
    ∃ h' size' ends' l', jsonDictPop h dict key = .ok h' ∧ IsDict h' dict size' info ends' l' ∧
      items l' = (items l).eraseP fun entry => entry.key = cString key := by
  have hfuel := Nat.lt_succ_of_le hl.chained.segment.length_le
  rw [jsonDictPop, deref_eq hl.node, bind_ok, Node.dictInfo, bind_ok, deref_eq hl.info, bind_ok]
  rcases absent_or_present l (cString key) with habsent | ⟨before, b, y, after, rfl, hbefore, hy⟩
  · obtain ⟨previous, hloop⟩ := dictFindLoop_absent none hl.chained.segment hfuel habsent
    rw [hloop, eraseP_absent habsent]
    exact ⟨h, size, ends, l, rfl, hl, rfl⟩
  · have hbefore_lt : before.length < h.dictElements.length + 1 := by
      rw [List.length_append] at hfuel
      omega
    rw [dictFindLoop_present none hl.chained.segment hbefore_lt hbefore hy, eraseP_present hbefore hy]
    rcases List.eq_nil_or_concat' before with rfl | ⟨before, ⟨a, x⟩, rfl⟩
    · exact absurd hy (hfirst b y after rfl)
    · have hchain := hl.chained
      rw [List.append_assoc] at hchain
      obtain ⟨cells, ends', hunlink, hchained, -⟩ := hchain.unlink
      have hlast : (addresses (before ++ [(a, x)])).getLast? = some a := getLast?_addresses_concat
      rw [hlast]
      simp only [bind_ok, Option.some_or, hunlink]
      refine ⟨_, size - 1, ends', before ++ (a, x) :: after, rfl, ⟨?_, ?_, hchained, ?_⟩, ?_⟩
      · exact getElem?_setNode_self hl.node
      · exact List.getElem?_set_self (List.getElem?_eq_some_iff.mp hl.info).1
      · have hsize := hl.size
        rw [toNat_pred (by rw [hsize]; simp), hsize]
        simp
      · rw [List.append_assoc]
        rfl

/-- The step lemma for both operations. -/
private theorem IsDict.step (hl : IsDict h dict size info ends l) {op : DictOp}
    (hallowed : op.Allowed h)
    (hfits : op.Fits holds dict h) :
    ∃ h' size' ends' l', op.step holds dict h = .ok h' ∧ op.Copies h h' ∧
      IsDict h' dict size' info ends' l' ∧ items l' = op.apply h (items l) := by
  cases op with
  | append key value reference granted =>
    obtain ⟨rfl, hholds, htail, hsize⟩ := hfits
    obtain ⟨h', ends', happend, hcopy, hnode, hinfo, hchained⟩ :=
      hl.append reference hholds hallowed (mt hl.tailLost_iff.mpr htail)
    refine ⟨h', size + 1, ends', _, happend, ?_, ⟨hnode, hinfo, hchained, ?_⟩, List.map_append⟩
    · cases reference with
      | true => trivial
      | false => exact hcopy rfl
    · have hlt := hsize _ hl.getSize
      rw [toNat_succ (by rw [hl.size]; exact hlt), hl.size, List.length_append]
      rfl
  | pop key =>
    have hfirst : ∀ a x rest, l = (a, x) :: rest → x.key ≠ cString key := by
      rintro a x rest rfl
      exact hfits _ x hl.getNext
    obtain ⟨h', size', ends', l', hpop, hl', hitems⟩ := hl.pop hfirst
    exact ⟨h', size', ends', l', hpop, trivial, hl', hitems⟩

private theorem IsDict.not_lists (hl : IsDict h dict size info ends l) {op : DictOp}
    (hallowed : op.Allowed h) (hfits : ¬op.Fits holds dict h)
    (hstep : op.step holds dict h = .ok h') : ¬ListsDict h' dict (op.apply h (items l)) := by
  intro hlists
  cases op with
  | append key value reference granted =>
    have hstep' : jsonDictAppend holds h dict key value reference granted = .ok h' := hstep
    cases granted with
    | false =>
      rw [jsonDictAppend, deref_eq hl.node, bind_ok, Node.dictInfo, bind_ok, deref_eq hl.info]
        at hstep'
      cases hstep'
    | true =>
      by_cases htail : TailLost ends
      · rw [jsonDictAppend, deref_eq hl.node, bind_ok, Node.dictInfo, bind_ok, deref_eq hl.info,
          bind_ok, if_pos rfl, linkElement_lost htail] at hstep'
        cases hstep'
      by_cases hholds : holds ((cString key).length + 1) = true
      · have hsize : ¬size.toNat + 1 < 2 ^ 32 := by
          intro hsize
          refine hfits ⟨rfl, hholds, mt hl.tailLost_iff.mp htail, fun n hn => ?_⟩
          cases hl.getSize.symm.trans hn
          rwa [← hl.size]
        obtain ⟨h'', ends', happend, -, hnode, -⟩ := hl.append reference hholds hallowed htail
        cases hstep'.symm.trans happend
        have hget : jsonDictGetSize h' dict = .ok (size + 1).toNat := by
          rw [jsonDictGetSize, deref_eq hnode]
          rfl
        have hsame : (size + 1).toNat = (items l).length + 1 := by
          have hlength := hlists.size
          rw [hget, DictOp.apply, List.length_append] at hlength
          exact Except.ok.inj hlength
        rw [items, List.length_map, ← hl.size] at hsame
        exact toNat_succ_ne hsize hsame
      · obtain ⟨cells, ends', hlink, -⟩ :=
          hl.chained.link htail ⟨cString key, h.stored value reference⟩
        rw [jsonDictAppend, deref_eq hl.node, bind_ok, Node.dictInfo, bind_ok, deref_eq hl.info,
          bind_ok, if_pos rfl, hlink, bind_ok] at hstep'
        simp only [if_neg hholds] at hstep'
        cases hstep'
  | pop key =>
    have hmisfit : ∃ a x rest, l = (a, x) :: rest ∧ x.key = cString key := by
      by_contra hnone
      refine hfits fun iterator entry hnext hentry => hnone ?_
      rcases l with - | ⟨⟨a, x⟩, rest⟩
      · have hempty := iterate_dict hl.node hl.info hl.chained.segment
        rw [List.length_nil, iterate, hnext] at hempty
        cases hempty
      · cases hl.getNext.symm.trans hnext
        exact ⟨a, entry, rest, rfl, hentry⟩
    obtain ⟨a, x, rest, rfl, hx⟩ := hmisfit
    obtain ⟨h'', hpop, hnode, hinfo, hchained⟩ := hl.pop_first hx
    have hsame : h'' = h' := Except.ok.inj (hpop.symm.trans hstep)
    subst hsame
    obtain ⟨fuel, hnext⟩ := hlists.next
    have hstays := iterate_unique hnext (iterate_dict hnode hinfo hchained.segment)
    have hgone : (items ((a, x) :: rest)).eraseP (fun entry => entry.key = cString key) =
        items rest := eraseP_present (l := []) (List.forall_mem_nil _) hx
    rw [DictOp.apply, hgone] at hstays
    have hlength := congrArg List.length hstays
    simp [items] at hlength

end Dict

section Run

private theorem isDict_new {h₀ h : Heap F} {dict : ℕ} (hnew : jsonDictNew h₀ true = .ok (h, dict)) :
    IsDict h dict 0 h₀.dictInfos.length ⟨none, none⟩ [] := by
  cases hnew
  exact ⟨List.getElem?_concat_length, List.getElem?_concat_length, chained_nil, rfl⟩

/-- A new dict behaves as an association list exactly in the runs in which every
append is given its memory, finds a tail if there are elements and leaves a size that
can be held, and no first entry is removed. -/
theorem jsonDictNew_behaves_iff {holds : ℕ → Bool} {h₀ h : Heap F} {dict : ℕ}
    (hnew : jsonDictNew h₀ true = .ok (h, dict)) {ops : List DictOp}
    (hallowed : Along (DictOp.step holds dict) (fun h op => op.Allowed h) h ops) :
    Behaves (DictOp.step holds dict) (dictSpec dict) h [] ops ↔
      Along (DictOp.step holds dict) (fun h op => op.Fits holds dict h) h ops := by
  refine behaves_iff (I := fun h entries => ∃ size info ends l,
    IsDict h dict size info ends l ∧ items l = entries) ?_ ?_ ?_ ⟨_, _, _, [], isDict_new hnew, rfl⟩
    hallowed
  · rintro h - ⟨size, info, ends, l, hl, rfl⟩
    exact hl.lists
  · rintro h - op ⟨size, info, ends, l, hl, rfl⟩ hop hfits
    obtain ⟨h', size', ends', l', hstep, hcopies, hl', hitems⟩ := hl.step hop hfits
    exact ⟨h', hstep, hcopies, size', info, ends', l', hl', hitems⟩
  · rintro h - op ⟨size, info, ends, l, hl, rfl⟩ hop hfits h' hstep
    exact hl.not_lists hop hfits hstep

/-- The value is appended under two keys, and the second is removed. -/
theorem jsonDictNew_behaves_iff_pop : ∃ (h : Heap ℚ) (dict : ℕ),
    jsonDictNew oneValue true = .ok (h, dict) ∧
      Behaves (DictOp.step (· ≤ 8) dict) (dictSpec dict) h []
        [.append [97] 0 true true, .append [98] 0 false true, .pop [98]] := by
  refine ⟨_, _, rfl, (jsonDictNew_behaves_iff rfl ?_).mpr ?_⟩
  · refine ⟨Nat.zero_lt_two, fun h hstep => ?_⟩
    cases hstep
    refine ⟨Nat.zero_lt_two, fun h hstep => ?_⟩
    cases hstep
    exact ⟨trivial, fun _ _ => trivial⟩
  · refine ⟨⟨rfl, rfl, ?_, ?_⟩, fun h hstep => ?_⟩
    · rintro ⟨node, info, ends, hnode, hvalue, hinfo, hlost⟩
      cases hnode
      cases hvalue
      cases hinfo
      exact hlost.1 rfl
    · intro size hsize
      cases hsize
      decide
    · cases hstep
      refine ⟨⟨rfl, rfl, ?_, ?_⟩, fun h hstep => ?_⟩
      · rintro ⟨node, info, ends, hnode, hvalue, hinfo, hlost⟩
        cases hnode
        cases hvalue
        cases hinfo
        cases hlost.2
      · intro size hsize
        cases hsize
        decide
      · cases hstep
        refine ⟨fun iterator entry hnext => ?_, fun _ _ => trivial⟩
        cases hnext
        decide

/-- The only entry is removed, and is still there. -/
theorem jsonDicts_not_behave :
    ¬∀ (h₀ h : Heap ℚ) dict ops, jsonDictNew h₀ true = .ok (h, dict) →
      Along (DictOp.step (fun _ => true) dict) (fun h op => op.Allowed h ∧
        ∀ key value reference granted, op = .append key value reference granted →
          granted = true) h ops →
      Behaves (DictOp.step (fun _ => true) dict) (dictSpec dict) h [] ops := by
  intro hall
  have hbehaves := hall oneValue _ _ [.append [97] 0 true true, .pop [97]] rfl ?_
  · obtain ⟨-, h₁, hstep₁, -, -, h₂, hstep₂, -, hlists⟩ := hbehaves
    cases hstep₁
    cases hstep₂
    have hfind : (.ok (some 0) : Except Fault (Option ℕ)) = .ok none := hlists.find [97]
    cases hfind
  · refine ⟨⟨Nat.zero_lt_two, fun _ _ _ _ h => by cases h; rfl⟩, fun h hstep => ?_⟩
    cases hstep
    exact ⟨⟨trivial, fun _ _ _ _ h => by cases h⟩, fun _ _ => trivial⟩

end Run

end Libromano.JsonHeap
