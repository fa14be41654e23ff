/- What linking, unlinking and iterating do to a chain of elements with its two ends, and what the
   functions that do it change in the nodes. -/

import Libromano.Json.Heap

set_option autoImplicit false
set_option relaxedAutoImplicit false

namespace Libromano.JsonHeap

open Foundation.Chains

section Links

variable {α : Type} {cells : List (Cell α)} {ends : Info} {l l' : List (ℕ × α)} {a b : ℕ} {x y : α}

/-- The chain of a container. Its tail is the last element, unless it was lost. -/
structure Chained (cells : List (Cell α)) (ends : Info) (l : List (ℕ × α)) : Prop where
  segment : Segment cells ends.head l none
  tail : l = [] ∨ ends.tail = none ∨ ends.tail = (addresses l).getLast?

def TailLost (ends : Info) : Prop := ends.head ≠ none ∧ ends.tail = none

theorem chained_nil : Chained cells ⟨none, none⟩ [] := ⟨rfl, .inl rfl⟩

private theorem getLast?_addresses_append (hl : l' ≠ []) :
    (addresses (l ++ l')).getLast? = (addresses l').getLast? := by
  have hne : addresses l' ≠ [] := fun h => hl (List.map_eq_nil_iff.mp h)
  rw [addresses_append, List.getLast?_append_of_ne_nil _ hne]

theorem getLast?_addresses_concat : (addresses (l ++ [(a, x)])).getLast? = some a :=
  getLast?_addresses_append (List.cons_ne_nil _ _)

theorem Chained.link (h : Chained cells ends l) (htail : ¬TailLost ends) (y : α) :
    ∃ cells' ends', linkElement cells ends y = .ok (cells', ends') ∧
      Chained cells' ends' (l ++ [(cells.length, y)]) ∧ ¬TailLost ends' ∧
      cells'.length = cells.length + 1 := by
  rw [linkElement]
  rcases List.eq_nil_or_concat' l with rfl | ⟨before, ⟨a, x⟩, rfl⟩
  · have hhead : ends.head = none := h.segment
    rw [hhead]
    refine ⟨_, _, rfl, ⟨?_, .inr (.inr rfl)⟩, fun hlost => absurd hlost.2 (by simp), by simp⟩
    exact Segment.singleton.mpr ⟨rfl, List.getElem?_concat_length⟩
  · have hhead : ends.head ≠ none := fun hnone => by
      simpa using h.segment.eq_none_iff.mp hnone
    obtain ⟨first, hfirst⟩ := Option.ne_none_iff_exists'.mp hhead
    have hlast : ends.tail = some a := by
      rcases h.tail with hnil | hnone | hlast
      · simp at hnil
      · exact absurd ⟨hhead, hnone⟩ htail
      · rw [hlast, getLast?_addresses_concat]
    simp only [hfirst, hlast]
    refine ⟨_, _, rfl, ⟨?_, .inr (.inr ?_)⟩, fun hlost => absurd hlost.2 (by simp), by simp⟩
    · rw [List.append_assoc]
      exact hfirst ▸ h.segment.link
    · exact getLast?_addresses_concat.symm

theorem linkElement_lost (h : TailLost ends) (y : α) :
    linkElement cells ends y = .error .nullPointer := by
  obtain ⟨hhead, htail⟩ := h
  obtain ⟨first, hfirst⟩ := Option.ne_none_iff_exists'.mp hhead
  rw [linkElement, hfirst, htail]

theorem Chained.drop (h : Chained cells ends ((a, x) :: l)) :
    ∃ next, cells[a]? = some ⟨x, next⟩ ∧ Chained cells { ends with head := next } l := by
  obtain ⟨-, next, hcell, hl⟩ := h.segment
  refine ⟨next, hcell, hl, ?_⟩
  rcases l with - | ⟨head, l⟩
  · exact .inl rfl
  · rcases h.tail with hnil | hnone | hlast
    · simp at hnil
    · exact .inr (.inl hnone)
    · exact .inr (.inr (hlast.trans List.getLast?_cons_cons))

theorem Chained.unlink (h : Chained cells ends (l ++ (a, x) :: (b, y) :: l')) :
    ∃ cells' ends', unlinkElement cells ends a b = .ok (cells', ends') ∧
      Chained cells' ends' (l ++ (a, x) :: l') ∧ cells'.length = cells.length := by
  have hnodup := h.segment.nodup
  obtain ⟨next, hcell, hsegment⟩ := h.segment.unlink
  have hnext : l' = [] → next = none := by
    rintro rfl
    obtain ⟨r, -, -, next', -, -, next'', hcell', rfl⟩ := Segment.append.mp h.segment
    cases hcell.symm.trans hcell'
    rfl
  rw [unlinkElement, deref, hcell]
  refine ⟨_, _, rfl, ⟨?_, .inr ?_⟩, by simp⟩
  · split_ifs <;> exact hsegment
  · have hlost : ends.tail = none ∨ ends.tail = (addresses ((b, y) :: l')).getLast? := by
      rcases h.tail with hnil | hnone | hlast
      · simp at hnil
      · exact .inl hnone
      · have hsplit : l ++ (a, x) :: (b, y) :: l' = (l ++ [(a, x)]) ++ (b, y) :: l' := by simp
        rw [hsplit, getLast?_addresses_append (List.cons_ne_nil _ _)] at hlast
        exact .inr hlast
    rcases hlost with hnone | hlast
    · rw [hnone, if_neg (by simp)]
      exact .inl hnone
    · rcases l' with - | ⟨c, l'⟩
      · have hb : ends.tail = some b := hlast
        rw [if_pos hb]
        exact .inl (hnext rfl)
      · have hlast' : ends.tail = (addresses (c :: l')).getLast? :=
          hlast.trans List.getLast?_cons_cons
        have hne : ends.tail ≠ some b := by
          intro hb
          have hmem : b ∈ addresses (c :: l') := List.mem_of_getLast? (hlast'.symm.trans hb)
          rw [addresses_append, List.nodup_append] at hnodup
          exact (List.nodup_cons.mp (List.nodup_cons.mp hnodup.2.1).2).1 hmem
        have hsplit : l ++ (a, x) :: c :: l' = (l ++ [(a, x)]) ++ c :: l' := by simp
        rw [if_neg hne, hsplit, getLast?_addresses_append (List.cons_ne_nil _ _)]
        exact .inr hlast'

theorem deref_eq {store : List α} {a : ℕ} {x : α} (h : store[a]? = some x) :
    deref store (some a) = .ok x := by
  rw [deref, h]

end Links

section Nodes

variable {F : Type} {h : Heap F}

theorem getElem?_setNode_self {value : ℕ} {node : Node F} {f : Node F → Node F}
    (hnode : h.values[value]? = some node) : (h.setNode value f).values[value]? = some (f node) := by
  simp [Heap.setNode, hnode]

theorem getElem?_setNode_ne {value p : ℕ} {f : Node F → Node F} (hne : p ≠ value) :
    (h.setNode value f).values[p]? = h.values[p]? :=
  List.getElem?_modify_ne _ _ hne.symm

theorem toNat_succ {n : UInt32} (hn : n.toNat + 1 < 2 ^ 32) : (n + 1).toNat = n.toNat + 1 := by
  rw [UInt32.toNat_add]
  exact Nat.mod_eq_of_lt hn

theorem toNat_succ_ne {n : UInt32} (hn : ¬n.toNat + 1 < 2 ^ 32) :
    (n + 1).toNat ≠ n.toNat + 1 := by
  have hlast : n.toNat + 1 = 2 ^ 32 := by
    have hlt := n.toNat_lt
    omega
  have hone : (1 : UInt32).toNat = 1 := rfl
  rw [UInt32.toNat_add, hone, hlast, Nat.mod_self]
  exact (Nat.succ_ne_zero _).symm

theorem toNat_pred {n : UInt32} (hn : 0 < n.toNat) : (n - 1).toNat = n.toNat - 1 := by
  have hle : 1 ≤ n := UInt32.le_iff_toNat_le.mpr hn
  rw [UInt32.toNat_sub_of_le _ _ hle]
  rfl

theorem store_ok {value : ℕ} (reference : Bool) (hvalue : value < h.values.length) :
    ∃ copied, h.store value reference = .ok copied ∧
      copied.arrayInfos = h.arrayInfos ∧ copied.arrayElements = h.arrayElements ∧
      copied.dictInfos = h.dictInfos ∧ copied.dictElements = h.dictElements ∧
      (∀ p < h.values.length, copied.values[p]? = h.values[p]?) ∧
      copied.values[h.stored value reference]? = h.values[value]? := by
  have hnode := List.getElem?_eq_getElem hvalue
  cases reference with
  | true => exact ⟨h, rfl, rfl, rfl, rfl, rfl, fun _ _ => rfl, rfl⟩
  | false =>
    refine ⟨{ h with values := h.values ++ [h.values[value]] }, ?_, rfl, rfl, rfl, rfl, ?_, ?_⟩
    · rw [Heap.store, deref_eq hnode]
      rfl
    · exact fun p hp => List.getElem?_append_left hp
    · rw [hnode]
      exact List.getElem?_concat_length

def oneValue : Heap F := ⟨[⟨.bool, 0, .b true⟩], [], [], [], []⟩

end Nodes

section Iterate

variable {β : Type}

/-- The results of a function that is called with an iterator until there are none. -/
def iterate (getNext : Option ℕ → Except Fault (Option ℕ × Option β)) :
    ℕ → Option ℕ → Except Fault (List β)
  | 0, _ => .error .diverges
  | fuel + 1, iterator => do
    match ← getNext iterator with
    | (_, none) => .ok []
    | (iterator, some x) => do
      let rest ← iterate getNext fuel iterator
      .ok (x :: rest)

theorem iterate_unique {getNext : Option ℕ → Except Fault (Option ℕ × Option β)} {n m : ℕ}
    {iterator : Option ℕ} {xs ys : List β} (hx : iterate getNext n iterator = .ok xs)
    (hy : iterate getNext m iterator = .ok ys) : xs = ys := by
  induction n generalizing m iterator xs ys with
  | zero => cases hx
  | succ n ih =>
    cases m with
    | zero => cases hy
    | succ m =>
      rw [iterate] at hx hy
      obtain ⟨⟨iterator', item⟩, hnext, hx⟩ := bind_eq_ok.mp hx
      rw [hnext, bind_ok] at hy
      cases item with
      | none =>
        cases hx
        cases hy
        rfl
      | some x =>
        obtain ⟨xs, hxs, hx⟩ := bind_eq_ok.mp hx
        obtain ⟨ys, hys, hy⟩ := bind_eq_ok.mp hy
        cases hx
        cases hy
        rw [ih hxs hys]

private theorem iterate_segment {cells : List (Cell β)}
    {getNext : Option ℕ → Except Fault (Option ℕ × Option β)}
    (hnext : ∀ a x next, cells[a]? = some ⟨x, next⟩ →
      getNext (some a) = currentItem cells next)
    {l : List (ℕ × β)} {a : ℕ} {x : β} {fuel : ℕ}
    (h : Segment cells (some a) ((a, x) :: l) none) (hfuel : l.length < fuel) :
    iterate getNext fuel (some a) = .ok (items l) := by
  obtain ⟨-, next, hcell, hl⟩ := h
  induction l generalizing a x next fuel with
  | nil =>
    obtain ⟨fuel, rfl⟩ : ∃ n, fuel = n + 1 := ⟨fuel - 1, by simp at hfuel; omega⟩
    obtain rfl : next = none := hl
    rw [iterate, hnext a x none hcell]
    rfl
  | cons head l ih =>
    obtain ⟨b, y⟩ := head
    obtain ⟨rfl, next', hcell', hl'⟩ := hl
    rw [List.length_cons] at hfuel
    obtain ⟨fuel, rfl⟩ : ∃ n, fuel = n + 1 := ⟨fuel - 1, by omega⟩
    rw [iterate, hnext a x (some b) hcell, currentItem, deref_eq hcell']
    simp only [bind_ok]
    rw [ih (by omega) next' hcell' hl']
    rfl

private theorem iterate_container {cells : List (Cell β)} {ends : Info} {l : List (ℕ × β)}
    {getNext : Option ℕ → Except Fault (Option ℕ × Option β)}
    (hstart : getNext none = currentItem cells ends.head)
    (hnext : ∀ a x next, cells[a]? = some ⟨x, next⟩ → getNext (some a) = currentItem cells next)
    (hsegment : Segment cells ends.head l none) :
    iterate getNext (l.length + 1) none = .ok (items l) := by
  rw [iterate, hstart]
  rcases l with - | ⟨⟨a, x⟩, l⟩
  · have hhead : ends.head = none := hsegment
    rw [hhead]
    rfl
  · have hhead : ends.head = some a := hsegment.1
    have hrest := iterate_segment hnext (hhead ▸ hsegment) (Nat.lt_succ_self l.length)
    obtain ⟨-, next, hcell, -⟩ := hsegment
    rw [hhead, currentItem, deref_eq hcell]
    simp only [bind_ok]
    rw [List.length_cons, hrest]
    rfl

end Iterate

section Iterators

variable {F : Type} {h : Heap F} {p info : ℕ} {size : UInt32} {ends : Info}

theorem iterate_array {l : List (ℕ × ℕ)}
    (hnode : h.values[p]? = some ⟨.array, size, .arrayInfo info⟩)
    (hinfo : h.arrayInfos[info]? = some ends) (hl : Segment h.arrayElements ends.head l none) :
    iterate (jsonArrayGetNext h p) (l.length + 1) none = .ok (items l) := by
  refine iterate_container ?_ ?_ hl
  · rw [jsonArrayGetNext, deref_eq hnode, bind_ok, Node.arrayInfo, bind_ok, deref_eq hinfo]
    rfl
  · intro a x next hcell
    rw [jsonArrayGetNext, deref_eq hcell]
    rfl

theorem iterate_dict {l : List (ℕ × JsonKeyValue)}
    (hnode : h.values[p]? = some ⟨.dict, size, .dictInfo info⟩)
    (hinfo : h.dictInfos[info]? = some ends) (hl : Segment h.dictElements ends.head l none) :
    iterate (jsonDictGetNext h p) (l.length + 1) none = .ok (items l) := by
  refine iterate_container ?_ ?_ hl
  · rw [jsonDictGetNext, deref_eq hnode, bind_ok, Node.dictInfo, bind_ok, deref_eq hinfo]
    rfl
  · intro a x next hcell
    rw [jsonDictGetNext, deref_eq hcell]
    rfl

end Iterators

end Libromano.JsonHeap
