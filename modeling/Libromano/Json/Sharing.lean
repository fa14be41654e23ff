/- A copy of a value that an append function stores shares the lists of the value. It keeps its
   tree as long as the calls spare what is below it. -/

import Libromano.Json.Effects

set_option autoImplicit false
set_option relaxedAutoImplicit false

namespace Libromano.JsonHeap

open Foundation.Objects
open Json (JsonValue)

variable {F : Type}

section Copies

variable {h h' : Heap F} {call : Call F} {p p' q : ℕ} {holds : ℕ → Bool}

private theorem Shows.frame {content : Content F} (hshows : Shows h p content)
    (hnode : ∀ node, h.values[p]? = some node →
      ∃ size, h'.values[p']? = some { node with size := size })
    (harrays : ∀ size info xs, h.values[p]? = some ⟨.array, size, .arrayInfo info⟩ →
      HoldsList h.arrayInfos h.arrayElements info xs →
      HoldsList h'.arrayInfos h'.arrayElements info xs)
    (hdicts : ∀ size info xs, h.values[p]? = some ⟨.dict, size, .dictInfo info⟩ →
      HoldsList h.dictInfos h.dictElements info xs →
      HoldsList h'.dictInfos h'.dictElements info xs) : Shows h' p' content := by
  cases content with
  | scalar v =>
    obtain ⟨node, hp, hscalar⟩ := hshows
    obtain ⟨size, hp'⟩ := hnode node hp
    exact ⟨_, hp', hscalar⟩
  | array values =>
    obtain ⟨size, info, hp, hlist⟩ := hshows
    obtain ⟨size', hp'⟩ := hnode _ hp
    exact ⟨size', info, hp', harrays size info values hp hlist⟩
  | dict entries =>
    obtain ⟨size, info, hp, hlist⟩ := hshows
    obtain ⟨size', hp'⟩ := hnode _ hp
    exact ⟨size', info, hp', hdicts size info entries hp hlist⟩

private theorem Changes.shows (hchanges : Changes h h' call) (hspares : call.Spares h p)
    (hq : Reaches h p q) {content : Content F} (hshows : Shows h q content) :
    Shows h' q content := by
  refine hshows.frame ?_ ?_ ?_
  · exact fun node hnode => hchanges.kind q node (hspares.nodes q hq) hnode
  · exact fun size info xs hnode => hchanges.arrays info xs (hspares.arrays q size info hq hnode)
  · exact fun size info xs hnode => hchanges.dicts info xs (hspares.dicts q size info hq hnode)

private theorem Shows.lt {content : Content F} (hshows : Shows h p content) :
    p < h.values.length := by
  cases content with
  | scalar v =>
    obtain ⟨node, hp, -⟩ := hshows
    exact (List.getElem?_eq_some_iff.mp hp).1
  | array values =>
    obtain ⟨size, info, hp, -⟩ := hshows
    exact (List.getElem?_eq_some_iff.mp hp).1
  | dict entries =>
    obtain ⟨size, info, hp, -⟩ := hshows
    exact (List.getElem?_eq_some_iff.mp hp).1

private theorem Denotes.lt {v : JsonValue F} (hv : Denotes h p v) : p < h.values.length := by
  cases v with
  | array vs =>
    obtain ⟨values, hshows, -⟩ := hv
    exact hshows.lt
  | dict kvs =>
    obtain ⟨entries, hshows, -⟩ := hv
    exact hshows.lt
  | _ => exact (show Shows h p (.scalar _) from hv).lt

/-- The step lemma for a value that is spared. -/
private theorem Intact.step {v : JsonValue F} (hv : Intact h p v) (hchanges : Changes h h' call)
    (hspares : call.Spares h p) : Intact h' p v := by
  refine hv.transfer ?_ ?_ ?_
  · exact hchanges.same p hv.denotes.lt (hspares.nodes p .refl) hspares.size
  · exact fun content => hchanges.shows hspares .refl
  · exact fun q hq content => hchanges.shows hspares hq.to_reflTransGen

/-- The call stores a copy of a value. -/
def Call.Stores (v : ℕ) : Call F → Prop
  | .arrayAppend _ value false _ => value = v
  | .dictAppend _ _ value false _ => value = v
  | _ => False

private theorem Call.Stores.getElem? {v : ℕ} (hstores : call.Stores v) (hformed : Formed h)
    (hstep : call.step holds h = .ok h') :
    ∃ node, h.values[v]? = some node ∧ h'.values[h.stored v false]? = some node := by
  cases call with
  | arrayAppend array value reference granted =>
    cases reference with
    | true => exact absurd hstores id
    | false =>
      obtain rfl : value = v := hstores
      obtain ⟨info, -, hcopy⟩ := jsonArrayAppend_step hformed hstep
      exact hcopy rfl
  | dictAppend dict key value reference granted =>
    cases reference with
    | true => exact absurd hstores id
    | false =>
      obtain rfl : value = v := hstores
      obtain ⟨info, -, hcopy⟩ := jsonDictAppend_step hformed hstep
      exact hcopy rfl
  | _ => exact absurd hstores id

private theorem Intact.copy {v : ℕ} {tree : JsonValue F} (hv : Intact h v tree) (hformed : Formed h)
    (hstores : call.Stores v) (hstep : call.step holds h = .ok h') (hspares : call.Spares h v) :
    Intact h' (h.stored v false) tree := by
  have hchanges := call.step_changes hformed hstep
  obtain ⟨node, hnode, hcopy⟩ := hstores.getElem? hformed hstep
  refine hv.transfer (hcopy.trans hnode.symm) ?_ ?_
  · intro content hshows
    refine hshows.frame ?_ ?_ ?_
    · intro other hother
      cases hnode.symm.trans hother
      exact ⟨node.size, hcopy⟩
    · exact fun size info xs hp => hchanges.arrays info xs (hspares.arrays v size info .refl hp)
    · exact fun size info xs hp => hchanges.dicts info xs (hspares.dicts v size info .refl hp)
  · exact fun q hq content => hchanges.shows hspares hq.to_reflTransGen

end Copies

section Run

variable {holds : ℕ → Bool}

/-- A document without values. -/
def Heap.empty : Heap F := ⟨[], [], [], [], []⟩

def run (holds : ℕ → Bool) (h : Heap F) (calls : List (Call F)) : Except Fault (Heap F) :=
  calls.foldlM (fun h call => call.step holds h) h

private theorem formed_empty : Formed (Heap.empty : Heap F) :=
  ⟨separate_nil, separate_nil⟩

private theorem Formed.run {h h' : Heap F} {calls : List (Call F)} (hformed : Formed h)
    (hrun : JsonHeap.run holds h calls = .ok h') : Formed h' := by
  induction calls generalizing h with
  | nil =>
    cases hrun
    exact hformed
  | cons call calls ih =>
    obtain ⟨h₁, hstep, hrun⟩ := bind_eq_ok.mp hrun
    exact ih (call.step_changes hformed hstep).formed hrun

private theorem Intact.run {h h' : Heap F} {p : ℕ} {v : JsonValue F} {calls : List (Call F)}
    (hv : Intact h p v) (hformed : Formed h)
    (hspares : Along (fun h call => Call.step holds h call) (fun h call => call.Spares h p) h calls)
    (hrun : JsonHeap.run holds h calls = .ok h') : Intact h' p v := by
  induction calls generalizing h with
  | nil =>
    cases hrun
    exact hv
  | cons call calls ih =>
    obtain ⟨h₁, hstep, hrun⟩ := bind_eq_ok.mp hrun
    have hchanges := call.step_changes hformed hstep
    exact ih (hv.step hchanges hspares.1) hchanges.formed (hspares.2 h₁ hstep) hrun

/-- In every document, the copy of a value that is stored in a container keeps the
tree of the value, and its size, in every run that spares the copy and what is below
it; the container must not be below the value. -/
theorem stored_intact {calls₀ calls : List (Call F)} {call : Call F} {h₀ h₁ h : Heap F} {v : ℕ}
    {tree : JsonValue F} (hbuilt : run holds Heap.empty calls₀ = .ok h₀) (hv : Intact h₀ v tree)
    (hstores : call.Stores v) (hspares₀ : call.Spares h₀ v) (hstep : call.step holds h₀ = .ok h₁)
    (hspares : Along (fun h call => Call.step holds h call)
      (fun h call => call.Spares h (h₀.stored v false)) h₁ calls)
    (hrun : run holds h₁ calls = .ok h) : Intact h (h₀.stored v false) tree := by
  have hformed := formed_empty.run hbuilt
  have hcopy := hv.copy hformed hstores hstep hspares₀
  exact hcopy.run (call.step_changes hformed hstep).formed hspares hrun

private theorem reaches_of_childless {h : Heap F} {p q : ℕ} (hp : ∀ q, ¬Child h p q)
    (hq : Reaches h p q) : q = p := by
  rcases Relation.ReflTransGen.cases_head hq with rfl | ⟨r, hchild, -⟩
  · rfl
  · exact absurd hchild (hp r)

private theorem mem_of_child_array {h : Heap F} {p q : ℕ} {values : List ℕ}
    (hshows : Shows h p (.array values)) (hchild : Child h p q) : q ∈ values := by
  obtain ⟨content, hcontent, hq⟩ := hchild
  obtain ⟨size, info, hnode, hlist⟩ := hshows
  cases content with
  | scalar v => exact absurd hq List.not_mem_nil
  | array values' =>
    obtain ⟨fuel, hnext⟩ := iterate_of_shows_array hcontent
    obtain ⟨fuel', hnext'⟩ := iterate_of_shows_array ⟨size, info, hnode, hlist⟩
    cases iterate_unique hnext hnext'
    exact hq
  | dict entries =>
    obtain ⟨size', info', hnode', -⟩ := hcontent
    cases hnode.symm.trans hnode'

private theorem childless_of_scalar {h : Heap F} {p q : ℕ} {node : Node F}
    (hnode : h.values[p]? = some node)
    (harray : node.tag ≠ .array) (hdict : node.tag ≠ .dict) : ¬Child h p q := by
  rintro ⟨content, hcontent, hq⟩
  cases content with
  | scalar v => exact absurd hq List.not_mem_nil
  | array values =>
    obtain ⟨size, info, hnode', -⟩ := hcontent
    cases hnode.symm.trans hnode'
    exact harray rfl
  | dict entries =>
    obtain ⟨size, info, hnode', -⟩ := hcontent
    cases hnode.symm.trans hnode'
    exact hdict rfl

private theorem reaches_of_scalars {h : Heap F} {p q : ℕ} {values : List ℕ}
    (hshows : Shows h p (.array values)) (hscalars : ∀ v ∈ values, ∀ q, ¬Child h v q)
    (hq : Reaches h p q) : q = p ∨ q ∈ values := by
  rcases Relation.ReflTransGen.cases_head hq with rfl | ⟨r, hchild, hrest⟩
  · exact .inl rfl
  · have hr := mem_of_child_array hshows hchild
    obtain rfl := reaches_of_childless (hscalars r hr) hrest
    exact .inr hr

/-- A document with the arrays `[5]` and `[]`, and the element of the first. -/
def filledArray : Heap F :=
  ⟨[⟨.array, 1, .arrayInfo 0⟩, ⟨.u64, 0, .u64 5⟩, ⟨.array, 0, .arrayInfo 1⟩],
    [⟨some 0, some 0⟩, ⟨none, none⟩], [⟨1, none⟩], [], []⟩

def filledArrayStored : Heap F :=
  ⟨[⟨.array, 1, .arrayInfo 0⟩, ⟨.u64, 0, .u64 5⟩, ⟨.array, 1, .arrayInfo 1⟩,
    ⟨.array, 1, .arrayInfo 0⟩], [⟨some 0, some 0⟩, ⟨some 1, some 1⟩], [⟨1, none⟩, ⟨3, none⟩], [], []⟩

private theorem shows_filledArray : Shows (filledArray : Heap F) 0 (.array [1]) :=
  ⟨1, 0, rfl, ⟨some 0, some 0⟩, [(0, 1)], rfl, ⟨rfl, _, rfl, rfl⟩, rfl⟩

private theorem shows_filledArrayStored : Shows (filledArrayStored : Heap F) 3 (.array [1]) :=
  ⟨1, 0, rfl, ⟨some 0, some 0⟩, [(0, 1)], rfl, ⟨rfl, _, rfl, rfl⟩, rfl⟩

private theorem intact_filledArray : Intact (filledArray : Heap F) 0 (.array [.u64 5]) :=
  ⟨⟨[1], shows_filledArray, ⟨_, rfl, rfl⟩, trivial⟩, 2, [1], rfl, rfl⟩

/-- A copy of the array `[5]` is stored, and then the array is made a number. -/
theorem stored_intact_singleton : ∃ h : Heap ℚ,
    run (fun _ => true) Heap.empty [.arrayNew true, .u64New 5 true, .arrayAppend 0 1 true true,
      .arrayNew true, .arrayAppend 2 0 false true, .u64Set 0 7] = .ok h ∧
      Intact h 3 (.array [.u64 5]) := by
  have hspares₀ : (Call.arrayAppend 2 0 false true : Call ℚ).Spares filledArray 0 := by
    constructor
    · rintro q - ⟨f, node, hsets, -⟩
      cases hsets
    · rintro q size info hq hnode ⟨node, hnode', hvalue⟩
      cases hnode'
      cases hvalue
      rcases reaches_of_scalars shows_filledArray (List.forall_mem_singleton.mpr fun _ =>
        childless_of_scalar rfl nofun nofun) hq with rfl | hq
      · cases hnode
      · obtain rfl := List.mem_singleton.mp hq
        cases hnode
    · rintro q size info - - hrelinks
      exact hrelinks
    · intro hresizes
      cases hresizes
  have hspares : Along (fun h call => Call.step (fun _ => true) h call)
      (fun (h : Heap ℚ) call => call.Spares h 3) filledArrayStored [.u64Set 0 7] := by
    refine ⟨⟨?_, fun _ _ _ _ _ h => h, fun _ _ _ _ _ h => h, id⟩, fun _ _ => trivial⟩
    rintro q hq ⟨f, node, hsets, -⟩
    cases hsets
    rcases reaches_of_scalars shows_filledArrayStored (List.forall_mem_singleton.mpr fun _ =>
      childless_of_scalar rfl nofun nofun) hq with hq | hq
    · cases hq
    · exact absurd hq (by decide)
  have hbuilt : run (fun _ => true) Heap.empty [.arrayNew true, .u64New 5 true,
    .arrayAppend 0 1 true true, .arrayNew true] = .ok (filledArray : Heap ℚ) := rfl
  have hstores : (Call.arrayAppend 2 0 false true : Call ℚ).Stores 0 := rfl
  exact ⟨_, rfl, stored_intact hbuilt intact_filledArray hstores hspares₀ rfl hspares rfl⟩

def Call.target : Call F → Option ℕ
  | nullSet value => some value
  | boolSet value _ => some value
  | u64Set value _ => some value
  | i64Set value _ => some value
  | f64Set value _ => some value
  | strSet value _ _ => some value
  | arrayAppend array _ _ _ => some array
  | arrayPop array _ => some array
  | dictAppend dict _ _ _ _ => some dict
  | dictPop dict _ => some dict
  | _ => none

def twoArrays : Heap F :=
  ⟨[⟨.array, 0, .arrayInfo 0⟩, ⟨.array, 0, .arrayInfo 1⟩], [⟨none, none⟩, ⟨none, none⟩], [], [], []⟩

private theorem shows_twoArrays : Shows (twoArrays : Heap F) 0 (.array []) :=
  ⟨0, 0, rfl, ⟨none, none⟩, [], rfl, rfl, rfl⟩

private theorem intact_twoArrays : Intact (twoArrays : Heap F) 0 (.array []) :=
  ⟨⟨[], shows_twoArrays, trivial⟩, 1, [], rfl, rfl⟩

/-- After a copy of an array was stored an element is appended to the array. The copy
has the element too, and the size 0. -/
theorem stored_not_intact :
    ¬∀ (calls₀ calls : List (Call ℚ)) (call : Call ℚ) (h₀ h₁ h : Heap ℚ) v tree,
      run (fun _ => true) Heap.empty calls₀ = .ok h₀ → Intact h₀ v tree → call.Stores v →
      call.step (fun _ => true) h₀ = .ok h₁ →
      Along (fun h call => Call.step (fun _ => true) h call)
        (fun h call => ∃ q, call.target = some q ∧ Reaches h v q) h₁ calls →
      run (fun _ => true) h₁ calls = .ok h → Intact h (h₀.stored v false) tree := by
  intro hall
  have hcopy := hall [.arrayNew true, .arrayNew true] [.arrayAppend 0 1 true true]
    (.arrayAppend 1 0 false true) twoArrays _ _ 0 (.array []) rfl intact_twoArrays rfl rfl
    ⟨⟨0, rfl, .refl⟩, fun _ _ => trivial⟩ rfl
  obtain ⟨fuel, values, hnext, hsize⟩ := hcopy.size
  have hyields : iterate (jsonArrayGetNext (⟨[⟨.array, 1, .arrayInfo 0⟩, ⟨.array, 1, .arrayInfo 1⟩,
      ⟨.array, 0, .arrayInfo 0⟩], [⟨some 1, some 1⟩, ⟨some 0, some 0⟩], [⟨2, none⟩, ⟨1, none⟩],
      [], []⟩ : Heap ℚ) 2) 2 none = .ok [1] := rfl
  cases iterate_unique hnext hyields
  cases hsize

end Run

end Libromano.JsonHeap
