/- An object whose operations may fail, next to the value that it stands for. -/

import Mathlib.Init

set_option autoImplicit false
set_option relaxedAutoImplicit false

namespace Libromano.Foundation.Objects

variable {ε S O T : Type}

/-- Something holds of every step of a run, as far as the steps return. -/
def Along (step : S → O → Except ε S) (P : S → O → Prop) : S → List O → Prop
  | _, [] => True
  | s, op :: ops => P s op ∧ ∀ s', step s op = .ok s' → Along step P s' ops

/-- Something holds in every state of a run, as far as the steps return. -/
def Throughout (step : S → O → Except ε S) (P : S → Prop) : S → List O → Prop
  | s, [] => P s
  | s, op :: ops => P s ∧ ∀ s', step s op = .ok s' → Throughout step P s' ops

/-- The purpose of an object: what can be read from it, what an operation makes of
the value, and what else it has to do. -/
structure Spec (S O T : Type) where
  Shows : S → T → Prop
  apply : S → O → T → T
  Effect : S → O → S → Prop

/-- Every step returns, and the value can be read from every state of the run. -/
def Behaves (step : S → O → Except ε S) (spec : Spec S O T) : S → T → List O → Prop
  | s, t, [] => spec.Shows s t
  | s, t, op :: ops => spec.Shows s t ∧
    ∃ s', step s op = .ok s' ∧ spec.Effect s op s' ∧ Behaves step spec s' (spec.apply s op t) ops

section

variable {step : S → O → Except ε S} {spec : Spec S O T} {P Q : S → O → Prop} {s s' : S} {t : T}
  {op : O} {ops : List O}

private theorem Behaves.shows (h : Behaves step spec s t ops) : spec.Shows s t := by
  cases ops with
  | nil => exact h
  | cons op ops => exact h.1

theorem along_cons (hstep : step s op = .ok s') :
    Along step P s (op :: ops) ↔ P s op ∧ Along step P s' ops := by
  constructor
  · exact fun h => ⟨h.1, h.2 s' hstep⟩
  · rintro ⟨hop, hrest⟩
    refine ⟨hop, fun s'' hstep' => ?_⟩
    cases hstep.symm.trans hstep'
    exact hrest

theorem behaves_cons (hstep : step s op = .ok s') :
    Behaves step spec s t (op :: ops) ↔
      spec.Shows s t ∧ spec.Effect s op s' ∧ Behaves step spec s' (spec.apply s op t) ops := by
  apply and_congr_right
  intro _
  constructor
  · rintro ⟨s'', hstep', hrest⟩
    cases hstep.symm.trans hstep'
    exact hrest
  · exact fun h => ⟨s', hstep, h⟩

theorem along_of_forall {R : O → Prop} (h : ∀ op ∈ ops, R op) :
    Along step (fun _ op => R op) s ops := by
  induction ops generalizing s with
  | nil => exact trivial
  | cons op ops ih =>
    obtain ⟨hop, hops⟩ := List.forall_mem_cons.mp h
    exact ⟨hop, fun s' _ => ih hops⟩

theorem along_and :
    Along step (fun s op => P s op ∧ Q s op) s ops ↔ Along step P s ops ∧ Along step Q s ops := by
  induction ops generalizing s with
  | nil => exact ⟨fun _ => ⟨trivial, trivial⟩, fun _ => trivial⟩
  | cons op ops ih =>
    constructor
    · rintro ⟨⟨hP, hQ⟩, hrest⟩
      exact ⟨⟨hP, fun s' hstep => (ih.mp (hrest s' hstep)).1⟩,
        hQ, fun s' hstep => (ih.mp (hrest s' hstep)).2⟩
    · rintro ⟨⟨hP, hrestP⟩, hQ, hrestQ⟩
      exact ⟨⟨hP, hQ⟩, fun s' hstep => ih.mpr ⟨hrestP s' hstep, hrestQ s' hstep⟩⟩

theorem throughout_and {A B : S → Prop} :
    Throughout step (fun s => A s ∧ B s) s ops ↔ Throughout step A s ops ∧ Throughout step B s ops := by
  induction ops generalizing s with
  | nil => exact Iff.rfl
  | cons op ops ih =>
    constructor
    · rintro ⟨⟨hA, hB⟩, hrest⟩
      exact ⟨⟨hA, fun s' hstep => (ih.mp (hrest s' hstep)).1⟩,
        hB, fun s' hstep => (ih.mp (hrest s' hstep)).2⟩
    · rintro ⟨⟨hA, hrestA⟩, hB, hrestB⟩
      exact ⟨⟨hA, hB⟩, fun s' hstep => ih.mpr ⟨hrestA s' hstep, hrestB s' hstep⟩⟩

theorem Throughout.start {A : S → Prop} (h : Throughout step A s ops) : A s := by
  cases ops with
  | nil => exact h
  | cons op ops => exact h.1

theorem Throughout.mono {A B : S → Prop} (hAB : ∀ s, A s → B s) (h : Throughout step A s ops) :
    Throughout step B s ops := by
  induction ops generalizing s with
  | nil => exact hAB s h
  | cons op ops ih => exact ⟨hAB s h.1, fun s' hs' => ih (h.2 s' hs')⟩

theorem throughout_of_along {A : S → Prop}
    (hkeeps : ∀ s op s', A s → Q s op → step s op = .ok s' → A s') (hA : A s)
    (h : Along step Q s ops) : Throughout step A s ops := by
  induction ops generalizing s with
  | nil => exact hA
  | cons op ops ih =>
    exact ⟨hA, fun s' hs' => ih (hkeeps s op s' hA h.1 hs') (h.2 s' hs')⟩

/-- Under an invariant that every step keeps, what is the same in a state is the same in a
run. -/
theorem throughout_congr {A B I : S → Prop} (hsame : ∀ s, I s → (A s ↔ B s))
    (hstep : ∀ s op s', I s → step s op = .ok s' → I s') (hI : I s) :
    Throughout step A s ops ↔ Throughout step B s ops := by
  induction ops generalizing s with
  | nil => exact hsame s hI
  | cons op ops ih =>
    refine and_congr (hsame s hI) (forall_congr' fun s' => ?_)
    exact forall_congr' fun hs' => ih (hstep s op s' hI hs')

/-- Under an invariant that every step keeps, what is the same of a step is the same of a run. -/
theorem along_congr {I : S → Prop} (hsame : ∀ s op, I s → (P s op ↔ Q s op))
    (hstep : ∀ s op s', I s → step s op = .ok s' → I s') (hI : I s) :
    Along step P s ops ↔ Along step Q s ops := by
  induction ops generalizing s with
  | nil => exact Iff.rfl
  | cons op ops ih =>
    refine and_congr (hsame s op hI) (forall_congr' fun s' => ?_)
    exact forall_congr' fun hs' => ih (hstep s op s' hI hs')

/-- With an invariant that the fitting steps keep, and from which every other step comes to a
state that fails, the runs without a failure are those of fitting steps. -/
theorem throughout_iff_along {A I : S → Prop} (hholds : ∀ s, I s → A s)
    (hfits : ∀ s op s', I s → Q s op → step s op = .ok s' → I s')
    (hmisfits : ∀ s op, I s → ¬Q s op → ∃ s', step s op = .ok s' ∧ ¬A s') (hI : I s) :
    Throughout step A s ops ↔ Along step Q s ops := by
  induction ops generalizing s with
  | nil => exact iff_of_true (hholds s hI) trivial
  | cons op ops ih =>
    by_cases hfit : Q s op
    · refine ⟨fun h => ⟨hfit, fun s' hs' => ?_⟩, fun h => ⟨hholds s hI, fun s' hs' => ?_⟩⟩
      · exact (ih (hfits s op s' hI hfit hs')).mp (h.2 s' hs')
      · exact (ih (hfits s op s' hI hfit hs')).mpr (h.2 s' hs')
    · refine iff_of_false ?_ fun h => hfit h.1
      rintro ⟨-, hrest⟩
      obtain ⟨s', hs', hfails⟩ := hmisfits s op hI hfit
      exact hfails (hrest s' hs').start

/-- The run rule: with an invariant that the fitting steps keep, and from which no
other step comes to the right value, the fitting runs are those that behave. -/
theorem behaves_iff {I : S → T → Prop} (hshows : ∀ s t, I s t → spec.Shows s t)
    (hfits : ∀ s t op, I s t → P s op → Q s op →
      ∃ s', step s op = .ok s' ∧ spec.Effect s op s' ∧ I s' (spec.apply s op t))
    (hmisfits : ∀ s t op, I s t → P s op → ¬Q s op →
      ∀ s', step s op = .ok s' → ¬spec.Shows s' (spec.apply s op t))
    (hI : I s t) (hallowed : Along step P s ops) :
    Behaves step spec s t ops ↔ Along step Q s ops := by
  induction ops generalizing s t with
  | nil => exact iff_of_true (hshows s t hI) trivial
  | cons op ops ih =>
    obtain ⟨hop, hallowed⟩ := hallowed
    by_cases hfit : Q s op
    · obtain ⟨s', hstep, heffect, hI'⟩ := hfits s t op hI hop hfit
      have hrest := ih hI' (hallowed s' hstep)
      rw [along_cons hstep]
      constructor
      · rintro ⟨-, s'', hstep', -, hbehaves⟩
        cases hstep.symm.trans hstep'
        exact ⟨hfit, hrest.mp hbehaves⟩
      · exact fun h => ⟨hshows s t hI, s', hstep, heffect, hrest.mpr h.2⟩
    · refine iff_of_false ?_ fun h => hfit h.1
      rintro ⟨-, s', hstep, -, hbehaves⟩
      exact hmisfits s t op hI hop hfit s' hstep hbehaves.shows

theorem Behaves.of_along {I : S → T → Prop} (hshows : ∀ s t, I s t → spec.Shows s t)
    (hfits : ∀ s t op, I s t → P s op → Q s op →
      ∃ s', step s op = .ok s' ∧ spec.Effect s op s' ∧ I s' (spec.apply s op t))
    (hI : I s t) (hallowed : Along step P s ops) (hfitting : Along step Q s ops) :
    Behaves step spec s t ops := by
  induction ops generalizing s t with
  | nil => exact hshows s t hI
  | cons op ops ih =>
    obtain ⟨hop, hallowed⟩ := hallowed
    obtain ⟨hfit, hfitting⟩ := hfitting
    obtain ⟨s', hstep, heffect, hI'⟩ := hfits s t op hI hop hfit
    exact ⟨hshows s t hI, s', hstep, heffect, ih hI' (hallowed s' hstep) (hfitting s' hstep)⟩

end

end Libromano.Foundation.Objects
