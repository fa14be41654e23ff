/- Runs of steps that may fail: what every step keeps, and how many of the steps a rank pays for. -/

import Mathlib.Algebra.BigOperators.Group.List.Basic
import Mathlib.Algebra.Order.Ring.Nat

set_option autoImplicit false
set_option relaxedAutoImplicit false

namespace Libromano.Foundation.Ranks

variable {ε S O : Type} {step : S → O → Except ε S} {s s' : S} {op : O} {ops : List O}

theorem run_cons : (op :: ops).foldlM step s = .ok s' ↔
    ∃ s₁, step s op = .ok s₁ ∧ ops.foldlM step s₁ = .ok s' := by
  rw [List.foldlM_cons]
  cases hstep : step s op with
  | error e =>
    refine ⟨fun h => ?_, ?_⟩
    · cases h
    · rintro ⟨s₁, h, -⟩
      cases h
  | ok s₁ =>
    refine ⟨fun h => ⟨s₁, rfl, h⟩, ?_⟩
    rintro ⟨s₂, h, hrest⟩
    cases h
    exact hrest

theorem run_nil (hrun : ([] : List O).foldlM step s = .ok s') : s' = s := by
  cases hrun
  rfl

theorem invariant_of_run {I : S → Prop} (hkeeps : ∀ s op s', I s → step s op = .ok s' → I s')
    (hI : I s) (hrun : ops.foldlM step s = .ok s') : I s' := by
  induction ops generalizing s with
  | nil => exact run_nil hrun ▸ hI
  | cons op ops ih =>
    obtain ⟨s₁, hstep, hrest⟩ := run_cons.mp hrun
    exact ih (hkeeps s op s₁ hI hstep) hrest

theorem spent_add_rank_le {I : S → Prop} (rank : S → ℕ) (spent gained : O → ℕ)
    (hstep : ∀ s op s', I s → step s op = .ok s' →
      I s' ∧ spent op + rank s' ≤ rank s + gained op)
    (hI : I s) (hrun : ops.foldlM step s = .ok s') :
    (ops.map spent).sum + rank s' ≤ rank s + (ops.map gained).sum := by
  induction ops generalizing s with
  | nil =>
    rw [run_nil hrun, List.map_nil, List.map_nil, List.sum_nil]
    omega
  | cons op ops ih =>
    obtain ⟨s₁, hop, hrest⟩ := run_cons.mp hrun
    obtain ⟨hI₁, hle⟩ := hstep s op s₁ hI hop
    have hops := ih hI₁ hrest
    rw [List.map_cons, List.map_cons, List.sum_cons, List.sum_cons]
    omega

/-- What the steps of a run cost where they are taken. -/
def spentOn (step : S → O → Except ε S) (cost : S → O → ℕ) : S → List O → ℕ
  | _, [] => 0
  | s, op :: ops => cost s op +
    match step s op with
    | .ok s' => spentOn step cost s' ops
    | .error _ => 0

variable {cost : S → O → ℕ}

private theorem spentOn_cons (hstep : step s op = .ok s') :
    spentOn step cost s (op :: ops) = cost s op + spentOn step cost s' ops := by
  rw [spentOn, hstep]

theorem spentOn_map (cost : O → ℕ) (hrun : ops.foldlM step s = .ok s') :
    spentOn step (fun _ op => cost op) s ops = (ops.map cost).sum := by
  induction ops generalizing s with
  | nil => rfl
  | cons op ops ih =>
    obtain ⟨s₁, hstep, hrest⟩ := run_cons.mp hrun
    rw [spentOn_cons hstep, ih hrest, List.map_cons, List.sum_cons]

theorem spentOn_add_rank_le {I : S → Prop} (cost : S → O → ℕ) (rank : S → ℕ)
    (hstep : ∀ s op s', I s → step s op = .ok s' → op ∈ ops →
      I s' ∧ cost s op + rank s' ≤ rank s)
    (hI : I s) (hrun : ops.foldlM step s = .ok s') :
    I s' ∧ spentOn step cost s ops + rank s' ≤ rank s := by
  induction ops generalizing s with
  | nil =>
    rw [run_nil hrun, spentOn, Nat.zero_add]
    exact ⟨hI, le_rfl⟩
  | cons op ops ih =>
    obtain ⟨s₁, hop, hrest⟩ := run_cons.mp hrun
    obtain ⟨hI₁, hle⟩ := hstep s op s₁ hI hop List.mem_cons_self
    obtain ⟨hI', hops⟩ := ih
      (fun s op s' hI hs hmem => hstep s op s' hI hs (List.mem_cons_of_mem _ hmem)) hI₁ hrest
    rw [spentOn_cons hop]
    exact ⟨hI', by omega⟩

theorem account_of_run {I : S → Prop} (cost : S → O → ℕ) (account : S → ℕ)
    (hstep : ∀ s op s', I s → step s op = .ok s' → I s' ∧ account s' = account s + cost s op)
    (hI : I s) (hrun : ops.foldlM step s = .ok s') :
    account s' = account s + spentOn step cost s ops := by
  induction ops generalizing s with
  | nil => rw [run_nil hrun, spentOn, Nat.add_zero]
  | cons op ops ih =>
    obtain ⟨s₁, hop, hrest⟩ := run_cons.mp hrun
    obtain ⟨hI₁, haccount⟩ := hstep s op s₁ hI hop
    rw [ih hI₁ hrest, spentOn_cons hop, haccount, Nat.add_assoc]

end Libromano.Foundation.Ranks
