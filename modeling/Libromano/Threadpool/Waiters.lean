/- An item that has been accepted is executed once, and `threadpool_waiter_wait` returns only when
   the items of its waiter have been. -/

import Libromano.Threadpool.Conservation
import Mathlib.Data.Int.Basic

set_option autoImplicit false
set_option relaxedAutoImplicit false

namespace Libromano.Threadpool

open Foundation Foundation.Objects Finset

variable {count others : ℕ} {s s' : State count others} {t : Thread count others}
  {phase : CallPhase count} {event : Event count others} {events : List (Event count others)} {x v : ℕ}

structure Work.Leads (work work' : Work) : Prop where
  waiter : work'.waiter = work.waiter
  accepted : work'.accepted = work.accepted
  completed : work.completed → work'.completed
  executions : work.executions ≤ work'.executions

private theorem Work.Leads.refl (work : Work) : work.Leads work := ⟨rfl, rfl, id, le_rfl⟩

def State.Leads (s s' : State count others) : Prop :=
  ∀ x, (s.works x).accepted → (s.works x).Leads (s'.works x)

private theorem State.leads_of_works (h : s'.works = s.works) : s.Leads s' := by
  intro x _
  rw [h]
  exact Work.Leads.refl _

private theorem State.leads_setWork {work : Work} (h : s'.works = (s.setWork x work).works)
    (hwork : (s.works x).accepted → (s.works x).Leads work) : s.Leads s' := by
  intro y hy
  rw [h]
  change (s.works y).Leads (Function.update s.works x work y)
  rcases eq_or_ne y x with rfl | hne
  · rw [Function.update_self]
    exact hwork hy
  · rw [Function.update_of_ne hne]
    exact Work.Leads.refl _

theorem Conserved.leads (h : Conserved s) (hmoves : Moves s event s') : s.Leads s' := by
  cases hmoves with
  | create hcall =>
    apply State.leads_setWork rfl
    intro haccepted
    rw [(h.not_lt (lt_irrefl _)).2.1] at haccepted
    cases haccepted
  | enqueue hcall =>
    apply State.leads_setWork rfl
    intro haccepted
    rw [(h.of_pending (by rw [hcall]; rfl)).2.2.2.1] at haccepted
    cases haccepted
  | discard hcall => exact State.leads_setWork rfl fun _ => ⟨rfl, rfl, id, le_rfl⟩
  | finish hworker hcall => exact State.leads_setWork rfl fun _ => ⟨rfl, rfl, id, Nat.le_succ _⟩
  | free hworker => exact State.leads_setWork rfl fun _ => ⟨rfl, rfl, fun _ => rfl, le_rfl⟩
  | some hcall hcount => exact State.leads_of_works rfl
  | positive hcall hcounter => exact State.leads_of_works rfl
  | _ => exact State.leads_of_works rfl

private theorem Conserved.executions_of_completed (h : Conserved s)
    (hcompleted : (s.works x).completed) :
    (s.works x).executions = 1 := by
  have haccepted := h.accepted x
  have hexecuted := h.executed x
  have hdone := doneTimes_le_heldTimes (s := s) (x := x)
  have hflag := Bool.toNat_le (s.works x).accepted
  rw [hcompleted, Bool.toNat_true] at haccepted hexecuted
  omega

/-- Each accepted item is in one queue, with one worker, or freed after its execution. -/
def State.Placed (s : State count others) : Prop :=
  ∀ x, (s.works x).accepted → s.queuedTimes x + s.heldTimes x + (s.works x).completed.toNat = 1 ∧
    (s.works x).rejected = false ∧ ((s.works x).completed → (s.works x).executions = 1)

theorem Conserved.placed (h : Conserved s) : s.Placed := by
  intro x haccepted
  have hx := h.accepted x
  have hcreated := h.created x
  rw [haccepted, Bool.toNat_true] at hx hcreated
  refine ⟨hx, ?_, h.executions_of_completed⟩
  refine Bool.toNat_eq_zero.mp ?_
  split_ifs at hcreated
  omega

/-- The counter of a waiter is the number of its items that have not been freed. -/
def State.Counted (s : State count others) : Prop :=
  ∀ v, s.live v < 2 ^ 31 → (s.counters v).toInt = s.live v

private theorem Conserved.counted (h : Conserved s) : s.Counted := by
  intro v hlt
  rw [h.counters v]
  exact Int32.toInt_ofNat_of_lt hlt

def State.Watches (s : State count others) : CallPhase count → Prop
  | .awaiting v before => ∀ x ∈ before, (s.works x).accepted ∧ (s.works x).waiter = some v
  | .awaited _ before => ∀ x ∈ before, (s.works x).accepted ∧ (s.works x).completed
  | _ => True

def State.Watched (s : State count others) : Prop := ∀ t, s.Watches (s.calls t)

private theorem State.Watches.leads (h : s.Watches phase) (hleads : s.Leads s') :
    s'.Watches phase := by
  cases phase with
  | awaiting v before =>
    intro x hx
    obtain ⟨haccepted, hwaiter⟩ := h x hx
    have hx' := hleads x haccepted
    exact ⟨hx'.accepted.trans haccepted, hx'.waiter.trans hwaiter⟩
  | awaited v before =>
    intro x hx
    obtain ⟨haccepted, hcompleted⟩ := h x hx
    have hx' := hleads x haccepted
    exact ⟨hx'.accepted.trans haccepted, hx'.completed hcompleted⟩
  | _ => exact trivial

private theorem State.Watched.of_calls (h : s.Watched) (hleads : s.Leads s')
    (hcalls : s'.calls = s.calls) :
    s'.Watched := by
  intro t
  rw [hcalls]
  exact (h t).leads hleads

private theorem State.Watched.of_setCall (h : s.Watched) (hleads : s.Leads s')
    (hcalls : s'.calls = (s.setCall t phase).calls) (hphase : s'.Watches phase) : s'.Watched := by
  rw [State.Watched, hcalls]
  exact (Function.forall_update_iff s.calls fun _ phase => s'.Watches phase).mpr
    ⟨hphase, fun u _ => (h u).leads hleads⟩

theorem mem_accepted (h : x ∈ s.accepted) : (s.works x).accepted :=
  (List.mem_filter.mp h).2

private theorem Conserved.completed_of_zero (h : Conserved s) (hlt : s.live v < 2 ^ 31)
    (hzero : s.counters v = 0) (haccepted : (s.works x).accepted)
    (hwaiter : (s.works x).waiter = some v) : (s.works x).completed := by
  have hlive : s.live v = 0 := by
    have hcounted := h.counted v hlt
    rw [hzero, Int32.toInt_zero] at hcounted
    exact (Int.natCast_eq_zero.mp hcounted.symm)
  have hx : x < s.worksCount := by
    by_contra hnot
    rw [(h.not_lt hnot).2.1] at haccepted
    cases haccepted
  have hcounts := le_sum_of_mem (fun x => (s.works x).counts v) (mem_range.mpr hx)
  have hle : (s.works x).counts v ≤ 0 := hcounts.trans hlive.le
  by_contra hnot
  rw [Work.counts, if_pos ⟨hwaiter, Bool.eq_false_of_not_eq_true hnot, (h.placed x haccepted).2.1⟩] at hle
  exact absurd hle (Nat.not_succ_le_zero 0)

private theorem State.Watched.step (h : s.Watched) (hs : Conserved s) (hlt : ∀ v, s.live v < 2 ^ 31)
    (hstep : step s event = .ok s') : s'.Watched := by
  have hmoves := moves_of_step hstep
  have hleads := hs.leads hmoves
  cases hmoves with
  | miss hworker hqueue => exact h.of_calls hleads rfl
  | take hworker hx => exact h.of_calls hleads rfl
  | announce hworker => exact h.of_calls hleads rfl
  | finish hworker hcall => exact h.of_calls hleads rfl
  | retire hworker => exact h.of_calls hleads rfl
  | free hworker => exact h.of_calls hleads rfl
  | some hcall hcount => exact h
  | positive hcall hcounter => exact h
  | await hcall =>
    apply h.of_setCall hleads rfl
    intro x hx
    obtain ⟨haccepted, hwaiter⟩ := List.mem_filter.mp hx
    exact ⟨mem_accepted haccepted, of_decide_eq_true hwaiter⟩
  | zero hcall hcounter =>
    rename_i t v before
    apply h.of_setCall hleads rfl
    intro x hx
    have hwatches := h t
    rw [hcall] at hwatches
    obtain ⟨haccepted, hwaiter⟩ := hwatches x hx
    exact ⟨haccepted, hs.completed_of_zero (hlt v) hcounter haccepted hwaiter⟩
  | _ => exact h.of_setCall hleads rfl trivial

/-- The items for which a call of `threadpool_waiter_wait` has waited have been executed once. -/
def State.Awaited (s : State count others) : Prop :=
  ∀ t v before, s.calls t = .awaited v before → ∀ x ∈ before, (s.works x).executions = 1

private theorem State.Watched.awaited (h : s.Watched) (hs : Conserved s) : s.Awaited := by
  intro t v before hcall x hx
  have hwatches := h t
  rw [hcall] at hwatches
  exact hs.executions_of_completed (hwatches x hx).2

private theorem throughout_conserved (h : Conserved s) : Throughout step Conserved s events :=
  throughout_of_along (fun _ _ _ hs _ hstep => hs.step hstep) h (along_of_forall fun _ _ => trivial)

private theorem live_le_worksCount : s.live v ≤ s.worksCount := by
  have hle : ∀ x ∈ range s.worksCount, (s.works x).counts v ≤ 1 := by
    intro x _
    rw [Work.counts]
    split_ifs
    · exact le_rfl
    · exact Nat.zero_le 1
  refine (sum_le_sum hle).trans_eq ?_
  rw [← card_eq_sum_ones, card_range]

private theorem worksCount_le (hmoves : Moves s event s') : s'.worksCount ≤ s.worksCount + 1 := by
  cases hmoves with
  | create hcall => exact le_rfl
  | _ => exact Nat.le_succ _

private theorem along_live_lt (h : s.worksCount + events.length < 2 ^ 31) :
    Along step (fun s _ => ∀ v, s.live v < 2 ^ 31) s events := by
  induction events generalizing s with
  | nil => exact trivial
  | cons event events ih =>
    rw [List.length_cons] at h
    refine ⟨fun v => ?_, fun s' hstep => ih ?_⟩
    · have hlive := live_le_worksCount (s := s) (v := v)
      omega
    · have hcount := worksCount_le (moves_of_step hstep)
      omega

/-- In every run, whatever the order of its steps, no accepted item is lost or executed twice, and a
counter counts the items of its waiter; while there are less than `2 ^ 31` of them, a call of
`threadpool_waiter_wait` returns after their execution. -/
theorem works_conserved (count others : ℕ) (events : List (Event count others)) :
    Throughout step (fun s => s.Placed ∧ s.Counted) start events ∧
    (Along step (fun s _ => ∀ v, s.live v < 2 ^ 31) start events →
      Throughout step State.Awaited start events) := by
  refine ⟨(throughout_conserved Conserved.start).mono fun s h => ⟨h.placed, h.counted⟩, fun hlt => ?_⟩
  have hstart : (start : State count others).Watched := fun _ => trivial
  have hrun := throughout_of_along
    (fun s event s' (h : Conserved s ∧ s.Watched) hlt hstep => ⟨h.1.step hstep, h.2.step h.1 hlt hstep⟩)
    ⟨Conserved.start, hstart⟩ hlt
  exact hrun.mono fun s h => h.2.awaited h.1

/-- A task that is awaited after its item has been stolen. -/
theorem works_conserved_steal : Throughout step State.Awaited (start : State 2 1)
    [.create (.inr 0) (some 0), .place (.inr 0), .enqueue (.inr 0) true, .await (.inr 0) 0,
      .dequeue 0 none, .dequeue 0 (some 0), .announce 0, .readCounter (.inr 0), .finish 0, .retire 0,
      .free 0, .readCounter (.inr 0)] :=
  (works_conserved 2 1 _).2 (along_live_lt (by decide))

end Libromano.Threadpool
