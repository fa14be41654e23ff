/- No item is lost, doubled or freed too early, and the counter of a waiter is the number of its
   items that are still there. -/

import Libromano.Foundation.Updates
import Libromano.Threadpool.Model
import Mathlib.Algebra.Order.Ring.Nat
import Mathlib.Data.Multiset.Count

set_option autoImplicit false
set_option relaxedAutoImplicit false

namespace Libromano.Threadpool

open Foundation Finset

variable {count others : ℕ} {s s' : State count others} {t : Thread count others} {w : Fin count}
  {x y v : ℕ}

def WorkerPhase.work : WorkerPhase → Option ℕ
  | .looking _ => none
  | .holding x | .executing x | .executed x | .freeing x => some x

def WorkerPhase.done : WorkerPhase → Option ℕ
  | .executed x | .freeing x => some x
  | _ => none

def CallPhase.work : CallPhase count → Option ℕ
  | .created x | .placed x _ | .refused x => some x
  | _ => none

def times (work : Option ℕ) (x : ℕ) : ℕ := if work = some x then 1 else 0

def State.queuedTimes (s : State count others) (x : ℕ) : ℕ := ∑ q, (s.queues q).count x

def State.heldTimes (s : State count others) (x : ℕ) : ℕ := ∑ w, times (s.workers w).work x

def State.doneTimes (s : State count others) (x : ℕ) : ℕ := ∑ w, times (s.workers w).done x

def State.pendingTimes (s : State count others) (x : ℕ) : ℕ := ∑ t, times (s.calls t).work x

def Work.counts (work : Work) (v : ℕ) : ℕ :=
  if work.waiter = some v ∧ work.completed = false ∧ work.rejected = false then 1 else 0

/-- The items of a waiter that have been created and not yet freed. -/
def State.live (s : State count others) (v : ℕ) : ℕ :=
  ∑ x ∈ range s.worksCount, (s.works x).counts v

structure Conserved (s : State count others) : Prop where
  accepted : ∀ x, s.queuedTimes x + s.heldTimes x + (s.works x).completed.toNat =
    (s.works x).accepted.toNat
  created : ∀ x, s.pendingTimes x + (s.works x).rejected.toNat + (s.works x).accepted.toNat =
    if x < s.worksCount then 1 else 0
  executed : ∀ x, (s.works x).executions = s.doneTimes x + (s.works x).completed.toNat
  counters : ∀ v, s.counters v = Int32.ofNat (s.live v)

private theorem times_some : times (some x) x = 1 := if_pos rfl

theorem times_ne (h : y ≠ x) : times (some x) y = 0 :=
  if_neg fun heq => h (Option.some.inj heq).symm

theorem times_none : times none x = 0 := if_neg (by simp)

private theorem pendingTimes_setCall (phase : CallPhase count) (x : ℕ) :
    (s.setCall t phase).pendingTimes x + times (s.calls t).work x =
      s.pendingTimes x + times phase.work x :=
  sum_update_balance (fun phase : CallPhase count => times phase.work x) s.calls (mem_univ t) phase

private theorem pendingTimes_setCall_idle (x : ℕ) :
    (s.setCall t .idle).pendingTimes x + times (s.calls t).work x = s.pendingTimes x := by
  have hbalance := pendingTimes_setCall (s := s) (t := t) .idle x
  change _ = _ + times none x at hbalance
  rw [times_none] at hbalance
  exact hbalance

private theorem heldTimes_setWorker (phase : WorkerPhase) (x : ℕ) :
    (s.setWorker w phase).heldTimes x + times (s.workers w).work x =
      s.heldTimes x + times phase.work x :=
  sum_update_balance (fun phase : WorkerPhase => times phase.work x) s.workers (mem_univ w) phase

private theorem doneTimes_setWorker (phase : WorkerPhase) (x : ℕ) :
    (s.setWorker w phase).doneTimes x + times (s.workers w).done x =
      s.doneTimes x + times phase.done x :=
  sum_update_balance (fun phase : WorkerPhase => times phase.done x) s.workers (mem_univ w) phase

theorem queuedTimes_setQueue (q : Fin count) (queue : Multiset ℕ) (x : ℕ) :
    (s.setQueue q queue).queuedTimes x + (s.queues q).count x = s.queuedTimes x + queue.count x :=
  sum_update_balance (fun queue : Multiset ℕ => queue.count x) s.queues (mem_univ q) queue

private theorem live_setWork (h : x < s.worksCount) (work : Work) (v : ℕ) :
    (s.setWork x work).live v + (s.works x).counts v = s.live v + work.counts v :=
  sum_update_balance (fun work : Work => work.counts v) s.works (mem_range.mpr h) work

private theorem live_setWork_worksCount (work : Work) (v : ℕ) :
    ({ s with worksCount := s.worksCount + 1 }.setWork s.worksCount work).live v =
      s.live v + work.counts v := by
  change ∑ x ∈ range (s.worksCount + 1), (Function.update s.works s.worksCount work x).counts v = _
  rw [sum_range_succ, Function.update_self,
    sum_update_of_notMem (fun work : Work => work.counts v) s.works notMem_range_self]
  rfl

theorem doneTimes_le_heldTimes : s.doneTimes x ≤ s.heldTimes x := by
  apply sum_le_sum
  intro w _
  cases s.workers w with
  | looking i => exact le_rfl
  | holding y => exact (times_none).le.trans (Nat.zero_le _)
  | executing y => exact (times_none).le.trans (Nat.zero_le _)
  | executed y => exact le_rfl
  | freeing y => exact le_rfl

private theorem heldTimes_pos (h : (s.workers w).work = some x) : 1 ≤ s.heldTimes x := by
  have hle := le_sum_of_mem (fun w => times (s.workers w).work x) (mem_univ w)
  rw [h, times_some] at hle
  exact hle

private theorem pendingTimes_pos (h : (s.calls t).work = some x) : 1 ≤ s.pendingTimes x := by
  have hle := le_sum_of_mem (fun t => times (s.calls t).work x) (mem_univ t)
  rw [h, times_some] at hle
  exact hle

namespace Conserved

theorem not_lt (h : Conserved s) (hx : ¬x < s.worksCount) : s.pendingTimes x = 0 ∧
    (s.works x).accepted = false ∧ (s.works x).completed = false ∧ s.queuedTimes x = 0 ∧
    s.heldTimes x = 0 ∧ s.doneTimes x = 0 := by
  have hcreated := h.created x
  have haccepted := h.accepted x
  have hdone := doneTimes_le_heldTimes (s := s) (x := x)
  rw [if_neg hx] at hcreated
  have hno : (s.works x).accepted.toNat = 0 := by omega
  rw [hno] at haccepted
  refine ⟨by omega, Bool.toNat_eq_zero.mp hno, Bool.toNat_eq_zero.mp (by omega), by omega, by omega,
    by omega⟩

theorem of_pending (h : Conserved s) (hx : (s.calls t).work = some x) : x < s.worksCount ∧
    s.pendingTimes x = 1 ∧ (s.works x).rejected = false ∧ (s.works x).accepted = false ∧
    (s.works x).completed = false := by
  have hpos := pendingTimes_pos hx
  have hcreated := h.created x
  have haccepted := h.accepted x
  have hlt : x < s.worksCount := by
    by_contra hnot
    rw [if_neg hnot] at hcreated
    omega
  rw [if_pos hlt] at hcreated
  refine ⟨hlt, by omega, Bool.toNat_eq_zero.mp (by omega), Bool.toNat_eq_zero.mp (by omega),
    Bool.toNat_eq_zero.mp (by omega)⟩

private theorem of_held (h : Conserved s) (hx : (s.workers w).work = some x) : x < s.worksCount ∧
    s.heldTimes x = 1 ∧ s.queuedTimes x = 0 ∧ (s.works x).rejected = false ∧
    (s.works x).accepted = true ∧ (s.works x).completed = false := by
  have hpos := heldTimes_pos hx
  have hcreated := h.created x
  have haccepted := h.accepted x
  have hflag := Bool.toNat_le (s.works x).accepted
  have hlt : x < s.worksCount := by
    by_contra hnot
    rw [if_neg hnot] at hcreated
    omega
  rw [if_pos hlt] at hcreated
  refine ⟨hlt, by omega, by omega, Bool.toNat_eq_zero.mp (by omega), Bool.toNat_eq_one.mp (by omega),
    Bool.toNat_eq_zero.mp (by omega)⟩

private theorem setCall (h : Conserved s) {phase : CallPhase count}
    (hwork : phase.work = (s.calls t).work) :
    Conserved (s.setCall t phase) := by
  refine ⟨h.accepted, fun x => ?_, h.executed, h.counters⟩
  have hpending := pendingTimes_setCall (s := s) (t := t) phase x
  rw [hwork, Nat.add_right_cancel_iff] at hpending
  rw [hpending]
  exact h.created x

private theorem setWorker (h : Conserved s) {phase : WorkerPhase}
    (hwork : phase.work = (s.workers w).work)
    (hdone : phase.done = (s.workers w).done) : Conserved (s.setWorker w phase) := by
  refine ⟨fun x => ?_, h.created, fun x => ?_, h.counters⟩
  · have hheld := heldTimes_setWorker (s := s) (w := w) phase x
    rw [hwork, Nat.add_right_cancel_iff] at hheld
    rw [hheld]
    exact h.accepted x
  · have hdone' := doneTimes_setWorker (s := s) (w := w) phase x
    rw [hdone, Nat.add_right_cancel_iff] at hdone'
    rw [hdone']
    exact h.executed x

theorem counters_free (h : Conserved s) (hx : x < s.worksCount)
    (hcompleted : (s.works x).completed = false) (hrejected : (s.works x).rejected = false)
    {work : Work} (hfreed : ∀ v, work.counts v = 0) (v : ℕ) :
    ((s.setWork x work).addCounter (s.works x).waiter (-1)).counters v =
      Int32.ofNat (((s.setWork x work).addCounter (s.works x).waiter (-1)).live v) := by
  have hlive := live_setWork hx work v
  have hcounter := h.counters v
  rw [hfreed, Work.counts, hcompleted, hrejected] at hlive
  change (if (s.works x).waiter = some v then s.counters v + -1 else s.counters v) =
    Int32.ofNat ((s.setWork x work).live v)
  rw [hcounter]
  by_cases hwaiter : (s.works x).waiter = some v
  · rw [if_pos ⟨hwaiter, rfl, rfl⟩] at hlive
    have hsum : s.live v = (s.setWork x work).live v + 1 := by omega
    rw [if_pos hwaiter, hsum, Int32.ofNat_add, ← Int32.sub_eq_add_neg]
    exact Int32.add_sub_cancel _ _
  · rw [if_neg fun hand => hwaiter hand.1] at hlive
    have hsum : s.live v = (s.setWork x work).live v := by omega
    rw [if_neg hwaiter, hsum]

private theorem counters_same (h : Conserved s) (hx : x < s.worksCount) {work : Work}
    (hsame : ∀ v, work.counts v = (s.works x).counts v) (v : ℕ) :
    s.counters v = Int32.ofNat ((s.setWork x work).live v) := by
  have hlive := live_setWork hx work v
  rw [hsame, Nat.add_right_cancel_iff] at hlive
  rw [hlive]
  exact h.counters v

private theorem create (h : Conserved s) (hcall : s.calls t = .idle) (waiter : Option ℕ) :
    Conserved (((({ s with worksCount := s.worksCount + 1 }).setWork s.worksCount
      ⟨waiter, false, 0, false, false⟩).addCounter waiter 1).setCall t (.created s.worksCount)) := by
  have hidle : (s.calls t).work = none := by rw [hcall]; rfl
  obtain ⟨hpending, -, -, hqueued, hheld, hdone⟩ := h.not_lt (x := s.worksCount) (lt_irrefl _)
  refine ⟨fun x => ?_, fun x => ?_, fun x => ?_, fun v => ?_⟩
  · change s.queuedTimes x + s.heldTimes x + (Function.update s.works s.worksCount _ x).completed.toNat =
      (Function.update s.works s.worksCount _ x).accepted.toNat
    rcases eq_or_ne x s.worksCount with rfl | hne
    · rw [Function.update_self, hqueued, hheld]
      rfl
    · rw [Function.update_of_ne hne]
      exact h.accepted x
  · have hbalance := pendingTimes_setCall (s := s) (t := t) (.created s.worksCount) x
    have hx := h.created x
    change (s.setCall t (.created s.worksCount)).pendingTimes x +
      (Function.update s.works s.worksCount _ x).rejected.toNat +
      (Function.update s.works s.worksCount _ x).accepted.toNat = if x < s.worksCount + 1 then 1 else 0
    rcases eq_or_ne x s.worksCount with rfl | hne
    · rw [CallPhase.work, hidle, times_some, times_none] at hbalance
      rw [Function.update_self, if_pos (Nat.lt_succ_self _)]
      change _ + 0 + 0 = 1
      omega
    · rw [CallPhase.work, hidle, times_ne hne, times_none] at hbalance
      rw [Function.update_of_ne hne]
      split_ifs at hx ⊢ <;> omega
  · change (Function.update s.works s.worksCount _ x).executions =
      s.doneTimes x + (Function.update s.works s.worksCount _ x).completed.toNat
    rcases eq_or_ne x s.worksCount with rfl | hne
    · rw [Function.update_self, hdone]
      rfl
    · rw [Function.update_of_ne hne]
      exact h.executed x
  · have hcounter := h.counters v
    have hlive := live_setWork_worksCount (s := s) ⟨waiter, false, 0, false, false⟩ v
    change (if waiter = some v then s.counters v + 1 else s.counters v) = Int32.ofNat
      (({ s with worksCount := s.worksCount + 1 }.setWork s.worksCount
        ⟨waiter, false, 0, false, false⟩).live v)
    rw [hlive, hcounter, Work.counts]
    by_cases hwaiter : waiter = some v
    · rw [if_pos hwaiter, if_pos ⟨hwaiter, rfl, rfl⟩, Int32.ofNat_add]
      rfl
    · rw [if_neg hwaiter, if_neg fun hand => hwaiter hand.1, Nat.add_zero]

private theorem enqueue (h : Conserved s) {q : Fin count} (hcall : s.calls t = .placed x q) :
    Conserved (((s.setQueue q (x ::ₘ s.queues q)).setWork x
      { s.works x with accepted := true }).setCall t .idle) := by
  have hwork : (s.calls t).work = some x := by rw [hcall, CallPhase.work]
  obtain ⟨hx, hpending, hrejected, haccepted, hcompleted⟩ := h.of_pending hwork
  refine ⟨fun y => ?_, fun y => ?_, fun y => ?_, ?_⟩
  · have hbalance := queuedTimes_setQueue (s := s) q (x ::ₘ s.queues q) y
    have hy := h.accepted y
    change (s.setQueue q (x ::ₘ s.queues q)).queuedTimes y + s.heldTimes y +
      (Function.update s.works x _ y).completed.toNat = (Function.update s.works x _ y).accepted.toNat
    rcases eq_or_ne y x with rfl | hne
    · rw [Multiset.count_cons_self] at hbalance
      rw [Function.update_self]
      rw [haccepted] at hy
      change _ + _ + (s.works y).completed.toNat = 1
      change _ = 0 at hy
      omega
    · rw [Multiset.count_cons_of_ne hne] at hbalance
      rw [Function.update_of_ne hne]
      omega
  · have hbalance := pendingTimes_setCall_idle (s := s) (t := t) y
    have hy := h.created y
    rw [hwork] at hbalance
    change (s.setCall t .idle).pendingTimes y + (Function.update s.works x _ y).rejected.toNat +
      (Function.update s.works x _ y).accepted.toNat = if y < s.worksCount then 1 else 0
    rcases eq_or_ne y x with rfl | hne
    · rw [times_some] at hbalance
      rw [haccepted] at hy
      change _ + _ + 0 = _ at hy
      rw [Function.update_self]
      change _ + (s.works y).rejected.toNat + 1 = _
      omega
    · rw [times_ne hne] at hbalance
      rw [Function.update_of_ne hne]
      omega
  · change (Function.update s.works x _ y).executions =
      s.doneTimes y + (Function.update s.works x _ y).completed.toNat
    simp only [apply_update_of_eq Work.executions, apply_update_of_eq Work.completed]
    exact h.executed y
  · exact h.counters_same hx fun v => rfl

private theorem discard (h : Conserved s) (hcall : s.calls t = .refused x) :
    Conserved (((s.setWork x { s.works x with rejected := true }).addCounter (s.works x).waiter
      (-1)).setCall t .idle) := by
  have hwork : (s.calls t).work = some x := by rw [hcall, CallPhase.work]
  obtain ⟨hx, hpending, hrejected, haccepted, hcompleted⟩ := h.of_pending hwork
  refine ⟨fun y => ?_, fun y => ?_, fun y => ?_, ?_⟩
  · change s.queuedTimes y + s.heldTimes y + (Function.update s.works x _ y).completed.toNat =
      (Function.update s.works x _ y).accepted.toNat
    simp only [apply_update_of_eq Work.completed, apply_update_of_eq Work.accepted]
    exact h.accepted y
  · have hbalance := pendingTimes_setCall_idle (s := s) (t := t) y
    have hy := h.created y
    rw [hwork] at hbalance
    change (s.setCall t .idle).pendingTimes y + (Function.update s.works x _ y).rejected.toNat +
      (Function.update s.works x _ y).accepted.toNat = if y < s.worksCount then 1 else 0
    rcases eq_or_ne y x with rfl | hne
    · rw [times_some] at hbalance
      rw [hrejected] at hy
      change _ + 0 + _ = _ at hy
      rw [Function.update_self]
      change _ + 1 + (s.works y).accepted.toNat = _
      omega
    · rw [times_ne hne] at hbalance
      rw [Function.update_of_ne hne]
      omega
  · change (Function.update s.works x _ y).executions =
      s.doneTimes y + (Function.update s.works x _ y).completed.toNat
    simp only [apply_update_of_eq Work.executions, apply_update_of_eq Work.completed]
    exact h.executed y
  · exact h.counters_free hx hcompleted hrejected fun v => if_neg fun hand => nomatch hand.2.2

private theorem dequeue (h : Conserved s) {q : Fin count} (hworker : (s.workers w).work = none)
    (hx : x ∈ s.queues q) :
    Conserved ((s.setQueue q ((s.queues q).erase x)).setWorker w (.holding x)) := by
  have hdone : (s.workers w).done = none := by
    cases hphase : s.workers w with
    | looking i => rfl
    | holding y => rfl
    | executing y => rfl
    | executed y => exact nomatch hphase ▸ hworker
    | freeing y => exact nomatch hphase ▸ hworker
  refine ⟨fun y => ?_, h.created, fun y => ?_, h.counters⟩
  · have hqueued := queuedTimes_setQueue (s := s) q ((s.queues q).erase x) y
    have hheld := heldTimes_setWorker (s := s) (w := w) (.holding x) y
    have hy := h.accepted y
    rw [hworker, times_none, WorkerPhase.work] at hheld
    change (s.setQueue q ((s.queues q).erase x)).queuedTimes y +
      (s.setWorker w (.holding x)).heldTimes y + (s.works y).completed.toNat =
      (s.works y).accepted.toNat
    rcases eq_or_ne y x with rfl | hne
    · have hpos := Multiset.count_pos.mpr hx
      rw [Multiset.count_erase_self] at hqueued
      rw [times_some] at hheld
      omega
    · rw [Multiset.count_erase_of_ne hne] at hqueued
      rw [times_ne hne] at hheld
      omega
  · have hbalance := doneTimes_setWorker (s := s) (w := w) (.holding x) y
    change _ = _ + times none y at hbalance
    rw [hdone, Nat.add_right_cancel_iff] at hbalance
    exact (h.executed y).trans (congrArg (· + _) hbalance.symm)

private theorem finish (h : Conserved s) (hworker : s.workers w = .executing x) :
    Conserved ((s.setWork x { s.works x with executions := (s.works x).executions + 1 }).setWorker w
      (.executed x)) := by
  have hwork : (s.workers w).work = some x := by rw [hworker, WorkerPhase.work]
  have hdone : (s.workers w).done = none := by rw [hworker]; rfl
  obtain ⟨hx, -⟩ := h.of_held hwork
  refine ⟨fun y => ?_, fun y => ?_, fun y => ?_, ?_⟩
  · have hheld := heldTimes_setWorker (s := s) (w := w) (.executed x) y
    rw [hwork, WorkerPhase.work, Nat.add_right_cancel_iff] at hheld
    change s.queuedTimes y + (s.setWorker w (.executed x)).heldTimes y +
      (Function.update s.works x _ y).completed.toNat = (Function.update s.works x _ y).accepted.toNat
    rw [hheld]
    simp only [apply_update_of_eq Work.completed, apply_update_of_eq Work.accepted]
    exact h.accepted y
  · change s.pendingTimes y + (Function.update s.works x _ y).rejected.toNat +
      (Function.update s.works x _ y).accepted.toNat = if y < s.worksCount then 1 else 0
    simp only [apply_update_of_eq Work.rejected, apply_update_of_eq Work.accepted]
    exact h.created y
  · have hbalance := doneTimes_setWorker (s := s) (w := w) (.executed x) y
    have hy := h.executed y
    rw [hdone, times_none, WorkerPhase.done] at hbalance
    change (Function.update s.works x _ y).executions =
      (s.setWorker w (.executed x)).doneTimes y + (Function.update s.works x _ y).completed.toNat
    rcases eq_or_ne y x with rfl | hne
    · rw [times_some] at hbalance
      rw [Function.update_self]
      change (s.works y).executions + 1 = _ + (s.works y).completed.toNat
      omega
    · rw [times_ne hne] at hbalance
      rw [Function.update_of_ne hne]
      omega
  · exact h.counters_same hx fun v => rfl

private theorem free (h : Conserved s) (hworker : s.workers w = .freeing x) :
    Conserved (((s.setWork x { s.works x with completed := true }).addCounter (s.works x).waiter
      (-1)).setWorker w (.looking 0)) := by
  have hwork : (s.workers w).work = some x := by rw [hworker, WorkerPhase.work]
  have hdone : (s.workers w).done = some x := by rw [hworker, WorkerPhase.done]
  obtain ⟨hx, -, -, hrejected, -, hcompleted⟩ := h.of_held hwork
  refine ⟨fun y => ?_, fun y => ?_, fun y => ?_, ?_⟩
  · have hbalance := heldTimes_setWorker (s := s) (w := w) (.looking 0) y
    have hy := h.accepted y
    rw [hwork, WorkerPhase.work, times_none] at hbalance
    change s.queuedTimes y + (s.setWorker w (.looking 0)).heldTimes y +
      (Function.update s.works x _ y).completed.toNat = (Function.update s.works x _ y).accepted.toNat
    rcases eq_or_ne y x with rfl | hne
    · rw [times_some] at hbalance
      rw [hcompleted] at hy
      change _ + 0 = _ at hy
      rw [Function.update_self]
      change _ + 1 = (s.works y).accepted.toNat
      omega
    · rw [times_ne hne] at hbalance
      rw [Function.update_of_ne hne]
      omega
  · change s.pendingTimes y + (Function.update s.works x _ y).rejected.toNat +
      (Function.update s.works x _ y).accepted.toNat = if y < s.worksCount then 1 else 0
    simp only [apply_update_of_eq Work.rejected, apply_update_of_eq Work.accepted]
    exact h.created y
  · have hbalance := doneTimes_setWorker (s := s) (w := w) (.looking 0) y
    have hy := h.executed y
    change _ = _ + times none y at hbalance
    rw [hdone, times_none] at hbalance
    change (Function.update s.works x _ y).executions =
      (s.setWorker w (.looking 0)).doneTimes y + (Function.update s.works x _ y).completed.toNat
    rcases eq_or_ne y x with rfl | hne
    · rw [times_some] at hbalance
      rw [hcompleted] at hy
      change _ = _ + 0 at hy
      rw [Function.update_self]
      change (s.works y).executions = _ + 1
      omega
    · rw [times_ne hne] at hbalance
      rw [Function.update_of_ne hne]
      omega
  · exact h.counters_free hx hcompleted hrejected fun v => if_neg fun hand => nomatch hand.2.1

theorem step (h : Conserved s) {event : Event count others} (hstep : step s event = .ok s') :
    Conserved s' := by
  cases moves_of_step hstep with
  | create hcall => exact h.create (State.idle_of_calls hcall) _
  | place hcall q submitRr =>
    have hs : Conserved { s with submitRr := submitRr } := ⟨h.accepted, h.created, h.executed, h.counters⟩
    exact hs.setCall (by rw [hcall]; rfl)
  | enqueue hcall => exact h.enqueue hcall
  | refuse hcall => exact h.setCall (by rw [hcall]; rfl)
  | discard hcall => exact h.discard hcall
  | miss hworker hqueue => exact h.setWorker (by rw [hworker]; rfl) (by rw [hworker]; rfl)
  | take hworker hx => exact h.dequeue (by rw [hworker]; rfl) hx
  | announce hworker =>
    have hs : Conserved { s with workingThreadsCount := s.workingThreadsCount + 1 } :=
      ⟨h.accepted, h.created, h.executed, h.counters⟩
    exact hs.setWorker (by rw [hworker]; rfl) (by rw [hworker]; rfl)
  | finish hworker hcall => exact h.finish hworker
  | retire hworker =>
    have hs : Conserved { s with workingThreadsCount := s.workingThreadsCount - 1 } :=
      ⟨h.accepted, h.created, h.executed, h.counters⟩
    exact hs.setWorker (by rw [hworker]; rfl) (by rw [hworker]; rfl)
  | free hworker => exact h.free hworker
  | wait hcall => exact h.setCall (by rw [State.idle_of_calls hcall]; rfl)
  | none hcall hcount => exact h.setCall (by rw [hcall]; rfl)
  | some hcall hcount => exact h
  | next hcall hi hqueue => exact h.setCall (by rw [hcall]; rfl)
  | pass hcall hi hqueue => exact h.setCall (by rw [hcall]; rfl)
  | again hcall hi hqueue => exact h.setCall (by rw [hcall]; rfl)
  | await hcall => exact h.setCall (by rw [State.idle_of_calls hcall]; rfl)
  | zero hcall hcounter => exact h.setCall (by rw [hcall]; rfl)
  | positive hcall hcounter => exact h
  | leave hcall =>
    obtain ⟨before, hwaited | ⟨v, hawaited⟩⟩ := hcall
    · exact h.setCall (by rw [hwaited]; rfl)
    · exact h.setCall (by rw [hawaited]; rfl)

theorem start : Conserved (start : State count others) := by
  refine ⟨fun x => ?_, fun x => ?_, fun x => ?_, fun v => rfl⟩
  · change ∑ q : Fin count, Multiset.count x 0 + ∑ w : Fin count, times none x + 0 = 0
    simp [times_none]
  · change ∑ t : Thread count others, times none x + 0 + 0 = 0
    simp [times_none]
  · change 0 = ∑ w : Fin count, times none x + 0
    simp [times_none]

end Conserved

end Libromano.Threadpool
