/- `threadpool_wait` reads the count of the workers that have announced an item, and then the
   sizes of the queues. It misses an item that a worker takes without having announced it. -/

import Libromano.Threadpool.Waiters

set_option autoImplicit false
set_option relaxedAutoImplicit false

namespace Libromano.Threadpool

open Foundation Foundation.Objects Finset

variable {count others : ℕ} {s s' : State count others} {t : Thread count others} {w : Fin count}
  {phase : CallPhase count} {event : Event count others} {x : ℕ}

/-- Whether a worker is between its announcement and the end of it, as a number. -/
def WorkerPhase.announced : WorkerPhase → ℕ
  | .executing _ | .executed _ => 1
  | _ => 0

def State.announced (s : State count others) : ℕ := ∑ w, (s.workers w).announced

def State.Tallied (s : State count others) : Prop :=
  s.workingThreadsCount = UInt32.ofNat s.announced

private theorem announced_setWorker (phase : WorkerPhase) :
    (s.setWorker w phase).announced + (s.workers w).announced = s.announced + phase.announced :=
  sum_update_balance WorkerPhase.announced s.workers (mem_univ w) phase

private theorem announced_le : s.announced ≤ count := by
  have hle : ∀ w ∈ (univ : Finset (Fin count)), (s.workers w).announced ≤ 1 := by
    intro w _
    cases s.workers w with
    | executing x => exact le_rfl
    | executed x => exact le_rfl
    | _ => exact Nat.zero_le 1
  refine (sum_le_sum hle).trans_eq ?_
  rw [← card_eq_sum_ones, card_fin]

private theorem State.Tallied.setWorker (h : s.Tallied) {phase : WorkerPhase}
    (hworkers : s'.workers = (s.setWorker w phase).workers)
    (hcount : s'.workingThreadsCount = s.workingThreadsCount)
    (hphase : phase.announced = (s.workers w).announced) : s'.Tallied := by
  have hbalance := announced_setWorker (s := s) (w := w) phase
  rw [hphase, Nat.add_right_cancel_iff] at hbalance
  rw [Tallied, hcount, announced, hworkers]
  exact Eq.trans h (congrArg UInt32.ofNat hbalance.symm)

theorem State.Tallied.step (h : s.Tallied) (hmoves : Moves s event s') : s'.Tallied := by
  cases hmoves with
  | miss hworker hqueue => exact h.setWorker rfl rfl (by rw [hworker]; rfl)
  | take hworker hx => exact h.setWorker rfl rfl (by rw [hworker]; rfl)
  | announce hworker =>
    rename_i w x
    have hbalance := announced_setWorker (s := s) (w := w) (.executing x)
    rw [hworker] at hbalance
    change (s.setWorker w (.executing x)).announced = s.announced + 1 at hbalance
    change s.workingThreadsCount + 1 = UInt32.ofNat (s.setWorker w (.executing x)).announced
    rw [hbalance, UInt32.ofNat_add, ← h]
    rfl
  | finish hworker hcall => exact h.setWorker rfl rfl (by rw [hworker]; rfl)
  | retire hworker =>
    rename_i w x
    have hbalance := announced_setWorker (s := s) (w := w) (.freeing x)
    rw [hworker] at hbalance
    change (s.setWorker w (.freeing x)).announced + 1 = s.announced at hbalance
    change s.workingThreadsCount - 1 = UInt32.ofNat (s.setWorker w (.freeing x)).announced
    rw [h, ← hbalance, UInt32.ofNat_add]
    exact UInt32.add_sub_cancel _ _
  | free hworker => exact h.setWorker rfl rfl (by rw [hworker]; rfl)
  | _ => exact h

theorem State.Tallied.start : (start : State count others).Tallied := by
  change (0 : UInt32) = UInt32.ofNat (∑ w : Fin count, 0)
  rw [sum_const_zero]
  rfl

private theorem State.Tallied.announced_eq_zero (h : s.Tallied) (hcount : count < 2 ^ 32)
    (hzero : s.workingThreadsCount = 0) (w : Fin count) : (s.workers w).announced = 0 := by
  have hlt : s.announced < 2 ^ 32 := announced_le.trans_lt hcount
  have hsum : s.announced = 0 := by
    have hnat := congrArg UInt32.toNat (h.symm.trans hzero)
    exact (UInt32.toNat_ofNat_of_lt hlt).symm.trans hnat
  have hle := le_sum_of_mem (fun w => (s.workers w).announced) (mem_univ w)
  exact Nat.le_zero.mp (hle.trans hsum.le)

def State.Follows (s : State count others) : CallPhase count → Prop
  | .waiting before => ∀ x ∈ before, (s.works x).accepted
  | .scanning before i => ∀ x ∈ before, (s.works x).accepted ∧
    (1 ≤ (s.works x).executions ∨ ∃ q : Fin count, i ≤ q ∧ x ∈ s.queues q)
  | .waited before => ∀ x ∈ before, (s.works x).accepted ∧ 1 ≤ (s.works x).executions
  | _ => True

def State.Followed (s : State count others) : Prop := ∀ t, s.Follows (s.calls t)

/-- No worker has taken one of the items without announcing it when a call reads that the count is
zero, and no worker takes one while the call reads the sizes of the queues. -/
def Timely (s : State count others) : Event count others → Prop
  | .readCount t => ∀ before, s.calls t = .waiting before → s.workingThreadsCount = 0 →
    ∀ w x, s.workers w = .holding x → x ∉ before
  | .dequeue _ (some x) => ∀ t before i, s.calls t = .scanning before i → x ∉ before
  | _ => True

/-- The items for which a call of `threadpool_wait` has waited have been executed. -/
def State.Waited (s : State count others) : Prop :=
  ∀ t before, s.calls t = .waited before → ∀ x ∈ before, 1 ≤ (s.works x).executions

private theorem State.Followed.waited (h : s.Followed) : s.Waited := by
  intro t before hcall x hx
  have hfollows := h t
  rw [hcall] at hfollows
  exact (hfollows x hx).2

private theorem State.Follows.leads (h : s.Follows phase) (hleads : s.Leads s')
    (hqueues : ∀ before i, phase = .scanning before i → ∀ x ∈ before, ∀ q, x ∈ s.queues q →
      x ∈ s'.queues q) : s'.Follows phase := by
  cases phase with
  | waiting before => exact fun x hx => (hleads x (h x hx)).accepted.trans (h x hx)
  | scanning before i =>
    intro x hx
    obtain ⟨haccepted, hplace⟩ := h x hx
    have hx' := hleads x haccepted
    refine ⟨hx'.accepted.trans haccepted, hplace.imp (fun hexecuted => hexecuted.trans hx'.executions) ?_⟩
    rintro ⟨q, hiq, hq⟩
    exact ⟨q, hiq, hqueues before i rfl x hx q hq⟩
  | waited before =>
    intro x hx
    obtain ⟨haccepted, hexecuted⟩ := h x hx
    have hx' := hleads x haccepted
    exact ⟨hx'.accepted.trans haccepted, hexecuted.trans hx'.executions⟩
  | _ => exact trivial

/-- The queues, as far as the calls are to read them, only grow. -/
def State.Stays (s s' : State count others) : Prop :=
  ∀ t before i, s.calls t = .scanning before i → ∀ x ∈ before, ∀ q, x ∈ s.queues q → x ∈ s'.queues q

private theorem State.stays_of_queues (h : s'.queues = s.queues) : s.Stays s' := by
  intro t before i _ x _ q hq
  rw [h]
  exact hq

private theorem stays_of_moves (hmoves : Moves s event s') (htimely : Timely s event) :
    s.Stays s' := by
  cases hmoves with
  | enqueue hcall =>
    rename_i t y q
    intro u before i _ x _ r hr
    change x ∈ Function.update s.queues q (y ::ₘ s.queues q) r
    rcases eq_or_ne r q with rfl | hne
    · rw [Function.update_self]
      exact Multiset.mem_cons_of_mem hr
    · rw [Function.update_of_ne hne]
      exact hr
  | take hworker hy =>
    rename_i w i y
    intro u before j hscanning x hx r hr
    have hne : x ≠ y := by
      rintro rfl
      exact htimely u before j hscanning hx
    change x ∈ Function.update s.queues (victim w i) ((s.queues (victim w i)).erase y) r
    rcases eq_or_ne r (victim w i) with rfl | hother
    · rw [Function.update_self]
      exact (Multiset.mem_erase_of_ne hne).mpr hr
    · rw [Function.update_of_ne hother]
      exact hr
  | _ => exact State.stays_of_queues rfl

private theorem State.Followed.of_calls (h : s.Followed) (hleads : s.Leads s') (hstays : s.Stays s')
    (hcalls : s'.calls = s.calls) : s'.Followed := by
  intro t
  rw [hcalls]
  exact (h t).leads hleads fun before i => hstays t before i

private theorem State.Followed.of_setCall (h : s.Followed) (hleads : s.Leads s')
    (hstays : s.Stays s')
    (hcalls : s'.calls = (s.setCall t phase).calls) (hphase : s'.Follows phase) : s'.Followed := by
  rw [State.Followed, hcalls]
  refine (Function.forall_update_iff s.calls fun _ phase => s'.Follows phase).mpr ⟨hphase, ?_⟩
  exact fun u _ => (h u).leads hleads fun before i => hstays u before i

private theorem Conserved.executed_or_queued (h : Conserved s) (haccepted : (s.works x).accepted)
    (hholding : ∀ w, s.workers w ≠ .holding x) (hzero : ∀ w, (s.workers w).announced = 0) :
    1 ≤ (s.works x).executions ∨ ∃ q, x ∈ s.queues q := by
  have hplaced := (h.placed x haccepted).1
  by_cases hqueued : s.queuedTimes x = 0
  · left
    have hsame : s.heldTimes x = s.doneTimes x := by
      apply sum_congr rfl
      intro w _
      cases hphase : s.workers w with
      | looking i => rfl
      | holding y => exact times_ne fun heq => hholding w (heq ▸ hphase)
      | executing y =>
        have hannounced := hzero w
        rw [hphase] at hannounced
        exact absurd hannounced Nat.one_ne_zero
      | executed y => rfl
      | freeing y => rfl
    have hexecuted := h.executed x
    omega
  · right
    obtain ⟨q, -, hq⟩ := exists_ne_zero_of_sum_ne_zero hqueued
    exact ⟨q, Multiset.count_ne_zero.mp hq⟩

private theorem State.Followed.step (h : s.Followed) (hs : Conserved s) (htallied : s.Tallied)
    (hcount : count < 2 ^ 32) (htimely : Timely s event) (hstep : step s event = .ok s') :
    s'.Followed := by
  have hmoves := moves_of_step hstep
  have hleads := hs.leads hmoves
  have hstays := stays_of_moves hmoves htimely
  cases hmoves with
  | miss hworker hqueue => exact h.of_calls hleads hstays rfl
  | take hworker hx => exact h.of_calls hleads hstays rfl
  | announce hworker => exact h.of_calls hleads hstays rfl
  | finish hworker hcall => exact h.of_calls hleads hstays rfl
  | retire hworker => exact h.of_calls hleads hstays rfl
  | free hworker => exact h.of_calls hleads hstays rfl
  | some hcall hcount => exact h
  | positive hcall hcounter => exact h
  | wait hcall => exact h.of_setCall hleads hstays rfl fun x hx => mem_accepted hx
  | none hcall hzero =>
    rename_i t before
    apply h.of_setCall hleads hstays rfl
    intro x hx
    have hfollows := h t
    rw [hcall] at hfollows
    have haccepted := hfollows x hx
    refine ⟨haccepted, ?_⟩
    have hholding : ∀ w, s.workers w ≠ .holding x := fun w hworker =>
      htimely before hcall hzero w x hworker hx
    refine (hs.executed_or_queued haccepted hholding (htallied.announced_eq_zero hcount hzero)).imp_right ?_
    rintro ⟨q, hq⟩
    exact ⟨q, Nat.zero_le _, hq⟩
  | next hcall hi hqueue =>
    rename_i t before i
    apply h.of_setCall hleads hstays rfl
    intro x hx
    have hfollows := h t
    rw [hcall] at hfollows
    obtain ⟨haccepted, hplace⟩ := hfollows x hx
    refine ⟨haccepted, hplace.imp_right ?_⟩
    rintro ⟨q, hiq, hq⟩
    refine ⟨q, Nat.lt_of_le_of_ne hiq ?_, hq⟩
    rintro rfl
    exact Multiset.notMem_zero x (hqueue ▸ hq)
  | pass hcall hi hqueue =>
    rename_i t before i
    apply h.of_setCall hleads hstays rfl
    intro x hx
    have hfollows := h t
    rw [hcall] at hfollows
    obtain ⟨haccepted, hexecuted | ⟨q, hiq, hq⟩⟩ := hfollows x hx
    · exact ⟨haccepted, hexecuted⟩
    · -- the queue would be the last one, which is empty
      have hlast : i = q := le_antisymm hiq (Nat.le_of_lt_succ (q.isLt.trans_le hi))
      subst hlast
      exact absurd (hqueue q.isLt ▸ hq) (Multiset.notMem_zero x)
  | again hcall hi hqueue =>
    rename_i t before i
    apply h.of_setCall hleads hstays rfl
    intro x hx
    have hfollows := h t
    rw [hcall] at hfollows
    exact (hfollows x hx).1
  | _ => exact h.of_setCall hleads hstays rfl trivial

/-- In every run with timely steps, `threadpool_wait` returns after the execution of the items that
were accepted before it. -/
theorem waited_of_timely (count others : ℕ) (hcount : count < 2 ^ 32)
    (events : List (Event count others)) (htimely : Along step Timely start events) :
    Throughout step State.Waited start events := by
  have hstart : (start : State count others).Followed := fun _ => trivial
  have hrun := throughout_of_along
    (fun s event s' (h : Conserved s ∧ s.Tallied ∧ s.Followed) htimely hstep =>
      ⟨h.1.step hstep, h.2.1.step (moves_of_step hstep), h.2.2.step h.1 h.2.1 hcount htimely hstep⟩)
    ⟨Conserved.start, State.Tallied.start, hstart⟩ htimely
  exact hrun.mono fun s h => h.2.2.waited

/-- Along the run, the item is announced before the call. -/
theorem waited_of_timely_announced : Throughout step State.Waited (start : State 1 1)
    [.create (.inr 0) none, .place (.inr 0), .enqueue (.inr 0) true, .dequeue 0 (some 0), .announce 0,
      .wait (.inr 0), .readCount (.inr 0), .finish 0, .retire 0, .readCount (.inr 0),
      .readSize (.inr 0)] := by
  refine waited_of_timely 1 1 (by decide) _ ?_
  refine (along_cons rfl).mpr ⟨trivial, (along_cons rfl).mpr ⟨trivial, (along_cons rfl).mpr ⟨trivial, ?_⟩⟩⟩
  refine (along_cons rfl).mpr ⟨fun t before i hcall => ?_, (along_cons rfl).mpr ⟨trivial, ?_⟩⟩
  · rcases t with w | u
    · cases hcall
    · obtain rfl : u = 0 := Subsingleton.elim u 0
      cases hcall
  refine (along_cons rfl).mpr ⟨trivial, (along_cons rfl).mpr ⟨fun before _ hzero => ?_, ?_⟩⟩
  · exact absurd hzero (by decide)
  refine (along_cons rfl).mpr ⟨trivial, (along_cons rfl).mpr ⟨trivial, (along_cons rfl).mpr ⟨?_, ?_⟩⟩⟩
  · intro before _ _ w x hworker
    obtain rfl : w = 0 := Subsingleton.elim w 0
    cases hworker
  exact (along_cons rfl).mpr ⟨trivial, trivial⟩

/-- A worker has taken the item, and `threadpool_wait` returns before the worker announces it. -/
theorem not_waited : ¬∀ (count others : ℕ) (events : List (Event count others)), count < 2 ^ 32 →
    Throughout step State.Waited start events := by
  intro h
  have hrun := h 1 1 [.create (.inr 0) none, .place (.inr 0), .enqueue (.inr 0) true,
    .dequeue 0 (some 0), .wait (.inr 0), .readCount (.inr 0), .readSize (.inr 0)] (by decide)
  have hlast := ((((((hrun.2 _ rfl).2 _ rfl).2 _ rfl).2 _ rfl).2 _ rfl).2 _ rfl).2 _ rfl
  have hexecuted := hlast (.inr 0) [0] rfl 0 (List.mem_singleton_self 0)
  exact absurd hexecuted (by decide)

end Libromano.Threadpool
