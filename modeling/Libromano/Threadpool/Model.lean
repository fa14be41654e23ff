/- The thread pool of `thread.c`, between its start and its release. A step is one atomic
   operation, one operation of a queue, or the beginning or the end of a task; a queue is a
   multiset, from which a worker takes any item, and whose size is read exactly. -/

import Libromano.Fault
import Libromano.Foundation.Objects
import Mathlib.Data.Fintype.Sum
import Mathlib.Data.Multiset.AddSub
import Mathlib.Logic.Function.Basic

set_option autoImplicit false
set_option relaxedAutoImplicit false

namespace Libromano.Threadpool

/-- What has become of a work item: to which waiter it belongs, whether it has been accepted,
how often it has been executed, and whether it has been freed, after its execution or since it
could not be queued. -/
structure Work where
  waiter : Option ℕ
  accepted : Bool
  executions : ℕ
  completed : Bool
  rejected : Bool
  deriving DecidableEq

inductive WorkerPhase
  /-- before it tries the queue that comes so many places after its own -/
  | looking (i : ℕ)
  /-- in `work_execute`, before it adds to the count -/
  | holding (work : ℕ)
  | executing (work : ℕ)
  /-- before it subtracts from the count -/
  | executed (work : ℕ)
  /-- in `work_free` -/
  | freeing (work : ℕ)
  deriving DecidableEq

/-- Where a thread is in a call of the pool. A call of `threadpool_wait` comes with the items that
were accepted before it, and one of `threadpool_waiter_wait` with those of its waiter. -/
inductive CallPhase (count : ℕ)
  | idle
  | created (work : ℕ)
  | placed (work : ℕ) (queue : Fin count)
  /-- The queue did not take the item. -/
  | refused (work : ℕ)
  | waiting (before : List ℕ)
  /-- The count was zero, and so many queues were empty. -/
  | scanning (before : List ℕ) (i : ℕ)
  | waited (before : List ℕ)
  | awaiting (v : ℕ) (before : List ℕ)
  | awaited (v : ℕ) (before : List ℕ)
  deriving DecidableEq

/-- The workers, whose tasks may call the pool, and the other threads. -/
abbrev Thread (count others : ℕ) := Fin count ⊕ Fin others

structure State (count others : ℕ) where
  works : ℕ → Work
  worksCount : ℕ
  queues : Fin count → Multiset ℕ
  workers : Fin count → WorkerPhase
  calls : Thread count others → CallPhase count
  /-- the waiters -/
  counters : ℕ → Int32
  workingThreadsCount : UInt32
  submitRr : UInt32

inductive Event (count others : ℕ)
  /-- `work_new` -/
  | create (t : Thread count others) (waiter : Option ℕ)
  | place (t : Thread count others)
  | enqueue (t : Thread count others) (stored : Bool)
  /-- `work_free` of an item that was refused -/
  | discard (t : Thread count others)
  /-- `moodycamel_cq_try_dequeue` -/
  | dequeue (w : Fin count) (work : Option ℕ)
  | announce (w : Fin count)
  | finish (w : Fin count)
  | retire (w : Fin count)
  /-- `work_free` of an item that was executed -/
  | free (w : Fin count)
  /-- `threadpool_wait`, up to its return -/
  | wait (t : Thread count others)
  | readCount (t : Thread count others)
  | readSize (t : Thread count others)
  /-- `threadpool_waiter_wait`, up to its return -/
  | await (t : Thread count others) (v : ℕ)
  | readCounter (t : Thread count others)
  | leave (t : Thread count others)

variable {count others : ℕ}

def State.calls? (s : State count others) (t : Thread count others) : Bool :=
  match t with
  | .inl w =>
    match s.workers w with
    | .executing _ => s.calls t = .idle
    | _ => false
  | .inr _ => s.calls t = .idle

def State.setCall (s : State count others) (t : Thread count others) (phase : CallPhase count) :
    State count others := { s with calls := Function.update s.calls t phase }

def State.setWorker (s : State count others) (w : Fin count) (phase : WorkerPhase) :
    State count others := { s with workers := Function.update s.workers w phase }

def State.setWork (s : State count others) (x : ℕ) (work : Work) : State count others :=
  { s with works := Function.update s.works x work }

def State.setQueue (s : State count others) (q : Fin count) (queue : Multiset ℕ) :
    State count others := { s with queues := Function.update s.queues q queue }

/-- An atomic addition to the counter of a waiter, if there is one. -/
def State.addCounter (s : State count others) (waiter : Option ℕ) (n : Int32) :
    State count others :=
  { s with counters := fun v => if waiter = some v then s.counters v + n else s.counters v }

def victim (w : Fin count) (i : ℕ) : Fin count := ⟨(w + i) % 2 ^ 32 % count, Nat.mod_lt _ w.pos⟩

def State.accepted (s : State count others) : List ℕ :=
  (List.range s.worksCount).filter fun x => (s.works x).accepted

/-- A step that a thread cannot take is an error. -/
def step (s : State count others) : Event count others → Except Unit (State count others)
  | .create t waiter =>
    if s.calls? t then
      .ok (((({ s with worksCount := s.worksCount + 1 }).setWork s.worksCount
        ⟨waiter, false, 0, false, false⟩).addCounter waiter 1).setCall t (.created s.worksCount))
    else .error ()
  | .place t =>
    match s.calls t, t with
    | .created x, .inl w => .ok (s.setCall t (.placed x w))
    | .created x, .inr _ =>
      if h : 0 < count then
        -- `atomic_fetch_add_32` returns the sum, not the value before it
        .ok ({ s with submitRr := s.submitRr + 1 }.setCall t
          (.placed x ⟨(s.submitRr + 1).toNat % count, Nat.mod_lt _ h⟩))
      else .error ()
    | _, _ => .error ()
  | .enqueue t stored =>
    match s.calls t with
    | .placed x q =>
      if stored then
        .ok (((s.setQueue q (x ::ₘ s.queues q)).setWork x { s.works x with accepted := true }).setCall t
          .idle)
      else .ok (s.setCall t (.refused x))
    | _ => .error ()
  | .discard t =>
    match s.calls t with
    | .refused x =>
      .ok (((s.setWork x { s.works x with rejected := true }).addCounter (s.works x).waiter
        (-1)).setCall t .idle)
    | _ => .error ()
  | .dequeue w work =>
    match s.workers w, work with
    | .looking i, none =>
      if s.queues (victim w i) = 0 then
        .ok (s.setWorker w (.looking (if i + 1 < count then i + 1 else 0)))
      else .error ()
    | .looking i, some x =>
      if x ∈ s.queues (victim w i) then
        .ok ((s.setQueue (victim w i) ((s.queues (victim w i)).erase x)).setWorker w (.holding x))
      else .error ()
    | _, _ => .error ()
  | .announce w =>
    match s.workers w with
    | .holding x =>
      .ok ({ s with workingThreadsCount := s.workingThreadsCount + 1 }.setWorker w (.executing x))
    | _ => .error ()
  | .finish w =>
    match s.workers w with
    | .executing x =>
      if s.calls (.inl w) = .idle then
        .ok ((s.setWork x { s.works x with executions := (s.works x).executions + 1 }).setWorker w
          (.executed x))
      else .error ()
    | _ => .error ()
  | .retire w =>
    match s.workers w with
    | .executed x =>
      .ok ({ s with workingThreadsCount := s.workingThreadsCount - 1 }.setWorker w (.freeing x))
    | _ => .error ()
  | .free w =>
    match s.workers w with
    | .freeing x =>
      .ok (((s.setWork x { s.works x with completed := true }).addCounter (s.works x).waiter
        (-1)).setWorker w (.looking 0))
    | _ => .error ()
  | .wait t => if s.calls? t then .ok (s.setCall t (.waiting s.accepted)) else .error ()
  | .readCount t =>
    match s.calls t with
    | .waiting before =>
      .ok (if s.workingThreadsCount = 0 then s.setCall t (.scanning before 0) else s)
    | _ => .error ()
  | .readSize t =>
    match s.calls t with
    | .scanning before i =>
      if h : i < count then
        if s.queues ⟨i, h⟩ = 0 then
          if i + 1 < count then .ok (s.setCall t (.scanning before (i + 1)))
          else .ok (s.setCall t (.waited before))
        else .ok (s.setCall t (.waiting before))
      else .ok (s.setCall t (.waited before))
    | _ => .error ()
  | .await t v =>
    if s.calls? t then
      .ok (s.setCall t (.awaiting v (s.accepted.filter fun x => (s.works x).waiter = some v)))
    else .error ()
  | .readCounter t =>
    match s.calls t with
    | .awaiting v before => .ok (if s.counters v = 0 then s.setCall t (.awaited v before) else s)
    | _ => .error ()
  | .leave t =>
    match s.calls t with
    | .waited _ | .awaited .. => .ok (s.setCall t .idle)
    | _ => .error ()

/-- The pool after `threadpool_init`, with no waiter in use. -/
def start : State count others :=
  ⟨fun _ => ⟨none, false, 0, false, false⟩, 0, fun _ => 0, fun _ => .looking 0, fun _ => .idle,
    fun _ => 0, 0, 0⟩

inductive Moves (s : State count others) : Event count others → State count others → Prop
  | create {t waiter} (hcall : s.calls? t) :
    Moves s (.create t waiter) (((({ s with worksCount := s.worksCount + 1 }).setWork s.worksCount
      ⟨waiter, false, 0, false, false⟩).addCounter waiter 1).setCall t (.created s.worksCount))
  | place {t x} (hcall : s.calls t = .created x) (q : Fin count) (submitRr : UInt32) :
    Moves s (.place t) ({ s with submitRr := submitRr }.setCall t (.placed x q))
  | enqueue {t x q} (hcall : s.calls t = .placed x q) :
    Moves s (.enqueue t true) (((s.setQueue q (x ::ₘ s.queues q)).setWork x
      { s.works x with accepted := true }).setCall t .idle)
  | refuse {t x q} (hcall : s.calls t = .placed x q) :
    Moves s (.enqueue t false) (s.setCall t (.refused x))
  | discard {t x} (hcall : s.calls t = .refused x) :
    Moves s (.discard t) (((s.setWork x { s.works x with rejected := true }).addCounter
      (s.works x).waiter (-1)).setCall t .idle)
  | miss {w i} (hworker : s.workers w = .looking i) (hqueue : s.queues (victim w i) = 0) :
    Moves s (.dequeue w none) (s.setWorker w (.looking (if i + 1 < count then i + 1 else 0)))
  | take {w i x} (hworker : s.workers w = .looking i) (hx : x ∈ s.queues (victim w i)) :
    Moves s (.dequeue w (some x)) ((s.setQueue (victim w i)
      ((s.queues (victim w i)).erase x)).setWorker w (.holding x))
  | announce {w x} (hworker : s.workers w = .holding x) :
    Moves s (.announce w)
      ({ s with workingThreadsCount := s.workingThreadsCount + 1 }.setWorker w (.executing x))
  | finish {w x} (hworker : s.workers w = .executing x) (hcall : s.calls (.inl w) = .idle) :
    Moves s (.finish w) ((s.setWork x { s.works x with
      executions := (s.works x).executions + 1 }).setWorker w (.executed x))
  | retire {w x} (hworker : s.workers w = .executed x) :
    Moves s (.retire w)
      ({ s with workingThreadsCount := s.workingThreadsCount - 1 }.setWorker w (.freeing x))
  | free {w x} (hworker : s.workers w = .freeing x) :
    Moves s (.free w) (((s.setWork x { s.works x with completed := true }).addCounter
      (s.works x).waiter (-1)).setWorker w (.looking 0))
  | wait {t} (hcall : s.calls? t) : Moves s (.wait t) (s.setCall t (.waiting s.accepted))
  | none {t before} (hcall : s.calls t = .waiting before) (hcount : s.workingThreadsCount = 0) :
    Moves s (.readCount t) (s.setCall t (.scanning before 0))
  | some {t before} (hcall : s.calls t = .waiting before) (hcount : s.workingThreadsCount ≠ 0) :
    Moves s (.readCount t) s
  | next {t before i} (hcall : s.calls t = .scanning before i) (hi : i + 1 < count)
    (hqueue : s.queues ⟨i, Nat.lt_of_succ_lt hi⟩ = 0) :
    Moves s (.readSize t) (s.setCall t (.scanning before (i + 1)))
  | pass {t before i} (hcall : s.calls t = .scanning before i) (hi : count ≤ i + 1)
    (hqueue : ∀ h : i < count, s.queues ⟨i, h⟩ = 0) :
    Moves s (.readSize t) (s.setCall t (.waited before))
  | again {t before i} (hcall : s.calls t = .scanning before i) (hi : i < count)
    (hqueue : s.queues ⟨i, hi⟩ ≠ 0) :
    Moves s (.readSize t) (s.setCall t (.waiting before))
  | await {t v} (hcall : s.calls? t) :
    Moves s (.await t v)
      (s.setCall t (.awaiting v (s.accepted.filter fun x => (s.works x).waiter = .some v)))
  | zero {t v before} (hcall : s.calls t = .awaiting v before) (hcounter : s.counters v = 0) :
    Moves s (.readCounter t) (s.setCall t (.awaited v before))
  | positive {t v before} (hcall : s.calls t = .awaiting v before) (hcounter : s.counters v ≠ 0) :
    Moves s (.readCounter t) s
  | leave {t} (hcall : ∃ before, s.calls t = .waited before ∨ ∃ v, s.calls t = .awaited v before) :
    Moves s (.leave t) (s.setCall t .idle)

theorem moves_of_step {s s' : State count others} {event : Event count others}
    (hstep : step s event = .ok s') : Moves s event s' := by
  unfold step at hstep
  cases event with
  | create t waiter =>
    dsimp only at hstep
    split at hstep
    next hcall => cases hstep; exact .create hcall
    next => cases hstep
  | place t =>
    dsimp only at hstep
    split at hstep
    next x w hcall => cases hstep; exact .place hcall w s.submitRr
    next x _ hcall =>
      split at hstep
      next hcount => cases hstep; exact .place hcall _ _
      next => cases hstep
    next => cases hstep
  | enqueue t stored =>
    dsimp only at hstep
    split at hstep
    next x q hcall =>
      cases stored with
      | true => cases hstep; exact .enqueue hcall
      | false => cases hstep; exact .refuse hcall
    next => cases hstep
  | discard t =>
    dsimp only at hstep
    split at hstep
    next x hcall => cases hstep; exact .discard hcall
    next => cases hstep
  | dequeue w work =>
    dsimp only at hstep
    split at hstep
    next i hworker =>
      split at hstep
      next hqueue => cases hstep; exact .miss hworker hqueue
      next => cases hstep
    next i x hworker =>
      split at hstep
      next hx => cases hstep; exact .take hworker hx
      next => cases hstep
    next => cases hstep
  | announce w =>
    dsimp only at hstep
    split at hstep
    next x hworker => cases hstep; exact .announce hworker
    next => cases hstep
  | finish w =>
    dsimp only at hstep
    split at hstep
    next x hworker =>
      split at hstep
      next hcall => cases hstep; exact .finish hworker hcall
      next => cases hstep
    next => cases hstep
  | retire w =>
    dsimp only at hstep
    split at hstep
    next x hworker => cases hstep; exact .retire hworker
    next => cases hstep
  | free w =>
    dsimp only at hstep
    split at hstep
    next x hworker => cases hstep; exact .free hworker
    next => cases hstep
  | wait t =>
    dsimp only at hstep
    split at hstep
    next hcall => cases hstep; exact .wait hcall
    next => cases hstep
  | readCount t =>
    dsimp only at hstep
    split at hstep
    next before hcall =>
      split at hstep
      next hcount => cases hstep; exact .none hcall hcount
      next hcount => cases hstep; exact .some hcall hcount
    next => cases hstep
  | readSize t =>
    dsimp only at hstep
    split at hstep
    next before i hcall =>
      split at hstep
      next hi =>
        split at hstep
        next hqueue =>
          split at hstep
          next hnext => cases hstep; exact .next hcall hnext hqueue
          next hlast => cases hstep; exact .pass hcall (Nat.le_of_not_lt hlast) fun _ => hqueue
        next hqueue => cases hstep; exact .again hcall hi hqueue
      next hi =>
        cases hstep
        exact .pass hcall (Nat.le_succ_of_le (Nat.le_of_not_lt hi)) fun h => absurd h hi
    next => cases hstep
  | await t v =>
    dsimp only at hstep
    split at hstep
    next hcall => cases hstep; exact .await hcall
    next => cases hstep
  | readCounter t =>
    dsimp only at hstep
    split at hstep
    next v before hcall =>
      split at hstep
      next hcounter => cases hstep; exact .zero hcall hcounter
      next hcounter => cases hstep; exact .positive hcall hcounter
    next => cases hstep
  | leave t =>
    dsimp only at hstep
    split at hstep
    next before hcall => cases hstep; exact .leave ⟨before, .inl hcall⟩
    next v before hcall => cases hstep; exact .leave ⟨before, .inr ⟨v, hcall⟩⟩
    next => cases hstep

theorem State.idle_of_calls {s : State count others} {t : Thread count others}
    (h : s.calls? t) : s.calls t = .idle := by
  unfold calls? at h
  split at h
  next w =>
    split at h
    next => exact of_decide_eq_true h
    next => cases h
  next => exact of_decide_eq_true h

end Libromano.Threadpool
