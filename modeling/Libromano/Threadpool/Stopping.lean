/- After the store to `stop`, a worker announces one more item at most, and the release comes to
   its end as soon as the tasks call the pool no more. -/

import Libromano.Foundation.Ranks
import Libromano.Threadpool.Release

set_option autoImplicit false
set_option relaxedAutoImplicit false

namespace Libromano.Threadpool

open Foundation Foundation.Ranks Finset

variable {count others : ℕ}

/-- Whether it is the announcement of an item by this worker, as a number. -/
def Op.announces (w : Fin count) : Op count others → ℕ
  | .pool (.announce w') => if w' = w then 1 else 0
  | _ => 0

def Op.worker : Op count others → Option (Fin count)
  | .pool event => event.actor.getLeft?
  | .readStop w => some w
  | .release _ | .join | .drain _ => none

def Pool.position (p : Pool count others) (w : Fin count) : Turn × WorkerPhase :=
  (p.turns w, p.state.workers w)

/-- The steps of a worker once `stop` has been set, and how many of them announce an item. -/
inductive Advance (count : ℕ) : ℕ → Turn × WorkerPhase → Turn × WorkerPhase → Prop
  | quit (phase) : Advance count 0 (.head, phase) (.left, phase)
  | next {i} (hi : i + 1 < count) : Advance count 0 (.past, .looking i) (.past, .looking (i + 1))
  | pass (i) : Advance count 0 (.past, .looking i) (.head, .looking 0)
  | take (i x) : Advance count 0 (.past, .looking i) (.past, .holding x)
  | announce (x) : Advance count 1 (.past, .holding x) (.past, .executing x)
  | finish (x) : Advance count 0 (.past, .executing x) (.past, .executed x)
  | retire (x) : Advance count 0 (.past, .executed x) (.past, .freeing x)
  | free (x) : Advance count 0 (.past, .freeing x) (.head, .looking 0)

variable {p p' : Pool count others} {op : Op count others} {ops : List (Op count others)}
  {event : Event count others} {w : Fin count} {x n : ℕ} {a b : Turn × WorkerPhase}

private theorem State.setWorker_self (s : State count others) (phase : WorkerPhase) :
    (s.setWorker w phase).workers w = phase := Function.update_self ..

private theorem Moves.advance {s s' : State count others} (h : Moves s event s')
    (hactor : event.actor = .inl w) :
    Advance count ((Op.pool event).announces w) (.past, s.workers w)
      (if s'.workers w = .looking 0 then .head else .past, s'.workers w) := by
  cases h with
  | miss hworker =>
    obtain rfl := Sum.inl.inj hactor
    rename_i i _
    rw [hworker, State.setWorker_self]
    by_cases hi : i + 1 < count
    · rw [if_pos hi, if_neg (by simp)]
      exact .next hi
    · rw [if_neg hi, if_pos rfl]
      exact .pass i
  | take hworker hx =>
    obtain rfl := Sum.inl.inj hactor
    rw [hworker, State.setWorker_self, if_neg nofun]
    exact .take _ _
  | announce hworker =>
    obtain rfl := Sum.inl.inj hactor
    rw [hworker, State.setWorker_self, if_neg nofun, Op.announces, if_pos rfl]
    exact .announce _
  | finish hworker hcall =>
    obtain rfl := Sum.inl.inj hactor
    rw [hworker, State.setWorker_self, if_neg nofun]
    exact .finish _
  | retire hworker =>
    obtain rfl := Sum.inl.inj hactor
    rw [hworker, State.setWorker_self, if_neg nofun]
    exact .retire _
  | free hworker =>
    obtain rfl := Sum.inl.inj hactor
    rw [hworker, State.setWorker_self, if_pos rfl]
    exact .free _
  | _ => cases hactor

private theorem Pool.stopped_step (hstop : p.release ≠ .running) (hstep : p.step op = .ok p') :
    p'.release ≠ .running := by
  cases moves_of_step hstep with
  | pool | go | quit | drop => exact hstop
  | release | join | joined | destroy | drained => exact nofun

private theorem Pool.advance (hstop : p.release ≠ .running) (hstep : p.step op = .ok p')
    (hworker : op.worker = some w) : Advance count (op.announces w) (p.position w) (p'.position w) := by
  cases moves_of_step hstep with
  | pool hallowed hstate =>
    rename_i event state
    have hactor := Sum.getLeft?_eq_some_iff.mp hworker
    have hadvance := (Threadpool.moves_of_step hstate).advance hactor
    rw [hactor] at hallowed
    have hpast : p.turns w = .past := of_decide_eq_true hallowed
    have hturn : turnsAfter state p.turns event.actor w =
        if state.workers w = .looking 0 then .head else .past := by
      rw [hactor]
      exact Function.update_self ..
    change Advance count _ (p.turns w, _) (turnsAfter state p.turns event.actor w, state.workers w)
    rw [hpast, hturn]
    exact hadvance
  | go hturn hrunning => exact absurd hrunning hstop
  | quit hturn hrelease =>
    cases hworker
    change Advance count 0 (p.turns w, _) (Function.update p.turns w .left w, p.state.workers w)
    rw [hturn, Function.update_self]
    exact .quit _
  | release | join | joined | drop | destroy | drained => cases hworker

private theorem Pool.position_of_ne (hstep : p.step op = .ok p') (hworker : op.worker ≠ some w) :
    p'.position w = p.position w ∧ op.announces w = 0 := by
  cases moves_of_step hstep with
  | pool hallowed hstate =>
    rename_i event state
    have hactor : event.actor ≠ .inl w := fun h => hworker (Sum.getLeft?_eq_some_iff.mpr h)
    refine ⟨Prod.ext ?_ ((Threadpool.moves_of_step hstate).frame.1 w hactor), ?_⟩
    · cases hother : event.actor with
      | inl v =>
        rw [hother] at hactor
        exact Function.update_of_ne (fun heq => hactor (congrArg _ heq.symm)) _ _
      | inr t => rfl
    · cases event with
      | announce v => exact if_neg fun heq => hactor (congrArg _ heq)
      | _ => rfl
  | go hturn hrunning | quit hturn hrelease =>
    rename_i v
    have hne : w ≠ v := fun heq => hworker (congrArg _ heq.symm)
    exact ⟨Prod.ext (Function.update_of_ne hne _ _) rfl, rfl⟩
  | release | join | joined | drop | destroy | drained => exact ⟨rfl, rfl⟩

def budget : Turn × WorkerPhase → ℕ
  | (.past, .looking _) | (.past, .holding _) => 1
  | _ => 0

private theorem Advance.budget_le (h : Advance count n a b) : n + budget b ≤ budget a := by
  cases h <;> simp [budget]

private theorem budget_le_one (a : Turn × WorkerPhase) : budget a ≤ 1 := by
  unfold budget
  split <;> simp

private theorem Pool.announces_le (hstop : p.release ≠ .running) (hstep : p.step op = .ok p')
    (w : Fin count) :
    op.announces w + budget (p'.position w) ≤ budget (p.position w) := by
  by_cases hworker : op.worker = some w
  · exact (advance hstop hstep hworker).budget_le
  · obtain ⟨hposition, hannounces⟩ := position_of_ne hstep hworker
    rw [hposition, hannounces, Nat.zero_add]

/-- After the store to `stop`, each worker begins to execute one more item at most. -/
theorem Pool.announces_le_one (hstop : p.release ≠ .running)
    (hrun : ops.foldlM Pool.step p = .ok p')
    (w : Fin count) : (ops.map (Op.announces w)).sum ≤ 1 := by
  have hspent := spent_add_rank_le (fun p : Pool count others => budget (p.position w))
    (Op.announces w) (fun _ => 0)
    (fun p op p' hstop hstep => ⟨stopped_step hstop hstep, announces_le hstop hstep w⟩) hstop hrun
  rw [List.map_const', List.sum_replicate_nat, Nat.mul_zero] at hspent
  exact (Nat.le_of_add_right_le hspent).trans (budget_le_one _)

/-- The worker has taken its item before. -/
theorem Pool.announces_le_one_holding :
    (([.pool (.announce 0)] : List (Op 1 1)).map (Op.announces 0)).sum ≤ 1 :=
  Pool.announces_le_one (p := ⟨{ Threadpool.start with workers := fun _ => .holding 0 },
    fun _ => .past, .joining 0, fun _ => false⟩) nofun rfl 0

def rank (count : ℕ) : Turn × WorkerPhase → ℕ
  | (.left, _) => 0
  | (.head, _) => 1
  | (.past, .freeing _) => 2
  | (.past, .executed _) => 3
  | (.past, .executing _) => 4
  | (.past, .holding _) => 5
  | (.past, .looking i) => 6 + (count - i)

private theorem Advance.rank_lt (h : Advance count n a b) : rank count b < rank count a := by
  cases h <;> simp only [rank] <;> omega

def Releasing.rank (count : ℕ) : Releasing → ℕ
  | .running => 0
  | .joining i => (count - i) + 1 + (count + 1)
  | .draining i => (count - i) + 1
  | .released => 0

/-- The items in the queues. -/
def State.queued (s : State count others) : ℕ := ∑ q, (s.queues q).card

def Pool.rank (p : Pool count others) : ℕ :=
  ∑ w, Threadpool.rank count (p.position w) + p.state.queued + p.release.rank count

/-- Whether it is a step of a worker or of the release, as a number. -/
def Op.proceeds : Op count others → ℕ
  | .pool event => if event.actor.isLeft then 1 else 0
  | _ => 1

/-- Whether it adds an item to a queue, as a number. -/
def Op.adds : Op count others → ℕ
  | .pool (.enqueue _ true) => 1
  | _ => 0

private theorem queued_setQueue {s : State count others} (q : Fin count) (queue : Multiset ℕ) :
    (s.setQueue q queue).queued + (s.queues q).card = s.queued + queue.card :=
  sum_update_balance Multiset.card s.queues (mem_univ q) queue

private theorem Moves.queued_le {s s' : State count others} (h : Moves s event s') :
    s'.queued ≤ s.queued + (Op.pool event).adds := by
  cases h with
  | enqueue hcall =>
    rename_i t x q
    have hbalance := queued_setQueue (s := s) q (x ::ₘ s.queues q)
    rw [Multiset.card_cons] at hbalance
    change (s.setQueue q (x ::ₘ s.queues q)).queued ≤ s.queued + 1
    omega
  | take hworker hx =>
    rename_i w i x
    have hbalance := queued_setQueue (s := s) (victim w i) ((s.queues (victim w i)).erase x)
    have hle := Multiset.card_erase_le (a := x) (s := s.queues (victim w i))
    change (s.setQueue (victim w i) ((s.queues (victim w i)).erase x)).queued ≤ s.queued + 0
    omega
  | _ => exact Nat.le_refl _

private theorem Pool.sum_rank_lt (hstop : p.release ≠ .running) (hstep : p.step op = .ok p')
    (hworker : op.worker = some w) : 1 + ∑ v, Threadpool.rank count (p'.position v) ≤
      ∑ v, Threadpool.rank count (p.position v) := by
  have hlt := (advance hstop hstep hworker).rank_lt
  have hbalance := sum_balance_of_eq (f := fun v => Threadpool.rank count (p.position v))
    (g := fun v => Threadpool.rank count (p'.position v)) (mem_univ w) fun v hv =>
      congrArg _ (position_of_ne hstep fun h => hv (Option.some.inj (h.symm.trans hworker))).1
  omega

private theorem Pool.sum_rank_eq (hstep : p.step op = .ok p') (hworker : op.worker = none) :
    ∑ v, Threadpool.rank count (p'.position v) = ∑ v, Threadpool.rank count (p.position v) :=
  sum_congr rfl fun v _ => congrArg _ (position_of_ne hstep (by rw [hworker]; exact nofun)).1

private theorem Event.actor_cases (event : Event count others) :
    (∃ w, event.actor = .inl w) ∨ ∃ t, event.actor = .inr t := by
  cases event.actor with
  | inl w => exact .inl ⟨w, rfl⟩
  | inr t => exact .inr ⟨t, rfl⟩

private theorem Pool.rank_le (hstop : p.release ≠ .running) (hstep : p.step op = .ok p') :
    op.proceeds + p'.rank ≤ p.rank + op.adds := by
  rw [rank, rank]
  cases moves_of_step hstep with
  | pool hallowed hstate =>
    rename_i event state
    have hqueued := (Threadpool.moves_of_step hstate).queued_le
    rcases event.actor_cases with ⟨w, hactor⟩ | ⟨t, hactor⟩
    · have hlt := sum_rank_lt hstop hstep (w := w) (Sum.getLeft?_eq_some_iff.mpr hactor)
      have hproceeds : (Op.pool event).proceeds = 1 := by rw [Op.proceeds, hactor]; rfl
      rw [hproceeds]
      dsimp only at hlt ⊢
      omega
    · have heq := sum_rank_eq hstep (by rw [Op.worker, hactor]; rfl)
      have hproceeds : (Op.pool event).proceeds = 0 := by rw [Op.proceeds, hactor]; rfl
      rw [hproceeds, heq]
      dsimp only
      omega
  | go hturn hrunning => exact absurd hrunning hstop
  | quit hturn hrelease =>
    have hlt := sum_rank_lt hstop hstep rfl
    dsimp only [Op.proceeds, Op.adds] at hlt ⊢
    omega
  | release hrunning hcalls => exact absurd hrunning hstop
  | join hjoining hi hleft =>
    rw [sum_rank_eq hstep rfl, hjoining]
    dsimp only [Op.proceeds, Op.adds, Releasing.rank]
    omega
  | joined hjoining hi =>
    rw [sum_rank_eq hstep rfl, hjoining]
    dsimp only [Op.proceeds, Op.adds, Releasing.rank]
    omega
  | drop hdraining hi hx =>
    rename_i i x
    have hbalance := queued_setQueue (s := p.state) ⟨i, hi⟩ ((p.state.queues ⟨i, hi⟩).erase x)
    have hcard := Multiset.card_erase_add_one hx
    have hdrop : (p.drop ⟨i, hi⟩ x).state.queued =
      (p.state.setQueue ⟨i, hi⟩ ((p.state.queues ⟨i, hi⟩).erase x)).queued := rfl
    rw [sum_rank_eq hstep rfl, hdrop]
    dsimp only [Op.proceeds, Op.adds, drop]
    omega
  | destroy hdraining hi hqueue =>
    rw [sum_rank_eq hstep rfl, hdraining]
    dsimp only [Op.proceeds, Op.adds, Releasing.rank]
    omega
  | drained hdraining hi =>
    rw [sum_rank_eq hstep rfl, hdraining]
    dsimp only [Op.proceeds, Op.adds, Releasing.rank]
    omega

private theorem rank_le (count : ℕ) (a : Turn × WorkerPhase) : rank count a ≤ count + 6 := by
  unfold rank
  split <;> omega

private theorem Pool.rank_le_of_stopped (hstop : p.release ≠ .running) :
    p.rank ≤ count * (count + 6) + p.state.queued + 2 * (count + 1) := by
  have hworkers : ∑ w, Threadpool.rank count (p.position w) ≤ count * (count + 6) :=
    (sum_le_card_nsmul _ _ _ fun w _ => Threadpool.rank_le count (p.position w)).trans_eq
      (by rw [card_fin]; rfl)
  have hrelease : p.release.rank count ≤ 2 * (count + 1) := by
    cases hphase : p.release with
    | running => exact absurd hphase hstop
    | joining i | draining i | released => simp only [Releasing.rank]; omega
  rw [rank]
  omega

private theorem Pool.step_of_moves (h : p.Moves op p') : p.step op = .ok p' := by
  cases h with
  | pool hallowed hstate =>
    simp only [step]
    rw [if_pos hallowed, hstate]
  | go hturn hrunning =>
    simp only [step]
    rw [if_pos hturn, if_pos hrunning]
  | quit hturn hrelease =>
    simp only [step]
    rw [if_pos hturn, if_neg hrelease]
  | release hrunning hcalls => exact if_pos ⟨hrunning, hcalls⟩
  | join hjoining hi hleft =>
    simp only [step, hjoining]
    rw [dif_pos hi, if_pos hleft]
  | joined hjoining hi =>
    simp only [step, hjoining]
    rw [dif_neg (Nat.not_lt_of_le hi)]
  | drop hdraining hi hx =>
    simp only [step, hdraining]
    rw [dif_pos hi, if_pos hx]
  | destroy hdraining hi hqueue =>
    simp only [step, hdraining]
    rw [dif_pos hi, if_pos hqueue]
  | drained hdraining hi =>
    simp only [step, hdraining]
    rw [dif_neg (Nat.not_lt_of_le hi)]

private theorem worker_proceeds {s : State count others} (w : Fin count)
    (hidle : s.calls (.inl w) = .idle) :
    ∃ event s', event.actor = .inl w ∧ step s event = .ok s' := by
  cases hworker : s.workers w with
  | looking i =>
    rcases Multiset.empty_or_exists_mem (s.queues (victim w i)) with hqueue | ⟨x, hx⟩
    · refine ⟨.dequeue w none, s.setWorker w (.looking (if i + 1 < count then i + 1 else 0)), rfl, ?_⟩
      simp only [step, hworker]
      exact if_pos hqueue
    · refine ⟨.dequeue w (some x), (s.setQueue (victim w i)
        ((s.queues (victim w i)).erase x)).setWorker w (.holding x), rfl, ?_⟩
      simp only [step, hworker]
      exact if_pos hx
  | holding x =>
    refine ⟨.announce w, { s with
      workingThreadsCount := s.workingThreadsCount + 1 }.setWorker w (.executing x), rfl, ?_⟩
    simp only [step, hworker]
  | executing x =>
    refine ⟨.finish w, (s.setWork x { s.works x with
      executions := (s.works x).executions + 1 }).setWorker w (.executed x), rfl, ?_⟩
    simp only [step, hworker]
    exact if_pos hidle
  | executed x =>
    refine ⟨.retire w, { s with
      workingThreadsCount := s.workingThreadsCount - 1 }.setWorker w (.freeing x), rfl, ?_⟩
    simp only [step, hworker]
  | freeing x =>
    refine ⟨.free w, ((s.setWork x { s.works x with completed := true }).addCounter
      (s.works x).waiter (-1)).setWorker w (.looking 0), rfl, ?_⟩
    simp only [step, hworker]

private theorem Pool.worker_proceeds (hstop : p.release ≠ .running)
    (hidle : p.state.calls (.inl w) = .idle)
    (hturn : p.turns w ≠ .left) : ∃ op p', op.proceeds = 1 ∧ p.step op = .ok p' := by
  cases hphase : p.turns w with
  | head => exact ⟨.readStop w, _, rfl, step_of_moves (.quit hphase hstop)⟩
  | left => exact absurd hphase hturn
  | past =>
    obtain ⟨event, state, hactor, hstate⟩ := Threadpool.worker_proceeds w hidle
    refine ⟨.pool event, _, ?_, step_of_moves (.pool ?_ hstate)⟩
    · rw [Op.proceeds, hactor]
      rfl
    · rw [hactor]
      exact decide_eq_true hphase

private theorem Pool.proceeds (hstop : p.release ≠ .running) (hreleased : p.release ≠ .released)
    (hidle : ∀ w, p.state.calls (.inl w) = .idle) : ∃ op p', op.proceeds = 1 ∧ p.step op = .ok p' := by
  cases hrelease : p.release with
  | running => exact absurd hrelease hstop
  | released => exact absurd hrelease hreleased
  | joining i =>
    rcases Nat.lt_or_ge i count with hi | hi
    · by_cases hleft : p.turns ⟨i, hi⟩ = .left
      · exact ⟨.join, _, rfl, step_of_moves (.join hrelease hi hleft)⟩
      · exact worker_proceeds hstop (hidle _) hleft
    · exact ⟨.join, _, rfl, step_of_moves (.joined hrelease hi)⟩
  | draining i =>
    rcases Nat.lt_or_ge i count with hi | hi
    · rcases Multiset.empty_or_exists_mem (p.state.queues ⟨i, hi⟩) with hqueue | ⟨x, hx⟩
      · exact ⟨.drain none, _, rfl, step_of_moves (.destroy hrelease hi hqueue)⟩
      · exact ⟨.drain (some x), _, rfl, step_of_moves (.drop hrelease hi hx)⟩
    · exact ⟨.drain none, _, rfl, step_of_moves (.drained hrelease hi)⟩

/-- Once `stop` has been set, the steps of the workers and of the release are bounded, but for the
items that tasks still add; and they do not end before the pool has been released, as long as no
task is in a call. -/
theorem Pool.release_ends (hstop : p.release ≠ .running) (hrun : ops.foldlM Pool.step p = .ok p') :
    (ops.map Op.proceeds).sum ≤
      count * (count + 6) + p.state.queued + 2 * (count + 1) + (ops.map Op.adds).sum ∧
    (p'.release ≠ .released → (∀ w, p'.state.calls (.inl w) = .idle) →
      ∃ op p'', op.proceeds = 1 ∧ p'.step op = .ok p'') := by
  have hspent := spent_add_rank_le Pool.rank Op.proceeds Op.adds
    (fun _ _ _ hstop hstep => ⟨stopped_step hstop hstep, rank_le hstop hstep⟩) hstop hrun
  have hrank := rank_le_of_stopped hstop
  have hstop' := invariant_of_run (I := fun p : Pool count others => p.release ≠ .running)
    (fun _ _ _ hstop hstep => stopped_step hstop hstep) hstop hrun
  exact ⟨by omega, fun hreleased hidle => proceeds hstop' hreleased hidle⟩

/-- The worker has left and been joined. -/
theorem Pool.release_ends_joined : ∃ op p', op.proceeds = 1 ∧
    Pool.step ⟨Threadpool.start, Function.update (fun _ => .head) 0 .left, .joining 1,
      fun _ => false⟩ op = .ok (p' : Pool 1 1) :=
  (Pool.release_ends (p := ⟨Threadpool.start, fun _ => .head, .joining 0, fun _ => false⟩) nofun
    (show [.readStop 0, .join].foldlM Pool.step _ = .ok _ from rfl)).2 nofun fun _ => rfl

end Libromano.Threadpool
