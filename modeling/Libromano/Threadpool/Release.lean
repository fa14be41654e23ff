/- `threadpool_release`: the owner sets `stop`, joins the workers, and then frees the items that
   are left in the queues. -/

import Libromano.Threadpool.Waiting

set_option autoImplicit false
set_option relaxedAutoImplicit false

namespace Libromano.Threadpool

open Foundation Foundation.Objects Finset

variable {count others : ℕ}

/-- Where a worker is with regard to `stop`. -/
inductive Turn
  /-- before it reads it -/
  | head
  | past
  /-- out of its loop -/
  | left
  deriving DecidableEq

/-- How far the release has come. -/
inductive Releasing
  | running
  /-- So many workers have been joined. -/
  | joining (i : ℕ)
  /-- So many queues have been destroyed. -/
  | draining (i : ℕ)
  | released
  deriving DecidableEq

/-- The pool, and which of its items the release has freed. -/
structure Pool (count others : ℕ) where
  state : State count others
  turns : Fin count → Turn
  release : Releasing
  dropped : ℕ → Bool

inductive Op (count others : ℕ)
  /-- a step of a worker between two reads of `stop`, or one of a call -/
  | pool (event : Event count others)
  | readStop (w : Fin count)
  /-- `threadpool_release`, up to the store to `stop` -/
  | release (t : Fin others)
  /-- `thread_join` -/
  | join
  /-- `moodycamel_cq_try_dequeue` and `work_free`, or the end of the loop over a queue -/
  | drain (work : Option ℕ)

def Event.actor : Event count others → Fin count ⊕ Thread count others
  | .dequeue w _ | .announce w | .finish w | .retire w | .free w => .inl w
  | .create t _ | .place t | .enqueue t _ | .discard t | .wait t | .readCount t | .readSize t
  | .await t _ | .readCounter t | .leave t => .inr t

/-- A worker takes its steps after it has read `stop`. Once the pool is being released, only the
tasks still call it. -/
def Pool.allows (p : Pool count others) : Fin count ⊕ Thread count others → Bool
  | .inl w => p.turns w = .past
  | .inr (.inl _) => true
  | .inr (.inr _) => p.release = .running

/-- The worker is back at the head of its loop after its pass over the queues, and after an item. -/
def turnsAfter (state : State count others) (turns : Fin count → Turn) :
    Fin count ⊕ Thread count others → Fin count → Turn
  | .inl w => Function.update turns w (if state.workers w = .looking 0 then .head else .past)
  | .inr _ => turns

/-- `work_free` of an item that is taken from the queue. -/
def Pool.drop (p : Pool count others) (q : Fin count) (x : ℕ) : Pool count others :=
  { p with
    state := (p.state.setQueue q ((p.state.queues q).erase x)).addCounter
      (p.state.works x).waiter (-1)
    dropped := Function.update p.dropped x true }

/-- A step that cannot be taken is an error. -/
def Pool.step (p : Pool count others) : Op count others → Except Unit (Pool count others)
  | .pool event =>
    if p.allows event.actor then
      match Threadpool.step p.state event with
      | .ok state => .ok { p with state := state, turns := turnsAfter state p.turns event.actor }
      | .error e => .error e
    else .error ()
  | .readStop w =>
    if p.turns w = .head then
      .ok { p with turns :=
        Function.update p.turns w (if p.release = .running then .past else .left) }
    else .error ()
  | .release _ =>
    -- no other thread is in a call
    if p.release = .running ∧ ∀ u, p.state.calls (.inr u) = .idle then
      .ok { p with release := .joining 0 }
    else .error ()
  | .join =>
    match p.release with
    | .joining i =>
      if h : i < count then
        if p.turns ⟨i, h⟩ = .left then .ok { p with release := .joining (i + 1) } else .error ()
      else .ok { p with release := .draining 0 }
    | _ => .error ()
  | .drain work =>
    match p.release with
    | .draining i =>
      if h : i < count then
        match work with
        | none =>
          if p.state.queues ⟨i, h⟩ = 0 then .ok { p with release := .draining (i + 1) }
          else .error ()
        | some x => if x ∈ p.state.queues ⟨i, h⟩ then .ok (p.drop ⟨i, h⟩ x) else .error ()
      else .ok { p with release := .released }
    | _ => .error ()

/-- The pool after `threadpool_init`. -/
def Pool.start : Pool count others := ⟨Threadpool.start, fun _ => .head, .running, fun _ => false⟩

inductive Pool.Moves (p : Pool count others) : Op count others → Pool count others → Prop
  | pool {event state} (hallowed : p.allows event.actor)
    (hstep : Threadpool.step p.state event = .ok state) :
    Moves p (.pool event)
      { p with state := state, turns := turnsAfter state p.turns event.actor }
  | go {w} (hturn : p.turns w = .head) (hrunning : p.release = .running) :
    Moves p (.readStop w) { p with turns := Function.update p.turns w .past }
  | quit {w} (hturn : p.turns w = .head) (hrelease : p.release ≠ .running) :
    Moves p (.readStop w) { p with turns := Function.update p.turns w .left }
  | release {t} (hrunning : p.release = .running) (hcalls : ∀ u, p.state.calls (.inr u) = .idle) :
    Moves p (.release t) { p with release := .joining 0 }
  | join {i} (hjoining : p.release = .joining i) (hi : i < count) (hleft : p.turns ⟨i, hi⟩ = .left) :
    Moves p .join { p with release := .joining (i + 1) }
  | joined {i} (hjoining : p.release = .joining i) (hi : count ≤ i) :
    Moves p .join { p with release := .draining 0 }
  | drop {i x} (hdraining : p.release = .draining i) (hi : i < count)
    (hx : x ∈ p.state.queues ⟨i, hi⟩) : Moves p (.drain (some x)) (p.drop ⟨i, hi⟩ x)
  | destroy {i} (hdraining : p.release = .draining i) (hi : i < count)
    (hqueue : p.state.queues ⟨i, hi⟩ = 0) :
    Moves p (.drain none) { p with release := .draining (i + 1) }
  | drained {i work} (hdraining : p.release = .draining i) (hi : count ≤ i) :
    Moves p (.drain work) { p with release := .released }

variable {p p' : Pool count others} {op : Op count others} {ops : List (Op count others)}
  {event : Event count others} {w : Fin count} {x v : ℕ}

theorem Pool.moves_of_step (hstep : p.step op = .ok p') : p.Moves op p' := by
  cases op with
  | pool event =>
    simp only [step] at hstep
    split at hstep
    next hallowed =>
      split at hstep
      next state hstate => cases hstep; exact .pool hallowed hstate
      next => cases hstep
    next => cases hstep
  | readStop w =>
    simp only [step] at hstep
    split at hstep
    next hturn =>
      cases hstep
      by_cases hrunning : p.release = .running
      · rw [if_pos hrunning]
        exact .go hturn hrunning
      · rw [if_neg hrunning]
        exact .quit hturn hrunning
    next => cases hstep
  | release t =>
    simp only [step] at hstep
    split at hstep
    next hidle => cases hstep; exact .release hidle.1 hidle.2
    next => cases hstep
  | join =>
    simp only [step] at hstep
    split at hstep
    next i hjoining =>
      split at hstep
      next hi =>
        split at hstep
        next hleft => cases hstep; exact .join hjoining hi hleft
        next => cases hstep
      next hi => cases hstep; exact .joined hjoining (Nat.le_of_not_lt hi)
    next => cases hstep
  | drain work =>
    simp only [step] at hstep
    split at hstep
    next i hdraining =>
      split at hstep
      next hi =>
        split at hstep
        next =>
          split at hstep
          next hqueue => cases hstep; exact .destroy hdraining hi hqueue
          next => cases hstep
        next x =>
          split at hstep
          next hx => cases hstep; exact .drop hdraining hi hx
          next => cases hstep
      next hi => cases hstep; exact .drained hdraining (Nat.le_of_not_lt hi)
    next => cases hstep

def Releasing.joined (count : ℕ) : Releasing → ℕ
  | .running => 0
  | .joining i => i
  | .draining _ | .released => count

def Releasing.destroyed (count : ℕ) : Releasing → ℕ
  | .running | .joining _ => 0
  | .draining i => i
  | .released => count

def Releasing.drains : Releasing → Bool
  | .draining _ | .released => true
  | _ => false

/-- The owner goes from one worker to the next, and then from one queue to the next. -/
structure Pool.Ordered (p : Pool count others) : Prop where
  calls : ∀ w, p.state.calls (.inl w) ≠ .idle → ∃ x, p.state.workers w = .executing x
  others : p.release ≠ .running → ∀ u, p.state.calls (.inr u) = .idle
  workers : ∀ w, p.turns w ≠ .past → p.state.workers w = .looking 0
  joined : ∀ w : Fin count, w < p.release.joined count → p.turns w = .left
  destroyed : ∀ q : Fin count, q < p.release.destroyed count → p.state.queues q = 0

theorem Moves.frame {s s' : State count others} (h : Moves s event s') :
    (∀ w, event.actor ≠ .inl w → s'.workers w = s.workers w) ∧
    ∀ t, event.actor ≠ .inr t → s'.calls t = s.calls t := by
  cases h with
  | create | place | enqueue | refuse | discard | wait | none | next | pass | again | await | zero
    | leave =>
    exact ⟨fun _ _ => rfl, fun t ht => Function.update_of_ne (fun h => ht (congrArg _ h.symm)) _ _⟩
  | miss | take | announce | finish | retire | free =>
    exact ⟨fun w hw => Function.update_of_ne (fun h => hw (congrArg _ h.symm)) _ _, fun _ _ => rfl⟩
  | some | positive => exact ⟨fun _ _ => rfl, fun _ _ => rfl⟩

private theorem Moves.executing {s s' : State count others} (h : Moves s event s')
    (hactor : event.actor = .inr (.inl w))
    (hcalls : s.calls (.inl w) ≠ .idle → ∃ x, s.workers w = .executing x) :
    ∃ x, s.workers w = .executing x := by
  have hentered : s.calls? (.inl w) → ∃ x, s.workers w = .executing x := by
    intro hcall
    simp only [State.calls?] at hcall
    split at hcall
    next x hworker => exact ⟨x, hworker⟩
    next => cases hcall
  cases h with
  | create hcall | wait hcall | await hcall => exact hentered (Sum.inr.inj hactor ▸ hcall)
  | place hcall | enqueue hcall | refuse hcall | discard hcall | none hcall | some hcall | next hcall
    | pass hcall | again hcall | zero hcall | positive hcall =>
    obtain rfl := Sum.inr.inj hactor
    exact hcalls (by rw [hcall]; exact nofun)
  | leave hcall =>
    obtain rfl := Sum.inr.inj hactor
    obtain ⟨before, hcall | ⟨v, hcall⟩⟩ := hcall <;> exact hcalls (by rw [hcall]; exact nofun)
  | miss | take | announce | finish | retire | free => cases hactor

private theorem Moves.idle {s s' : State count others} (h : Moves s event s')
    (hactor : event.actor = .inl w)
    (hcalls : s.calls (.inl w) ≠ .idle → ∃ x, s.workers w = .executing x) :
    s'.calls (.inl w) = .idle := by
  have hnot : (∀ x, s.workers w ≠ .executing x) → s.calls (.inl w) = .idle := by
    intro hworker
    by_contra hcall
    obtain ⟨x, hx⟩ := hcalls hcall
    exact hworker x hx
  cases h with
  | miss hworker | take hworker | announce hworker | retire hworker | free hworker =>
    obtain rfl := Sum.inl.inj hactor
    exact hnot fun x hx => nomatch hworker.symm.trans hx
  | finish hworker hcall => exact Sum.inl.inj hactor ▸ hcall
  | _ => cases hactor

namespace Pool.Ordered

private theorem start : (Pool.start : Pool count others).Ordered :=
  ⟨fun _ h => absurd rfl h, fun _ _ => rfl, fun _ _ => rfl, fun _ h => absurd h (Nat.not_lt_zero _),
    fun _ _ => rfl⟩

private theorem left (h : p.Ordered) (hdrains : p.release.drains) (w : Fin count) :
    p.turns w = .left := by
  apply h.joined
  cases hrelease : p.release with
  | draining i => exact w.isLt
  | released => exact w.isLt
  | running => exact nomatch hrelease ▸ hdrains
  | joining i => exact nomatch hrelease ▸ hdrains

private theorem idle (h : p.Ordered) (hdrains : p.release.drains) (t : Thread count others) :
    p.state.calls t = .idle := by
  cases t with
  | inl w =>
    by_contra hcall
    obtain ⟨x, hworker⟩ := h.calls w hcall
    have hlooking := h.workers w (by rw [h.left hdrains w]; exact nofun)
    exact nomatch hworker.symm.trans hlooking
  | inr u =>
    refine h.others ?_ u
    intro hrunning
    rw [hrunning] at hdrains
    exact nomatch hdrains

private theorem drains_eq_false (h : p.Ordered) {state : State count others}
    (hallowed : p.allows event.actor)
    (hmoves : Threadpool.Moves p.state event state) : p.release.drains = false := by
  refine Bool.eq_false_iff.mpr fun hdrains => ?_
  cases hactor : event.actor with
  | inl w =>
    rw [hactor] at hallowed
    exact nomatch (h.left hdrains w).symm.trans (of_decide_eq_true hallowed)
  | inr t =>
    cases t with
    | inl w =>
      obtain ⟨x, hworker⟩ := hmoves.executing hactor (h.calls w)
      have hlooking := h.workers w (by rw [h.left hdrains w]; exact nofun)
      exact nomatch hworker.symm.trans hlooking
    | inr u =>
      rw [hactor] at hallowed
      rw [of_decide_eq_true hallowed] at hdrains
      exact nomatch hdrains

private theorem destroyed_eq_zero (hdrains : p.release.drains = false) :
    p.release.destroyed count = 0 := by
  cases hrelease : p.release with
  | running => rfl
  | joining i => rfl
  | draining i => exact nomatch hrelease ▸ hdrains
  | released => exact nomatch hrelease ▸ hdrains

private theorem worker (h : p.Ordered) {state : State count others} (hactor : event.actor = .inl w)
    (hallowed : p.allows (.inl w)) (hmoves : Threadpool.Moves p.state event state)
    (hdrains : p.release.drains = false) :
    ({ p with state := state, turns := turnsAfter state p.turns (.inl w) } :
      Pool count others).Ordered := by
  obtain ⟨hworkers, hcalls⟩ := hmoves.frame
  rw [hactor] at hworkers hcalls
  have hpast : p.turns w = .past := of_decide_eq_true hallowed
  have hturn : ∀ v, v ≠ w → turnsAfter state p.turns (.inl w) v = p.turns v :=
    fun v hv => Function.update_of_ne hv _ _
  have hsame : ∀ v, v ≠ w → state.workers v = p.state.workers v :=
    fun v hv => hworkers v fun heq => hv (Sum.inl.inj heq).symm
  have hcalls' : ∀ t, state.calls t = p.state.calls t := fun t => hcalls t nofun
  refine ⟨fun v hv => ?_, fun hrelease u => (hcalls' _).trans (h.others hrelease u),
    fun v hv => ?_, fun v hv => ?_, fun q hq => ?_⟩
  · rcases eq_or_ne v w with rfl | hne
    · exact absurd (hmoves.idle hactor (h.calls v)) hv
    · obtain ⟨x, hx⟩ := h.calls v fun hidle => hv ((hcalls' _).trans hidle)
      exact ⟨x, (hsame v hne).trans hx⟩
  · rcases eq_or_ne v w with rfl | hne
    · by_contra hlooking
      have hturn' : turnsAfter state p.turns (.inl v) v = .past := by
        rw [turnsAfter, Function.update_self, if_neg hlooking]
      exact hv hturn'
    · exact (hsame v hne).trans (h.workers v fun hpast => hv ((hturn v hne).trans hpast))
  · rcases eq_or_ne v w with rfl | hne
    · exact nomatch hpast.symm.trans (h.joined v hv)
    · exact (hturn v hne).trans (h.joined v hv)
  · exact absurd (destroyed_eq_zero hdrains ▸ hq) (Nat.not_lt_zero _)

private theorem call (h : p.Ordered) {t : Thread count others} {state : State count others}
    (hactor : event.actor = .inr t) (hallowed : p.allows (.inr t))
    (hmoves : Threadpool.Moves p.state event state) (hdrains : p.release.drains = false) :
    ({ p with state := state, turns := turnsAfter state p.turns (.inr t) } :
      Pool count others).Ordered := by
  obtain ⟨hworkers, hcalls⟩ := hmoves.frame
  rw [hactor] at hworkers hcalls
  have hsame : ∀ v, state.workers v = p.state.workers v := fun v => hworkers v nofun
  have hcalls' : ∀ u, u ≠ t → state.calls u = p.state.calls u :=
    fun u hu => hcalls u fun heq => hu (Sum.inr.inj heq).symm
  refine ⟨fun v hv => ?_, fun hrelease u => ?_, fun v hv => (hsame v).trans (h.workers v hv),
    h.joined, fun q hq => absurd (destroyed_eq_zero hdrains ▸ hq) (Nat.not_lt_zero _)⟩
  · change ∃ x, state.workers v = .executing x
    rw [hsame v]
    rcases eq_or_ne (.inl v) t with rfl | hne
    · exact hmoves.executing hactor (h.calls v)
    · exact h.calls v fun hidle => hv ((hcalls' _ hne).trans hidle)
  · have hne : .inr u ≠ t := by
      rintro rfl
      exact hrelease (of_decide_eq_true hallowed)
    exact (hcalls' _ hne).trans (h.others hrelease u)

private theorem pool (h : p.Ordered) {state : State count others} (hallowed : p.allows event.actor)
    (hmoves : Threadpool.Moves p.state event state) :
    ({ p with state := state, turns := turnsAfter state p.turns event.actor } :
      Pool count others).Ordered := by
  have hdrains := h.drains_eq_false hallowed hmoves
  cases hactor : event.actor with
  | inl w => exact h.worker hactor (hactor ▸ hallowed) hmoves hdrains
  | inr t => exact h.call hactor (hactor ▸ hallowed) hmoves hdrains

private theorem release (h : p.Ordered) {release : Releasing}
    (hothers : ∀ u, p.state.calls (.inr u) = .idle)
    (hjoined : ∀ w : Fin count, w < release.joined count → p.turns w = .left)
    (hdestroyed : ∀ q : Fin count, q < release.destroyed count → p.state.queues q = 0) :
    ({ p with release := release } : Pool count others).Ordered :=
  ⟨h.calls, fun _ => hothers, h.workers, hjoined, hdestroyed⟩

private theorem readStop (h : p.Ordered) (hturn : p.turns w = .head) (turn : Turn) :
    ({ p with turns := Function.update p.turns w turn } : Pool count others).Ordered := by
  refine ⟨h.calls, h.others, fun v hv => ?_, fun v hv => ?_, h.destroyed⟩
  · rcases eq_or_ne v w with rfl | hne
    · exact h.workers v (by rw [hturn]; exact nofun)
    · exact h.workers v fun hpast => hv ((Function.update_of_ne hne _ _).trans hpast)
  · rcases eq_or_ne v w with rfl | hne
    · exact nomatch hturn.symm.trans (h.joined v hv)
    · exact (Function.update_of_ne hne _ _).trans (h.joined v hv)

private theorem step (h : p.Ordered) (hstep : p.step op = .ok p') : p'.Ordered := by
  cases moves_of_step hstep with
  | pool hallowed hstate => exact h.pool hallowed (Threadpool.moves_of_step hstate)
  | go hturn hrunning => exact h.readStop hturn _
  | quit hturn hrelease => exact h.readStop hturn _
  | release hrunning hcalls =>
    exact h.release hcalls (fun w hw => absurd hw (Nat.not_lt_zero w))
      fun q hq => absurd hq (Nat.not_lt_zero q)
  | join hjoining hi hleft =>
    refine h.release (h.others (by rw [hjoining]; exact nofun)) (fun w hw => ?_)
      fun q hq => absurd hq (Nat.not_lt_zero q)
    rcases Nat.lt_or_eq_of_le (Nat.le_of_lt_succ hw) with hlt | heq
    · exact h.joined w (by rw [hjoining]; exact hlt)
    · exact (congrArg p.turns (Fin.ext heq)).trans hleft
  | joined hjoining hi =>
    refine h.release (h.others (by rw [hjoining]; exact nofun)) (fun w hw => ?_)
      fun q hq => absurd hq (Nat.not_lt_zero q)
    exact h.joined w (by rw [hjoining]; exact w.isLt.trans_le hi)
  | drop hdraining hi hx =>
    rename_i i x
    refine ⟨h.calls, h.others, h.workers, h.joined, fun q hq => ?_⟩
    change (q : ℕ) < p.release.destroyed count at hq
    have hqi : q ≠ ⟨i, hi⟩ := by
      rintro rfl
      rw [hdraining] at hq
      exact absurd hq (lt_irrefl i)
    exact (Function.update_of_ne hqi _ _).trans (h.destroyed q hq)
  | destroy hdraining hi hqueue =>
    rename_i i
    have hjoined := h.left (by rw [hdraining]; rfl)
    refine h.release (h.others (by rw [hdraining]; exact nofun)) (fun w _ => hjoined w) fun q hq => ?_
    rcases Nat.lt_or_eq_of_le (Nat.le_of_lt_succ hq) with hlt | heq
    · exact h.destroyed q (by rw [hdraining]; exact hlt)
    · exact (congrArg p.state.queues (Fin.ext heq)).trans hqueue
  | drained hdraining hi =>
    have hjoined := h.left (by rw [hdraining]; rfl)
    refine h.release (h.others (by rw [hdraining]; exact nofun)) (fun w _ => hjoined w) fun q hq => ?_
    exact h.destroyed q (by rw [hdraining]; exact q.isLt.trans_le hi)

end Pool.Ordered

/-- The pool in which an item that the release has freed has never been accepted. -/
def Pool.view (p : Pool count others) : State count others :=
  { p.state with works := fun x =>
      if p.dropped x then { p.state.works x with accepted := false, rejected := true }
      else p.state.works x }

structure Pool.Kept (p : Pool count others) : Prop where
  ordered : p.Ordered
  conserved : Conserved p.view
  drains : ∀ x, p.dropped x → p.release.drains
  dropped : ∀ x, p.dropped x → (p.state.works x).accepted ∧ (p.state.works x).rejected = false

private theorem Pool.view_eq_state (h : ∀ x, p.dropped x = false) : p.view = p.state := by
  have hworks : p.view.works = p.state.works := by
    funext x
    exact if_neg (by rw [h x]; exact nofun)
  rw [view] at hworks ⊢
  exact congrArg (fun works => { p.state with works := works }) hworks

private theorem Pool.view_dropped (h : p.dropped x) :
    p.view.works x = { p.state.works x with accepted := false, rejected := true } := if_pos h

private theorem Pool.view_not_dropped (h : p.dropped x = false) :
    p.view.works x = p.state.works x :=
  if_neg (by rw [h]; exact nofun)

private theorem Conserved.of_queued {s : State count others} (h : Conserved s) {q : Fin count}
    (hx : x ∈ s.queues q) : x < s.worksCount ∧ (s.works x).accepted ∧
      (s.works x).rejected = false ∧ (s.works x).completed = false := by
  have hcount := Multiset.count_pos.mpr hx
  have hqueued : (s.queues q).count x ≤ s.queuedTimes x :=
    le_sum_of_mem (fun q => (s.queues q).count x) (mem_univ q)
  have haccepted := h.accepted x
  have hcreated := h.created x
  have hflag := Bool.toNat_le (s.works x).accepted
  have hlt : x < s.worksCount := by
    by_contra hnot
    rw [if_neg hnot] at hcreated
    omega
  rw [if_pos hlt] at hcreated
  exact ⟨hlt, Bool.toNat_eq_one.mp (by omega), Bool.toNat_eq_zero.mp (by omega),
    Bool.toNat_eq_zero.mp (by omega)⟩

private theorem Conserved.drop {s : State count others} (h : Conserved s) {q : Fin count}
    (hx : x ∈ s.queues q) :
    Conserved (((s.setQueue q ((s.queues q).erase x)).setWork x
      { s.works x with accepted := false, rejected := true }).addCounter (s.works x).waiter (-1)) := by
  obtain ⟨hlt, haccepted, hrejected, hcompleted⟩ := h.of_queued hx
  refine ⟨fun y => ?_, fun y => ?_, fun y => ?_, ?_⟩
  · have hbalance := queuedTimes_setQueue (s := s) q ((s.queues q).erase x) y
    have hy := h.accepted y
    change (s.setQueue q ((s.queues q).erase x)).queuedTimes y + s.heldTimes y +
      (Function.update s.works x _ y).completed.toNat = (Function.update s.works x _ y).accepted.toNat
    rcases eq_or_ne y x with rfl | hne
    · have hpos := Multiset.count_pos.mpr hx
      rw [Multiset.count_erase_self] at hbalance
      rw [haccepted, hcompleted] at hy
      rw [Function.update_self]
      change _ + _ + (s.works y).completed.toNat = 0
      rw [hcompleted]
      change _ + _ + 0 = 1 at hy
      change _ + _ + 0 = 0
      omega
    · rw [Multiset.count_erase_of_ne hne] at hbalance
      rw [Function.update_of_ne hne]
      omega
  · have hy := h.created y
    change s.pendingTimes y + (Function.update s.works x _ y).rejected.toNat +
      (Function.update s.works x _ y).accepted.toNat = if y < s.worksCount then 1 else 0
    rcases eq_or_ne y x with rfl | hne
    · rw [haccepted, hrejected] at hy
      rw [Function.update_self]
      exact hy
    · rw [Function.update_of_ne hne]
      exact hy
  · change (Function.update s.works x _ y).executions =
      s.doneTimes y + (Function.update s.works x _ y).completed.toNat
    simp only [apply_update_of_eq Work.executions, apply_update_of_eq Work.completed]
    exact h.executed y
  · exact h.counters_free hlt hcompleted hrejected fun v => if_neg fun hand => nomatch hand.2.2

namespace Pool.Kept

private theorem start : (Pool.start : Pool count others).Kept :=
  ⟨Ordered.start, view_eq_state (p := Pool.start) (fun _ => rfl) ▸ Conserved.start, fun _ => nofun,
    fun _ => nofun⟩

private theorem not_dropped (h : p.Kept) (hdrains : p.release.drains = false) (x : ℕ) :
    p.dropped x = false := by
  by_contra hdropped
  exact nomatch hdrains.symm.trans (h.drains x (Bool.eq_true_of_not_eq_false hdropped))

private theorem pool (h : p.Kept) {state : State count others} (hallowed : p.allows event.actor)
    (hstep : Threadpool.step p.state event = .ok state) :
    ({ p with state := state, turns := turnsAfter state p.turns event.actor } :
      Pool count others).Kept := by
  have hmoves := Threadpool.moves_of_step hstep
  have hnone := h.not_dropped (h.ordered.drains_eq_false hallowed hmoves)
  have hconserved := h.conserved
  rw [view_eq_state hnone] at hconserved
  refine ⟨h.ordered.pool hallowed hmoves, ?_, h.drains, fun x hx => ?_⟩
  · have hview := view_eq_state
      (p := { p with state := state, turns := turnsAfter state p.turns event.actor }) hnone
    exact hview ▸ hconserved.step hstep
  · exact nomatch (hnone x).symm.trans hx

private theorem not_dropped_of_mem (h : p.Kept) {q : Fin count} (hx : x ∈ p.state.queues q) :
    p.dropped x = false := by
  by_contra hdropped
  have haccepted := (h.conserved.of_queued (q := q) hx).2.1
  rw [view_dropped (Bool.eq_true_of_not_eq_false hdropped)] at haccepted
  exact nomatch haccepted

private theorem view_drop (hnot : p.dropped x = false) (q : Fin count) :
    (p.drop q x).view = ((p.view.setQueue q ((p.view.queues q).erase x)).setWork x
      { p.view.works x with accepted := false, rejected := true }).addCounter
        (p.view.works x).waiter (-1) := by
  rw [view_not_dropped hnot]
  have hworks : (p.drop q x).view.works = Function.update p.view.works x
      { p.state.works x with accepted := false, rejected := true } := by
    funext y
    rcases eq_or_ne y x with rfl | hne
    · rw [Function.update_self]
      exact view_dropped (p := p.drop q y) (Function.update_self ..)
    · rw [Function.update_of_ne hne]
      have hsame : (p.drop q x).dropped y = p.dropped y := Function.update_of_ne hne _ _
      simp only [view, hsame]
      rfl
  exact congrArg (fun works => { (p.drop q x).state with works := works }) hworks

private theorem drop (h : p.Kept) {i : ℕ} (hdraining : p.release = .draining i) (hi : i < count)
    (hx : x ∈ p.state.queues ⟨i, hi⟩) (hordered : (p.drop ⟨i, hi⟩ x).Ordered) :
    (p.drop ⟨i, hi⟩ x).Kept := by
  have hnot := h.not_dropped_of_mem hx
  have hdrains : p.release.drains := by rw [hdraining]; rfl
  refine ⟨hordered, ?_, fun y _ => hdrains, fun y hy => ?_⟩
  · rw [view_drop hnot]
    exact h.conserved.drop hx
  · obtain ⟨-, haccepted, hrejected, -⟩ := h.conserved.of_queued (q := ⟨i, hi⟩) hx
    rw [view_not_dropped hnot] at haccepted hrejected
    rcases eq_or_ne y x with rfl | hne
    · exact ⟨haccepted, hrejected⟩
    · exact h.dropped y ((Function.update_of_ne hne _ _).symm.trans hy)

private theorem step (h : p.Kept) (hstep : p.step op = .ok p') : p'.Kept := by
  have hordered := h.ordered.step hstep
  cases moves_of_step hstep with
  | pool hallowed hstate => exact h.pool hallowed hstate
  | go hturn hrunning => exact ⟨hordered, h.conserved, h.drains, h.dropped⟩
  | quit hturn hrelease => exact ⟨hordered, h.conserved, h.drains, h.dropped⟩
  | release hrunning hcalls =>
    refine ⟨hordered, h.conserved, fun x hx => ?_, h.dropped⟩
    have hdrains := h.drains x hx
    rw [hrunning] at hdrains
    exact nomatch hdrains
  | join hjoining hi hleft =>
    refine ⟨hordered, h.conserved, fun x hx => ?_, h.dropped⟩
    have hdrains := h.drains x hx
    rw [hjoining] at hdrains
    exact nomatch hdrains
  | joined hjoining hi => exact ⟨hordered, h.conserved, fun _ _ => rfl, h.dropped⟩
  | drop hdraining hi hx => exact h.drop hdraining hi hx hordered
  | destroy hdraining hi hqueue => exact ⟨hordered, h.conserved, fun _ _ => rfl, h.dropped⟩
  | drained hdraining hi => exact ⟨hordered, h.conserved, fun _ _ => rfl, h.dropped⟩

end Pool.Kept

/-- An item has been executed once and then freed, or freed by the release without having been
executed, or freed since no queue took it; and neither the waiters nor the pool count anything. -/
structure Pool.Settled (p : Pool count others) : Prop where
  works : ∀ x < p.state.worksCount,
    p.state.works x = ⟨(p.state.works x).waiter, true, 1, true, false⟩ ∧ p.dropped x = false ∨
    p.state.works x = ⟨(p.state.works x).waiter, true, 0, false, false⟩ ∧ p.dropped x = true ∨
    p.state.works x = ⟨(p.state.works x).waiter, false, 0, false, true⟩ ∧ p.dropped x = false
  counters : ∀ v, p.state.counters v = 0
  working : p.state.workingThreadsCount = 0

private theorem Work.eq_mk {work : Work} {accepted completed rejected : Bool} {executions : ℕ}
    (haccepted : work.accepted = accepted) (hexecutions : work.executions = executions)
    (hcompleted : work.completed = completed) (hrejected : work.rejected = rejected) :
    work = ⟨work.waiter, accepted, executions, completed, rejected⟩ := by
  subst haccepted hexecutions hcompleted hrejected
  rfl

namespace Pool.Kept

private theorem view_of_released (h : p.Kept) (hreleased : p.release = .released) (x : ℕ) :
    (p.view.works x).completed.toNat = (p.view.works x).accepted.toNat ∧
    ((p.view.works x).rejected.toNat + (p.view.works x).accepted.toNat =
      if x < p.view.worksCount then 1 else 0) ∧
    (p.view.works x).executions = (p.view.works x).completed.toNat := by
  have hdrains : p.release.drains := by rw [hreleased]; rfl
  have hworker : ∀ w, p.state.workers w = .looking 0 :=
    fun w => h.ordered.workers w (by rw [h.ordered.left hdrains w]; exact nofun)
  have hqueue : ∀ q, p.state.queues q = 0 :=
    fun q => h.ordered.destroyed q (by rw [hreleased]; exact q.isLt)
  have hqueued : p.view.queuedTimes x = 0 :=
    sum_eq_zero fun q _ => (congrArg (Multiset.count x) (hqueue q)).trans (Multiset.count_zero x)
  have hheld : p.view.heldTimes x = 0 :=
    sum_eq_zero fun w _ => (congrArg (fun phase => times phase.work x) (hworker w)).trans times_none
  have hdone : p.view.doneTimes x = 0 :=
    sum_eq_zero fun w _ => (congrArg (fun phase => times phase.done x) (hworker w)).trans times_none
  have hpending : p.view.pendingTimes x = 0 := sum_eq_zero fun t _ =>
    (congrArg (fun phase => times phase.work x) (h.ordered.idle hdrains t)).trans times_none
  have haccepted := h.conserved.accepted x
  have hcreated := h.conserved.created x
  have hexecuted := h.conserved.executed x
  rw [hqueued, hheld] at haccepted
  rw [hpending] at hcreated
  rw [hdone] at hexecuted
  omega

private theorem settled (h : p.Kept) (htallied : p.state.Tallied)
    (hreleased : p.release = .released) :
    p.Settled := by
  refine ⟨fun x hx => ?_, fun v => ?_, htallied.trans (congrArg UInt32.ofNat ?_)⟩
  · obtain ⟨hcompleted, hcreated, hexecuted⟩ := h.view_of_released hreleased x
    rw [if_pos (show x < p.view.worksCount from hx)] at hcreated
    cases hdropped : p.dropped x with
    | true =>
      obtain ⟨haccepted, hrejected⟩ := h.dropped x hdropped
      rw [view_dropped hdropped] at hcompleted hexecuted
      have hzero : (p.state.works x).executions = 0 := hexecuted.trans hcompleted
      exact .inr (.inl ⟨Work.eq_mk haccepted hzero (Bool.toNat_eq_zero.mp hcompleted) hrejected, rfl⟩)
    | false =>
      rw [view_not_dropped hdropped] at hcompleted hcreated hexecuted
      cases haccepted : (p.state.works x).accepted with
      | true =>
        rw [haccepted] at hcompleted hcreated
        rw [hcompleted] at hexecuted
        have hrejected := Bool.toNat_eq_zero.mp (Nat.add_right_cancel hcreated)
        exact .inl ⟨Work.eq_mk haccepted hexecuted (Bool.toNat_eq_one.mp hcompleted) hrejected, rfl⟩
      | false =>
        rw [haccepted] at hcompleted hcreated
        rw [hcompleted] at hexecuted
        have hrejected := Bool.toNat_eq_one.mp hcreated
        exact .inr (.inr ⟨Work.eq_mk haccepted hexecuted (Bool.toNat_eq_zero.mp hcompleted) hrejected,
          rfl⟩)
  · have hlive : p.view.live v = 0 := by
      apply sum_eq_zero
      intro x hx
      obtain ⟨hcompleted, hcreated, -⟩ := h.view_of_released hreleased x
      rw [if_pos (mem_range.mp hx)] at hcreated
      apply if_neg
      rintro ⟨-, hcompleted', hrejected'⟩
      rw [hcompleted'] at hcompleted
      rw [hrejected', ← hcompleted] at hcreated
      exact nomatch hcreated
    exact (h.conserved.counters v).trans (congrArg Int32.ofNat hlive)
  · have hdrains : p.release.drains := by rw [hreleased]; rfl
    refine sum_eq_zero fun w _ => ?_
    rw [h.ordered.workers w (by rw [h.ordered.left hdrains w]; exact nofun)]
    rfl

end Pool.Kept

private theorem Pool.tallied_of_step (h : p.state.Tallied) (hstep : p.step op = .ok p') :
    p'.state.Tallied := by
  cases moves_of_step hstep with
  | pool hallowed hstate => exact h.step (Threadpool.moves_of_step hstate)
  | _ => exact h

/-- In every run of the pool up to the end of `threadpool_release`, whatever the order of the steps,
each item is freed once, after one execution or without one, and every counter comes to zero. -/
theorem released_settled (count others : ℕ) (ops : List (Op count others)) :
    Throughout Pool.step (fun p => p.release = .released → p.Settled) Pool.start ops := by
  have hrun : Throughout Pool.step (fun p => p.Kept ∧ p.state.Tallied)
      (Pool.start : Pool count others) ops :=
    throughout_of_along
      (fun _ _ _ h _ hstep => ⟨h.1.step hstep, Pool.tallied_of_step h.2 hstep⟩)
      ⟨Pool.Kept.start, State.Tallied.start⟩ (along_of_forall fun _ _ => trivial)
  exact hrun.mono fun _ h => h.1.settled h.2

/-- The worker leaves before it finds the item. -/
example : ([.pool (.create (.inr 0) none), .pool (.place (.inr 0)), .pool (.enqueue (.inr 0) true),
    .release 0, .readStop 0, .join, .join, .drain (some 0), .drain none, .drain none].foldlM Pool.step
    (Pool.start : Pool 1 1)).map (fun p => (p.release, p.dropped 0)) = .ok (.released, true) := by
  decide

end Libromano.Threadpool
