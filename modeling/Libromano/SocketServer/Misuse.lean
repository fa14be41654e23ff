/- When a call of the server is safe: whatever the loop does meanwhile, nothing is misused. -/

import Libromano.SocketServer.Callbacks

set_option autoImplicit false
set_option relaxedAutoImplicit false

namespace Libromano.SocketServer

open Foundation Foundation.Ranks

variable {C : Type}

def LoopPhase.distance : LoopPhase → ℕ
  | .socketNew => 13
  | .inetPton => 12
  | .bind => 11
  | .listen => 10
  | .lockRunning => 9
  | .setRunning => 8
  | .unlockRunning => 7
  | .send => 8
  | .removeConnection => 7
  | .lockHead => 6
  | .readStop => 5
  | .unlockHead => 4
  | .select => 3
  | .accept => 2
  | .recv => 1
  | _ => 0

def LoopPhase.next : LoopPhase → LoopPhase
  | .socketNew => .inetPton
  | .inetPton => .bind
  | .bind => .listen
  | .listen => .lockRunning
  | .lockRunning => .setRunning
  | .setRunning => .unlockRunning
  | .unlockRunning => .lockHead
  | .send => .removeConnection
  | .removeConnection => .lockHead
  | .lockHead => .readStop
  | .readStop => .unlockHead
  | .unlockHead => .select
  | .select => .accept
  | .accept => .recv
  | _ => .callbacksCount 0

namespace Server

variable {s s' : Server C} {callbacks : List C} {side : Side} {misuse : Misuse}

theorem unlock_eq (hmutex : s.mutex = .locked side) :
    s.unlock side = .ok { s with mutex := .unlocked } := unlock_eq_ok.mpr ⟨hmutex, rfl⟩

theorem Controlled.no_thread (h : s.Controlled) (hthreaded : s.caller.threaded = some false) :
    s.thread = none :=
  Option.isSome_eq_false_iff.mp (h.threaded false hthreaded) |> Option.isNone_iff_eq_none.mp

theorem Controlled.unlocked_of_joined (h : s.Controlled)
    (hthreaded : s.caller.threaded = some false)
    (hholds : s.caller.holds = false) (hkeeps : s.caller.keeps = true) : s.mutex = .unlocked := by
  refine h.unlocked ?_ hholds ?_
  · rw [h.no_thread hthreaded]
    rfl
  · rw [hkeeps, Bool.or_true]

section Approach

variable {phase : LoopPhase}

structure Goes (s : Server C) (phase : LoopPhase) : Prop where
  thread : s.thread = some phase
  live : s.freed = false
  asks : s.needToStop = false
  mutex : s.mutex = if phase.holds then .locked .loop else .unlocked
  connected : s.Connected

private theorem Goes.loopMove {phase' : LoopPhase} (h : s.Goes phase)
    (hmove : LoopMove s s' phase phase') :
    s'.Goes phase' := by
  refine ⟨hmove.thread, hmove.freed.trans h.live, hmove.needToStop.trans h.asks, ?_,
    hmove.connected h.connected⟩
  obtain ⟨hholds, hmutex⟩ | ⟨hholds, -, hmutex⟩ | ⟨hholds, -, hmutex⟩ := hmove.mutex
  · rw [hmutex, hholds, h.mutex]
  · rw [hmutex, hholds, if_pos rfl]
  · rw [hmutex, hholds, if_neg nofun]

private theorem Goes.loopStep_next (h : s.Goes phase) (hfar : 1 < phase.distance) :
    ∃ t, s.loopStep true phase = .ok t ∧ t.thread = some phase.next := by
  have hmutex := h.mutex
  cases phase with
  | lockRunning | lockHead =>
    have hlock : s.lock .loop = .ok { s with mutex := .locked .loop } := lock_eq_ok.mpr ⟨hmutex, rfl⟩
    rw [Server.loopStep, hlock]
    exact ⟨_, rfl, rfl⟩
  | unlockRunning | unlockHead =>
    rw [Server.loopStep, unlock_eq hmutex]
    exact ⟨_, rfl, rfl⟩
  | readStop =>
    rw [Server.loopStep, h.asks]
    exact ⟨_, rfl, rfl⟩
  | inetPton =>
    rw [Server.loopStep, Bool.or_true]
    exact ⟨_, rfl, rfl⟩
  | socketNew | bind | listen | setRunning | select | accept | send | removeConnection =>
    exact ⟨_, rfl, rfl⟩
  | logError | recv | callbacksCount | callback | unlockBreak | socketFree | lockEnd | unsetRunning
  | unlockEnd | returned => simp [LoopPhase.distance] at hfar

private theorem distance_next (hfar : 1 < phase.distance) :
    phase.next.distance < phase.distance ∧ 0 < phase.next.distance := by
  cases phase <;> simp [LoopPhase.distance, LoopPhase.next] at hfar ⊢

private theorem Goes.step_loop (h : s.Goes phase) (succeeds : Bool) :
    s.step (.loop succeeds) = s.loopStep succeeds phase := by
  rw [Server.step, h.thread]
  dsimp only
  rw [if_neg (by simp [h.live])]

private theorem Goes.reaches (h : s.Goes phase) (hfar : 0 < phase.distance) :
    ∃ (ops : List (Op C)) (t : Server C), (∀ op ∈ ops, op.Inner) ∧
      ops.foldlM Server.step s = .ok t ∧ t.Goes (.callbacksCount 0) ∧ t.callbacks = s.callbacks ∧
        t.table = s.table := by
  generalize hn : phase.distance = n at hfar
  induction n using Nat.strong_induction_on generalizing s phase with
  | _ n ih =>
    subst hn
    by_cases hone : 1 < phase.distance
    · obtain ⟨s₁, hstep, hthread⟩ := h.loopStep_next hone
      obtain ⟨phase', hmove⟩ := loopMove_of_loopStep hstep
      obtain rfl := Option.some.inj (hmove.thread.symm.trans hthread)
      obtain ⟨hless, hpos⟩ := distance_next hone
      obtain ⟨ops, t, hinner, hrun, ht, hcallbacks, htable⟩ := ih _ hless (h.loopMove hmove) rfl hpos
      refine ⟨.loop true :: ops, t, List.forall_mem_cons.mpr ⟨nofun, hinner⟩, ?_, ht,
        hcallbacks.trans hmove.callbacks, htable.trans hmove.table⟩
      exact run_cons.mpr ⟨s₁, (h.step_loop true).trans hstep, hrun⟩
    · obtain rfl : phase = .recv := by
        cases phase <;> simp [LoopPhase.distance] at hone hfar ⊢
      refine ⟨[hangUp], _, by simpa using hangUp_inner,
        run_cons.mpr ⟨_, step_hangUp h.connected h.thread h.live, rfl⟩,
        ⟨rfl, h.live, h.asks, h.mutex, h.connected⟩, rfl, rfl⟩

end Approach

end Server

/-- A server whose address was refused, after it has been stopped. -/
def stopped : Server ℕ :=
  { started false with
    mutex := .freed
    thread := none
    sockets := 1 }

theorem run_stopped : ∃ ops, Run false ops stopped := by
  obtain ⟨ops, hstarted, -⟩ := run_started false
  have hopened : Run false (_ ++ List.replicate 1 (.loop true)) _ :=
    hstarted.inner (loop_inner 1 true) rfl
  have hrefused : Run false (_ ++ List.replicate 1 (.loop false)) _ :=
    hopened.inner (loop_inner 1 false) rfl
  have hstop : Run false (_ ++ [.call .stop true false]) _ := hrefused.call ⟨rfl, nofun⟩ rfl
  exact ⟨_, hstop.inner (caller_inner 8) rfl⟩

end Libromano.SocketServer
