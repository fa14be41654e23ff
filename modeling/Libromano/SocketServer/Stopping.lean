/- `socket_server_stop`: how soon it returns, and what there is left of the loop then. -/

import Libromano.SocketServer.Misuse

set_option autoImplicit false
set_option relaxedAutoImplicit false

namespace Libromano.SocketServer

open Foundation Foundation.Ranks

variable {C : Type}

/-- The steps that the loop still takes when it has to stop and there are so many callbacks. -/
def LoopPhase.rank (n : ℕ) : LoopPhase → ℕ
  | .socketNew => 14
  | .inetPton => 13
  | .bind => 12
  | .listen => 11
  | .logError => 1
  | .lockRunning => 10
  | .setRunning => 9
  | .unlockRunning => 8
  | .lockHead => 7
  | .readStop => 6
  | .unlockHead => 14 + 2 * n
  | .select => 13 + 2 * n
  | .accept => 12 + 2 * n
  | .recv => 11 + 2 * n
  | .callbacksCount i => 10 + 2 * (n - i)
  | .callback i => 9 + 2 * (n - i)
  | .send => 9
  | .removeConnection => 8
  | .unlockBreak => 5
  | .socketFree => 4
  | .lockEnd => 3
  | .unsetRunning => 2
  | .unlockEnd => 1
  | .returned => 0

def StopPhase.rank : StopPhase → ℕ
  | .lockStop => 9
  | .setStop => 8
  | .unlockStop => 7
  | .join => 6
  | .lockJoined => 5
  | .unsetStop => 4
  | .unlockJoined => 3
  | .freeMutex => 2

def CallerPhase.rank : CallerPhase C → ℕ
  | .stop phase _ => phase.rank
  | .free => 1
  | _ => 0

/-- The connections that the loop still accepts when it has to stop. -/
def LoopPhase.accepts : LoopPhase → ℕ
  | .unlockHead | .select | .accept => 1
  | _ => 0

def LoopPhase.sockets : LoopPhase → ℕ
  | .socketNew | .logError | .lockEnd | .unsetRunning | .unlockEnd | .returned => 0
  | .recv | .callbacksCount _ | .callback _ | .send | .removeConnection => 2
  | _ => 1

/-- All steps but the receives of full chunks, after which the loop asks for another one. -/
def Op.proceeds : Op C → ℕ
  | .recv _ _ (.chunk c) => if c.bytes.length = recvSize then 0 else 1
  | _ => 1

namespace Server

/-- Whether a step accepts a connection. -/
def accepted (s : Server C) : Op C → ℕ
  | .loop true => if s.thread = some .accept then 1 else 0
  | _ => 0

/-- Whether the address is refused. The socket is not closed then. -/
def refused (s : Server C) : Op C → ℕ
  | .loop false => if s.thread = some .inetPton ∧ s.ipModeAny = false then 1 else 0
  | _ => 0

def rank (n : ℕ) (s : Server C) : ℕ := s.thread.elim 0 (LoopPhase.rank n) + s.caller.rank

def Ending (s : Server C) : Prop := s.needToStop = true ∨ s.thread = none ∧
  match s.caller with
  | .idle | .free => True
  | .stop phase _ => phase.joined = true
  | _ => False

variable {s s' : Server C} {callbacks : List C} {phase phase' : LoopPhase} {succeeds : Bool}

private theorem rank_of_loopStep (hasks : s.needToStop = true) (hplaced : s.Placed callbacks phase)
    (hthread : s.thread = some phase) (hstep : s.loopStep succeeds phase = .ok s')
    (hthread' : s'.thread = some phase') :
    phase'.rank callbacks.length < phase.rank callbacks.length ∧
      s.accepted (.loop succeeds) + phase'.accepts ≤ phase.accepts := by
  cases phase with
  | lockRunning | lockHead | lockEnd | unlockRunning | unlockHead | unlockBreak | unlockEnd =>
    obtain ⟨t, -, heq⟩ := bind_eq_ok.mp hstep
    cases heq
    cases hthread'
    cases succeeds <;> simp [LoopPhase.rank, LoopPhase.accepts, accepted, hthread]
  | readStop =>
    cases hstep
    rw [hasks] at hthread'
    cases hthread'
    cases succeeds <;> simp [LoopPhase.rank, LoopPhase.accepts, accepted, hthread]
  | callbacksCount i =>
    obtain ⟨table, -, heq⟩ := bind_eq_ok.mp hstep
    cases heq
    rw [goto] at hthread'
    split_ifs at hthread' <;> cases hthread' <;> cases succeeds <;>
      simp [LoopPhase.rank, LoopPhase.accepts, accepted, hthread] <;> omega
  | callback i =>
    obtain ⟨hi, -⟩ := hplaced
    obtain ⟨table, -, heq⟩ := bind_eq_ok.mp hstep
    split at heq
    · cases heq
      cases hthread'
      cases succeeds <;> simp [LoopPhase.rank, LoopPhase.accepts, accepted, hthread] <;> omega
    · cases heq
  | inetPton =>
    cases hstep
    split_ifs at hthread' <;> cases hthread' <;> cases succeeds <;>
      simp [LoopPhase.rank, LoopPhase.accepts, accepted, hthread]
  | recv | returned => cases hstep
  | _ =>
    cases succeeds <;> cases hstep <;> cases hthread' <;>
      simp [LoopPhase.rank, LoopPhase.accepts, accepted, hthread] <;> omega

private theorem proceeds_recv {memory : Memory} {tempDataBuffer : Vector UInt8 recvSize}
    {received : Received} (h : received.result = recvSize) :
    (Op.recv memory tempDataBuffer received : Op C).proceeds = 0 := by
  cases received with
  | chunk c => exact if_pos (Int.ofNat.inj h)
  | closed => cases h
  | failed => cases h

private theorem proceeds_le_one (op : Op C) : op.proceeds ≤ 1 := by
  unfold Op.proceeds
  split
  · split_ifs <;> omega
  · exact le_rfl

private theorem rank_of_recvStep (n : ℕ) {memory : Memory} {tempDataBuffer : Vector UInt8 recvSize}
    {received : Received} (hthread : s.thread = some .recv)
    (hstep : s.recvStep (s.receiving memory tempDataBuffer received) = .ok s')
    (hthread' : s'.thread = some phase') :
    (Op.recv memory tempDataBuffer received : Op C).proceeds + phase'.rank n ≤ LoopPhase.recv.rank n ∧
      phase'.accepts = 0 := by
  have hone := proceeds_le_one (Op.recv memory tempDataBuffer received : Op C)
  rw [recvStep] at hstep
  split at hstep
  case h_1 => cases hstep
  case h_2 houtcome =>
    cases hstep
    obtain rfl := Option.some.inj (hthread.symm.trans hthread')
    rw [proceeds_recv (receive_waiting houtcome), Nat.zero_add]
    exact ⟨le_rfl, rfl⟩
  case h_3 dataBuffer _ _ _ =>
    cases hstep
    cases dataBuffer with
    | some _ =>
      cases hthread'
      refine ⟨?_, rfl⟩
      simp only [Option.isSome_some, if_true, LoopPhase.rank]
      omega
    | none =>
      cases hthread'
      refine ⟨?_, rfl⟩
      simp only [Option.isSome_none, Bool.false_eq_true, if_false, LoopPhase.rank]
      omega

private theorem rank_of_callerMove (n : ℕ) (hending : s.Ending) (hcontrolled : s.Controlled)
    (hmove : CallerMove s s.caller s') : s'.Ending ∧ s'.rank n < s.rank n ∧
      s'.thread.elim 0 LoopPhase.accepts ≤ s.thread.elim 0 LoopPhase.accepts := by
  have hasks := hcontrolled.asks
  rw [Ending, hasks] at hending
  rw [rank, rank]
  generalize hcaller : s.caller = phase at hmove hasks hending ⊢
  cases hmove with
  | forget | storeCallbacks | storeCallback | storeCount | initMutex | startThread | lockStop
  | setStop =>
    obtain hasks | ⟨-, hjoined⟩ := hending
    · cases hasks
    · cases hjoined
  | unlockStop =>
    refine ⟨.inl hasks, ?_, le_rfl⟩
    simp [CallerPhase.rank, StopPhase.rank]
  | join hthread =>
    refine ⟨.inr ⟨rfl, rfl⟩, ?_, Nat.zero_le _⟩
    simp [hthread, LoopPhase.rank, CallerPhase.rank, StopPhase.rank]
  | lockJoined | unsetStop | unlockJoined =>
    have hnone := hcontrolled.no_thread (hcaller ▸ rfl)
    refine ⟨.inr ⟨hnone, rfl⟩, ?_, le_rfl⟩
    simp [CallerPhase.rank, StopPhase.rank]
  | freeMutex =>
    have hnone := hcontrolled.no_thread (hcaller ▸ rfl)
    rename_i frees _
    refine ⟨.inr ⟨hnone, ?_⟩, ?_, le_rfl⟩ <;> cases frees <;>
      simp [CallerPhase.rank, StopPhase.rank]
  | free hthread =>
    refine ⟨.inr ⟨hthread, trivial⟩, ?_, le_rfl⟩
    simp [CallerPhase.rank]

private theorem rank_of_step {op : Op C} (hending : s.Ending) (hcontrolled : s.Controlled)
    (hstocked : s.Stocked callbacks) (hinner : op.Inner) (hstep : s.step op = .ok s') :
    s'.Ending ∧ op.proceeds + s'.rank callbacks.length ≤ s.rank callbacks.length ∧
      s.accepted op + s'.thread.elim 0 LoopPhase.accepts ≤ s.thread.elim 0 LoopPhase.accepts := by
  have hasks : ∀ phase, s.thread = some phase → s.needToStop = true := by
    rintro phase hthread
    obtain hasks | ⟨hnone, -⟩ := hending
    · exact hasks
    · exact absurd (hnone.symm.trans hthread) nofun
  cases move_of_step hstep with
  | call => exact absurd rfl (hinner _ _ _)
  | caller hmove =>
    obtain ⟨hends, hrank, haccepts⟩ := rank_of_callerMove callbacks.length hending hcontrolled hmove
    exact ⟨hends, Nat.one_add_le_iff.mpr hrank, (Nat.zero_add _).trans_le haccepts⟩
  | loop hthread hstep =>
    rename_i phase _
    obtain ⟨phase', hmove⟩ := loopMove_of_loopStep hstep
    have hplaced : s.Placed callbacks phase := by
      cases hquiet : phase.quiet with
      | true => cases phase <;> trivial
      | false => exact (hstocked.serving phase hthread hquiet).2
    obtain ⟨hrank, haccepts⟩ :=
      rank_of_loopStep (hasks phase hthread) hplaced hthread hstep hmove.thread
    refine ⟨.inl (hmove.needToStop.trans (hasks phase hthread)), ?_, ?_⟩
    · rw [rank, rank, hthread, hmove.thread, hmove.caller, ← Nat.add_assoc]
      exact Nat.add_le_add_right (Nat.one_add_le_iff.mpr hrank) _
    · rw [hthread, hmove.thread]
      exact haccepts
  | recv hthread hstep =>
    obtain ⟨phase', hmove⟩ := loopMove_of_recvStep (receiving_ne_nil _ _ _) hthread hstep
    obtain ⟨hrank, haccepts⟩ := rank_of_recvStep callbacks.length hthread hstep hmove.thread
    refine ⟨.inl (hmove.needToStop.trans (hasks _ hthread)), ?_, ?_⟩
    · rw [rank, rank, hthread, hmove.thread, hmove.caller, ← Nat.add_assoc]
      exact Nat.add_le_add_right hrank _
    · rw [hmove.thread]
      exact (Nat.zero_add _).trans_le (haccepts.trans_le (Nat.zero_le _))

structure Closing (s : Server C) (callbacks : List C) : Prop where
  ending : s.Ending
  controlled : s.Controlled
  stocked : s.Stocked callbacks
  connected : s.Connected

private theorem Closing.step {op : Op C} (h : s.Closing callbacks) (hinner : op.Inner)
    (hstep : s.step op = .ok s') : s'.Closing callbacks := by
  have hsame : pushedBy callbacks op = callbacks := by
    cases op with
    | call call granted moved => exact absurd rfl (hinner call granted moved)
    | caller | loop | recv => rfl
  refine ⟨(rank_of_step h.ending h.controlled h.stocked hinner hstep).1, ?_, ?_, h.connected.step hstep⟩
  · exact h.controlled.step (fun call granted moved hop => absurd hop (hinner _ _ _)) hstep
  · exact hsame ▸ h.stocked.step h.controlled (hinner.permits hstep) hstep

private theorem Controlled.loopStep_enabled (h : s.Controlled) (hstocked : s.Stocked callbacks)
    (hthread : s.thread = some phase) (hcaller : s.caller.holds = false) (hrecv : phase ≠ .recv)
    (hreturned : phase ≠ .returned) : ∃ t, s.loopStep true phase = .ok t := by
  have hunlocked : phase.holds = false → s.mutex = .unlocked := fun hholds =>
    h.unlocked (by rw [hthread]; exact hholds) hcaller (by rw [hthread]; rfl)
  cases phase with
  | lockRunning | lockHead | lockEnd =>
    rw [Server.loopStep, lock_eq_ok.mpr ⟨hunlocked rfl, rfl⟩]
    exact ⟨_, rfl⟩
  | unlockRunning | unlockHead | unlockBreak | unlockEnd =>
    rw [Server.loopStep, unlock_eq (h.loop (by rw [hthread]; rfl))]
    exact ⟨_, rfl⟩
  | callbacksCount i =>
    obtain ⟨hholds, -⟩ := hstocked.serving _ hthread rfl
    rw [Server.loopStep, hholds.deref]
    exact ⟨_, rfl⟩
  | callback i =>
    obtain ⟨hholds, hi, -⟩ := hstocked.serving _ hthread rfl
    rw [Server.loopStep, hholds.deref, bind_ok]
    dsimp only
    rw [List.getElem?_eq_getElem hi]
    exact ⟨_, rfl⟩
  | recv => exact absurd rfl hrecv
  | returned => exact absurd rfl hreturned
  | _ => exact ⟨_, rfl⟩

private theorem enabled_of_thread (h : s.Controlled) (hconnected : s.Connected)
    (hstocked : s.Stocked callbacks) (hthread : s.thread = some phase)
    (hcaller : s.caller.holds = false) (hreturned : phase ≠ .returned) :
    ∃ (op : Op C) (t : Server C), op.Inner ∧ s.step op = .ok t := by
  have hlive : s.freed = false := by
    by_contra hfreed
    exact absurd ((h.freed (Bool.not_eq_false _ ▸ hfreed)).1.symm.trans hthread) nofun
  by_cases hrecv : phase = .recv
  · subst hrecv
    exact ⟨hangUp, _, hangUp_inner, step_hangUp hconnected hthread hlive⟩
  · obtain ⟨t, hstep⟩ := h.loopStep_enabled hstocked hthread hcaller hrecv hreturned
    refine ⟨.loop true, t, nofun, ?_⟩
    rw [Server.step, hthread]
    dsimp only
    rwa [if_neg (by simp [hlive])]

private theorem stopStep_enabled {stopPhase : StopPhase} {frees : Bool} (h : s.Controlled)
    (hcaller : s.caller = .stop stopPhase frees) (hends : stopPhase.asks || stopPhase.joined)
    (hjoin : stopPhase = .join → s.thread = some .returned) :
    ∃ t, s.stopStep frees stopPhase = .ok t := by
  cases stopPhase with
  | lockStop | setStop => cases hends
  | unlockStop | unlockJoined =>
    rw [stopStep, unlock_eq (h.caller (hcaller ▸ rfl))]
    exact ⟨_, rfl⟩
  | join =>
    rw [stopStep, hjoin rfl]
    exact ⟨_, rfl⟩
  | lockJoined =>
    have hunlocked := h.unlocked_of_joined (hcaller ▸ rfl) (hcaller ▸ rfl) (hcaller ▸ rfl)
    rw [stopStep, lock_eq_ok.mpr ⟨hunlocked, rfl⟩]
    exact ⟨_, rfl⟩
  | unsetStop => exact ⟨_, rfl⟩
  | freeMutex =>
    have hunlocked := h.unlocked_of_joined (hcaller ▸ rfl) (hcaller ▸ rfl) (hcaller ▸ rfl)
    rw [stopStep, if_pos hunlocked]
    exact ⟨_, rfl⟩

private theorem Ending.enabled (hending : s.Ending) (h : s.Controlled) (hconnected : s.Connected)
    (hstocked : s.Stocked callbacks) (hbusy : s.caller ≠ .idle) :
    ∃ (op : Op C) (t : Server C), op.Inner ∧ s.step op = .ok t := by
  have hcaller : (∃ t, s.callerStep = .ok t) →
      ∃ (op : Op C) (t : Server C), op.Inner ∧ s.step op = .ok t :=
    fun ⟨t, hstep⟩ => ⟨.caller, t, nofun, hstep⟩
  rw [callerStep] at hcaller
  rw [Ending, h.asks] at hending
  cases hphase : s.caller with
  | idle => exact absurd hphase hbusy
  | storeCallbacks | storeCallback | storeCount | initMutex | startThread =>
    rw [hphase] at hending
    obtain hasks | ⟨-, hfalse⟩ := hending
    · cases hasks
    · exact absurd hfalse id
  | free =>
    have hthread := h.no_thread (hphase ▸ rfl)
    have hdead := h.dead (by rw [hthread, hphase]; rfl)
    apply hcaller
    rw [hphase]
    exact ⟨_, if_neg (by simp [hthread, hdead])⟩
  | stop phase frees =>
    rw [hphase] at hending hcaller
    have hends : phase.asks || phase.joined := by
      obtain hasks | ⟨-, hjoined⟩ := hending
      · exact Bool.or_eq_true_iff.mpr (.inl hasks)
      · exact Bool.or_eq_true_iff.mpr (.inr hjoined)
    by_cases hwaits : phase = .join ∧ s.thread ≠ some .returned
    · obtain ⟨rfl, hreturned⟩ := hwaits
      obtain ⟨l, hthread⟩ := Option.isSome_iff_exists.mp (h.threaded true (hphase ▸ rfl))
      exact enabled_of_thread h hconnected hstocked hthread (hphase ▸ rfl) fun heq =>
        hreturned (hthread.trans (congrArg some heq))
    · refine hcaller (stopStep_enabled h hphase hends fun hjoin => ?_)
      by_contra hreturned
      exact hwaits ⟨hjoin, hreturned⟩

private theorem rank_le (h : s.Controlled) (hasks : s.needToStop = true) (n : ℕ) :
    s.rank n ≤ 21 + 2 * n := by
  have hcaller : s.caller.rank ≤ 7 := by
    have := h.asks
    rw [hasks] at this
    cases hphase : s.caller with
    | stop phase frees =>
      rw [hphase] at this
      cases phase <;> simp [CallerPhase.rank, StopPhase.rank, CallerPhase.asks, StopPhase.asks] at this ⊢
    | _ =>
      rw [hphase] at this
      cases this
  have hthread : s.thread.elim 0 (LoopPhase.rank n) ≤ 14 + 2 * n := by
    cases s.thread with
    | none => exact Nat.zero_le _
    | some phase => cases phase <;> simp [LoopPhase.rank] <;> omega
  rw [rank]
  omega

private theorem accepts_le_one (s : Server C) : s.thread.elim 0 LoopPhase.accepts ≤ 1 := by
  cases s.thread with
  | none => exact Nat.zero_le _
  | some phase => cases phase <;> simp [LoopPhase.accepts]

private theorem sockets_of_loopStep (hsockets : phase.sockets ≤ s.sockets)
    (hthread : s.thread = some phase)
    (hstep : s.loopStep succeeds phase = .ok s') (hthread' : s'.thread = some phase') :
    s'.sockets + phase.sockets = s.sockets + phase'.sockets + s.refused (.loop succeeds) := by
  cases phase with
  | lockRunning | lockHead | lockEnd =>
    obtain ⟨t, hlock, heq⟩ := bind_eq_ok.mp hstep
    obtain ⟨-, rfl⟩ := lock_eq_ok.mp hlock
    cases heq
    cases hthread'
    cases succeeds <;> simp [LoopPhase.sockets, refused, hthread, goto]
  | unlockRunning | unlockHead | unlockBreak | unlockEnd =>
    obtain ⟨t, hlock, heq⟩ := bind_eq_ok.mp hstep
    obtain ⟨-, rfl⟩ := unlock_eq_ok.mp hlock
    cases heq
    cases hthread'
    cases succeeds <;> simp [LoopPhase.sockets, refused, hthread, goto]
  | readStop =>
    cases hstep
    rw [goto] at hthread'
    split_ifs at hthread' <;> cases hthread' <;> cases succeeds <;>
      simp [LoopPhase.sockets, refused, hthread, goto]
  | callbacksCount i =>
    obtain ⟨table, -, heq⟩ := bind_eq_ok.mp hstep
    cases heq
    rw [goto] at hthread'
    split_ifs at hthread' <;> cases hthread' <;> cases succeeds <;>
      simp [LoopPhase.sockets, refused, hthread, goto]
  | callback i =>
    obtain ⟨table, -, heq⟩ := bind_eq_ok.mp hstep
    split at heq
    · cases heq
      cases hthread'
      cases succeeds <;> simp [LoopPhase.sockets, refused, hthread, goto]
    · cases heq
  | inetPton =>
    cases hstep
    cases hany : s.ipModeAny <;> cases succeeds <;> simp [hany, goto] at hthread' ⊢ <;>
      subst hthread' <;> simp [LoopPhase.sockets, refused, hthread, hany]
  | recv | returned => cases hstep
  | _ =>
    cases succeeds <;> cases hstep <;> cases hthread' <;>
      simp [LoopPhase.sockets, refused, hthread, goto, opened, closed] at hsockets ⊢ <;> omega

def held (s : Server C) : ℕ := s.thread.elim 0 LoopPhase.sockets

private theorem sockets_of_recvStep {connection : Connection} (hthread : s.thread = some .recv)
    (hstep : s.recvStep connection = .ok s') : s'.held = s.held ∧ s'.sockets = s.sockets := by
  rw [held, held, hthread]
  rw [recvStep] at hstep
  split at hstep
  case h_1 => cases hstep
  case h_2 =>
    cases hstep
    dsimp only
    rw [hthread]
    exact ⟨rfl, rfl⟩
  case h_3 dataBuffer _ _ _ =>
    cases hstep
    cases dataBuffer <;> exact ⟨rfl, rfl⟩

private theorem sockets_of_step {op : Op C} (hheld : s.held ≤ s.sockets)
    (hstep : s.step op = .ok s') :
    s'.sockets + s.held = s.sockets + s'.held + s.refused op := by
  cases move_of_step hstep with
  | call hidle hlive hmove => cases hmove <;> rfl
  | caller hmove =>
    generalize s.caller = phase at hmove
    cases hmove with
    | startThread hthread | join hthread =>
      rw [held, hthread]
      rfl
    | _ => rfl
  | loop hthread hstep =>
    obtain ⟨phase', hmove⟩ := loopMove_of_loopStep hstep
    rw [held, hthread] at hheld
    rw [held, held, hthread, hmove.thread]
    exact sockets_of_loopStep hheld hthread hstep hmove.thread
  | recv hthread hstep =>
    obtain ⟨hheld', hsockets⟩ := sockets_of_recvStep hthread hstep
    rw [hheld', hsockets]
    rfl

end Server

/-- After `needToStop` has been set, the call and the loop take a bounded number of steps besides
receiving full chunks and accept one more connection at most, and until the call returns there is
always a step to take. -/
theorem stop_ends {ipModeAny : Bool} {ops after : List (Op C)} {s t : Server C}
    (hrun : Run ipModeAny ops s) (hasks : s.needToStop = true) (hinner : ∀ op ∈ after, op.Inner)
    (hsteps : after.foldlM Server.step s = .ok t) :
    (after.map Op.proceeds).sum ≤ 21 + 2 * (pushed ops).length ∧
      spentOn Server.step Server.accepted s after ≤ 1 ∧
      (t.caller = .idle ∨ ∃ (op : Op C) (u : Server C), op.Inner ∧ t.step op = .ok u) := by
  have hclosing : s.Closing (pushed ops) :=
    ⟨.inl hasks, hrun.controlled, hrun.stocked, hrun.connected⟩
  have hranks : ∀ (s : Server C) op s', s.Closing (pushed ops) → s.step op = .ok s' → op ∈ after →
      s'.Closing (pushed ops) ∧
        op.proceeds + s'.rank (pushed ops).length ≤ s.rank (pushed ops).length := by
    intro s op s' h hstep hop
    obtain ⟨-, hrank, -⟩ := Server.rank_of_step h.ending h.controlled h.stocked (hinner op hop) hstep
    exact ⟨h.step (hinner op hop) hstep, hrank⟩
  have haccepts : ∀ (s : Server C) op s', s.Closing (pushed ops) → s.step op = .ok s' →
      op ∈ after → s'.Closing (pushed ops) ∧
        s.accepted op + s'.thread.elim 0 LoopPhase.accepts ≤ s.thread.elim 0 LoopPhase.accepts := by
    intro s op s' h hstep hop
    obtain ⟨-, -, hbudget⟩ := Server.rank_of_step h.ending h.controlled h.stocked (hinner op hop) hstep
    exact ⟨h.step (hinner op hop) hstep, hbudget⟩
  obtain ⟨ht, hspent⟩ := spentOn_add_rank_le (fun _ op => op.proceeds)
    (Server.rank (pushed ops).length) hranks hclosing hsteps
  obtain ⟨-, haccepted⟩ := spentOn_add_rank_le Server.accepted
    (fun s => s.thread.elim 0 LoopPhase.accepts) haccepts hclosing hsteps
  rw [spentOn_map Op.proceeds hsteps] at hspent
  have hrank := Server.rank_le hrun.controlled hasks (pushed ops).length
  have hone := Server.accepts_le_one s
  refine ⟨by omega, by omega, ?_⟩
  by_cases hidle : t.caller = .idle
  · exact .inl hidle
  · exact .inr (ht.ending.enabled ht.controlled ht.connected ht.stocked hidle)

/-- The loop is stopped while it opens its socket. -/
theorem stop_ends_started : ∃ (ops : List (Op ℕ)) (s : Server ℕ), Run true ops s ∧
    s.needToStop = true ∧
      ((List.replicate 3 (Op.loop (C := ℕ) true)).map Op.proceeds).sum ≤ 21 + 2 * (pushed ops).length ∧
      spentOn Server.step Server.accepted s (List.replicate 3 (.loop true)) ≤ 1 := by
  obtain ⟨ops, hstarted, -⟩ := run_started true
  have hstop : Run true (_ ++ [.call .stop true false]) _ := hstarted.call ⟨rfl, nofun⟩ rfl
  have hasked : Run true (_ ++ List.replicate 2 .caller) _ := hstop.inner (caller_inner 2) rfl
  have hends := stop_ends hasked rfl (loop_inner 3 true) rfl
  exact ⟨_, _, hasked, rfl, hends.1, hends.2.1⟩

/-- Without a thread between two calls, the flags are clear, there is no mutex, and the sockets that
are open are those whose address was refused. -/
theorem idle_left {ipModeAny : Bool} {ops : List (Op C)} {s : Server C}
    (hrun : Run ipModeAny ops s) (hidle : s.caller = .idle) (hthread : s.thread = none) :
    s.isRunning = false ∧ s.needToStop = false ∧ ¬s.mutex.Live ∧
      s.sockets = spentOn Server.step Server.refused (Server.new ipModeAny) ops := by
  have hcontrolled := hrun.controlled
  refine ⟨?_, ?_, ?_, ?_⟩
  · rw [hcontrolled.running, hthread]
    rfl
  · rw [hcontrolled.asks, hidle]
    rfl
  · exact hcontrolled.dead (by rw [hthread, hidle]; rfl)
  · have haccount := account_of_run (I := fun s : Server C => s.held ≤ s.sockets) Server.refused
      (fun s => s.sockets - s.held) (fun s op s' hheld hstep => ?_) ?_ hrun.steps
    · rw [Server.held, hthread] at haccount
      exact haccount.trans (Nat.zero_add _)
    · have hsockets := Server.sockets_of_step hheld hstep
      refine ⟨?_, ?_⟩ <;> omega
    · exact Nat.le_refl 0

/-- One address has been refused. -/
theorem idle_left_stopped : ∃ ops, Run false ops stopped ∧ stopped.sockets = 1 ∧
    stopped.sockets = spentOn Server.step Server.refused (Server.new (C := ℕ) false) ops := by
  obtain ⟨ops, hrun⟩ := run_stopped
  exact ⟨ops, hrun, rfl, (idle_left hrun rfl rfl).2.2.2⟩

end Libromano.SocketServer
