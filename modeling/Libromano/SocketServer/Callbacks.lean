/- The callbacks of a socket server: where their block is, and which of them a connection has come
   to. -/

import Libromano.SocketServer.Lifecycle
import Mathlib.Data.List.DropRight

set_option autoImplicit false
set_option relaxedAutoImplicit false

namespace Libromano.SocketServer

open Foundation

variable {C : Type}

def Op.callback? : Op C → Option C
  | .call (.push c) _ _ => some c
  | _ => none

def Op.losesCallbacks : Op C → Bool
  | .call (.push _) granted _ => !granted
  | _ => false

/-- The callbacks that have been pushed since a push failed last, all of them if none has. -/
def pushed (ops : List (Op C)) : List C :=
  (ops.rtakeWhile fun op => !op.losesCallbacks).filterMap Op.callback?

def pushedBy (callbacks : List C) : Op C → List C
  | .call (.push c) granted _ => if granted then callbacks ++ [c] else []
  | _ => callbacks

private theorem pushed_concat (ops : List (Op C)) (op : Op C) :
    pushed (ops ++ [op]) = pushedBy (pushed ops) op := by
  rw [pushed, List.rtakeWhile_concat]
  cases op with
  | call call granted moved =>
    cases call with
    | push c =>
      cases granted with
      | true => exact List.filterMap_append
      | false => rfl
    | start | isRunning | stop | free => exact List.filterMap_append.trans (List.append_nil _)
  | caller | loop | recv => exact List.filterMap_append.trans (List.append_nil _)

namespace Server

variable {s s' : Server C} {callbacks : List C} {table : Table C}

structure Holds (s : Server C) (callbacks : List C) : Prop where
  deref : s.deref = .ok ⟨callbacks, callbacks.length⟩
  nonempty : callbacks ≠ []

def Stored (s : Server C) (callbacks : List C) : CallerPhase C → Prop
  | .storeCallbacks none _ => callbacks = []
  | .storeCallbacks (some p) c => ∃ old : List C,
    s.table = some (p, ⟨old, old.length⟩) ∧ callbacks = old ++ [c]
  | .storeCallback c => ∃ old : List C,
    s.deref = .ok ⟨old, old.length⟩ ∧ callbacks = old ++ [c]
  | .storeCount => ∃ old c, s.deref = .ok ⟨old ++ [c], old.length⟩ ∧ callbacks = old ++ [c]
  | .initMutex | .startThread => s.Holds callbacks
  | .idle | .stop _ _ | .free => s.callbacks = none ∧ callbacks = [] ∨ s.Holds callbacks

def Placed (s : Server C) (callbacks : List C) : LoopPhase → Prop
  | .callbacksCount i => i ≤ callbacks.length ∧ s.called = callbacks.take i
  | .callback i => i < callbacks.length ∧ s.called = callbacks.take i
  | .send => s.called = callbacks
  | .recv => s.called = []
  | _ => True

structure Stocked (s : Server C) (callbacks : List C) : Prop where
  stored : s.freed = false → s.Stored callbacks s.caller
  fresh : ∀ block ∈ s.table, block.1 < s.fresh
  serving : ∀ phase ∈ s.thread, phase.quiet = false →
    s.Holds callbacks ∧ s.Placed callbacks phase

theorem deref_eq_ok : s.deref = .ok table ↔
    ∃ p, s.callbacks = some p ∧ s.table = some (p, table) := by
  rw [Server.deref]
  split
  · simp_all
  · split
    · simp_all
    · split_ifs <;> simp_all [eq_comm]

private theorem Stocked.new (ipModeAny : Bool) : (Server.new (C := C) ipModeAny).Stocked [] where
  stored _ := .inl ⟨rfl, rfl⟩
  fresh := nofun
  serving := nofun

section Loop

variable {phase phase' : LoopPhase} {succeeds : Bool}

theorem deref_congr (hcallbacks : s'.callbacks = s.callbacks) (htable : s'.table = s.table) :
    s'.deref = s.deref := by
  rw [Server.deref, Server.deref, hcallbacks, htable]

private theorem Holds.congr (h : s.Holds callbacks) (hcallbacks : s'.callbacks = s.callbacks)
    (htable : s'.table = s.table) : s'.Holds callbacks :=
  ⟨(deref_congr hcallbacks htable).trans h.deref, h.nonempty⟩

private theorem Stored.congr {caller : CallerPhase C} (h : s.Stored callbacks caller)
    (hcallbacks : s'.callbacks = s.callbacks) (htable : s'.table = s.table) :
    s'.Stored callbacks caller := by
  have hderef : s'.deref = s.deref := deref_congr hcallbacks htable
  cases caller with
  | storeCallbacks block c =>
    cases block with
    | none => exact h
    | some p =>
      obtain ⟨old, hblock, hold⟩ := h
      exact ⟨old, htable.trans hblock, hold⟩
  | storeCallback c =>
    obtain ⟨old, hblock, hold⟩ := h
    exact ⟨old, hderef.trans hblock, hold⟩
  | storeCount =>
    obtain ⟨old, c, hblock, hold⟩ := h
    exact ⟨old, c, hderef.trans hblock, hold⟩
  | initMutex | startThread => exact Holds.congr h hcallbacks htable
  | idle | stop | free =>
    obtain ⟨hnull, hempty⟩ | hholds := h
    · exact .inl ⟨hcallbacks.trans hnull, hempty⟩
    · exact .inr (hholds.congr hcallbacks htable)

private theorem placed_of_loopStep (hholds : s.Holds callbacks) (hplaced : s.Placed callbacks phase)
    (hstep : s.loopStep succeeds phase = .ok s') (hthread' : s'.thread = some phase') :
    s'.Placed callbacks phase' := by
  cases phase with
  | callbacksCount i =>
    obtain ⟨hi, hcalled⟩ := hplaced
    obtain ⟨table, hderef, heq⟩ := bind_eq_ok.mp hstep
    obtain rfl := Except.ok.inj (hholds.deref.symm.trans hderef)
    cases heq
    by_cases hlt : i < callbacks.length
    · rw [if_pos hlt] at hthread' ⊢
      cases hthread'
      exact ⟨hlt, hcalled⟩
    · rw [if_neg hlt] at hthread' ⊢
      cases hthread'
      exact hcalled.trans (List.take_of_length_le (Nat.le_of_not_lt hlt))
  | callback i =>
    obtain ⟨hi, hcalled⟩ := hplaced
    obtain ⟨table, hderef, heq⟩ := bind_eq_ok.mp hstep
    obtain rfl := Except.ok.inj (hholds.deref.symm.trans hderef)
    have hentry : callbacks[i]? = some callbacks[i] := List.getElem?_eq_getElem hi
    rw [hentry] at heq
    cases heq
    cases hthread'
    refine ⟨hi, ?_⟩
    change s.called ++ [callbacks[i]] = callbacks.take (i + 1)
    rw [hcalled, List.take_add_one, hentry]
    rfl
  | lockRunning | lockHead | lockEnd | unlockRunning | unlockHead | unlockBreak | unlockEnd =>
    obtain ⟨t, -, heq⟩ := bind_eq_ok.mp hstep
    cases heq
    cases hthread'
    trivial
  | readStop =>
    cases hstep
    rw [goto] at hthread'
    split_ifs at hthread' <;> cases hthread' <;> trivial
  | inetPton =>
    cases hstep
    cases hany : s.ipModeAny || succeeds <;> rw [hany] at hthread' <;> cases hthread' <;> trivial
  | recv | returned => cases hstep
  | accept => cases succeeds <;> cases hstep <;> cases hthread' <;> trivial
  | socketNew | bind | listen | logError | setRunning | select | send | removeConnection
  | socketFree | unsetRunning => cases succeeds <;> cases hstep <;> cases hthread' <;> trivial

private theorem placed_of_recvStep {connection : Connection} (hthread : s.thread = some .recv)
    (hplaced : s.Placed callbacks .recv) (hstep : s.recvStep connection = .ok s')
    (hthread' : s'.thread = some phase') : s'.Placed callbacks phase' := by
  rw [recvStep] at hstep
  split at hstep
  case h_1 => cases hstep
  case h_2 =>
    cases hstep
    obtain rfl := Option.some.inj (hthread.symm.trans hthread')
    exact hplaced
  case h_3 dataBuffer _ _ _ =>
    cases hstep
    cases dataBuffer with
    | some _ =>
      cases hthread'
      exact ⟨Nat.zero_le _, hplaced⟩
    | none =>
      cases hthread'
      trivial

private theorem Stocked.loopMove (h : s.Stocked callbacks) (hthread : s.thread = some phase)
    (hmove : LoopMove s s' phase phase')
    (hplaced : s.Holds callbacks → s.Placed callbacks phase → s'.Placed callbacks phase') :
    s'.Stocked callbacks := by
  refine ⟨fun hlive => ?_, ?_, ?_⟩
  · rw [hmove.freed] at hlive
    rw [hmove.caller]
    exact (h.stored hlive).congr hmove.callbacks hmove.table
  · rw [hmove.table, hmove.fresh]
    exact h.fresh
  · rw [hmove.thread]
    rintro _ ⟨⟩ hquiet'
    have hquiet : phase.quiet = false := by
      by_contra hquiet
      have := hmove.quiet (Bool.not_eq_false _ ▸ hquiet)
      exact absurd (hquiet'.symm.trans this) nofun
    obtain ⟨hholds, hplace⟩ := h.serving phase hthread hquiet
    exact ⟨hholds.congr hmove.callbacks hmove.table, hplaced hholds hplace⟩

end Loop

private theorem Stocked.not_holds (h : s.Stocked callbacks) (hlive : s.freed = false) :
    match s.caller with
    | .storeCallbacks _ _ | .storeCallback _ | .storeCount => ¬s.Holds callbacks
    | _ => True := by
  have hstored := h.stored hlive
  split
  · rename_i block c hcaller
    rw [hcaller] at hstored
    intro hholds
    cases block with
    | none => exact hholds.nonempty hstored
    | some p =>
      obtain ⟨old, htable, rfl⟩ := hstored
      obtain ⟨q, -, hblock⟩ := deref_eq_ok.mp hholds.deref
      rw [htable] at hblock
      simp at hblock
  · rename_i c hcaller
    rw [hcaller] at hstored
    intro hholds
    obtain ⟨old, hderef, rfl⟩ := hstored
    have hblock := Except.ok.inj (hderef.symm.trans hholds.deref)
    simp at hblock
  · rename_i hcaller
    rw [hcaller] at hstored
    intro hholds
    obtain ⟨old, c, hderef, rfl⟩ := hstored
    have hblock := Except.ok.inj (hderef.symm.trans hholds.deref)
    simp at hblock
  · trivial

private theorem Stocked.keeps {callbacks' : List C} (h : s.Stocked callbacks)
    (hthread : s'.thread = s.thread) (hcalled : s'.called = s.called)
    (hstored : s'.freed = false → s'.Stored callbacks' s'.caller)
    (hfresh : ∀ block ∈ s'.table, block.1 < s'.fresh)
    (hserving : s.thread.all LoopPhase.quiet = true ∨
      callbacks' = callbacks ∧ s'.callbacks = s.callbacks ∧ s'.table = s.table) :
    s'.Stocked callbacks' := by
  refine ⟨hstored, hfresh, ?_⟩
  rw [hthread]
  intro phase hphase hquiet
  obtain hall | ⟨rfl, hcallbacks, htable⟩ := hserving
  · rw [Option.mem_def.mp hphase] at hall
    exact absurd (hquiet.symm.trans hall) nofun
  · obtain ⟨hholds, hplaced⟩ := h.serving phase hphase hquiet
    refine ⟨hholds.congr hcallbacks htable, ?_⟩
    cases phase <;> simp_all [Placed]

private theorem Stocked.callMove {call : Call C} {granted moved : Bool} (h : s.Stocked callbacks)
    (hidle : s.caller = .idle) (hallows : s.Allows call)
    (hmove : CallMove s call granted moved s') :
    s'.Stocked (pushedBy callbacks (.call call granted moved)) := by
  have hlive : s.freed = false := by
    cases call <;> first | exact hallows | exact hallows.1
  have hstored : s.callbacks = none ∧ callbacks = [] ∨ s.Holds callbacks := by
    have := h.stored hlive
    rwa [hidle] at this
  have hold : ∀ table, s.deref = .ok table → table = ⟨callbacks, callbacks.length⟩ := by
    intro table hderef
    obtain ⟨hnull, -⟩ | hholds := hstored
    · obtain ⟨p, hp, -⟩ := deref_eq_ok.mp hderef
      exact absurd (hnull.symm.trans hp) nofun
    · exact Except.ok.inj (hderef.symm.trans hholds.deref)
  have hsame : ∀ phase, s.Stored callbacks phase →
      Stocked { s with caller := phase } callbacks :=
    fun phase hphase =>
      h.keeps rfl rfl (fun _ => hphase.congr rfl rfl) h.fresh (.inr ⟨rfl, rfl, rfl⟩)
  cases hmove with
  | first hnull =>
    obtain rfl : callbacks = [] := by
      obtain ⟨-, hempty⟩ | hholds := hstored
      · exact hempty
      · obtain ⟨p, hp, -⟩ := deref_eq_ok.mp hholds.deref
        exact absurd (hnull.symm.trans hp) nofun
    refine h.keeps rfl rfl (fun _ => ⟨[], rfl, rfl⟩) ?_ (.inl hallows.2)
    rintro _ ⟨⟩
    exact Nat.lt_succ_self _
  | moved hderef =>
    obtain rfl := hold _ hderef
    refine h.keeps rfl rfl (fun _ => ⟨callbacks, rfl, rfl⟩) ?_ (.inl hallows.2)
    rintro _ ⟨⟩
    exact Nat.lt_succ_self _
  | extended hcallbacks hderef =>
    obtain rfl := hold _ hderef
    obtain ⟨q, hq, htable⟩ := deref_eq_ok.mp hderef
    obtain rfl := Option.some.inj (hcallbacks.symm.trans hq)
    exact h.keeps rfl rfl (fun _ => ⟨callbacks, htable, rfl⟩) h.fresh (.inl hallows.2)
  | refused => exact h.keeps rfl rfl (fun _ => rfl) h.fresh (.inl hallows.2)
  | start hrunning =>
    apply hsame
    obtain ⟨-, hflag | ⟨-, hcallbacks⟩⟩ := hallows
    · exact absurd (hrunning.symm.trans hflag) nofun
    · obtain ⟨hnull, -⟩ | hholds := hstored
      · exact absurd hnull hcallbacks
      · exact hholds
  | started | isRunning => exact h
  | stop | stopFirst | free => exact hsame _ hstored

private theorem Stocked.fresh_map (h : s.Stocked callbacks) (table : Table C) :
    ∀ block ∈ s.table.map fun block => (block.1, table), block.1 < s.fresh := by
  intro block hblock
  obtain ⟨old, hold, rfl⟩ := Option.map_eq_some_iff.mp hblock
  exact h.fresh old hold

private theorem Stocked.callerMove (h : s.Stocked callbacks) (hlive : s.freed = false)
    (hmove : CallerMove s s.caller s') : s'.Stocked callbacks := by
  have hstored := h.stored hlive
  have hpushing := h.not_holds hlive
  generalize hphase : s.caller = phase at hmove hstored hpushing
  have hquiet : ¬s.Holds callbacks → s.thread.all LoopPhase.quiet = true := by
    intro hholds
    rw [Option.all_eq_true]
    intro phase hthread
    by_contra hserves
    exact hholds (h.serving phase hthread (Bool.eq_false_iff.mpr hserves)).1
  cases hmove with
  | forget =>
    exact h.keeps rfl rfl (fun _ => .inl ⟨rfl, hstored⟩) nofun (.inl (hquiet hpushing))
  | storeCallbacks =>
    obtain ⟨old, htable, hold⟩ := hstored
    exact h.keeps rfl rfl (fun _ => ⟨old, deref_eq_ok.mpr ⟨_, rfl, htable⟩, hold⟩) h.fresh
      (.inl (hquiet hpushing))
  | storeCallback hderef =>
    obtain ⟨old, hblock, hold⟩ := hstored
    obtain rfl := Except.ok.inj (hblock.symm.trans hderef)
    obtain ⟨p, hcallbacks, htable⟩ := deref_eq_ok.mp hderef
    refine h.keeps rfl rfl (fun _ => ⟨old, _, ?_, hold⟩) (h.fresh_map _)
      (.inl (hquiet hpushing))
    exact deref_eq_ok.mpr ⟨p, hcallbacks, congrArg (Option.map _) htable⟩
  | storeCount hderef =>
    obtain ⟨old, c, hblock, rfl⟩ := hstored
    obtain rfl := Except.ok.inj (hblock.symm.trans hderef)
    obtain ⟨p, hcallbacks, htable⟩ := deref_eq_ok.mp hderef
    refine h.keeps rfl rfl (fun _ => .inr ⟨?_, by simp⟩) (h.fresh_map _)
      (.inl (hquiet hpushing))
    rw [List.length_append, List.length_singleton]
    exact deref_eq_ok.mpr ⟨p, hcallbacks, congrArg (Option.map _) htable⟩
  | initMutex hdead =>
    exact h.keeps rfl rfl (fun _ => Holds.congr hstored rfl rfl) h.fresh (.inr ⟨rfl, rfl, rfl⟩)
  | startThread hthread =>
    have hholds : Holds { s with thread := some .socketNew, caller := .idle } callbacks :=
      Holds.congr hstored rfl rfl
    refine ⟨fun _ => .inr hholds, h.fresh, ?_⟩
    rintro _ ⟨⟩ -
    exact ⟨hholds, trivial⟩
  | join hthread => exact ⟨fun _ => hstored.congr rfl rfl, h.fresh, nofun⟩
  | free hthread hdead => exact h.keeps rfl rfl nofun nofun (.inl (hthread ▸ rfl))
  | freeMutex hmutex =>
    rename_i frees
    cases frees <;>
      exact h.keeps rfl rfl (fun _ => hstored.congr rfl rfl) h.fresh (.inr ⟨rfl, rfl, rfl⟩)
  | lockStop | setStop | unlockStop | lockJoined | unsetStop | unlockJoined =>
    exact h.keeps rfl rfl (fun _ => hstored.congr rfl rfl) h.fresh (.inr ⟨rfl, rfl, rfl⟩)

theorem Stocked.step {op : Op C} (h : s.Stocked callbacks) (hcontrolled : s.Controlled)
    (hpermits : s.Permits op) (hstep : s.step op = .ok s') :
    s'.Stocked (pushedBy callbacks op) := by
  cases move_of_step hstep with
  | call hidle hlive hmove => exact h.callMove hidle (hpermits.2 _ _ _ rfl) hmove
  | caller hmove =>
    refine h.callerMove (hcontrolled.live fun hidle => ?_) hmove
    rw [hidle] at hmove
    cases hmove
  | loop hthread hstep =>
    obtain ⟨phase', hmove⟩ := loopMove_of_loopStep hstep
    exact h.loopMove hthread hmove fun hholds hplaced =>
      placed_of_loopStep hholds hplaced hstep hmove.thread
  | recv hthread hstep =>
    obtain ⟨phase', hmove⟩ := loopMove_of_recvStep (receiving_ne_nil _ _ _) hthread hstep
    exact h.loopMove hthread hmove fun _ hplaced =>
      placed_of_recvStep hthread hplaced hstep hmove.thread

end Server

theorem Run.stocked {ipModeAny : Bool} {ops : List (Op C)} {s : Server C}
    (hrun : Run ipModeAny ops s) : s.Stocked (pushed ops) := by
  induction hrun with
  | new => exact .new ipModeAny
  | step hrun hpermits hstep ih =>
    rw [pushed_concat]
    exact ih.step hrun.controlled hpermits hstep

/-- Each connection that is answered has been through the callbacks that have been pushed since a push
failed last, in the order in which they were pushed. -/
theorem called_eq_pushed {ipModeAny : Bool} {ops : List (Op C)} {s : Server C}
    (hrun : Run ipModeAny ops s) (hsend : s.thread = some .send) : s.called = pushed ops :=
  (hrun.stocked.serving .send hsend rfl).2

def started (ipModeAny : Bool) : Server ℕ :=
  { Server.new ipModeAny with
    callbacks := some 2
    table := some (2, ⟨[7, 8], 2⟩)
    fresh := 3
    mutex := .unlocked
    thread := some .socketNew }

theorem run_started (ipModeAny : Bool) :
    ∃ ops, Run ipModeAny ops (started ipModeAny) ∧ ops.any Op.losesCallbacks = true := by
  have hlost : Run ipModeAny ([] ++ [.call (.push 6) true false]) _ := Run.new.call ⟨rfl, rfl⟩ rfl
  have hstored : Run ipModeAny (_ ++ List.replicate 3 .caller) _ := hlost.inner (caller_inner 3) rfl
  have hfails : Run ipModeAny (_ ++ [.call (.push 5) false false]) _ := hstored.call ⟨rfl, rfl⟩ rfl
  have hfailed : Run ipModeAny (_ ++ List.replicate 1 .caller) _ := hfails.inner (caller_inner 1) rfl
  have hfirst : Run ipModeAny (_ ++ [.call (.push 7) true false]) _ := hfailed.call ⟨rfl, rfl⟩ rfl
  have hone : Run ipModeAny (_ ++ List.replicate 3 .caller) _ := hfirst.inner (caller_inner 3) rfl
  have hsecond : Run ipModeAny (_ ++ [.call (.push 8) true true]) _ := hone.call ⟨rfl, rfl⟩ rfl
  have htwo : Run ipModeAny (_ ++ List.replicate 3 .caller) _ := hsecond.inner (caller_inner 3) rfl
  have hstart : Run ipModeAny (_ ++ [.call .start true false]) _ :=
    htwo.call ⟨rfl, .inr ⟨rfl, nofun⟩⟩ rfl
  exact ⟨_, hstart.inner (caller_inner 2) rfl, rfl⟩

theorem called_eq_pushed_two : ∃ (ops : List (Op ℕ)) (s : Server ℕ),
    Run true ops s ∧ s.called = pushed ops ∧ s.called = [7, 8] := by
  obtain ⟨ops, hstarted, -⟩ := run_started true
  have haccepted : Run true (_ ++ List.replicate 12 (.loop true)) _ :=
    hstarted.inner (loop_inner 12 true) rfl
  have hreceived : Run true (_ ++ [hangUp]) _ := haccepted.inner
    (List.forall_mem_singleton.mpr hangUp_inner)
    (Ranks.run_cons.mpr ⟨_, step_hangUp haccepted.connected rfl rfl, rfl⟩)
  have hcalled : Run true (_ ++ List.replicate 5 (.loop true)) _ :=
    hreceived.inner (loop_inner 5 true) rfl
  exact ⟨_, _, hcalled, called_eq_pushed hcalled rfl, rfl⟩

end Libromano.SocketServer
