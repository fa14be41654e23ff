/- The logger of `logger.c` and its lock, under calls of any threads. What is done under the lock
   is one step; the texts and times of the lines are left out. -/

import Libromano.Fault
import Libromano.Foundation.Objects
import Mathlib.Algebra.Order.Ring.Nat
import Mathlib.Logic.Function.Basic

set_option autoImplicit false
set_option relaxedAutoImplicit false

namespace Libromano.Logging

open Foundation.Objects

inductive Stream
  | stdout
  | stderr
  | file
  deriving DecidableEq, Repr

structure Logger where
  lock : Bool
  initialized : Bool
  loglevel : ℕ
  /-- `LogMode_Console` -/
  console : Bool
  /-- `LogMode_File` -/
  file : Bool
  /-- `g_log_file` is not `NULL`. -/
  logFile : Bool
  lines : List (Stream × ℕ)
  deriving DecidableEq, Repr

inductive Call
  | init
  | setLevel (level : ℕ)
  | enableConsole
  | disableConsole
  | enableFile
  | disableFile
  | log (level : ℕ)
  | release
  deriving DecidableEq, Repr

def loggerSetLevel (logger : Logger) (level : ℕ) : Logger :=
  { logger with loglevel := if level < 5 then level else 4 }

/-- `fopen` may fail. -/
def loggerEnableFile (logger : Logger) (opened : Bool) : Logger :=
  { logger with file := true, logFile := opened }

def loggerDisableFile (logger : Logger) : Logger := { logger with file := false, logFile := false }

/-- The streams to which a message goes. The file is not tested for. -/
def loggerLog (logger : Logger) (level : ℕ) : Except Fault Logger :=
  let level := if level < 5 then level else 4
  if level ≤ logger.loglevel then
    let outputStream := if level = 1 ∨ level = 0 then Stream.stderr else .stdout
    let lines := if logger.console then logger.lines ++ [(outputStream, level)] else logger.lines
    if logger.file then
      if logger.logFile then .ok { logger with lines := lines ++ [(Stream.file, level)] }
      else .error .nullPointer
    else .ok { logger with lines }
  else .ok logger

/-- What a function does once it has the lock, and whether it goes on to release it. -/
def Call.body (call : Call) (opened : Bool) (logger : Logger) : Except Fault (Logger × Bool) :=
  match call with
  | .init =>
    if logger.initialized then .ok (logger, false)
    else .ok ({ logger with initialized := true }, true)
  | .setLevel level => .ok (loggerSetLevel logger level, true)
  | .enableConsole => .ok ({ logger with console := true }, true)
  | .disableConsole => .ok ({ logger with console := false }, true)
  | .enableFile => .ok (loggerEnableFile logger opened, true)
  | .disableFile => .ok (loggerDisableFile logger, true)
  | .log level => do
    let logger ← loggerLog logger level
    .ok (logger, true)
  | .release => .ok ({ logger with logFile := false }, true)

/-- Where a call is: before the lock, at what it guards, and before the release. -/
inductive Phase
  | acquiring
  | inside
  | releasing
  deriving DecidableEq, Repr

structure State (T : Type) where
  logger : Logger
  running : T → Option (Call × Phase)

inductive Event (T : Type)
  | call (t : T) (call : Call)
  | acquire (t : T)
  | spin (t : T)
  | body (t : T) (opened : Bool)
  | release (t : T)

/-- A step that a thread cannot take, or one that crashes. -/
inductive Stop
  | notEnabled
  | fault (fault : Fault)

variable {T : Type} [DecidableEq T]

def State.set (s : State T) (logger : Logger) (t : T) (at_ : Option (Call × Phase)) : State T :=
  ⟨logger, Function.update s.running t at_⟩

def step (s : State T) : Event T → Except Stop (State T)
  | .call t call =>
    match s.running t with
    | none => .ok (s.set s.logger t (some (call, .acquiring)))
    | some _ => .error .notEnabled
  | .acquire t =>
    match s.running t, s.logger.lock with
    | some (call, .acquiring), false =>
      .ok (s.set { s.logger with lock := true } t (some (call, .inside)))
    | _, _ => .error .notEnabled
  | .spin t =>
    match s.running t, s.logger.lock with
    | some (_, .acquiring), true => .ok s
    | _, _ => .error .notEnabled
  | .body t opened =>
    match s.running t with
    | some (call, .inside) =>
      match call.body opened s.logger with
      | .error fault => .error (.fault fault)
      | .ok (logger, true) => .ok (s.set logger t (some (call, .releasing)))
      | .ok (logger, false) => .ok (s.set logger t none)
    | _ => .error .notEnabled
  | .release t =>
    match s.running t with
    | some (_, .releasing) => .ok (s.set { s.logger with lock := false } t none)
    | _ => .error .notEnabled

/-- The console is enabled at first, up to the level of information. -/
def start : State T := ⟨⟨false, false, 3, true, false, false, []⟩, fun _ => none⟩

/-- The call of the thread is between the two functions of the lock. -/
def State.Holds (s : State T) (t : T) : Prop :=
  ∃ call phase, s.running t = some (call, phase) ∧ phase ≠ .acquiring

/-- A lock that is held is held by a running call. -/
def Held (s : State T) : Prop := s.logger.lock = true → ∃ t, s.Holds t

structure Exclusive (s : State T) : Prop where
  held : s.logger.lock = true ↔ ∃ t, s.Holds t
  unique : ∀ t t', s.Holds t → s.Holds t' → t = t'

/-- The call does not find the logger initialised when it wants to do so. -/
def NotAgain (s : State T) : Event T → Prop
  | .body t _ => s.running t = some (.init, .inside) → s.logger.initialized = false
  | _ => True

/-- No message goes to the file while there is none. -/
def WithFile (s : State T) : Event T → Prop
  | .body t _ => ∀ level, s.running t = some (.log level, .inside) →
    (if level < 5 then level else 4) ≤ s.logger.loglevel → s.logger.file = true →
      s.logger.logFile = true
  | _ => True

/-- The step does not end the call in a fault. -/
def Safe (s : State T) (event : Event T) : Prop := ∀ fault, step s event ≠ .error (.fault fault)

variable {s s' : State T} {t t' : T} {logger : Logger} {call : Call} {opened : Bool}

private theorem holds_set_iff {at_ : Option (Call × Phase)} :
    (s.set logger t at_).Holds t' ↔
      if t' = t then ∃ call phase, at_ = some (call, phase) ∧ phase ≠ .acquiring else s.Holds t' := by
  unfold State.Holds State.set
  by_cases ht : t' = t
  · subst ht
    simp
  · simp [ht]

omit [DecidableEq T] in
private theorem Exclusive.not_holds (h : Exclusive s) (ht : s.Holds t) (hne : t' ≠ t) :
    ¬s.Holds t' :=
  fun ht' => hne (h.unique t' t ht' ht)

private theorem Exclusive.wait (h : Exclusive s) {at_ : Option (Call × Phase)} (hfree : ¬s.Holds t)
    (hat : ∀ call phase, at_ = some (call, phase) → phase = .acquiring) :
    Exclusive (s.set s.logger t at_) := by
  have hsame : ∀ t', (s.set s.logger t at_).Holds t' ↔ s.Holds t' := by
    intro t'
    rw [holds_set_iff]
    split
    case isTrue ht =>
      subst ht
      refine iff_of_false ?_ hfree
      rintro ⟨call, phase, hsome, hne⟩
      exact hne (hat call phase hsome)
    case isFalse => exact Iff.rfl
  refine ⟨h.held.trans (exists_congr fun t' => (hsame t').symm), ?_⟩
  intro t₁ t₂ h₁ h₂
  exact h.unique t₁ t₂ ((hsame t₁).mp h₁) ((hsame t₂).mp h₂)

private theorem Exclusive.of_holds (hlock : logger.lock = true) {phase : Phase}
    (hphase : phase ≠ .acquiring)
    (hothers : ∀ t', t' ≠ t → ¬s.Holds t') :
    Exclusive (s.set logger t (some (call, phase))) := by
  have hiff : ∀ t', (s.set logger t (some (call, phase))).Holds t' ↔ t' = t := by
    intro t'
    rw [holds_set_iff]
    split
    case isTrue ht => exact iff_of_true ⟨call, phase, rfl, hphase⟩ ht
    case isFalse ht => exact iff_of_false (hothers t' ht) ht
  refine ⟨iff_of_true hlock ⟨t, (hiff t).mpr rfl⟩, ?_⟩
  intro t₁ t₂ h₁ h₂
  exact ((hiff t₁).mp h₁).trans ((hiff t₂).mp h₂).symm

private theorem Exclusive.not_holds_set (h : Exclusive s) (ht : s.Holds t) (t' : T) :
    ¬(s.set logger t none).Holds t' := by
  rw [holds_set_iff]
  split
  case isTrue =>
    rintro ⟨call, phase, hsome, -⟩
    cases hsome
  case isFalse hne => exact h.not_holds ht hne

private theorem loggerLog_lock {level : ℕ} {logger' : Logger}
    (h : loggerLog logger level = .ok logger') :
    logger'.lock = logger.lock := by
  unfold loggerLog at h
  dsimp only at h
  generalize (if level < 5 then level else 4) = level at h
  generalize (if logger.console then _ else logger.lines) = lines at h
  split at h
  case isFalse =>
    cases h
    rfl
  case isTrue =>
    split at h
    case isFalse =>
      cases h
      rfl
    case isTrue =>
      split at h
      · cases h
        rfl
      · cases h

private theorem loggerLog_error_iff {level : ℕ} {fault : Fault} :
    loggerLog logger level = .error fault ↔ fault = .nullPointer ∧
      (if level < 5 then level else 4) ≤ logger.loglevel ∧ logger.file = true ∧
        logger.logFile = false := by
  unfold loggerLog
  dsimp only
  generalize (if level < 5 then level else 4) = level
  split_ifs with hlevel hfile hopen
  · exact iff_of_false nofun fun h => nomatch hopen.symm.trans h.2.2.2
  · rw [Except.error.injEq, eq_comm]
    exact (and_iff_left ⟨hlevel, hfile, Bool.eq_false_of_not_eq_true hopen⟩).symm
  · exact iff_of_false nofun fun h => hfile h.2.2.1
  · exact iff_of_false nofun fun h => hlevel h.2.1

private theorem body_error {fault : Fault} (h : call.body opened logger = .error fault) :
    ∃ level, call = .log level ∧ loggerLog logger level = .error fault := by
  cases call with
  | log level =>
    refine ⟨level, rfl, ?_⟩
    change loggerLog logger level >>= (fun logger => .ok (logger, true)) = _ at h
    cases hlog : loggerLog logger level with
    | error fault' =>
      rw [hlog, bind_error] at h
      cases h
      rfl
    | ok logger' =>
      rw [hlog, bind_ok] at h
      cases h
  | init =>
    unfold Call.body at h
    dsimp only at h
    split at h <;> cases h
  | setLevel | enableConsole | disableConsole | enableFile | disableFile | release => cases h

private theorem body_ok {logger' : Logger} {goesOn : Bool}
    (h : call.body opened logger = .ok (logger', goesOn)) :
    logger'.lock = logger.lock ∧ (goesOn = false ↔ call = .init ∧ logger.initialized = true) := by
  cases call with
  | init =>
    unfold Call.body at h
    dsimp only at h
    split at h
    · cases h
      simp [*]
    · cases h
      simp [*]
  | log level =>
    obtain ⟨logger'', hlog, h⟩ := bind_eq_ok.mp h
    cases h
    exact ⟨loggerLog_lock hlog, by simp⟩
  | setLevel | enableConsole | disableConsole | enableFile | disableFile | release =>
    cases h
    exact ⟨rfl, by simp⟩

/-- A step that a thread takes when it may, and that does not find the logger initialised when it
wants to do so. -/
private theorem Exclusive.step (h : Exclusive s) {event : Event T} (hfits : NotAgain s event)
    (hstep : step s event = .ok s') : Exclusive s' := by
  unfold Logging.step at hstep
  cases event with
  | call t call =>
    dsimp only at hstep
    split at hstep
    case h_2 => cases hstep
    case h_1 hnone =>
      cases hstep
      refine h.wait ?_ fun call phase hsome => by cases hsome; rfl
      rintro ⟨call, phase, hsome, -⟩
      cases hnone.symm.trans hsome
  | acquire t =>
    dsimp only at hstep
    split at hstep
    case h_2 => cases hstep
    case h_1 hlock =>
      cases hstep
      apply Exclusive.of_holds rfl (by decide)
      intro t' _ ht'
      have htrue := h.held.mpr ⟨t', ht'⟩
      cases hlock.symm.trans htrue
  | spin t =>
    dsimp only at hstep
    split at hstep
    · cases hstep
      exact h
    · cases hstep
  | body t opened =>
    dsimp only at hstep
    split at hstep
    case h_2 => cases hstep
    case h_1 call hrunning =>
      have hholds : s.Holds t := ⟨call, .inside, hrunning, by decide⟩
      have hlock : s.logger.lock = true := h.held.mpr ⟨t, hholds⟩
      split at hstep
      case h_1 => cases hstep
      case h_2 logger hbody =>
        cases hstep
        have hsame := (body_ok hbody).1
        exact Exclusive.of_holds (hsame.trans hlock) (by decide) fun t' => h.not_holds hholds
      case h_3 logger hbody =>
        obtain ⟨hinit, htrue⟩ := (body_ok hbody).2.mp rfl
        subst hinit
        cases (hfits hrunning).symm.trans htrue
  | release t =>
    dsimp only at hstep
    split at hstep
    case h_2 => cases hstep
    case h_1 call hrunning =>
      cases hstep
      have hnone (t' : T) : ¬(s.set { s.logger with lock := false } t none).Holds t' :=
        h.not_holds_set ⟨call, .releasing, hrunning, by decide⟩ t'
      refine ⟨iff_of_false (by simp [State.set]) fun ⟨t', ht'⟩ => hnone t' ht', ?_⟩
      exact fun t₁ t₂ h₁ => absurd h₁ (hnone t₁)

private theorem Exclusive.again (h : Exclusive s) {event : Event T} (hagain : ¬NotAgain s event) :
    ∃ s', Logging.step s event = .ok s' ∧ ¬Held s' := by
  cases event with
  | body t opened =>
    obtain ⟨hrunning, hinit⟩ := Classical.not_imp.mp hagain
    have hinit : s.logger.initialized = true := by simpa using hinit
    have hholds : s.Holds t := ⟨.init, .inside, hrunning, by decide⟩
    refine ⟨s.set s.logger t none, by simp [Logging.step, hrunning, Call.body, hinit], ?_⟩
    intro hheld
    obtain ⟨t', ht'⟩ := hheld (h.held.mpr ⟨t, hholds⟩)
    exact h.not_holds_set hholds t' ht'
  | call | acquire | spin | release => exact absurd trivial hagain

omit [DecidableEq T] in
private theorem start_exclusive : Exclusive (start : State T) := by
  have hnone : ∀ t, ¬(start : State T).Holds t := by
    rintro t ⟨call, phase, hsome, -⟩
    cases hsome
  exact ⟨iff_of_false Bool.false_ne_true fun ⟨t, ht⟩ => hnone t ht, fun t t' ht => absurd ht (hnone t)⟩

private theorem step_body (hrunning : s.running t = some (call, .inside)) :
    step s (.body t opened) =
      match call.body opened s.logger with
      | .error fault => .error (.fault fault)
      | .ok (logger, true) => .ok (s.set logger t (some (call, .releasing)))
      | .ok (logger, false) => .ok (s.set logger t none) := by
  simp only [step, hrunning]

private theorem body_of_fault {event : Event T} {fault : Fault}
    (h : step s event = .error (.fault fault)) :
    ∃ t opened call, event = .body t opened ∧ s.running t = some (call, .inside) ∧
      call.body opened s.logger = .error fault := by
  unfold step at h
  cases event with
  | body t opened =>
    dsimp only at h
    split at h
    case h_1 call hrunning =>
      split at h
      case h_1 fault' hbody =>
        cases h
        exact ⟨t, opened, call, rfl, hrunning, hbody⟩
      case h_2 => cases h
      case h_3 => cases h
    case h_2 => cases h
  | call | acquire | spin | release =>
    dsimp only at h
    split at h <;> cases h

private theorem safe_iff {event : Event T} : Safe s event ↔ WithFile s event := by
  constructor
  · intro h
    cases event with
    | body t opened =>
      intro level hrunning hlevel hfile
      by_contra hopen
      have hlog : loggerLog s.logger level = .error .nullPointer :=
        loggerLog_error_iff.mpr ⟨rfl, hlevel, hfile, Bool.eq_false_of_not_eq_true hopen⟩
      have hbody : (Call.log level).body opened s.logger = .error .nullPointer := by
        rw [Call.body, hlog]
        rfl
      exact h .nullPointer (by rw [step_body hrunning, hbody])
    | call | acquire | spin | release => exact trivial
  · intro h fault hstep
    obtain ⟨t, opened, call, rfl, hrunning, hbody⟩ := body_of_fault hstep
    obtain ⟨level, rfl, hlog⟩ := body_error hbody
    obtain ⟨-, hlevel, hfile, hopen⟩ := loggerLog_error_iff.mp hlog
    cases hopen.symm.trans (h level hrunning hlevel hfile)

/-- No call ends in a fault, and a lock that is held is held by a running call, just as long as no
`logger_init` finds the logger initialised and no message goes to a file that is not there. -/
theorem start_held_iff (events : List (Event T)) :
    Throughout step Held (start : State T) events ∧ Along step Safe (start : State T) events ↔
      Along step (fun s event => NotAgain s event ∧ WithFile s event) (start : State T) events := by
  have hheld : Throughout step Held (start : State T) events ↔ Along step NotAgain start events := by
    refine throughout_iff_along (I := Exclusive) (fun s h => h.held.mp) ?_ ?_ start_exclusive
    · exact fun s event s' h hfits hstep => h.step hfits hstep
    · exact fun s event h hagain => h.again hagain
  have hsafe : Along step Safe (start : State T) events ↔ Along step WithFile start events :=
    along_congr (I := fun _ => True) (fun _ _ _ => safe_iff) (fun _ _ _ _ _ => trivial) trivial
  rw [along_and, hheld, hsafe]

/-- `logger_init` twice, by one thread. -/
theorem start_not_held :
    ¬∀ events : List (Event Unit), Throughout step Held (start : State Unit) events ∧
      Along step Safe (start : State Unit) events := by
  intro h
  have hrun := (h [.call () .init, .acquire (), .body () true, .release (), .call () .init,
    .acquire (), .body () true]).1
  have honce := (((hrun.2 _ rfl).2 _ rfl).2 _ rfl).2 _ rfl
  have hheld := (((honce.2 _ rfl).2 _ rfl).2 _ rfl).start
  obtain ⟨t, call, phase, hsome, -⟩ := hheld rfl
  cases hsome

end Libromano.Logging
