/- A socket server from `socket_server_new` to `socket_server_free`: one thread calls it, and the
   thread of `socket_server_main_loop` runs between any two steps of a call. -/

import Libromano.Foundation.Ranks
import Libromano.SocketServer

set_option autoImplicit false
set_option relaxedAutoImplicit false

namespace Libromano.SocketServer

open Foundation Foundation.Ranks

variable {C : Type}

inductive Side
  | caller
  | loop
  deriving DecidableEq

/-- The pointer `mutex` and what it points to. -/
inductive Mutex
  | null
  | unlocked
  | locked (side : Side)
  | freed
  deriving DecidableEq

def Mutex.Live : Mutex → Prop
  | .unlocked | .locked _ => True
  | .null | .freed => False

instance (m : Mutex) : Decidable m.Live := by
  cases m <;> unfold Mutex.Live <;> infer_instance

/-- The next step of `socket_server_main_loop`. -/
inductive LoopPhase
  | socketNew
  | inetPton
  | bind
  | listen
  /-- the message about a call that has failed, before the return -/
  | logError
  | lockRunning
  | setRunning
  | unlockRunning
  | lockHead
  | readStop
  | unlockHead
  | select
  | accept
  | recv
  | callbacksCount (i : ℕ)
  | callback (i : ℕ)
  | send
  | removeConnection
  | unlockBreak
  | socketFree
  | lockEnd
  | unsetRunning
  | unlockEnd
  | returned
  deriving DecidableEq

/-- The next step of `socket_server_stop`. -/
inductive StopPhase
  | lockStop
  | setStop
  | unlockStop
  | join
  | lockJoined
  | unsetStop
  | unlockJoined
  | freeMutex
  deriving DecidableEq

/-- The next step of the call that is being made. -/
inductive CallerPhase (C : Type)
  | idle
  /-- `socket_server->callbacks = block` -/
  | storeCallbacks (block : Option ℕ) (callback : C)
  | storeCallback (callback : C)
  | storeCount
  | initMutex
  | startThread
  /-- `socket_server_stop`, which may have been called by `socket_server_free` -/
  | stop (phase : StopPhase) (frees : Bool)
  | free

/-- The block of the callbacks: those that have been stored in it and their count. -/
structure Table (C : Type) where
  entries : List C
  count : ℕ

/-- What has come of a connection so far, with the memory that is asked for it. -/
structure Connection where
  memory : Memory
  tempDataBuffer : Vector UInt8 recvSize
  results : List Received

structure Server (C : Type) where
  callbacks : Option ℕ
  /-- the block that is allocated, and its address -/
  table : Option (ℕ × Table C)
  /-- no block has been given out from here on -/
  fresh : ℕ
  mutex : Mutex
  isRunning : Bool
  needToStop : Bool
  ipModeAny : Bool
  freed : Bool
  /-- the thread that has been started and not been joined -/
  thread : Option LoopPhase
  caller : CallerPhase C
  /-- how many sockets are open -/
  sockets : ℕ
  /-- the callbacks that have been called for the connection -/
  called : List C
  /-- the connection that something has come of -/
  connection : Option Connection

inductive Misuse
  | null
  | dangling
  /-- the unlock of a mutex that is not held -/
  | unlocked
  /-- a mutex or a thread that nothing points to any more -/
  | lost
  /-- a read of an entry that has not been stored -/
  | unstored
  | received (fault : Fault)

inductive Halt
  /-- The step cannot be taken here. -/
  | blocked
  | misuse (misuse : Misuse)

inductive Call (C : Type)
  | push (callback : C)
  | start
  | isRunning
  | stop
  | free

inductive Op (C : Type)
  /-- a call, and whether its allocation succeeds and moves the block -/
  | call (call : Call C) (granted moved : Bool)
  | caller
  /-- a step of the loop, and whether what it calls succeeds -/
  | loop (succeeds : Bool)
  /-- one receive; the memory and the buffer are those of the first receive of a connection -/
  | recv (memory : Memory) (tempDataBuffer : Vector UInt8 recvSize) (received : Received)

/-- `socket_server_new`. -/
def Server.new (ipModeAny : Bool) : Server C where
  callbacks := none
  table := none
  fresh := 0
  mutex := .null
  isRunning := false
  needToStop := false
  ipModeAny := ipModeAny
  freed := false
  thread := none
  caller := .idle
  sockets := 0
  called := []
  connection := none

namespace Server

def lock (s : Server C) (side : Side) : Except Halt (Server C) :=
  match s.mutex with
  | .null => .error (.misuse .null)
  | .freed => .error (.misuse .dangling)
  | .unlocked => .ok { s with mutex := .locked side }
  | .locked _ => .error .blocked

def unlock (s : Server C) (side : Side) : Except Halt (Server C) :=
  match s.mutex with
  | .null => .error (.misuse .null)
  | .freed => .error (.misuse .dangling)
  | .unlocked => .error (.misuse .unlocked)
  | .locked side' =>
    if side' = side then .ok { s with mutex := .unlocked } else .error (.misuse .unlocked)

/-- `*callbacks`. -/
def deref (s : Server C) : Except Halt (Table C) :=
  match s.callbacks with
  | none => .error (.misuse .null)
  | some p =>
    match s.table with
    | none => .error (.misuse .dangling)
    | some (q, table) => if p = q then .ok table else .error (.misuse .dangling)

def goto (s : Server C) (phase : LoopPhase) : Server C := { s with thread := some phase }

def opened (s : Server C) : Server C := { s with sockets := s.sockets + 1 }

def closed (s : Server C) : Server C := { s with sockets := s.sockets - 1 }

end Server

def LoopPhase.detached : LoopPhase → Bool
  | .select | .socketFree => true
  | _ => false

def Server.loopStep (s : Server C) (succeeds : Bool) : LoopPhase → Except Halt (Server C)
  | .socketNew => .ok (if succeeds then (s.goto .inetPton).opened else s.goto .logError)
  | .inetPton =>
    -- the address is read in the other mode only, and the socket stays open after a refusal
    .ok (if s.ipModeAny || succeeds then s.goto .bind else s.goto .returned)
  | .bind => .ok (if succeeds then s.goto .listen else (s.goto .logError).closed)
  | .listen => .ok (if succeeds then s.goto .lockRunning else (s.goto .logError).closed)
  | .logError => .ok (s.goto .returned)
  | .lockRunning => do .ok ((← s.lock .loop).goto .setRunning)
  | .setRunning => .ok { s.goto .unlockRunning with isRunning := true }
  | .unlockRunning => do .ok ((← s.unlock .loop).goto .lockHead)
  | .lockHead => do .ok ((← s.lock .loop).goto .readStop)
  | .readStop => .ok (s.goto (if s.needToStop then .unlockBreak else .unlockHead))
  | .unlockHead => do .ok ((← s.unlock .loop).goto .select)
  | .select => .ok (s.goto (if succeeds then .accept else .lockHead))
  | .accept =>
    .ok (if succeeds then { (s.goto .recv).opened with called := [], connection := none }
      else s.goto .lockHead)
  | .callbacksCount i => do
    let table ← s.deref
    .ok (s.goto (if i < table.count then .callback i else .send))
  | .callback i => do
    let table ← s.deref
    match table.entries[i]? with
    | some c => .ok { s.goto (.callbacksCount (i + 1)) with called := s.called ++ [c] }
    | none => .error (.misuse .unstored)
  | .send => .ok (s.goto .removeConnection)
  | .removeConnection => .ok (s.goto .lockHead).closed
  | .unlockBreak => do .ok ((← s.unlock .loop).goto .socketFree)
  | .socketFree => .ok (s.goto .lockEnd).closed
  | .lockEnd => do .ok ((← s.lock .loop).goto .unsetRunning)
  | .unsetRunning => .ok { s.goto .unlockEnd with isRunning := false }
  | .unlockEnd => do .ok ((← s.unlock .loop).goto .returned)
  | .recv | .returned => .error .blocked

def Server.receiving (s : Server C) (memory : Memory) (tempDataBuffer : Vector UInt8 recvSize)
    (received : Received) : Connection :=
  let connection := s.connection.getD ⟨memory, tempDataBuffer, []⟩
  { connection with results := connection.results ++ [received] }

def Connection.outcome (connection : Connection) : Except Fault Outcome :=
  receiveAll connection.memory connection.tempDataBuffer connection.results

def Server.recvStep (s : Server C) (connection : Connection) : Except Halt (Server C) :=
  match connection.outcome with
  | .error fault => .error (.misuse (.received fault))
  | .ok .waiting => .ok { s with connection := some connection }
  | .ok (.left dataBuffer _ _) =>
    .ok (s.goto (if dataBuffer.isSome then .callbacksCount 0 else .removeConnection))

/-- `malloc` and `realloc`: the pointer that they return. -/
def Server.pushStep (s : Server C) (c : C) (granted moved : Bool) : Except Halt (Server C) :=
  match s.callbacks with
  | none =>
    if granted then
      .ok { s with
        table := some (s.fresh, ⟨[], 0⟩)
        fresh := s.fresh + 1
        caller := .storeCallbacks (some s.fresh) c }
    else .ok { s with caller := .storeCallbacks none c }
  | some p => do
    let table ← s.deref
    if granted then
      if moved then
        .ok { s with
          table := some (s.fresh, table)
          fresh := s.fresh + 1
          caller := .storeCallbacks (some s.fresh) c }
      else .ok { s with caller := .storeCallbacks (some p) c }
    else .ok { s with caller := .storeCallbacks none c }

def Server.callStep (s : Server C) (granted moved : Bool) : Call C → Except Halt (Server C)
  | .push c => s.pushStep c granted moved
  | .start => .ok (if s.isRunning then s else { s with caller := .initMutex })
  | .isRunning => .ok s
  | .stop => .ok { s with caller := .stop .lockStop false }
  | .free => .ok { s with caller := if s.isRunning then .stop .lockStop true else .free }

def Server.stopStep (s : Server C) (frees : Bool) : StopPhase → Except Halt (Server C)
  | .lockStop => do .ok { ← s.lock .caller with caller := .stop .setStop frees }
  | .setStop => .ok { s with needToStop := true, caller := .stop .unlockStop frees }
  | .unlockStop => do .ok { ← s.unlock .caller with caller := .stop .join frees }
  | .join =>
    match s.thread with
    | some .returned => .ok { s with thread := none, caller := .stop .lockJoined frees }
    | some _ => .error .blocked
    | none => .error (.misuse .dangling)
  | .lockJoined => do .ok { ← s.lock .caller with caller := .stop .unsetStop frees }
  | .unsetStop => .ok { s with needToStop := false, caller := .stop .unlockJoined frees }
  | .unlockJoined => do .ok { ← s.unlock .caller with caller := .stop .freeMutex frees }
  | .freeMutex =>
    if s.mutex = .unlocked then
      .ok { s with mutex := .freed, caller := if frees then .free else .idle }
    else .error (.misuse .dangling)

def Server.callerStep (s : Server C) : Except Halt (Server C) :=
  match s.caller with
  | .idle => .error .blocked
  | .storeCallbacks none _ =>
    -- the block that could not be extended is lost, and its callbacks with it
    .ok { s with callbacks := none, table := none, caller := .idle }
  | .storeCallbacks (some p) c => .ok { s with callbacks := some p, caller := .storeCallback c }
  | .storeCallback c => do
    let table ← s.deref
    .ok { s with
      table := s.table.map fun block => (block.1, { table with entries := table.entries ++ [c] })
      caller := .storeCount }
  | .storeCount => do
    let table ← s.deref
    .ok { s with
      table := s.table.map fun block => (block.1, { table with count := table.count + 1 })
      caller := .idle }
  | .initMutex =>
    if s.mutex.Live then .error (.misuse .lost)
    else .ok { s with mutex := .unlocked, caller := .startThread }
  | .startThread =>
    if s.thread.isSome then .error (.misuse .lost)
    else .ok { s with thread := some .socketNew, caller := .idle }
  | .stop phase frees => s.stopStep frees phase
  | .free =>
    if s.thread.isSome ∨ s.mutex.Live then .error (.misuse .lost)
    else .ok { s with callbacks := none, table := none, freed := true, caller := .idle }

def Server.step (s : Server C) : Op C → Except Halt (Server C)
  | .call call granted moved =>
    match s.caller with
    | .idle => if s.freed then .error (.misuse .dangling) else s.callStep granted moved call
    | _ => .error .blocked
  | .caller => s.callerStep
  | .loop succeeds =>
    match s.thread with
    | none => .error .blocked
    | some phase =>
      if s.freed && !phase.detached then .error (.misuse .dangling) else s.loopStep succeeds phase
  | .recv memory tempDataBuffer received =>
    if s.thread = some .recv then
      if s.freed then .error (.misuse .dangling)
      else s.recvStep (s.receiving memory tempDataBuffer received)
    else .error .blocked

def LoopPhase.quiet : LoopPhase → Bool
  | .logError | .returned => true
  | _ => false

/-- The calls that can be made in a state. -/
def Server.Allows (s : Server C) : Call C → Prop
  | .push _ => s.freed = false ∧ s.thread.all LoopPhase.quiet = true
  | .start => s.freed = false ∧ (s.isRunning = true ∨ s.thread = none ∧ s.callbacks ≠ none)
  | .isRunning => s.freed = false
  | .stop => s.freed = false ∧ s.thread ≠ none
  | .free => s.freed = false ∧ (s.isRunning = true ∨ s.thread = none)

/-- No receive goes wrong by itself, and the call, if it is one, is allowed. -/
def Server.Permits (s : Server C) (op : Op C) : Prop :=
  (∀ fault, s.step op ≠ .error (.misuse (.received fault))) ∧
    ∀ call granted moved, op = .call call granted moved → s.Allows call

/-- A step that is no call. -/
def Op.Inner (op : Op C) : Prop := ∀ call granted moved, op ≠ .call call granted moved

/-- The runs whose calls are all allowed where they are made, and in which no receive goes wrong by
itself. -/
inductive Run (ipModeAny : Bool) : List (Op C) → Server C → Prop
  | new : Run ipModeAny [] (Server.new ipModeAny)
  | step {ops s op s'} (hrun : Run ipModeAny ops s) (hpermits : s.Permits op)
      (hstep : s.step op = .ok s') : Run ipModeAny (ops ++ [op]) s'

def LoopPhase.holds : LoopPhase → Bool
  | .setRunning | .unlockRunning | .readStop | .unlockHead | .unlockBreak | .unsetRunning
  | .unlockEnd => true
  | _ => false

def LoopPhase.running : LoopPhase → Bool
  | .socketNew | .inetPton | .bind | .listen | .logError | .lockRunning | .setRunning
  | .unlockEnd | .returned => false
  | _ => true

def LoopPhase.leaving : LoopPhase → Bool
  | .unlockBreak | .socketFree | .lockEnd | .unsetRunning | .unlockEnd => true
  | _ => false

def StopPhase.holds : StopPhase → Bool
  | .setStop | .unlockStop | .unsetStop | .unlockJoined => true
  | _ => false

def StopPhase.asks : StopPhase → Bool
  | .unlockStop | .join | .lockJoined | .unsetStop => true
  | _ => false

def StopPhase.joined : StopPhase → Bool
  | .lockJoined | .unsetStop | .unlockJoined | .freeMutex => true
  | _ => false

namespace CallerPhase

def holds : CallerPhase C → Bool
  | .stop phase _ => phase.holds
  | _ => false

def asks : CallerPhase C → Bool
  | .stop phase _ => phase.asks
  | _ => false

def keeps : CallerPhase C → Bool
  | .startThread => true
  | .stop phase _ => phase.joined
  | _ => false

def threaded : CallerPhase C → Option Bool
  | .initMutex | .startThread | .free => some false
  | .stop phase _ => some !phase.joined
  | _ => none

end CallerPhase

def Connection.Waits (connection : Connection) : Prop :=
  connection.results ≠ [] ∧ connection.outcome = .ok .waiting

def Server.Connected (s : Server C) : Prop := ∀ connection ∈ s.connection, connection.Waits

/-- The mutex and the flags are as the two sides have left them. -/
structure Server.Controlled (s : Server C) : Prop where
  freed : s.freed = true → s.thread = none ∧ s.caller = .idle
  threaded : ∀ b, s.caller.threaded = some b → s.thread.isSome = b
  loop : s.thread.any LoopPhase.holds = true → s.mutex = .locked .loop
  caller : s.caller.holds = true → s.mutex = .locked .caller
  unlocked : s.thread.any LoopPhase.holds = false → s.caller.holds = false →
    (s.thread.isSome || s.caller.keeps) = true → s.mutex = .unlocked
  dead : (s.thread.isSome || s.caller.keeps) = false → ¬s.mutex.Live
  running : s.isRunning = s.thread.any LoopPhase.running
  asks : s.needToStop = s.caller.asks
  leaving : s.thread.any LoopPhase.leaving = true → s.needToStop = true

namespace Server

variable {s s' : Server C} {side : Side}

theorem lock_eq_ok : s.lock side = .ok s' ↔
    s.mutex = .unlocked ∧ s' = { s with mutex := .locked side } := by
  rw [lock]
  cases s.mutex <;> simp [eq_comm]

theorem unlock_eq_ok : s.unlock side = .ok s' ↔
    s.mutex = .locked side ∧ s' = { s with mutex := .unlocked } := by
  rw [unlock]
  cases hmutex : s.mutex with
  | locked side' =>
    dsimp only
    split_ifs with heq
    · simp [heq, eq_comm]
    · simp [heq]
  | _ => simp

private theorem Controlled.new (ipModeAny : Bool) : (Server.new (C := C) ipModeAny).Controlled where
  freed h := nomatch h
  threaded _ h := nomatch h
  loop h := nomatch h
  caller h := nomatch h
  unlocked _ _ h := nomatch h
  dead _ h := h
  running := rfl
  asks := rfl
  leaving h := nomatch h

/-- What a step of the loop does besides opening and closing sockets and calling callbacks. -/
structure LoopMove (s s' : Server C) (phase phase' : LoopPhase) : Prop where
  thread : s'.thread = some phase'
  caller : s'.caller = s.caller
  needToStop : s'.needToStop = s.needToStop
  freed : s'.freed = s.freed
  callbacks : s'.callbacks = s.callbacks
  table : s'.table = s.table
  fresh : s'.fresh = s.fresh
  mutex : phase'.holds = phase.holds ∧ s'.mutex = s.mutex ∨
    phase'.holds = true ∧ s.mutex = .unlocked ∧ s'.mutex = .locked .loop ∨
    phase'.holds = false ∧ s.mutex = .locked .loop ∧ s'.mutex = .unlocked
  running : phase'.running = phase.running ∧ s'.isRunning = s.isRunning ∨
    s'.isRunning = phase'.running
  leaving : phase'.leaving = true → phase.leaving = true ∨ s.needToStop = true
  quiet : phase.quiet = true → phase'.quiet = true
  connected : s.Connected → s'.Connected

section LoopMoves

variable {phase phase' : LoopPhase} {succeeds : Bool}

private theorem LoopMove.plain (s : Server C) (sockets : ℕ) (called : List C)
    (hholds : phase'.holds = phase.holds) (hrunning : phase'.running = phase.running)
    (hleaving : phase'.leaving = true → phase.leaving = true ∨ s.needToStop = true)
    (hquiet : phase.quiet = true → phase'.quiet = true) :
    LoopMove s { s with thread := some phase', sockets := sockets, called := called }
      phase phase' :=
  ⟨rfl, rfl, rfl, rfl, rfl, rfl, rfl, .inl ⟨hholds, rfl⟩, .inl ⟨hrunning, rfl⟩, hleaving,
    hquiet, id⟩

private theorem LoopMove.lock {t : Server C} (hlock : s.lock .loop = .ok t)
    (hholds : phase'.holds = true)
    (hrunning : phase'.running = phase.running) (hleaving : phase'.leaving = phase.leaving)
    (hquiet : phase.quiet = false) : LoopMove s (t.goto phase') phase phase' := by
  obtain ⟨hmutex, rfl⟩ := lock_eq_ok.mp hlock
  exact ⟨rfl, rfl, rfl, rfl, rfl, rfl, rfl, .inr (.inl ⟨hholds, hmutex, rfl⟩),
    .inl ⟨hrunning, rfl⟩, fun h => .inl (hleaving ▸ h),
    fun h => absurd (hquiet.symm.trans h) nofun, id⟩

private theorem LoopMove.unlock {t : Server C} (hunlock : s.unlock .loop = .ok t)
    (hholds : phase'.holds = false) (hrunning : phase'.running = phase.running)
    (hleaving : phase'.leaving = true → phase.leaving = true) (hquiet : phase.quiet = false) :
    LoopMove s (t.goto phase') phase phase' := by
  obtain ⟨hmutex, rfl⟩ := unlock_eq_ok.mp hunlock
  exact ⟨rfl, rfl, rfl, rfl, rfl, rfl, rfl, .inr (.inr ⟨hholds, hmutex, rfl⟩),
    .inl ⟨hrunning, rfl⟩, fun h => .inl (hleaving h), fun h => absurd (hquiet.symm.trans h) nofun, id⟩

theorem loopMove_of_loopStep (hstep : s.loopStep succeeds phase = .ok s') :
    ∃ phase', LoopMove s s' phase phase' := by
  cases phase with
  | socketNew | bind | listen | select =>
    cases succeeds <;> cases hstep <;> exact ⟨_, .plain s _ _ rfl rfl nofun nofun⟩
  | accept =>
    cases succeeds with
    | false =>
      cases hstep
      exact ⟨_, .plain s _ _ rfl rfl nofun nofun⟩
    | true =>
      cases hstep
      have hmove : LoopMove s { s with thread := some .recv, sockets := s.sockets + 1, called := [] }
        .accept .recv := .plain s _ _ rfl rfl nofun nofun
      exact ⟨.recv, { hmove with connected := fun _ => nofun }⟩
  | inetPton =>
    cases hstep
    cases (s.ipModeAny || succeeds) <;> exact ⟨_, .plain s _ _ rfl rfl nofun nofun⟩
  | logError =>
    cases hstep
    exact ⟨_, .plain s _ _ rfl rfl nofun fun _ => rfl⟩
  | send | removeConnection =>
    cases hstep
    exact ⟨_, .plain s _ _ rfl rfl nofun nofun⟩
  | socketFree =>
    cases hstep
    exact ⟨_, .plain s _ _ rfl rfl .inl nofun⟩
  | lockRunning | lockHead | lockEnd =>
    obtain ⟨t, hlock, heq⟩ := bind_eq_ok.mp hstep
    cases heq
    exact ⟨_, .lock hlock rfl rfl rfl rfl⟩
  | unlockRunning | unlockHead | unlockBreak | unlockEnd =>
    obtain ⟨t, hunlock, heq⟩ := bind_eq_ok.mp hstep
    cases heq
    exact ⟨_, .unlock hunlock rfl rfl (by decide) rfl⟩
  | setRunning =>
    cases hstep
    exact ⟨_, rfl, rfl, rfl, rfl, rfl, rfl, rfl, .inl ⟨rfl, rfl⟩, .inr rfl, nofun, nofun, id⟩
  | unsetRunning =>
    cases hstep
    exact ⟨_, rfl, rfl, rfl, rfl, rfl, rfl, rfl, .inl ⟨rfl, rfl⟩, .inr rfl, .inl, nofun, id⟩
  | readStop =>
    cases hstep
    cases hstop : s.needToStop with
    | false => exact ⟨_, .plain s _ _ rfl rfl nofun nofun⟩
    | true => exact ⟨_, .plain s _ _ rfl rfl (fun _ => .inr hstop) nofun⟩
  | callbacksCount i =>
    obtain ⟨table, -, heq⟩ := bind_eq_ok.mp hstep
    cases heq
    by_cases hi : i < table.count
    · rw [if_pos hi]
      exact ⟨_, .plain s _ _ rfl rfl nofun nofun⟩
    · rw [if_neg hi]
      exact ⟨_, .plain s _ _ rfl rfl nofun nofun⟩
  | callback i =>
    obtain ⟨table, -, heq⟩ := bind_eq_ok.mp hstep
    cases hentry : table.entries[i]? with
    | none =>
      rw [hentry] at heq
      cases heq
    | some c =>
      rw [hentry] at heq
      cases heq
      exact ⟨_, .plain s _ _ rfl rfl nofun nofun⟩
  | recv | returned => cases hstep

private theorem Controlled.loopMove (h : s.Controlled) (hthread : s.thread = some phase)
    (hmove : LoopMove s s' phase phase') : s'.Controlled := by
  obtain ⟨hfreed, hthreaded, hloop, hcaller, hunlocked, hdead, hrunning, hasks, hleaving⟩ := h
  obtain ⟨hthread', hcaller', hstop, hfreed', -, -, -, hmutex, hflag, hleaves, -, -⟩ := hmove
  constructor
  case freed | threaded | dead | asks => simp_all
  case loop | caller | unlocked | running | leaving =>
    simp_all only [Option.any_some, Option.isSome_some, Bool.true_or]
    grind

theorem loopMove_of_recvStep {connection : Connection} (hne : connection.results ≠ [])
    (hthread : s.thread = some .recv) (hstep : s.recvStep connection = .ok s') :
    ∃ phase', LoopMove s s' .recv phase' := by
  rw [recvStep] at hstep
  split at hstep
  case h_1 => cases hstep
  case h_2 houtcome =>
    cases hstep
    refine ⟨.recv, hthread, rfl, rfl, rfl, rfl, rfl, rfl, .inl ⟨rfl, rfl⟩, .inl ⟨rfl, rfl⟩, nofun,
      nofun, fun _ => ?_⟩
    rintro _ ⟨⟩
    exact ⟨hne, houtcome⟩
  case h_3 dataBuffer _ _ _ =>
    cases hstep
    cases dataBuffer <;> exact ⟨_, .plain s _ _ rfl rfl nofun nofun⟩

theorem receiving_ne_nil (memory : Memory) (tempDataBuffer : Vector UInt8 recvSize)
    (received : Received) : (s.receiving memory tempDataBuffer received).results ≠ [] :=
  List.append_ne_nil_of_right_ne_nil _ (List.cons_ne_nil _ _)

end LoopMoves

inductive CallMove (s : Server C) : Call C → Bool → Bool → Server C → Prop
  | first {c moved} (hnull : s.callbacks = none) :
    CallMove s (.push c) true moved { s with
      table := some (s.fresh, ⟨[], 0⟩)
      fresh := s.fresh + 1
      caller := .storeCallbacks (some s.fresh) c }
  | moved {c table} (hderef : s.deref = .ok table) :
    CallMove s (.push c) true true { s with
      table := some (s.fresh, table)
      fresh := s.fresh + 1
      caller := .storeCallbacks (some s.fresh) c }
  | extended {c p table} (hcallbacks : s.callbacks = some p) (hderef : s.deref = .ok table) :
    CallMove s (.push c) true false { s with caller := .storeCallbacks (some p) c }
  | refused {c moved} : CallMove s (.push c) false moved { s with caller := .storeCallbacks none c }
  | start {granted moved} (hrunning : s.isRunning = false) :
    CallMove s .start granted moved { s with caller := .initMutex }
  | started {granted moved} (hrunning : s.isRunning = true) : CallMove s .start granted moved s
  | isRunning {granted moved} : CallMove s .isRunning granted moved s
  | stop {granted moved} : CallMove s .stop granted moved { s with caller := .stop .lockStop false }
  | stopFirst {granted moved} (hrunning : s.isRunning = true) :
    CallMove s .free granted moved { s with caller := .stop .lockStop true }
  | free {granted moved} (hrunning : s.isRunning = false) :
    CallMove s .free granted moved { s with caller := .free }

private theorem callMove_of_callStep {call : Call C} {granted moved : Bool}
    (hstep : s.callStep granted moved call = .ok s') : CallMove s call granted moved s' := by
  cases call with
  | push c =>
    rw [Server.callStep, pushStep] at hstep
    split at hstep
    · rename_i hcallbacks
      split_ifs at hstep with hgranted
      · subst hgranted
        cases hstep
        exact .first hcallbacks
      · obtain rfl := Bool.eq_false_iff.mpr hgranted
        cases hstep
        exact .refused
    · rename_i p hcallbacks
      obtain ⟨table, hderef, heq⟩ := bind_eq_ok.mp hstep
      split_ifs at heq with hgranted hmoved
      · subst hgranted hmoved
        cases heq
        exact .moved hderef
      · obtain rfl := Bool.eq_false_iff.mpr hmoved
        subst hgranted
        cases heq
        exact .extended hcallbacks hderef
      · obtain rfl := Bool.eq_false_iff.mpr hgranted
        cases heq
        exact .refused
  | start =>
    obtain rfl := Except.ok.inj hstep
    split_ifs with hrunning
    · exact .started hrunning
    · exact .start (Bool.eq_false_iff.mpr hrunning)
  | isRunning =>
    cases hstep
    exact .isRunning
  | stop =>
    cases hstep
    exact .stop
  | free =>
    obtain rfl := Except.ok.inj hstep
    split_ifs with hrunning
    · exact .stopFirst hrunning
    · exact .free (Bool.eq_false_iff.mpr hrunning)

inductive CallerMove (s : Server C) : CallerPhase C → Server C → Prop
  | forget {c} : CallerMove s (.storeCallbacks none c)
    { s with callbacks := none, table := none, caller := .idle }
  | storeCallbacks {p c} : CallerMove s (.storeCallbacks (some p) c)
    { s with callbacks := some p, caller := .storeCallback c }
  | storeCallback {c table} (hderef : s.deref = .ok table) : CallerMove s (.storeCallback c)
    { s with
      table := s.table.map fun block => (block.1, { table with entries := table.entries ++ [c] })
      caller := .storeCount }
  | storeCount {table} (hderef : s.deref = .ok table) : CallerMove s .storeCount
    { s with
      table := s.table.map fun block => (block.1, { table with count := table.count + 1 })
      caller := .idle }
  | initMutex (hdead : ¬s.mutex.Live) : CallerMove s .initMutex
    { s with mutex := .unlocked, caller := .startThread }
  | startThread (hthread : s.thread = none) : CallerMove s .startThread
    { s with thread := some .socketNew, caller := .idle }
  | lockStop {frees} (hmutex : s.mutex = .unlocked) : CallerMove s (.stop .lockStop frees)
    { s with mutex := .locked .caller, caller := .stop .setStop frees }
  | setStop {frees} : CallerMove s (.stop .setStop frees)
    { s with needToStop := true, caller := .stop .unlockStop frees }
  | unlockStop {frees} (hmutex : s.mutex = .locked .caller) : CallerMove s (.stop .unlockStop frees)
    { s with mutex := .unlocked, caller := .stop .join frees }
  | join {frees} (hthread : s.thread = some .returned) : CallerMove s (.stop .join frees)
    { s with thread := none, caller := .stop .lockJoined frees }
  | lockJoined {frees} (hmutex : s.mutex = .unlocked) : CallerMove s (.stop .lockJoined frees)
    { s with mutex := .locked .caller, caller := .stop .unsetStop frees }
  | unsetStop {frees} : CallerMove s (.stop .unsetStop frees)
    { s with needToStop := false, caller := .stop .unlockJoined frees }
  | unlockJoined {frees} (hmutex : s.mutex = .locked .caller) :
    CallerMove s (.stop .unlockJoined frees)
      { s with mutex := .unlocked, caller := .stop .freeMutex frees }
  | freeMutex {frees} (hmutex : s.mutex = .unlocked) : CallerMove s (.stop .freeMutex frees)
    { s with mutex := .freed, caller := if frees then .free else .idle }
  | free (hthread : s.thread = none) (hdead : ¬s.mutex.Live) : CallerMove s .free
    { s with callbacks := none, table := none, freed := true, caller := .idle }

private theorem callerMove_of_stopStep {frees : Bool} {phase : StopPhase}
    (hstep : s.stopStep frees phase = .ok s') : CallerMove s (.stop phase frees) s' := by
  cases phase with
  | lockStop =>
    obtain ⟨t, hlock, heq⟩ := bind_eq_ok.mp hstep
    obtain ⟨hmutex, rfl⟩ := lock_eq_ok.mp hlock
    cases heq
    exact .lockStop hmutex
  | lockJoined =>
    obtain ⟨t, hlock, heq⟩ := bind_eq_ok.mp hstep
    obtain ⟨hmutex, rfl⟩ := lock_eq_ok.mp hlock
    cases heq
    exact .lockJoined hmutex
  | unlockStop =>
    obtain ⟨t, hunlock, heq⟩ := bind_eq_ok.mp hstep
    obtain ⟨hmutex, rfl⟩ := unlock_eq_ok.mp hunlock
    cases heq
    exact .unlockStop hmutex
  | unlockJoined =>
    obtain ⟨t, hunlock, heq⟩ := bind_eq_ok.mp hstep
    obtain ⟨hmutex, rfl⟩ := unlock_eq_ok.mp hunlock
    cases heq
    exact .unlockJoined hmutex
  | setStop =>
    cases hstep
    exact .setStop
  | unsetStop =>
    cases hstep
    exact .unsetStop
  | join =>
    rw [stopStep] at hstep
    split at hstep
    · rename_i hthread
      cases hstep
      exact .join hthread
    · cases hstep
    · cases hstep
  | freeMutex =>
    by_cases hmutex : s.mutex = .unlocked
    · rw [stopStep, if_pos hmutex] at hstep
      cases hstep
      exact .freeMutex hmutex
    · rw [stopStep, if_neg hmutex] at hstep
      cases hstep

private theorem callerMove_of_callerStep (hstep : s.callerStep = .ok s') :
    CallerMove s s.caller s' := by
  rw [callerStep] at hstep
  cases hcaller : s.caller with
  | idle =>
    rw [hcaller] at hstep
    cases hstep
  | storeCallbacks block c =>
    rw [hcaller] at hstep
    cases block <;> cases hstep
    · exact .forget
    · exact .storeCallbacks
  | storeCallback c =>
    rw [hcaller] at hstep
    obtain ⟨table, hderef, heq⟩ := bind_eq_ok.mp hstep
    cases heq
    exact .storeCallback hderef
  | storeCount =>
    rw [hcaller] at hstep
    obtain ⟨table, hderef, heq⟩ := bind_eq_ok.mp hstep
    cases heq
    exact .storeCount hderef
  | initMutex =>
    rw [hcaller] at hstep
    dsimp only at hstep
    split_ifs at hstep with hlive
    cases hstep
    exact .initMutex hlive
  | startThread =>
    rw [hcaller] at hstep
    dsimp only at hstep
    split_ifs at hstep with hthread
    cases hstep
    exact .startThread (Option.not_isSome_iff_eq_none.mp hthread)
  | stop phase frees =>
    rw [hcaller] at hstep
    exact callerMove_of_stopStep hstep
  | free =>
    rw [hcaller] at hstep
    dsimp only at hstep
    split_ifs at hstep with hlost
    cases hstep
    obtain ⟨hthread, hdead⟩ := not_or.mp hlost
    exact .free (Option.not_isSome_iff_eq_none.mp hthread) hdead

def Ordered (s : Server C) : Call C → Prop
  | .start | .free => s.isRunning = false → s.thread = none
  | .stop => s.thread ≠ none
  | .push _ | .isRunning => True

theorem Allows.ordered {call : Call C} (h : s.Allows call) : s.Ordered call := by
  cases call with
  | start | free =>
    intro hrunning
    obtain ⟨-, hflag | hthread⟩ := h
    · exact absurd (hrunning.symm.trans hflag) nofun
    · first | exact hthread | exact hthread.1
  | stop => exact h.2
  | push | isRunning => trivial

def Plain (p : CallerPhase C) : Prop := p.holds = false ∧ p.asks = false ∧ p.keeps = false

private theorem Controlled.goes {p : CallerPhase C} (h : s.Controlled) (hlive : s.freed = false)
    (hfrom : Plain s.caller) (callbacks : Option ℕ) (table : Option (ℕ × Table C))
    (fresh : ℕ) (hp : Plain p) (hthreaded : ∀ b, p.threaded = some b → s.thread.isSome = b) :
    Controlled { s with callbacks := callbacks, table := table, fresh := fresh, caller := p } := by
  obtain ⟨hcaller, hasks, hkeeps⟩ := hfrom
  obtain ⟨hpcaller, hpasks, hpkeeps⟩ := hp
  refine ⟨fun hfreed => ?_, hthreaded, h.loop, fun hholds => ?_, fun hloop _ hneeds => ?_,
    fun hneeds => ?_, h.running, ?_, h.leaving⟩
  · exact absurd (hlive.symm.trans hfreed) nofun
  · exact absurd (hpcaller.symm.trans hholds) nofun
  · apply h.unlocked hloop hcaller
    rw [hkeeps]
    rwa [hpkeeps] at hneeds
  · apply h.dead
    rw [hkeeps]
    rwa [hpkeeps] at hneeds
  · change s.needToStop = p.asks
    rw [h.asks, hasks, hpasks]

private theorem Controlled.callMove {call : Call C} {granted moved : Bool} (h : s.Controlled)
    (hidle : s.caller = .idle) (hlive : s.freed = false) (hordered : s.Ordered call)
    (hmove : CallMove s call granted moved s') : s'.Controlled := by
  have hfrom : Plain s.caller := hidle ▸ ⟨rfl, rfl, rfl⟩
  have hnone : ∀ b, s.thread = none → false = b → s.thread.isSome = b := by
    rintro b hthread rfl
    rw [hthread]
    rfl
  have hsome : ∀ b, s.thread ≠ none → true = b → s.thread.isSome = b := by
    rintro b hthread rfl
    exact Option.isSome_iff_ne_none.mpr hthread
  cases hmove with
  | first | moved | extended | refused => exact h.goes hlive hfrom _ _ _ ⟨rfl, rfl, rfl⟩ nofun
  | started | isRunning => exact h
  | start hrunning =>
    exact h.goes hlive hfrom _ _ _ ⟨rfl, rfl, rfl⟩ fun b hb =>
      hnone b (hordered hrunning) (Option.some.inj hb)
  | stop =>
    exact h.goes hlive hfrom _ _ _ ⟨rfl, rfl, rfl⟩ fun b hb =>
      hsome b hordered (Option.some.inj hb)
  | stopFirst hrunning =>
    refine h.goes hlive hfrom _ _ _ ⟨rfl, rfl, rfl⟩ fun b hb => hsome b ?_ (Option.some.inj hb)
    intro hthread
    have hflag := h.running
    rw [hrunning, hthread] at hflag
    cases hflag
  | free hrunning =>
    exact h.goes hlive hfrom _ _ _ ⟨rfl, rfl, rfl⟩ fun b hb =>
      hnone b (hordered hrunning) (Option.some.inj hb)

theorem Controlled.live (h : s.Controlled) (hbusy : s.caller ≠ .idle) : s.freed = false := by
  by_contra hfreed
  exact hbusy (h.freed (Bool.not_eq_false _ ▸ hfreed)).2

private theorem Controlled.callerMove (h : s.Controlled) (hmove : CallerMove s s.caller s') :
    s'.Controlled := by
  generalize hphase : s.caller = phase at hmove
  have ⟨hfreed, hthreaded, hloop, hcaller, hunlocked, hdead, hrunning, hasks, hleaving⟩ := h
  cases hmove with
  | forget | storeCallbacks | storeCallback | storeCount =>
    have hlive : s.freed = false := h.live (hphase ▸ nofun)
    exact h.goes hlive (hphase ▸ ⟨rfl, rfl, rfl⟩) _ _ _ ⟨rfl, rfl, rfl⟩ nofun
  | initMutex | free =>
    constructor <;> simp_all [CallerPhase.threaded, CallerPhase.holds, CallerPhase.asks,
      CallerPhase.keeps, Mutex.Live]
  | startThread hthread =>
    constructor <;> simp_all [CallerPhase.threaded, CallerPhase.holds, CallerPhase.asks,
      CallerPhase.keeps, LoopPhase.holds, LoopPhase.running, LoopPhase.leaving]
  | join hthread =>
    constructor <;> simp_all [CallerPhase.threaded, CallerPhase.holds, CallerPhase.asks,
      CallerPhase.keeps, StopPhase.holds, StopPhase.asks, StopPhase.joined, LoopPhase.holds,
      LoopPhase.running]
  | freeMutex hmutex =>
    rename_i frees
    cases frees <;> constructor <;> simp_all [CallerPhase.threaded, CallerPhase.holds,
      CallerPhase.asks, CallerPhase.keeps, StopPhase.holds, StopPhase.asks, StopPhase.joined,
      Mutex.Live]
  | lockStop | setStop | unlockStop | lockJoined | unsetStop | unlockJoined =>
    constructor <;> simp_all [CallerPhase.threaded, CallerPhase.holds, CallerPhase.asks,
      CallerPhase.keeps, StopPhase.holds, StopPhase.asks, StopPhase.joined]

inductive Move (s : Server C) : Op C → Server C → Prop
  | call {call granted moved t} (hidle : s.caller = .idle) (hlive : s.freed = false)
    (hmove : CallMove s call granted moved t) : Move s (.call call granted moved) t
  | caller {t} (hmove : CallerMove s s.caller t) : Move s .caller t
  | loop {succeeds phase t} (hthread : s.thread = some phase)
    (hstep : s.loopStep succeeds phase = .ok t) : Move s (.loop succeeds) t
  | recv {memory tempDataBuffer received t} (hthread : s.thread = some .recv)
    (hstep : s.recvStep (s.receiving memory tempDataBuffer received) = .ok t) :
    Move s (.recv memory tempDataBuffer received) t

theorem move_of_step {op : Op C} (hstep : s.step op = .ok s') : Move s op s' := by
  cases op with
  | call call granted moved =>
    rw [Server.step] at hstep
    split at hstep
    · rename_i hidle
      split_ifs at hstep with hfreed
      exact .call hidle (Bool.eq_false_iff.mpr hfreed) (callMove_of_callStep hstep)
    · cases hstep
  | caller => exact .caller (callerMove_of_callerStep hstep)
  | loop succeeds =>
    rw [Server.step] at hstep
    split at hstep
    · cases hstep
    · rename_i phase hthread
      split_ifs at hstep
      exact .loop hthread hstep
  | recv memory tempDataBuffer received =>
    rw [Server.step] at hstep
    split_ifs at hstep with hthread
    exact .recv hthread hstep

theorem Controlled.step {op : Op C} (h : s.Controlled)
    (hordered : ∀ call granted moved, op = .call call granted moved → s.Ordered call)
    (hstep : s.step op = .ok s') : s'.Controlled := by
  cases move_of_step hstep with
  | call hidle hlive hmove => exact h.callMove hidle hlive (hordered _ _ _ rfl) hmove
  | caller hmove => exact h.callerMove hmove
  | loop hthread hstep =>
    obtain ⟨phase', hmove⟩ := loopMove_of_loopStep hstep
    exact h.loopMove hthread hmove
  | recv hthread hstep =>
    obtain ⟨phase', hmove⟩ := loopMove_of_recvStep (receiving_ne_nil _ _ _) hthread hstep
    exact h.loopMove hthread hmove

theorem Connected.step {op : Op C} (h : s.Connected) (hstep : s.step op = .ok s') :
    s'.Connected := by
  cases move_of_step hstep with
  | call hidle hlive hmove => cases hmove <;> exact h
  | caller hmove =>
    generalize s.caller = phase at hmove
    cases hmove <;> exact h
  | loop hthread hstep =>
    obtain ⟨phase', hmove⟩ := loopMove_of_loopStep hstep
    exact hmove.connected h
  | recv hthread hstep =>
    obtain ⟨phase', hmove⟩ := loopMove_of_recvStep (receiving_ne_nil _ _ _) hthread hstep
    exact hmove.connected h

end Server

def hangUp : Op C := .recv ⟨fun _ => true, fun _ _ => 0⟩ (Vector.replicate recvSize 0) .closed

private theorem receive_cons_waiting {memory : Memory} {received : Received} {rest : List Received}
    {locals : Locals} (hwaits : receive memory (received :: rest) locals = .ok .waiting) :
    received.result = recvSize ∧ ∃ locals', locals'.dataBuffer.isSome ∧
      ∀ rest, receive memory (received :: rest) locals = receive memory rest locals' := by
  rw [receive] at hwaits
  obtain ⟨tempDataBuffer, htemp, hwaits⟩ := bind_eq_ok.mp hwaits
  cases hbuffer : locals.dataBuffer with
  | none =>
    rw [hbuffer] at hwaits
    cases hwaits
  | some dataBuffer =>
    rw [hbuffer] at hwaits
    dsimp only at hwaits
    split_ifs at hwaits with hclosed hfull
    · cases hwaits
    · obtain ⟨copied, hcopy, hwaits⟩ := bind_eq_ok.mp hwaits
      split at hwaits
      · cases hwaits
      · rename_i grown hgrown
        refine ⟨hfull, ⟨some grown, tempDataBuffer,
          (locals.recDataSize + Bytes.toSize received.result) % 2 ^ 64⟩, rfl, fun rest => ?_⟩
        rw [receive, htemp, bind_ok, hbuffer]
        dsimp only
        rw [if_neg hclosed, hcopy, bind_ok, if_pos hfull, hgrown]
    · obtain ⟨copied, -, hwaits⟩ := bind_eq_ok.mp hwaits
      obtain ⟨terminated, -, hwaits⟩ := bind_eq_ok.mp hwaits
      cases hwaits

theorem receive_waiting {memory : Memory} {results : List Received} {received : Received}
    {locals : Locals} (hwaits : receive memory (results ++ [received]) locals = .ok .waiting) :
    received.result = recvSize := by
  induction results generalizing locals with
  | nil => exact (receive_cons_waiting hwaits).1
  | cons first results ih =>
    obtain ⟨-, locals', -, hnext⟩ := receive_cons_waiting hwaits
    exact ih ((hnext _).symm.trans hwaits)

private theorem receive_hangUp {memory : Memory} {results : List Received} {locals : Locals}
    (hne : results ≠ []) (hwaits : receive memory results locals = .ok .waiting) :
    ∃ dataBuffer n, receive memory (results ++ [.closed]) locals = .ok (.left (some dataBuffer) n []) := by
  induction results generalizing locals with
  | nil => exact absurd rfl hne
  | cons received rest ih =>
    obtain ⟨-, locals', hbuffer, hnext⟩ := receive_cons_waiting hwaits
    rw [List.cons_append, hnext]
    cases rest with
    | nil =>
      obtain ⟨dataBuffer, tempDataBuffer, n⟩ := locals'
      obtain ⟨dataBuffer, rfl⟩ := Option.isSome_iff_exists.mp hbuffer
      exact ⟨_, _, receive_closed _⟩
    | cons next rest => exact ih (List.cons_ne_nil _ _) ((hnext _).symm.trans hwaits)

private theorem outcome_hangUp {s : Server C} (h : s.Connected) : ∃ dataBuffer n,
    (s.receiving ⟨fun _ => true, fun _ _ => 0⟩ (Vector.replicate recvSize 0) .closed).outcome =
      .ok (.left (some dataBuffer) n []) := by
  rw [Server.receiving, Connection.outcome]
  cases hconnection : s.connection with
  | none =>
    have hgives : Memory.Gives ⟨fun _ => true, fun _ _ => 0⟩ recvSize := by decide
    dsimp only [Option.getD_none, List.nil_append]
    rw [receiveAll, Memory.malloc, if_pos hgives]
    exact ⟨_, _, receive_closed _⟩
  | some connection =>
    obtain ⟨hne, hwaits⟩ := h connection hconnection
    exact receive_hangUp hne hwaits

theorem hangUp_inner : (hangUp : Op C).Inner := nofun

theorem step_hangUp {s : Server C} (h : s.Connected) (hthread : s.thread = some .recv)
    (hlive : s.freed = false) : s.step hangUp = .ok (s.goto (.callbacksCount 0)) := by
  obtain ⟨dataBuffer, n, houtcome⟩ := outcome_hangUp h
  rw [hangUp, Server.step, if_pos hthread, if_neg (by simp [hlive]), Server.recvStep, houtcome]
  rfl

theorem caller_inner (n : ℕ) : ∀ op ∈ List.replicate n (Op.caller (C := C)), op.Inner :=
  fun _ hop => List.eq_of_mem_replicate hop ▸ nofun

theorem loop_inner (n : ℕ) (succeeds : Bool) :
    ∀ op ∈ List.replicate n (Op.loop (C := C) succeeds), op.Inner :=
  fun _ hop => List.eq_of_mem_replicate hop ▸ nofun

section Runs

variable {ipModeAny : Bool} {ops after : List (Op C)} {s s' : Server C}

theorem Op.Inner.permits {op : Op C} (h : op.Inner) (hstep : s.step op = .ok s') :
    s.Permits op := by
  refine ⟨fun fault hfault => ?_, fun call granted moved hop => absurd hop (h call granted moved)⟩
  cases hstep.symm.trans hfault

theorem Run.steps (hrun : Run ipModeAny ops s) :
    ops.foldlM Server.step (Server.new ipModeAny) = .ok s := by
  induction hrun with
  | new => rfl
  | step hrun hpermits hstep ih =>
    rw [List.foldlM_append, ih, bind_ok, List.foldlM_cons, hstep]
    rfl

theorem Run.inner (hrun : Run ipModeAny ops s) (hinner : ∀ op ∈ after, op.Inner)
    (hsteps : after.foldlM Server.step s = .ok s') : Run ipModeAny (ops ++ after) s' := by
  induction after generalizing ops s with
  | nil => rwa [List.append_nil, run_nil hsteps]
  | cons op after ih =>
    obtain ⟨hop, hafter⟩ := List.forall_mem_cons.mp hinner
    obtain ⟨s₁, hstep, hrest⟩ := run_cons.mp hsteps
    rw [List.append_cons]
    exact ih (hrun.step (hop.permits hstep) hstep) hafter hrest

theorem Run.call (hrun : Run ipModeAny ops s) {call : Call C} {granted moved : Bool}
    (hallows : s.Allows call) (hstep : s.step (.call call granted moved) = .ok s') :
    Run ipModeAny (ops ++ [.call call granted moved]) s' := by
  refine hrun.step ⟨fun fault hfault => ?_, ?_⟩ hstep
  · cases hstep.symm.trans hfault
  · rintro _ _ _ ⟨⟩
    exact hallows

theorem Run.connected (hrun : Run ipModeAny ops s) : s.Connected := by
  induction hrun with
  | new => exact nofun
  | step hrun hpermits hstep ih => exact ih.step hstep

theorem Run.controlled (hrun : Run ipModeAny ops s) : s.Controlled := by
  induction hrun with
  | new => exact .new ipModeAny
  | step hrun hpermits hstep ih =>
    exact ih.step (fun call granted moved hop => (hpermits.2 call granted moved hop).ordered) hstep

end Runs

end Libromano.SocketServer
