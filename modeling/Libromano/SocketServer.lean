/- The loop of `socket_server_main_loop` that receives what one connection sends. -/

import Libromano.Bytes
import Mathlib.Algebra.Order.Ring.Int
import Mathlib.Tactic.NormNum
import Mathlib.Tactic.Ring

set_option autoImplicit false
set_option relaxedAutoImplicit false

namespace Libromano.SocketServer

open Bytes Foundation

def recvSize : ℕ := 128

structure Chunk where
  bytes : List UInt8
  nonempty : bytes ≠ []
  fits : bytes.length ≤ recvSize

/-- What `socket_recv` comes to. -/
inductive Received
  | chunk (chunk : Chunk)
  | closed
  | failed

namespace Received

/-- The number that `socket_recv` returns. -/
def result : Received → ℤ
  | chunk c => c.bytes.length
  | closed => 0
  | failed => -1

def bytes : Received → List UInt8
  | chunk c => c.bytes
  | closed => []
  | failed => []

end Received

/-- What `malloc` and `realloc` do. The loop asks for each size once, so the size tells
the call. -/
structure Memory where
  grants : ℕ → Bool
  /-- What an object holds where nothing has been written. -/
  fresh : ℕ → ℕ → UInt8

namespace Memory

/-- An object has less than `2 ^ 63` bytes. -/
def Gives (memory : Memory) (n : ℕ) : Prop := memory.grants n = true ∧ n < 2 ^ 63

instance (memory : Memory) (n : ℕ) : Decidable (memory.Gives n) :=
  inferInstanceAs (Decidable (_ ∧ _))

def contents (memory : Memory) (n : ℕ) : List UInt8 := (List.range n).map (memory.fresh n)

def malloc (memory : Memory) (n : ℕ) : Option (List UInt8) :=
  if memory.Gives n then some (memory.contents n) else none

def realloc (memory : Memory) (block : List UInt8) (n : ℕ) : Option (List UInt8) :=
  if memory.Gives n then some ((block ++ (memory.contents n).drop block.length).take n) else none

end Memory

def memcpy (dest : List UInt8) (start : ℕ) (src : List UInt8) (n : ℕ) :
    Except Fault (List UInt8) := do
  let data ← bytesAt src 0 n
  writeBytes dest start data

structure Locals where
  dataBuffer : Option (List UInt8)
  tempDataBuffer : List UInt8
  recDataSize : ℕ

/-- How the loop stands: it waits for a receive, or it has been left and `rest` is still to be
received. -/
inductive Outcome
  | waiting
  | left (dataBuffer : Option (List UInt8)) (recDataSize : ℕ) (rest : List Received)

def receive (memory : Memory) : List Received → Locals → Except Fault Outcome
  | [], _ => .ok .waiting
  | received :: rest, locals => do
    let result := received.result
    let tempDataBuffer ← writeBytes locals.tempDataBuffer 0 received.bytes
    match locals.dataBuffer with
    | none => .ok (.left none locals.recDataSize rest)
    | some dataBuffer =>
      if result = 0 then .ok (.left (some dataBuffer) locals.recDataSize rest)
      else
        let dataBuffer ← memcpy dataBuffer locals.recDataSize tempDataBuffer (toSize result)
        let recDataSize := (locals.recDataSize + toSize result) % 2 ^ 64
        if result = recvSize then
          match memory.realloc dataBuffer ((recDataSize + recvSize) % 2 ^ 64) with
          | none => .ok (.left none recDataSize rest)
          | some dataBuffer => receive memory rest ⟨some dataBuffer, tempDataBuffer, recDataSize⟩
        else
          let dataBuffer ← writeBytes dataBuffer recDataSize [0]
          .ok (.left (some dataBuffer) recDataSize rest)

/-- The loop with the buffer that is allocated for it. `temp_data_buffer` holds anything. -/
def receiveAll (memory : Memory) (tempDataBuffer : Vector UInt8 recvSize)
    (results : List Received) : Except Fault Outcome :=
  receive memory results ⟨memory.malloc recvSize, tempDataBuffer.toList, 0⟩

/-- The arguments that the callbacks are called with, when they are. -/
def callbackArguments : Outcome → Option (List UInt8 × ℕ)
  | .left (some dataBuffer) recDataSize _ => some (dataBuffer, recDataSize)
  | _ => none

def Outcome.rest : Outcome → List Received
  | .waiting => []
  | .left _ _ rest => rest

/-- What the callbacks are given are the bytes of the receives so far, behind those that had been
received before, and how many they are. -/
def Delivers (before : List UInt8) (results : List Received) (outcome : Outcome) : Prop :=
  ∀ arguments ∈ callbackArguments outcome, ∃ taken, results = taken ++ outcome.rest ∧
    arguments.2 = (before ++ taken.flatMap Received.bytes).length ∧
    arguments.1.take arguments.2 = before ++ taken.flatMap Received.bytes

/-- After full chunks only, and with all the room for them, a receive fails. -/
def FailsFrom (memory : Memory) (start : ℕ) (results : List Received) : Prop :=
  ∃ (full : List Chunk) (rest : List Received), (∀ c ∈ full, c.bytes.length = recvSize) ∧
    results = full.map .chunk ++ .failed :: rest ∧
    ∀ k < full.length, memory.Gives (start + recvSize * (k + 2))

section Failing

variable {memory : Memory} {start : ℕ} {rest : List Received} {c : Chunk}

private theorem not_failsFrom_nil : ¬FailsFrom memory start [] := by
  rintro ⟨full, rest, -, h, -⟩
  simp at h

private theorem failsFrom_failed : FailsFrom memory start (.failed :: rest) :=
  ⟨[], rest, by simp, rfl, by simp⟩

private theorem not_failsFrom_closed : ¬FailsFrom memory start (.closed :: rest) := by
  rintro ⟨full, rest, -, h, -⟩
  cases full with
  | nil => simp at h
  | cons c full => simp at h

private theorem failsFrom_chunk : FailsFrom memory start (.chunk c :: rest) ↔
    c.bytes.length = recvSize ∧ memory.Gives (start + recvSize * 2) ∧
      FailsFrom memory (start + recvSize) rest := by
  constructor
  · rintro ⟨full, rest', hfull, h, hgives⟩
    cases full with
    | nil => simp at h
    | cons c' full =>
      obtain ⟨hc, hrest⟩ := List.cons.inj h
      obtain rfl := Received.chunk.inj hc
      obtain ⟨hc, hfull⟩ := List.forall_mem_cons.mp hfull
      refine ⟨hc, hgives 0 (Nat.succ_pos _), full, rest', hfull, hrest, ?_⟩
      intro k hk
      have hnext := hgives (k + 1) (Nat.succ_lt_succ hk)
      rwa [show start + recvSize * (k + 1 + 2) = start + recvSize + recvSize * (k + 2) by ring]
        at hnext
  · rintro ⟨hc, hgives, full, rest', hfull, rfl, hnext⟩
    refine ⟨c :: full, rest', List.forall_mem_cons.mpr ⟨hc, hfull⟩, rfl, ?_⟩
    intro k hk
    cases k with
    | zero => exact hgives
    | succ k =>
      rw [show start + recvSize * (k + 1 + 2) = start + recvSize + recvSize * (k + 2) by ring]
      exact hnext k (Nat.lt_of_succ_lt_succ hk)

end Failing

section Rounds

variable {memory : Memory} {buffer temp received before old new after data : List UInt8}
  {start n : ℕ} {c : Chunk} {rest results : List Received} {outcome : Outcome}

/-- The buffer holds what has been received and has room for one more chunk. -/
structure Holding (buffer received : List UInt8) : Prop where
  room : ∃ room, buffer = received ++ room ∧ room.length = recvSize
  bounded : buffer.length < 2 ^ 63

private theorem Holding.length (h : Holding buffer received) :
    buffer.length = received.length + recvSize := by
  obtain ⟨room, rfl, hroom⟩ := h.room
  rw [List.length_append, hroom]

private theorem Memory.malloc_holding (h : memory.malloc recvSize = some buffer) :
    Holding buffer [] := by
  rw [Memory.malloc, Option.ite_none_right_eq_some] at h
  obtain ⟨hgives, h⟩ := h
  obtain rfl := Option.some.inj h
  have hlength : (memory.contents recvSize).length = recvSize := by simp [Memory.contents]
  exact ⟨⟨_, rfl, hlength⟩, hlength ▸ hgives.2⟩

private theorem Memory.realloc_holding (hgives : memory.Gives (received.length + recvSize)) :
    ∃ grown, memory.realloc received (received.length + recvSize) = some grown ∧
      Holding grown received := by
  have hlength : ((memory.contents (received.length + recvSize)).drop received.length).length =
      recvSize := by
    simp [Memory.contents]
  refine ⟨_, if_pos hgives, ⟨_, ?_, hlength⟩, ?_⟩
  · rw [List.take_of_length_le]
    rw [List.length_append, hlength]
  · rw [List.length_take, List.length_append, hlength, Nat.min_self]
    exact hgives.2

private theorem Received.fits (last : Received) : last.bytes.length ≤ recvSize := by
  cases last with
  | chunk c => exact c.fits
  | closed => exact Nat.zero_le _
  | failed => exact Nat.zero_le _

private theorem recv_eq (htemp : temp.length = recvSize) (last : Received) :
    writeBytes temp 0 last.bytes = .ok (last.bytes ++ temp.drop last.bytes.length) := by
  have hfits := last.fits
  have hold : last.bytes.length = (temp.take last.bytes.length).length := by
    rw [List.length_take]
    omega
  have hwrite := writeBytes_append [] (temp.take last.bytes.length) last.bytes
    (temp.drop last.bytes.length) rfl hold
  rwa [List.nil_append, List.take_append_drop] at hwrite

private theorem Chunk.size_pos (c : Chunk) : 0 < c.bytes.length :=
  List.length_pos_iff.mpr c.nonempty

/-- The bytes of a receive come into the temporary buffer, and from there behind those that have
been received. -/
private theorem Holding.copy (h : Holding buffer received) (htemp : temp.length = recvSize)
    (c : Chunk) :
    ∃ temp' room, writeBytes temp 0 c.bytes = .ok temp' ∧ temp'.length = recvSize ∧
      memcpy buffer received.length temp' c.bytes.length = .ok (received ++ (c.bytes ++ room)) ∧
      c.bytes.length + room.length = recvSize := by
  obtain ⟨room, rfl, hroom⟩ := h.room
  have hfits := c.fits
  have hplace : c.bytes.length = (room.take c.bytes.length).length := by
    rw [List.length_take]
    omega
  have hrecv : writeBytes temp 0 c.bytes = .ok (c.bytes ++ temp.drop c.bytes.length) :=
    recv_eq htemp (.chunk c)
  refine ⟨_, room.drop c.bytes.length, hrecv, ?_, ?_, ?_⟩
  · rw [List.length_append, List.length_drop]
    omega
  · have hread : bytesAt ([] ++ (c.bytes ++ temp.drop c.bytes.length)) 0 c.bytes.length =
        .ok c.bytes := bytesAt_append [] c.bytes (temp.drop c.bytes.length) rfl rfl
    have hwrite := writeBytes_append received (room.take c.bytes.length) c.bytes
      (room.drop c.bytes.length) rfl hplace
    rw [List.take_append_drop] at hwrite
    rw [memcpy, ← List.nil_append (c.bytes ++ temp.drop c.bytes.length), hread, bind_ok, hwrite]
  · rw [List.length_drop]
    omega

private theorem Holding.size (h : Holding buffer received) (c : Chunk) :
    (received.length + c.bytes.length) % 2 ^ 64 = (received ++ c.bytes).length := by
  have hlength := h.length
  have hbounded := h.bounded
  have hfits := c.fits
  rw [List.length_append]
  omega

private theorem Chunk.toSize_result (c : Chunk) :
    toSize (Received.chunk c).result = c.bytes.length := by
  have hfits := c.fits
  apply toSize_natCast
  unfold recvSize at hfits
  omega

private theorem receive_short (memory : Memory) (rest : List Received) (h : Holding buffer received)
    (htemp : temp.length = recvSize)
    (hshort : c.bytes.length ≠ recvSize) : ∃ room,
      receive memory (.chunk c :: rest) ⟨some buffer, temp, received.length⟩ =
        .ok (.left (some (received ++ c.bytes ++ 0 :: room))
          (received ++ c.bytes).length rest) := by
  obtain ⟨temp', room, hrecv, -, hcopy, hroom⟩ := h.copy htemp c
  have hne : (Received.chunk c).result ≠ 0 := Int.natCast_ne_zero.mpr c.size_pos.ne'
  have hshort' : (Received.chunk c).result ≠ recvSize := fun heq => hshort (Int.ofNat.inj heq)
  cases room with
  | nil => exact absurd (by simpa using hroom) hshort
  | cons b room =>
    have hterminate :
        writeBytes (received ++ (c.bytes ++ b :: room)) (received ++ c.bytes).length [0] =
          .ok (received ++ c.bytes ++ 0 :: room) := by
      rw [← List.append_assoc]
      exact writeBytes_append (received ++ c.bytes) [b] [0] room rfl rfl
    refine ⟨room, ?_⟩
    rw [receive]
    simp only [Received.bytes, hrecv, bind_ok, if_neg hne, c.toSize_result, hcopy, h.size c,
      if_neg hshort', hterminate]

private theorem receive_full (memory : Memory) (rest : List Received) (h : Holding buffer received)
    (htemp : temp.length = recvSize)
    (hfull : c.bytes.length = recvSize) :
    if memory.Gives (received.length + recvSize * 2) then
      ∃ buffer' temp', Holding buffer' (received ++ c.bytes) ∧ temp'.length = recvSize ∧
        receive memory (.chunk c :: rest) ⟨some buffer, temp, received.length⟩ =
          receive memory rest ⟨some buffer', temp', (received ++ c.bytes).length⟩
    else receive memory (.chunk c :: rest) ⟨some buffer, temp, received.length⟩ =
      .ok (.left none (received ++ c.bytes).length rest) := by
  obtain ⟨temp', room, hrecv, htemp', hcopy, hroom⟩ := h.copy htemp c
  have hne : (Received.chunk c).result ≠ 0 := Int.natCast_ne_zero.mpr c.size_pos.ne'
  have hfull' : (Received.chunk c).result = recvSize := congrArg Int.ofNat hfull
  obtain rfl : room = [] := List.length_eq_zero_iff.mp (by omega)
  rw [List.append_nil] at hcopy
  have hsize : (received ++ c.bytes).length + recvSize = received.length + recvSize * 2 := by
    rw [List.length_append, hfull]
    omega
  have hwrap : ((received ++ c.bytes).length + recvSize) % 2 ^ 64 =
      (received ++ c.bytes).length + recvSize := by
    have hlength := h.length
    have hbounded := h.bounded
    rw [List.length_append, hfull]
    unfold recvSize at *
    omega
  rw [receive]
  simp only [Received.bytes, hrecv, bind_ok, if_neg hne, c.toSize_result, hcopy, h.size c,
    if_pos hfull', hwrap]
  split_ifs with hgives
  · rw [← hsize] at hgives
    obtain ⟨grown, hrealloc, hholding⟩ := Memory.realloc_holding hgives
    exact ⟨grown, temp', hholding, htemp', by rw [hrealloc]⟩
  · rw [← hsize] at hgives
    rw [Memory.realloc, if_neg hgives]

private theorem receive_zero {last : Received} (hrecv : writeBytes temp 0 last.bytes = .ok temp)
    (hzero : last.result = 0) :
    receive memory (last :: rest) ⟨some buffer, temp, n⟩ = .ok (.left (some buffer) n rest) := by
  rw [receive]
  simp only [hrecv, bind_ok, if_pos hzero]

theorem receive_closed (temp : List UInt8) :
    receive memory (.closed :: rest) ⟨some buffer, temp, n⟩ = .ok (.left (some buffer) n rest) :=
  receive_zero (writeBytes_append [] [] [] temp rfl rfl) rfl

private theorem receive_null (memory : Memory) (results : List Received)
    (htemp : temp.length = recvSize) :
    ∃ outcome, receive memory results ⟨none, temp, n⟩ = .ok outcome ∧
      callbackArguments outcome = none := by
  cases results with
  | nil => exact ⟨_, rfl, rfl⟩
  | cons last rest =>
    refine ⟨.left none n rest, ?_, rfl⟩
    rw [receive]
    simp only [recv_eq htemp, bind_ok]

private theorem receive_fault {last : Received} (hrecv : writeBytes temp 0 last.bytes = .ok temp)
    (hne : last.result ≠ 0)
    (hcopy : memcpy buffer n temp (toSize last.result) = .error .outOfBounds) :
    receive memory (last :: rest) ⟨some buffer, temp, n⟩ = .error .outOfBounds := by
  rw [receive]
  simp only [hrecv, bind_ok, if_neg hne, hcopy, bind_error]

private theorem toSize_failed : toSize Received.failed.result = 2 ^ 64 - 1 := by
  unfold toSize Received.result
  norm_num
  rfl

private theorem receive_failed (htemp : temp.length = recvSize) :
    receive memory (.failed :: rest) ⟨some buffer, temp, n⟩ = .error .outOfBounds := by
  have hread : bytesAt temp 0 (toSize Received.failed.result) = .error .outOfBounds := by
    rw [bytesAt, Block.load_eq_none]
    rw [toSize_failed, htemp, recvSize]
    norm_num
  apply receive_fault (writeBytes_append [] [] [] temp rfl rfl) (by decide)
  rw [memcpy, hread, bind_error]

private theorem Delivers.cons (h : Delivers (before ++ c.bytes) rest outcome) :
    Delivers before (.chunk c :: rest) outcome := by
  intro arguments harguments
  obtain ⟨taken, hrest, hsize, hbytes⟩ := h arguments harguments
  rw [List.append_assoc] at hsize hbytes
  exact ⟨.chunk c :: taken, by rw [hrest, List.cons_append], hsize, hbytes⟩

private theorem delivers_none : Delivers before results (.left none n rest) := by
  intro arguments harguments
  cases harguments

private theorem delivers_last (before after : List UInt8) (last : Received) :
    Delivers before (last :: rest)
      (.left (some (before ++ last.bytes ++ after)) (before ++ last.bytes).length rest) := by
  intro arguments harguments
  obtain rfl := Option.some.inj harguments
  have htaken : [last].flatMap Received.bytes = last.bytes := List.flatMap_singleton _ _
  refine ⟨[last], rfl, by rw [htaken], ?_⟩
  rw [htaken]
  exact List.take_left' rfl

private theorem receive_error (h : Holding buffer received) (htemp : temp.length = recvSize)
    (hfails : FailsFrom memory received.length results) :
    receive memory results ⟨some buffer, temp, received.length⟩ = .error .outOfBounds := by
  induction results generalizing buffer received temp with
  | nil => exact absurd hfails not_failsFrom_nil
  | cons result rest ih =>
    cases result with
    | closed => exact absurd hfails not_failsFrom_closed
    | failed => exact receive_failed htemp
    | chunk c =>
      obtain ⟨hfull, hgives, hfails⟩ := failsFrom_chunk.mp hfails
      have hnext := receive_full memory rest h htemp hfull
      rw [if_pos hgives] at hnext
      obtain ⟨buffer', temp', hholding, htemp', hreceive⟩ := hnext
      rw [hreceive]
      apply ih hholding htemp'
      rwa [List.length_append, hfull]

private theorem receive_delivers (h : Holding buffer received) (htemp : temp.length = recvSize)
    (hfails : ¬FailsFrom memory received.length results) :
    ∃ outcome, receive memory results ⟨some buffer, temp, received.length⟩ = .ok outcome ∧
      Delivers received results outcome := by
  induction results generalizing buffer received temp with
  | nil =>
    refine ⟨.waiting, rfl, ?_⟩
    intro arguments harguments
    cases harguments
  | cons result rest ih =>
    cases result with
    | failed => exact absurd failsFrom_failed hfails
    | closed =>
      obtain ⟨room, rfl, -⟩ := h.room
      refine ⟨_, receive_closed temp, ?_⟩
      have hlast : Delivers received (.closed :: rest) (.left _ _ rest) :=
        delivers_last received room .closed
      rwa [Received.bytes, List.append_nil] at hlast
    | chunk c =>
      by_cases hfull : c.bytes.length = recvSize
      · have hnext := receive_full memory rest h htemp hfull
        split_ifs at hnext with hgives
        · obtain ⟨buffer', temp', hholding, htemp', hreceive⟩ := hnext
          have hrest : ¬FailsFrom memory (received ++ c.bytes).length rest := by
            rw [List.length_append, hfull]
            exact fun hfails' => hfails (failsFrom_chunk.mpr ⟨hfull, hgives, hfails'⟩)
          obtain ⟨outcome, hok, hdelivers⟩ := ih hholding htemp' hrest
          exact ⟨outcome, hreceive.trans hok, hdelivers.cons⟩
        · exact ⟨_, hnext, delivers_none⟩
      · obtain ⟨room, hreceive⟩ := receive_short memory rest h htemp hfull
        exact ⟨_, hreceive, delivers_last received (0 :: room) (.chunk c)⟩

end Rounds

/-- After full chunks only, a receive fails while the buffer has been allocated every time. -/
def Fails (memory : Memory) (results : List Received) : Prop :=
  ∃ (full : List Chunk) (rest : List Received), (∀ c ∈ full, c.bytes.length = recvSize) ∧
    results = full.map .chunk ++ .failed :: rest ∧
    ∀ k ≤ full.length, memory.Gives (recvSize * (k + 1))

private theorem fails_iff {memory : Memory} {results : List Received} :
    Fails memory results ↔ memory.Gives recvSize ∧ FailsFrom memory 0 results := by
  constructor
  · rintro ⟨full, rest, hfull, hresults, hgives⟩
    refine ⟨hgives 0 (Nat.zero_le _), full, rest, hfull, hresults, ?_⟩
    intro k hk
    rw [Nat.zero_add]
    exact hgives (k + 1) hk
  · rintro ⟨hgives, full, rest, hfull, hresults, hnext⟩
    refine ⟨full, rest, hfull, hresults, ?_⟩
    intro k hk
    cases k with
    | zero => exact hgives
    | succ k =>
      have := hnext k hk
      rwa [Nat.zero_add] at this

/-- The loop writes only inside the buffer and the callbacks are given what has been received, but
for a receive that fails after full chunks only. -/
theorem receiveAll_iff (memory : Memory) (tempDataBuffer : Vector UInt8 recvSize)
    (results : List Received) :
    (∃ outcome, receiveAll memory tempDataBuffer results = .ok outcome ∧
      Delivers [] results outcome) ↔ ¬Fails memory results := by
  rw [fails_iff, receiveAll]
  have htemp : tempDataBuffer.toList.length = recvSize := tempDataBuffer.length_toList
  by_cases hgives : memory.Gives recvSize
  · have hmalloc : memory.malloc recvSize = some (memory.contents recvSize) := if_pos hgives
    have hholding := Memory.malloc_holding hmalloc
    rw [hmalloc]
    by_cases hfails : FailsFrom memory 0 results
    · rw [show (0 : ℕ) = ([] : List UInt8).length from rfl, receive_error hholding htemp hfails]
      simp [hgives, hfails]
    · have hdelivers := receive_delivers hholding htemp hfails
      simpa [hgives, hfails] using hdelivers
  · have hmalloc : memory.malloc recvSize = none := if_neg hgives
    obtain ⟨outcome, hreceive, hnone⟩ := receive_null memory results htemp
    rw [hmalloc]
    refine iff_of_true ⟨outcome, hreceive, ?_⟩ fun h => hgives h.1
    intro arguments harguments
    rw [hnone] at harguments
    cases harguments

/-- The first receive fails, as it does when nothing comes before the timeout. -/
theorem receiveAll_failed :
    receiveAll ⟨fun _ => true, fun _ _ => 0⟩ (Vector.replicate recvSize 0) [.failed] =
        .error .outOfBounds ∧
      ¬∃ outcome, receiveAll ⟨fun _ => true, fun _ _ => 0⟩ (Vector.replicate recvSize 0) [.failed] =
        .ok outcome ∧ Delivers [] [.failed] outcome := by
  have hgives : Memory.Gives ⟨fun _ => true, fun _ _ => 0⟩ recvSize := by decide
  have herror : receiveAll ⟨fun _ => true, fun _ _ => 0⟩ (Vector.replicate recvSize 0) [.failed] =
      .error .outOfBounds := by
    rw [receiveAll, Memory.malloc, if_pos hgives]
    exact receive_failed Vector.length_toList
  refine ⟨herror, ?_⟩
  rintro ⟨outcome, hok, -⟩
  rw [herror] at hok
  cases hok

end Libromano.SocketServer
