/- Runs of an arena. They are safe exactly when no request is larger than a block, as long as
   memory lasts. -/

import Libromano.Arena.Safety

set_option autoImplicit false
set_option relaxedAutoImplicit false

namespace Libromano.ArenaBlocks

section Step

variable {blockSize : ℕ} {s : State} {r : Request} {granted : Bool}

private theorem Inv.exists_current (h : Inv blockSize s) :
    ∃ current, s.memory.allocations[s.arena.currentBlock]? = some current :=
  ⟨_, List.getElem?_eq_getElem h.current⟩

private theorem arenaResize_refused {m : Memory} {arena : Arena} {granted : Bool}
    (hsize : arena.blockSize + sizeofArenaBlock < 2 ^ 64)
    (hgives : Memory.mallocGives granted (arena.blockSize + sizeofArenaBlock) = false) :
    arenaResize m arena granted = .ok none := by
  rw [arenaResize, arenaBlockInit_eq hsize, hgives]
  rfl

/-- The step lemma for requests that are no larger than a block. -/
private theorem Inv.push (h : Inv blockSize s) (hsize : blockSize + sizeofArenaBlock < 2 ^ 63)
    (hfits : r.dataSize ≤ blockSize) :
    ∃ s', step s (.push r granted) = .ok s' ∧ Inv blockSize s' ∧ Keeps s s' := by
  obtain ⟨current, hcurrent⟩ := h.exists_current
  have hformed := h.formed _ _ hcurrent
  have hmod : (current.header.offset + r.dataSize) % 2 ^ 64 = current.header.offset + r.dataSize :=
    Nat.mod_eq_of_lt (by have := hformed.offset; omega)
  rw [step, arenaPush, header_eq hcurrent, bind_ok, arenaCheckResize, hformed.capacity, hmod]
  by_cases hfull : blockSize ≤ current.header.offset + r.dataSize
  · rw [if_pos (decide_eq_true hfull)]
    cases granted with
    | false =>
      rw [arenaResize_refused (by rw [h.size]; omega) rfl]
      exact ⟨s, rfl, h, fun _ _ _ _ _ => rfl⟩
    | true =>
      have hadded : s.added.header.offset + r.dataSize = r.dataSize := Nat.zero_add _
      obtain ⟨region, arena', m', hpush, hinv', hkeeps⟩ :=
        h.resized.pushCurrent (r := r) (by omega) getElem?_resized (by omega)
      rw [arenaResize_eq (by rw [h.size]; exact hsize), bind_ok]
      simp only [hpush]
      exact ⟨_, rfl, hinv', hkeeps⟩
  · obtain ⟨region, arena', m', hpush, hinv', hkeeps⟩ :=
      h.pushCurrent (r := r) (by omega) hcurrent (by omega)
    rw [if_neg (by simpa using hfull), hpush]
    exact ⟨_, rfl, hinv', hkeeps⟩

private theorem clearLoop_eq {fuel : ℕ} {m : Memory} {current : ℕ} (h : m.Formed blockSize)
    (hcurrent : current < m.allocations.length) (hfuel : current < fuel) :
    ∃ first m', clearLoop fuel m current = .ok (first, m') ∧ m'.Formed blockSize ∧
      first < m'.allocations.length := by
  induction fuel generalizing m current with
  | zero => exact absurd hfuel (Nat.not_lt_zero _)
  | succ fuel ih =>
    have ha := List.getElem?_eq_getElem hcurrent
    have hformed := h _ _ ha
    have hset : (m.setOffset current 0).Formed blockSize := h.setOffset (Nat.zero_le _)
    rw [clearLoop, header_eq ha, bind_ok]
    cases hprevious : m.allocations[current].header.previous with
    | none => exact ⟨current, _, rfl, hset, by simpa using hcurrent⟩
    | some previous =>
      have hlt := hformed.previous previous hprevious
      exact ih hset (by rw [length_setOffset]; omega) (by omega)

private theorem Inv.clear (h : Inv blockSize s) :
    ∃ s', step s .clear = .ok s' ∧ Inv blockSize s' ∧ Keeps s s' := by
  obtain ⟨first, m, hloop, hformed, hfirst⟩ := clearLoop_eq h.formed h.current h.current
  refine ⟨⟨m, { s.arena with currentBlock := first }, []⟩, ?_, ?_, ?_⟩
  · rw [step, arenaClear, hloop]
    rfl
  · exact ⟨hformed, h.size, hfirst, List.forall_mem_nil _, List.forall_mem_nil _, .nil⟩
  · exact fun _ _ hq => absurd hq List.not_mem_nil

private theorem Inv.not_sound (h : Inv blockSize s) (hsize : blockSize + sizeofArenaBlock < 2 ^ 63)
    (hfits : blockSize < r.dataSize) {s' : State} (hstep : step s (.push r true) = .ok s') :
    ¬Sound s' := by
  obtain ⟨current, hcurrent⟩ := h.exists_current
  have hover {s₀ : State} (h₀ : Inv blockSize s₀) {region : Region} {arena : Arena} {m : Memory}
      {live : List Region}
      (hpush : ArenaBlocks.pushCurrent s₀.memory s₀.arena r = .ok (region, arena, m)) :
      ¬Sound ⟨m, arena, region :: live⟩ := by
    intro hsound
    obtain ⟨current, -, rfl, -, hsame⟩ := pushCurrent_ok hpush
    obtain ⟨a', ha', hle⟩ := hsound.inside _ List.mem_cons_self
    simp only [hsame, getElem?_setOffset, Option.map_eq_some_iff] at ha'
    obtain ⟨a, ha, rfl⟩ := ha'
    have ha := (h₀.formed _ _ ha).size
    split_ifs at hle <;>
    · simp only [Request.region, ha] at hle
      omega
  rw [step, arenaPush, header_eq hcurrent, bind_ok] at hstep
  split_ifs at hstep with hfull
  · rw [arenaResize_eq (by rw [h.size]; exact hsize), bind_ok] at hstep
    simp only at hstep
    cases hpush : ArenaBlocks.pushCurrent s.resized.memory s.resized.arena r with
    | error e =>
      rw [hpush] at hstep
      cases hstep
    | ok result =>
      rw [hpush] at hstep
      cases hstep
      exact hover h.resized hpush
  · cases hpush : ArenaBlocks.pushCurrent s.memory s.arena r with
    | error e =>
      rw [hpush] at hstep
      cases hstep
    | ok result =>
      rw [hpush] at hstep
      cases hstep
      exact hover h hpush

end Step

/-- The call asks for no more than a block. -/
def Op.Fits (blockSize : ℕ) : Op → Prop
  | .push r _ => r.dataSize ≤ blockSize
  | .clear => True

/-- The system gives the call the memory that it asks for. -/
def Op.Granted : Op → Prop
  | .push _ granted => granted = true
  | .clear => True

private theorem Inv.step {blockSize : ℕ} {s : State} {op : Op} (h : Inv blockSize s)
    (hsize : blockSize + sizeofArenaBlock < 2 ^ 63) (hfits : op.Fits blockSize) :
    ∃ s', ArenaBlocks.step s op = .ok s' ∧ Inv blockSize s' ∧ Keeps s s' := by
  cases op with
  | push r granted => exact h.push hsize hfits
  | clear => exact h.clear

/-- The run lemma. -/
private theorem Inv.safe {blockSize : ℕ} {s : State} {ops : List Op} (h : Inv blockSize s)
    (hsize : blockSize + sizeofArenaBlock < 2 ^ 63) (hfits : ∀ op ∈ ops, op.Fits blockSize) :
    Safe s ops := by
  induction ops generalizing s with
  | nil => exact h.sound
  | cons op ops ih =>
    rw [List.forall_mem_cons] at hfits
    obtain ⟨s', hstep, hinv, hkeeps⟩ := h.step hsize hfits.1
    exact ⟨h.sound, s', hstep, hkeeps, ih hinv hfits.2⟩

private theorem Safe.sound {s : State} {ops : List Op} (h : Safe s ops) : Sound s := by
  cases ops with
  | nil => exact h
  | cons op ops => exact h.1

private theorem Inv.fits_of_safe {blockSize : ℕ} {s : State} {ops : List Op} (h : Inv blockSize s)
    (hsize : blockSize + sizeofArenaBlock < 2 ^ 63) (hgranted : ∀ op ∈ ops, op.Granted)
    (hsafe : Safe s ops) : ∀ op ∈ ops, op.Fits blockSize := by
  induction ops generalizing s with
  | nil => exact List.forall_mem_nil _
  | cons op ops ih =>
    rw [List.forall_mem_cons] at hgranted ⊢
    obtain ⟨-, s', hstep, -, hsafe⟩ := hsafe
    have hop : op.Fits blockSize := by
      cases op with
      | clear => trivial
      | push r granted =>
        obtain rfl : granted = true := hgranted.1
        by_contra hfits
        exact h.not_sound hsize (Nat.not_le.mp hfits) hstep hsafe.sound
    obtain ⟨s'', hstep', hinv, -⟩ := h.step hsize hop
    cases hstep.symm.trans hstep'
    exact ⟨hop, ih hinv hgranted.2 hsafe⟩

section Run

variable {bytes : ℕ → ℕ → UInt8} {granted : Bool} {blockSize : ℕ} {ops : List Op}

private theorem arenaInit_eq (hsize : blockSize + sizeofArenaBlock < 2 ^ 64) :
    arenaInit bytes granted blockSize =
      .ok (if Memory.mallocGives granted (blockSize + sizeofArenaBlock) then
        some (⟨0, blockSize, blockSize⟩,
          ⟨[⟨blockSize + sizeofArenaBlock, ⟨0, blockSize, 0, none, none⟩⟩], bytes⟩)
      else none) := by
  rw [arenaInit, arenaBlockInit_eq hsize]
  split_ifs <;> rfl

private theorem inv_init : Inv blockSize
    ⟨⟨[⟨blockSize + sizeofArenaBlock, ⟨0, blockSize, 0, none, none⟩⟩], bytes⟩,
      ⟨0, blockSize, blockSize⟩, []⟩ where
  formed := by
    intro block a ha
    rw [List.getElem?_singleton] at ha
    split_ifs at ha with hblock
    subst hblock
    cases ha
    exact ⟨rfl, rfl, rfl, Nat.zero_le _, fun _ h => absurd h.symm (Option.some_ne_none _)⟩
  size := rfl
  current := Nat.zero_lt_one
  owned := List.forall_mem_nil _
  taken := List.forall_mem_nil _
  disjoint := .nil

private theorem size_of_runSafe (hsize : blockSize < 2 ^ 64)
    (h : RunSafe bytes true blockSize ops) :
    blockSize + sizeofArenaBlock < 2 ^ 64 := by
  obtain ⟨made, hmade, -⟩ := h
  by_contra hwrap
  have hmod : (blockSize + sizeofArenaBlock) % 2 ^ 64 < sizeofArenaBlock := by
    rw [sizeofArenaBlock] at hwrap ⊢
    omega
  have hgives : Memory.mallocGives true ((blockSize + sizeofArenaBlock) % 2 ^ 64) = true := by
    rw [sizeofArenaBlock] at hmod ⊢
    simp only [Memory.mallocGives, Bool.true_and, decide_eq_true_eq]
    omega
  have hfault : arenaBlockInit ⟨[], bytes⟩ true blockSize = .error .outOfBounds := by
    simp only [arenaBlockInit, hgives, if_true, if_neg (Nat.not_le.mpr hmod)]
  rw [arenaInit, hfault] at hmade
  cases hmade

private theorem fits_of_runSafe (hsize : blockSize + sizeofArenaBlock < 2 ^ 63)
    (hgranted : ∀ op ∈ ops, op.Granted) (h : RunSafe bytes true blockSize ops) :
    ∀ op ∈ ops, op.Fits blockSize := by
  obtain ⟨made, hmade, hsafe⟩ := h
  have hgives : Memory.mallocGives true (blockSize + sizeofArenaBlock) = true := by
    simpa [Memory.mallocGives] using hsize
  rw [arenaInit_eq (by omega), if_pos hgives] at hmade
  cases hmade
  exact inv_init.fits_of_safe hsize hgranted (hsafe _ _ rfl)

private theorem runSafe_of_fits (hsize : blockSize + sizeofArenaBlock < 2 ^ 64)
    (hfits : ∀ op ∈ ops, op.Fits blockSize) : RunSafe bytes granted blockSize ops := by
  refine ⟨_, arenaInit_eq hsize, ?_⟩
  intro arena m hmade
  split_ifs at hmade with hgives
  cases hmade
  have hlt : blockSize + sizeofArenaBlock < 2 ^ 63 := by
    simp only [Memory.mallocGives, Bool.and_eq_true, decide_eq_true_eq] at hgives
    exact hgives.2
  exact inv_init.safe hlt hfits

/-- Whatever is asked of an arena is safe as long as no request is larger than a
block; and where memory lasts, nothing else is. -/
theorem runSafe_fits (bytes : ℕ → ℕ → UInt8) (blockSize : ℕ) (ops : List Op) :
    (blockSize + sizeofArenaBlock < 2 ^ 64 → (∀ op ∈ ops, op.Fits blockSize) →
      ∀ granted, RunSafe bytes granted blockSize ops) ∧
    (blockSize < 2 ^ 64 → RunSafe bytes true blockSize ops → (∀ op ∈ ops, op.Granted) →
      blockSize + sizeofArenaBlock < 2 ^ 64 ∧
        (blockSize + sizeofArenaBlock < 2 ^ 63 → ∀ op ∈ ops, op.Fits blockSize)) :=
  ⟨fun hsize hfits _ => runSafe_of_fits hsize hfits, fun hsize h hgranted =>
    ⟨size_of_runSafe hsize h, fun hsize => fits_of_runSafe hsize hgranted h⟩⟩

end Run

def textRequest (length : ℕ) : Request :=
  ⟨(length + 1) % 2 ^ 64, Nat.mod_lt _ (Nat.two_pow_pos 64), none⟩

/-- What `json_parse_string` asks of its string arena, of blocks of 131072 bytes. -/
def jsonParseString (len : ℕ) : List Op := [.push (textRequest len) true]

/-- What `http_header_add_entry` asks of its string arena, of blocks of 2048 bytes. -/
def httpHeaderAddEntry (keySize valueSize : ℕ) : List Op :=
  [.push (textRequest keySize) true, .push (textRequest valueSize) true]

private theorem textRequest_fits_iff {length blockSize : ℕ} {granted : Bool}
    (hlength : length + 1 < 2 ^ 64) :
    (Op.push (textRequest length) granted).Fits blockSize ↔ length < blockSize := by
  have hsize : (textRequest length).dataSize = length + 1 := Nat.mod_eq_of_lt hlength
  rw [Op.Fits, hsize]
  exact Nat.succ_le_iff

private theorem httpHeaderAddEntry_granted {keySize valueSize : ℕ} :
    ∀ op ∈ httpHeaderAddEntry keySize valueSize, op.Granted := by
  intro op hop
  rcases List.mem_pair.mp hop with rfl | rfl <;> rfl

/-- A row of headers, of which the sizes are given, is added safely exactly when
every one of them is shorter than a block. -/
theorem httpHeaderAddEntry_runSafe_iff (bytes : ℕ → ℕ → UInt8) (entries : List (ℕ × ℕ))
    (hsize : ∀ e ∈ entries, e.1 + 1 < 2 ^ 64 ∧ e.2 + 1 < 2 ^ 64) :
    RunSafe bytes true 2048 (entries.flatMap fun e => httpHeaderAddEntry e.1 e.2) ↔
      ∀ e ∈ entries, e.1 < 2048 ∧ e.2 < 2048 := by
  have hfits : (∀ op ∈ entries.flatMap fun e => httpHeaderAddEntry e.1 e.2, op.Fits 2048) ↔
      ∀ e ∈ entries, e.1 < 2048 ∧ e.2 < 2048 := by
    rw [List.forall_mem_flatMap]
    apply forall₂_congr
    intro e he
    rw [httpHeaderAddEntry, List.forall_mem_cons, List.forall_mem_singleton,
      textRequest_fits_iff (hsize e he).1, textRequest_fits_iff (hsize e he).2]
  have hgranted : ∀ op ∈ entries.flatMap fun e => httpHeaderAddEntry e.1 e.2, op.Granted := by
    rw [List.forall_mem_flatMap]
    exact fun e _ => httpHeaderAddEntry_granted
  rw [← hfits]
  exact ⟨fits_of_runSafe (by decide) hgranted, runSafe_of_fits (by decide)⟩

theorem jsonParseString_runSafe_iff (bytes : ℕ → ℕ → UInt8) {len : ℕ} (hlen : len + 1 < 2 ^ 64) :
    RunSafe bytes true (128 * 1024) (jsonParseString len) ↔ len < 128 * 1024 := by
  have hfits : (∀ op ∈ jsonParseString len, op.Fits (128 * 1024)) ↔ len < 128 * 1024 := by
    rw [jsonParseString, List.forall_mem_singleton, textRequest_fits_iff hlen]
  have hgranted : ∀ op ∈ jsonParseString len, op.Granted := by
    rw [jsonParseString, List.forall_mem_singleton]
    rfl
  rw [← hfits]
  exact ⟨fits_of_runSafe (by decide) hgranted, runSafe_of_fits (by decide)⟩

/-- A header with a key of four bytes and a value of 2047. -/
theorem runSafe_fits_header : RunSafe (fun _ _ => 0) true 2048 (httpHeaderAddEntry 4 2047) := by
  refine (runSafe_fits (fun _ _ => 0) 2048 _).1 (by decide) ?_ true
  intro op hop
  rcases List.mem_pair.mp hop with rfl | rfl
  · exact (textRequest_fits_iff (by decide)).mpr (by decide)
  · exact (textRequest_fits_iff (by decide)).mpr (by decide)

/-- A value of 2048 bytes does not fit behind its key, nor into a block of its own. -/
theorem runs_not_safe :
    ¬∀ bytes blockSize ops, (∀ op ∈ ops, op.Granted) → RunSafe bytes true blockSize ops := by
  intro h
  have hsafe := h (fun _ _ => 0) 2048 (httpHeaderAddEntry 4 2048) httpHeaderAddEntry_granted
  have hfits := fits_of_runSafe (by decide) httpHeaderAddEntry_granted hsafe
    (.push (textRequest 2048) true) (List.mem_cons_of_mem _ List.mem_cons_self)
  exact absurd ((textRequest_fits_iff (by decide)).mp hfits) (by decide)

end Libromano.ArenaBlocks
