/- Memory by addresses: what its bytes are and which stretches of it may be used. Words are kept
   low byte first. -/

import Libromano.Fault
import Mathlib.Algebra.Order.Ring.Nat
import Mathlib.Data.List.Basic

set_option autoImplicit false
set_option relaxedAutoImplicit false

namespace Libromano.Foundation

/-- The low `n` bytes of a word, the lowest one first. -/
def littleEndian : ℕ → ℕ → List UInt8
  | 0, _ => []
  | n + 1, word => UInt8.ofNat (word % 256) :: littleEndian n (word / 256)

def ofLittleEndian : List UInt8 → ℕ
  | [] => 0
  | c :: rest => c.toNat + 256 * ofLittleEndian rest

@[simp] theorem length_littleEndian (n word : ℕ) : (littleEndian n word).length = n := by
  induction n generalizing word with
  | zero => rfl
  | succ n ih => rw [littleEndian, List.length_cons, ih]

theorem ofLittleEndian_lt (bytes : List UInt8) : ofLittleEndian bytes < 256 ^ bytes.length := by
  induction bytes with
  | nil => exact Nat.one_pos
  | cons c rest ih =>
    have hc := c.toNat_lt
    rw [ofLittleEndian, List.length_cons, pow_succ]
    omega

theorem ofLittleEndian_littleEndian {n word : ℕ} (hword : word < 256 ^ n) :
    ofLittleEndian (littleEndian n word) = word := by
  induction n generalizing word with
  | zero => exact (Nat.lt_one_iff.mp hword).symm
  | succ n ih =>
    have hrest : word / 256 < 256 ^ n := by
      rw [pow_succ] at hword
      omega
    have hlow : (UInt8.ofNat (word % 256)).toNat = word % 256 := by
      rw [UInt8.toNat_ofNat']
      omega
    rw [littleEndian, ofLittleEndian, ih hrest, hlow]
    omega

theorem littleEndian_ofLittleEndian (bytes : List UInt8) :
    littleEndian bytes.length (ofLittleEndian bytes) = bytes := by
  induction bytes with
  | nil => rfl
  | cons c rest ih =>
    have hc := c.toNat_lt
    have hlow : (c.toNat + 256 * ofLittleEndian rest) % 256 = c.toNat := by omega
    have hhigh : (c.toNat + 256 * ofLittleEndian rest) / 256 = ofLittleEndian rest := by omega
    rw [List.length_cons, ofLittleEndian, littleEndian, hlow, hhigh, ih, UInt8.ofNat_toNat]

structure Extent where
  address : ℕ
  size : ℕ
  deriving DecidableEq

namespace Extent

def Contains (e : Extent) (p n : ℕ) : Prop := e.address ≤ p ∧ p + n ≤ e.address + e.size

def Apart (e f : Extent) : Prop :=
  e.address + e.size ≤ f.address ∨ f.address + f.size ≤ e.address

instance (e : Extent) (p n : ℕ) : Decidable (e.Contains p n) :=
  inferInstanceAs (Decidable (_ ∧ _))

instance (e f : Extent) : Decidable (e.Apart f) := inferInstanceAs (Decidable (_ ∨ _))

variable {e f : Extent} {p n q m : ℕ}

theorem Apart.symm (h : e.Apart f) : f.Apart e := Or.symm h

private theorem Apart.within (h : e.Apart f) (hf : f.Contains q m) : e.Apart ⟨q, m⟩ := by
  obtain ⟨hlow, hhigh⟩ := hf
  rcases h with h | h
  · exact Or.inl (h.trans hlow)
  · exact Or.inr (hhigh.trans h)

private theorem Contains.within (h : e.Contains p n) (hpart : p ≤ q ∧ q + m ≤ p + n) :
    e.Contains q m := by
  obtain ⟨hlow, hhigh⟩ := h
  exact ⟨by omega, by omega⟩

end Extent

def peek (bytes : ℕ → UInt8) (p n : ℕ) : List UInt8 := (List.range n).map fun i => bytes (p + i)

def poke (bytes : ℕ → UInt8) (p : ℕ) (data : List UInt8) (q : ℕ) : UInt8 :=
  if p ≤ q then data.getD (q - p) (bytes q) else bytes q

section

variable {bytes : ℕ → UInt8} {p q n : ℕ} {data : List UInt8}

@[simp] theorem length_peek : (peek bytes p n).length = n := by
  rw [peek, List.length_map, List.length_range]

private theorem peek_add (m : ℕ) :
    peek bytes p (n + m) = peek bytes p n ++ peek bytes (p + n) m := by
  unfold peek
  rw [List.range_add, List.map_append, List.map_map]
  congr 1
  apply List.map_congr_left
  intro i _
  rw [Function.comp, Nat.add_assoc]

theorem peek_congr {bytes' : ℕ → UInt8} (h : ∀ i < n, bytes' (p + i) = bytes (p + i)) :
    peek bytes' p n = peek bytes p n :=
  List.map_congr_left fun i hi => h i (List.mem_range.mp hi)

theorem poke_outside (h : q < p ∨ p + data.length ≤ q) : poke bytes p data q = bytes q := by
  unfold poke
  split_ifs with hle
  · rw [List.getD_eq_getElem?_getD, List.getElem?_eq_none (by omega), Option.getD_none]
  · rfl

private theorem peek_poke_self : peek (poke bytes p data) p data.length = data := by
  apply List.ext_getElem length_peek
  intro i hi hi'
  unfold peek poke
  simp [hi']

private theorem peek_poke_of_apart (h : Extent.Apart ⟨q, n⟩ ⟨p, data.length⟩) :
    peek (poke bytes p data) q n = peek bytes q n := by
  refine peek_congr fun i hi => poke_outside ?_
  rcases h with h | h
  · left
    dsimp only at h
    omega
  · right
    dsimp only at h
    omega

end

/-- The bytes of memory, and the blocks that are in use. -/
structure Heap where
  bytes : ℕ → UInt8
  live : List Extent

namespace Heap

def Valid (h : Heap) (p n : ℕ) : Prop := ∃ e ∈ h.live, e.Contains p n

instance (h : Heap) (p n : ℕ) : Decidable (h.Valid p n) :=
  inferInstanceAs (Decidable (∃ e ∈ h.live, e.Contains p n))

def write (h : Heap) (p : ℕ) (data : List UInt8) : Heap := { h with bytes := poke h.bytes p data }

@[simp] theorem write_live (h : Heap) (p : ℕ) (data : List UInt8) :
    (h.write p data).live = h.live := rfl

@[simp] theorem write_bytes (h : Heap) (p : ℕ) (data : List UInt8) :
    (h.write p data).bytes = poke h.bytes p data := rfl

/-- `memcpy` from somewhere else. -/
def memcpy (h : Heap) (p : ℕ) (data : List UInt8) : Except Fault Heap :=
  if p = 0 then .error .nullPointer
  else if h.Valid p data.length then .ok (h.write p data)
  else .error .outOfBounds

/-- The blocks that `malloc` hands out, if it does, are as large as requested and
overlap nothing that is in use. Their addresses fit in a pointer. -/
structure Allocator where
  grant : List Extent → ℕ → Option ℕ
  fresh : ∀ live n p, grant live n = some p →
    p ≠ 0 ∧ p + n ≤ 2 ^ 64 ∧ ∀ e ∈ live, e.Apart ⟨p, n⟩

def lastEnd (live : List Extent) : ℕ := live.foldr (fun e last => max (e.address + e.size) last) 1

private theorem end_le_lastEnd {live : List Extent} {e : Extent} (he : e ∈ live) :
    e.address + e.size ≤ lastEnd live := by
  induction live with
  | nil => exact absurd he List.not_mem_nil
  | cons a rest ih =>
    rw [lastEnd, List.foldr_cons]
    rcases List.mem_cons.mp he with rfl | hrest
    · exact Nat.le_max_left _ _
    · exact (ih hrest).trans (Nat.le_max_right _ _)

private theorem lastEnd_ne_zero (live : List Extent) : lastEnd live ≠ 0 := by
  induction live with
  | nil => exact Nat.one_ne_zero
  | cons a rest ih =>
    rw [lastEnd, List.foldr_cons]
    exact fun hzero => ih (Nat.max_eq_zero_iff.mp hzero).2

def Allocator.bump : Allocator where
  grant live n := if lastEnd live + n ≤ 2 ^ 64 then some (lastEnd live) else none
  fresh live n p hgrant := by
    split_ifs at hgrant with hfits
    · obtain rfl := Option.some.inj hgrant
      exact ⟨lastEnd_ne_zero live, hfits, fun e he => Or.inl (end_le_lastEnd he)⟩

def malloc (A : Allocator) (h : Heap) (n : ℕ) : Except Fault (ℕ × Heap) :=
  match A.grant h.live n with
  | none => .error .outOfMemory
  | some p => .ok (p, { h with live := ⟨p, n⟩ :: h.live })

/-- Nothing but null and the start of a block in use may be freed. -/
def free (h : Heap) (p : ℕ) : Except Fault Heap :=
  if p = 0 then .ok h
  else match h.live.find? fun e => e.address = p with
    | none => .error .outOfBounds
    | some e => .ok { h with live := h.live.erase e }

/-- `realloc`, with the block moved. -/
def realloc (A : Allocator) (h : Heap) (p n : ℕ) : Except Fault (ℕ × Heap) :=
  if p = 0 then malloc A h n
  else match h.live.find? fun e => e.address = p with
    | none => .error .outOfBounds
    | some e => do
      let (q, h) ← malloc A h n
      let h ← h.memcpy q (peek h.bytes p (min e.size n))
      .ok (q, { h with live := h.live.erase e })

structure Holds (h : Heap) (p : ℕ) (data : List UInt8) : Prop where
  valid : h.Valid p data.length
  peek : peek h.bytes p data.length = data

variable {h h' : Heap} {p q n m : ℕ} {data before old new after : List UInt8} {A : Allocator}

private theorem Valid.within (hvalid : h.Valid p n) (hpart : p ≤ q ∧ q + m ≤ p + n) :
    h.Valid q m := by
  obtain ⟨e, he, hcontains⟩ := hvalid
  exact ⟨e, he, hcontains.within hpart⟩

theorem Valid.mono (hvalid : h.Valid p n) (hlive : h.live ⊆ h'.live) : h'.Valid p n := by
  obtain ⟨e, he, hcontains⟩ := hvalid
  exact ⟨e, hlive he, hcontains⟩

theorem memcpy_eq_ok (hp : p ≠ 0) (hvalid : h.Valid p data.length) :
    h.memcpy p data = .ok (h.write p data) := by
  rw [memcpy, if_neg hp, if_pos hvalid]

theorem memcpy_ne_outOfMemory {p : ℕ} : h.memcpy p data ≠ .error .outOfMemory := by
  rw [memcpy]
  split_ifs <;> simp

theorem memcpy_live {p : ℕ} (hcopy : h.memcpy p data = .ok h') : h'.live = h.live := by
  rw [memcpy] at hcopy
  split_ifs at hcopy
  obtain rfl := Except.ok.inj hcopy
  exact write_live _ _ _

theorem malloc_eq_ok (A : Allocator) {n p : ℕ} (hmalloc : malloc A h n = .ok (p, h')) :
    A.grant h.live n = some p ∧ h'.live = ⟨p, n⟩ :: h.live := by
  rw [malloc] at hmalloc
  cases hgrant : A.grant h.live n with
  | none =>
    rw [hgrant] at hmalloc
    cases hmalloc
  | some q =>
    rw [hgrant] at hmalloc
    cases hmalloc
    exact ⟨rfl, rfl⟩

theorem malloc_eq_outOfMemory (A : Allocator) {n : ℕ}
    (hmalloc : malloc A h n = .error .outOfMemory) : A.grant h.live n = none := by
  rw [malloc] at hmalloc
  cases hgrant : A.grant h.live n with
  | none => rfl
  | some p =>
    rw [hgrant] at hmalloc
    cases hmalloc

theorem memcpy_null : h.memcpy 0 data = .error .nullPointer := by
  rw [memcpy, if_pos rfl]

theorem free_null : h.free 0 = .ok h := by
  rw [free, if_pos rfl]

theorem realloc_null : realloc A h 0 n = malloc A h n := by
  rw [realloc, if_pos rfl]

theorem malloc_yields (A : Allocator) (h : Heap) (n : ℕ) :
    Yields (malloc A h n) fun r => r.1 ≠ 0 ∧ r.1 + n ≤ 2 ^ 64 ∧
      r.2 = { h with live := ⟨r.1, n⟩ :: h.live } ∧
      ∀ p m, h.Valid p m → Extent.Apart ⟨p, m⟩ ⟨r.1, n⟩ := by
  rw [malloc]
  cases hgrant : A.grant h.live n with
  | none => exact rfl
  | some p =>
    obtain ⟨hp, hsize, hfresh⟩ := A.fresh h.live n p hgrant
    refine ⟨hp, hsize, rfl, fun q m hvalid => ?_⟩
    obtain ⟨e, he, hcontains⟩ := hvalid
    exact ((hfresh e he).symm.within hcontains).symm

namespace Holds

theorem of_write (hvalid : h.Valid p data.length) : (h.write p data).Holds p data where
  valid := hvalid
  peek := peek_poke_self

theorem write_apart (hdata : h.Holds p data)
    (hapart : Extent.Apart ⟨p, data.length⟩ ⟨q, new.length⟩) : (h.write q new).Holds p data where
  valid := hdata.valid
  peek := (peek_poke_of_apart hapart).trans hdata.peek

theorem mono (hdata : h.Holds p data) (hlive : h.live ⊆ h'.live) (hbytes : h'.bytes = h.bytes) :
    h'.Holds p data where
  valid := hdata.valid.mono hlive
  peek := by rw [hbytes, hdata.peek]

theorem peek_eq (hdata : h.Holds p (before ++ (old ++ after))) :
    Foundation.peek h.bytes (p + before.length) old.length = old := by
  have hpeek := hdata.peek
  rw [List.length_append, List.length_append, peek_add, peek_add] at hpeek
  exact (List.append_inj (List.append_inj hpeek length_peek).2 length_peek).1

theorem valid_within (hdata : h.Holds p (before ++ (old ++ after))) :
    h.Valid (p + before.length) old.length := by
  refine hdata.valid.within ⟨Nat.le_add_right p before.length, ?_⟩
  rw [List.length_append, List.length_append]
  omega

theorem part (hdata : h.Holds p (before ++ (old ++ after))) : h.Holds (p + before.length) old where
  valid := hdata.valid_within
  peek := hdata.peek_eq

theorem write_within (hdata : h.Holds p (before ++ (old ++ after)))
    (hlength : new.length = old.length) :
    (h.write (p + before.length) new).Holds p (before ++ (new ++ after)) where
  valid := by
    have hvalid := hdata.valid
    rw [List.length_append, List.length_append, ← hlength] at hvalid
    rwa [List.length_append, List.length_append]
  peek := by
    have hpeek := hdata.peek
    rw [List.length_append, List.length_append, peek_add, peek_add] at hpeek
    obtain ⟨hbefore, hrest⟩ := List.append_inj hpeek length_peek
    obtain ⟨-, hafter⟩ := List.append_inj hrest length_peek
    rw [List.length_append, List.length_append, peek_add, peek_add, write_bytes, peek_poke_self,
      peek_poke_of_apart (Or.inl (Nat.le_refl _)), peek_poke_of_apart (Or.inr (Nat.le_refl _)),
      hbefore, hlength, hafter]

end Holds

end Heap

end Libromano.Foundation
