/- Reading bytes through a pointer. A pointer is given by the object it points into and a place in
   it. -/

import Libromano.Fault
import Libromano.Foundation.Block
import Mathlib.Algebra.Order.Ring.Int

set_option autoImplicit false
set_option relaxedAutoImplicit false

namespace Libromano.Bytes

open Foundation

variable {data before after text : List UInt8} {i j n start : ℕ} {b c : UInt8}

/-- `data[i]`. -/
def byteAt (data : List UInt8) (i : ℕ) : Except Fault UInt8 :=
  match data[i]? with
  | some b => .ok b
  | none => .error .outOfBounds

/-- The bytes that `memcpy(_, data + start, n)` reads. -/
def bytesAt (data : List UInt8) (start n : ℕ) : Except Fault (List UInt8) :=
  match Block.load data start n with
  | some bytes => .ok bytes
  | none => .error .outOfBounds

/-- `memcpy(block + start, data, n)`, with the bytes that it copies. -/
def writeBytes (block : List UInt8) (start : ℕ) (data : List UInt8) : Except Fault (List UInt8) :=
  match Block.store block start data with
  | some block => .ok block
  | none => .error .outOfBounds

/-- The bytes before the null byte that ends a C string. -/
def cString (text : List UInt8) : List UInt8 := text.takeWhile (· ≠ 0)

def strlen (data : List UInt8) : Except Fault ℕ :=
  if 0 ∈ data then .ok (cString data).length else .error .outOfBounds

/-- `isspace`, in the C locale. -/
def isspace (c : UInt8) : Bool := c == 32 || 9 ≤ c && c ≤ 13

/-- The conversion of a signed number to `size_t`. -/
def toSize (n : ℤ) : ℕ := (n % 2 ^ 64).toNat

/-- The bytes of a literal. -/
def ascii (s : String) : List UInt8 := s.toList.map fun c => UInt8.ofNat c.toNat

theorem byteAt_append (before after : List UInt8) (h : i = before.length + j) :
    byteAt (before ++ after) i = byteAt after j := by
  rw [byteAt, byteAt, h, List.getElem?_append_right (Nat.le_add_right _ _), Nat.add_sub_cancel_left]

theorem byteAt_at (before after : List UInt8) (c : UInt8) (h : i = before.length) :
    byteAt (before ++ c :: after) i = .ok c := by
  rw [byteAt_append before (c :: after) (j := 0) h]
  rfl

theorem byteAt_out (h : data.length ≤ i) : byteAt data i = .error .outOfBounds := by
  rw [byteAt, List.getElem?_eq_none h]

theorem bytesAt_append (before text after : List UInt8) (hstart : before.length = start)
    (hn : text.length = n) : bytesAt (before ++ (text ++ after)) start n = .ok text := by
  rw [bytesAt, Block.load_append hstart hn]

theorem writeBytes_append (before old new after : List UInt8) (hstart : before.length = start)
    (hlength : new.length = old.length) :
    writeBytes (before ++ (old ++ after)) start new = .ok (before ++ (new ++ after)) := by
  rw [writeBytes, Block.store_append hstart hlength]

theorem toSize_natCast (h : n < 2 ^ 64) : toSize n = n := by
  unfold toSize
  omega

theorem cString_append (h : 0 ∉ text) : cString (text ++ 0 :: after) = text := by
  rw [cString, List.takeWhile_append_of_pos]
  · simp
  · intro b hb
    simpa using fun hb₀ : b = 0 => h (hb₀ ▸ hb)

theorem strlen_append (h : 0 ∉ text) : strlen (text ++ 0 :: after) = .ok text.length := by
  rw [strlen, if_pos (by simp), cString_append h]

theorem exists_cString (h : (0 : UInt8) ∈ data) : ∃ after, data = cString data ++ 0 :: after ∧
    0 ∉ cString data := by
  obtain ⟨text, after, rfl, hnull⟩ := List.eq_append_cons_of_mem h
  rw [cString_append hnull]
  exact ⟨after, rfl, hnull⟩

theorem first_unique {span span' after' : List UInt8} (hc : c ∉ span) (hc' : c ∉ span')
    (h : span ++ c :: after = span' ++ c :: after') : span = span' ∧ after = after' := by
  induction span generalizing span' with
  | nil =>
    cases span' with
    | nil => exact ⟨rfl, (List.cons.inj h).2⟩
    | cons b span' => exact absurd (List.mem_cons.mpr (.inl (List.cons.inj h).1)) hc'
  | cons b span ih =>
    rw [List.mem_cons, not_or] at hc
    cases span' with
    | nil => exact absurd (List.cons.inj h).1.symm hc.1
    | cons b' span' =>
      rw [List.mem_cons, not_or] at hc'
      obtain ⟨rfl, hrest⟩ := List.cons.inj h
      obtain ⟨rfl, hafter⟩ := ih hc.2 hc'.2 hrest
      exact ⟨rfl, hafter⟩

end Libromano.Bytes
