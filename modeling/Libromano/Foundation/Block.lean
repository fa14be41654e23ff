/- A block of memory as the list of its cells. Loads and stores are defined within the block
   only. -/

import Mathlib.Data.List.Basic

set_option autoImplicit false
set_option relaxedAutoImplicit false

namespace Libromano.Foundation.Block

variable {α : Type} {block before old new after data : List α} {start n : ℕ}

def load (block : List α) (start n : ℕ) : Option (List α) :=
  if start + n ≤ block.length then some ((block.drop start).take n) else none

def store (block : List α) (start : ℕ) (data : List α) : Option (List α) :=
  if start + data.length ≤ block.length then
    some (block.take start ++ (data ++ block.drop (start + data.length)))
  else none

theorem load_eq_none (h : block.length < start + n) : load block start n = none :=
  if_neg (Nat.not_le.mpr h)

theorem store_eq_none (h : block.length < start + data.length) : store block start data = none :=
  if_neg (Nat.not_le.mpr h)

theorem load_append (hstart : before.length = start) (hn : data.length = n) :
    load (before ++ (data ++ after)) start n = some data := by
  subst hstart hn
  rw [load, if_pos (by simp), List.drop_left, List.take_left]

theorem store_append (hstart : before.length = start) (hlength : new.length = old.length) :
    store (before ++ (old ++ after)) start new = some (before ++ (new ++ after)) := by
  subst hstart
  have hdrop : (before ++ (old ++ after)).drop (before.length + new.length) = after := by
    rw [← List.drop_drop, List.drop_left, hlength, List.drop_left]
  rw [store, if_pos (by simp [hlength]), List.take_left, hdrop]

theorem load_prefix (hn : data.length = n) : load (data ++ after) 0 n = some data :=
  @load_append α [] after data 0 n rfl hn

theorem store_prefix (hlength : new.length = old.length) :
    store (old ++ after) 0 new = some (new ++ after) :=
  @store_append α [] old new after 0 rfl hlength

theorem exists_split (h : start + n ≤ block.length) : ∃ before middle after,
    block = before ++ (middle ++ after) ∧ before.length = start ∧ middle.length = n := by
  refine ⟨block.take start, (block.drop start).take n, (block.drop start).drop n, ?_, ?_, ?_⟩
  · rw [List.take_append_drop, List.take_append_drop]
  · rw [List.length_take]
    omega
  · rw [List.length_take, List.length_drop]
    omega

end Libromano.Foundation.Block
