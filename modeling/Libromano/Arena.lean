/- The regions that an arena hands out. A request that does not fit into what is left of the block
   starts a new one, whose size is the same however large the request is. -/

import Mathlib.Data.List.Basic

set_option autoImplicit false
set_option relaxedAutoImplicit false

namespace Libromano

/-- Where a request was put. -/
structure Region where
  block : ℕ
  start : ℕ
  size : ℕ

def Region.Disjoint (r s : Region) : Prop :=
  r.block ≠ s.block ∨ r.start + r.size ≤ s.start ∨ s.start + s.size ≤ r.start

theorem Region.Disjoint.symm {q q' : Region} (h : q.Disjoint q') : q'.Disjoint q := by
  rcases h with h | h | h
  · exact .inl h.symm
  · exact .inr (.inr h)
  · exact .inr (.inl h)

namespace Arena

/-- A block has room for a request of this size when it is empty. -/
def holds (blockSize : ℕ) (dataSize : ℕ) : Bool := dataSize ≤ blockSize

end Arena

end Libromano
