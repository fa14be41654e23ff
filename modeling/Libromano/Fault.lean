/- What may keep a call of the C library from returning. -/

import Mathlib.Init

set_option autoImplicit false
set_option relaxedAutoImplicit false

namespace Libromano

/-- The ways in which a modelled call ends without a result. -/
inductive Fault
  /-- An allocation that no object can satisfy. -/
  | outOfMemory
  /-- A read or a write outside the object it is meant for. -/
  | outOfBounds
  /-- A write past the end of the block that an arena handed out. -/
  | arenaOverrun
  /-- A write through a null pointer. -/
  | nullPointer
  /-- A loop that never ends. -/
  | diverges
  /-- A result with a byte in it that was never written. -/
  | uninitialised
  deriving DecidableEq

instance {α : Type} [DecidableEq α] : DecidableEq (Except Fault α) := fun x y =>
  match x, y with
  | .ok a, .ok b => decidable_of_iff (a = b) (by simp)
  | .error e, .error f => decidable_of_iff (e = f) (by simp)
  | .ok _, .error _ => isFalse (by simp)
  | .error _, .ok _ => isFalse (by simp)

theorem bind_eq_ok {ε α β : Type} {x : Except ε α} {f : α → Except ε β} {b : β} :
    x >>= f = .ok b ↔ ∃ a, x = .ok a ∧ f a = .ok b := by
  cases x with
  | error e => simp [bind, Except.bind]
  | ok a => simp [bind, Except.bind]

theorem bind_eq_error {ε α β : Type} {x : Except ε α} {f : α → Except ε β} {e : ε} :
    x >>= f = .error e ↔ x = .error e ∨ ∃ a, x = .ok a ∧ f a = .error e := by
  cases x with
  | error e' => simp [bind, Except.bind]
  | ok a => simp [bind, Except.bind]

@[simp] theorem bind_ok {ε α β : Type} (a : α) (f : α → Except ε β) :
    (Except.ok a : Except ε α) >>= f = f a := rfl

@[simp] theorem bind_error {ε α β : Type} (e : ε) (f : α → Except ε β) :
    (Except.error e : Except ε α) >>= f = .error e := rfl

/-- `x` returns and its result satisfies `P`, as long as memory lasts. -/
def Yields {α : Type} (x : Except Fault α) (P : α → Prop) : Prop :=
  match x with
  | .ok a => P a
  | .error e => e = .outOfMemory

namespace Yields

variable {α β : Type} {x : Except Fault α} {P Q : α → Prop}

@[simp] theorem ok_iff {a : α} : Yields (.ok a) P ↔ P a := Iff.rfl

theorem noMemory : Yields (.error .outOfMemory) P := rfl

theorem of_ok (h : Yields x P) {a : α} (hx : x = .ok a) : P a := by
  rwa [hx] at h

theorem mono (h : Yields x P) (hPQ : ∀ a, x = .ok a → P a → Q a) : Yields x Q := by
  cases x with
  | error e => exact h
  | ok a => exact hPQ a rfl h

theorem bind {f : α → Except Fault β} {R : β → Prop} (h : Yields x P)
    (hf : ∀ a, P a → Yields (f a) R) : Yields (x >>= f) R := by
  cases x with
  | error e => exact h
  | ok a => exact hf a h

theorem exists_ok (h : Yields x P) (hmemory : x ≠ .error .outOfMemory) : ∃ a, x = .ok a ∧ P a := by
  cases x with
  | ok a => exact ⟨a, rfl, h⟩
  | error e =>
    obtain rfl : e = .outOfMemory := h
    exact absurd rfl hmemory

theorem exists_bind {f : α → Except Fault β} (h : Yields x P)
    (hmemory : x >>= f ≠ .error .outOfMemory) : ∃ a, P a ∧ x >>= f = f a := by
  cases x with
  | ok a => exact ⟨a, h, rfl⟩
  | error e =>
    obtain rfl : e = .outOfMemory := h
    exact absurd rfl hmemory

/-- A loop over a list keeps what every step keeps; the invariant may speak of
the items that are still to come. -/
theorem foldlM {f : β → α → Except Fault β} (I : List α → β → Prop)
    (hstep : ∀ a rest b, I (a :: rest) b → Yields (f b a) (I rest)) {items : List α} {b : β}
    (h : I items b) : Yields (items.foldlM f b) (I []) := by
  induction items generalizing b with
  | nil => exact h
  | cons a rest ih =>
    rw [List.foldlM_cons]
    exact (hstep a rest b h).bind fun b' hb' => ih hb'

end Yields

end Libromano
