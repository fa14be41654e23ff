/- Two computations that may fail, run side by side. -/

import Mathlib.Init

set_option autoImplicit false
set_option relaxedAutoImplicit false

namespace Libromano.Foundation

variable {ε α β γ δ : Type}

/-- Both fail with the same error, or both return and the results are related. -/
inductive Lockstep (R : α → β → Prop) : Except ε α → Except ε β → Prop
  | ok {a : α} {b : β} (h : R a b) : Lockstep R (.ok a) (.ok b)
  | error (e : ε) : Lockstep R (.error e) (.error e)

namespace Lockstep

variable {R : α → β → Prop} {S : γ → δ → Prop} {x : Except ε α} {y : Except ε β}

theorem bind {f : α → Except ε γ} {g : β → Except ε δ} (h : Lockstep R x y)
    (hfg : ∀ a b, R a b → Lockstep S (f a) (g b)) : Lockstep S (x >>= f) (y >>= g) := by
  cases h with
  | ok h => exact hfg _ _ h
  | error e => exact .error e

theorem of_ok (h : Lockstep R x y) {a : α} (hx : x = .ok a) : ∃ b, y = .ok b ∧ R a b := by
  subst hx
  cases h with
  | ok h => exact ⟨_, rfl, h⟩

theorem error_iff (h : Lockstep R x y) {e : ε} : x = .error e ↔ y = .error e := by
  cases h with
  | ok h => simp
  | error e => simp

end Lockstep

end Libromano.Foundation
