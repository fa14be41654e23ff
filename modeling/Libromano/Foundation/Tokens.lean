/- The tokens of a list: its longest parts without a separator between one separator and the
   next. -/

import Mathlib.Data.List.TakeWhile

set_option autoImplicit false
set_option relaxedAutoImplicit false

namespace Libromano.Foundation

variable {α : Type} {p : α → Bool} {text : List α}

/-- What stands between the elements with `p`, unless it is empty. -/
def tokens (p : α → Bool) (text : List α) : List (List α) :=
  (text.splitOnP p).filter fun token => !token.isEmpty

@[simp] theorem tokens_nil : tokens p [] = [] := by
  rw [tokens, List.splitOnP_nil]
  rfl

private theorem tokens_cons {a : α} (h : p a = true) : tokens p (a :: text) = tokens p text := by
  rw [tokens, List.splitOnP_cons_eq_if_modifyHead, if_pos h]
  rfl

theorem tokens_dropWhile : tokens p (text.dropWhile p) = tokens p text := by
  induction text with
  | nil => rfl
  | cons a text ih =>
    cases h : p a with
    | true => rw [List.dropWhile_cons_of_pos h, ih, tokens_cons h]
    | false => rw [List.dropWhile_cons_of_neg (by rw [h]; exact Bool.false_ne_true)]

theorem tokens_eq_cons (hne : text ≠ []) (hfirst : ∀ a ∈ text.head?, p a = false) :
    tokens p text =
      text.takeWhile (fun a => !p a) :: tokens p ((text.dropWhile fun a => !p a).drop 1) := by
  have hrun : ∀ a ∈ text.takeWhile (fun a => !p a), p a = false := fun a ha => by
    have hnot := List.mem_takeWhile_imp ha
    rwa [Bool.not_eq_true'] at hnot
  have hsome : (text.takeWhile fun a => !p a).isEmpty = false := by
    obtain ⟨a, rest, rfl⟩ := List.exists_cons_of_ne_nil hne
    rw [List.takeWhile_cons_of_pos (by rw [hfirst a rfl]; rfl)]
    rfl
  have hsplit : text = text.takeWhile (fun a => !p a) ++ text.dropWhile fun a => !p a :=
    List.takeWhile_append_dropWhile.symm
  cases hrest : text.dropWhile fun a => !p a with
  | nil =>
    rw [hrest, List.append_nil] at hsplit
    rw [List.drop_nil, tokens_nil, ← hsplit, tokens, List.splitOnP_eq_singleton (hsplit ▸ hrun),
      List.filter_cons_of_pos (by rw [hsplit, hsome]; rfl), List.filter_nil]
  | cons a rest =>
    have ha : p a = true := by
      have hhead := List.head?_dropWhile_not (fun a => !p a) text
      rw [hrest] at hhead
      simpa using hhead
    rw [hrest] at hsplit
    refine (congrArg (tokens p) hsplit).trans ?_
    rw [tokens, List.splitOnP_append_cons_of_forall_mem hrun a ha,
      List.filter_cons_of_pos (by rw [hsome]; rfl)]
    rfl

end Libromano.Foundation
