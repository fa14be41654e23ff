/- Which symbols are those of a tree: every group is closed, and every quantifier stands behind a
   test or a group. -/

import Libromano.Regex.Code

set_option autoImplicit false
set_option relaxedAutoImplicit false

namespace Libromano.Regex

namespace OperatorType

def quantifies : OperatorType → Bool
  | alternate | concatenate => false
  | zeroOrMore | oneOrMore | zeroOrOne => true

end OperatorType

/-- The symbols close as many groups as are open before them, and none of their
quantifiers is out of place. `quantifiable` tells whether a test or a group stands
right before them. -/
def Fits : Bool → ℕ → List Symbol → Prop
  | _, depth, [] => depth = 0
  | _, depth, .test _ :: s => Fits true depth s
  | _, depth, .groupBegin :: s => Fits false (depth + 1) s
  | _, 0, .groupEnd :: _ => False
  | _, depth + 1, .groupEnd :: s => Fits true depth s
  | quantifiable, depth, .operator op :: s =>
    (op.quantifies → quantifiable) ∧ Fits false depth s

section Fits

variable {quantifiable : Bool} {depth : ℕ} {s : List Symbol}

@[simp] theorem fits_nil : Fits quantifiable depth [] ↔ depth = 0 :=
  Iff.rfl

@[simp] theorem fits_test {x : Test} :
    Fits quantifiable depth (.test x :: s) ↔ Fits true depth s :=
  Iff.rfl

@[simp] theorem fits_groupBegin :
    Fits quantifiable depth (.groupBegin :: s) ↔ Fits false (depth + 1) s :=
  Iff.rfl

@[simp] theorem fits_groupEnd :
    Fits quantifiable depth (.groupEnd :: s) ↔ 0 < depth ∧ Fits true (depth - 1) s := by
  cases depth with
  | zero => exact ⟨False.elim, fun h => absurd h.1 (lt_irrefl 0)⟩
  | succ depth => exact ⟨fun h => ⟨depth.succ_pos, h⟩, And.right⟩

@[simp] theorem fits_operator {op : OperatorType} : Fits quantifiable depth (.operator op :: s) ↔
    (op.quantifies → quantifiable) ∧ Fits false depth s :=
  Iff.rfl

private theorem Fits.behind (h : Fits false depth s) : Fits quantifiable depth s := by
  cases s with
  | nil => simpa using h
  | cons y s =>
    cases y with
    | test x => simpa using h
    | groupBegin => simpa using h
    | groupEnd => simpa using h
    | operator op =>
      obtain ⟨hop, hs⟩ := fits_operator.mp h
      exact fits_operator.mpr ⟨fun hq => absurd (hop hq) Bool.false_ne_true, hs⟩

private theorem Fits.quantifier (q : Quantifier) (h : Fits false depth s) :
    Fits true depth (q.symbols ++ s) := by
  cases q with
  | once => exact h.behind
  | zeroOrMore | oneOrMore | zeroOrOne => exact fits_operator.mpr ⟨fun _ => rfl, h⟩

private theorem Fits.tree (t : Tree) (h : Fits false depth s) :
    Fits quantifiable depth (t.symbols ++ s) := by
  induction t generalizing quantifiable depth s with
  | empty => exact h.behind
  | test x q rest ih =>
    rw [Tree.symbols, List.cons_append, List.append_assoc, fits_test]
    exact (ih h).quantifier q
  | group body q rest ihbody ihrest =>
    simp only [Tree.symbols, List.cons_append, List.append_assoc, fits_groupBegin]
    apply ihbody
    rw [fits_groupEnd]
    exact ⟨depth.succ_pos, (ihrest h).quantifier q⟩
  | separator sep rest ih =>
    rw [Tree.symbols, List.cons_append]
    cases sep with
    | bar | concatenation => exact fits_operator.mpr ⟨(by simp [OperatorType.quantifies]), ih h⟩

/-- As many rows as groups are open, each with the end of its group and what
quantifies it, and a last one. -/
inductive Closes : ℕ → List Symbol → Prop
  | row (t : Tree) : Closes 0 t.symbols
  | group (t : Tree) (q : Quantifier) {depth : ℕ} {rest : List Symbol} : Closes depth rest →
      Closes (depth + 1) (t.symbols ++ .groupEnd :: (q.symbols ++ rest))

namespace Closes

private theorem test (x : Test) (q : Quantifier) (h : Closes depth s) :
    Closes depth (.test x :: (q.symbols ++ s)) := by
  cases h with
  | row t => exact .row (.test x q t)
  | group t k h => simpa [Tree.symbols] using group (.test x q t) k h

private theorem separator (sep : Separator) (h : Closes depth s) :
    Closes depth (sep.symbol :: s) := by
  cases h with
  | row t => exact .row (.separator sep t)
  | group t q h => exact .group (.separator sep t) q h

private theorem groupBegin (h : Closes (depth + 1) s) : Closes depth (.groupBegin :: s) := by
  obtain - | ⟨body, q, h⟩ := h
  cases h with
  | row t => exact .row (.group body q t)
  | group t k h => simpa [Tree.symbols] using group (.group body q t) k h

end Closes

private theorem Fits.closes (h : Fits quantifiable depth s) :
    ∃ q rest, s = Quantifier.symbols q ++ rest ∧ Closes depth rest ∧
      (quantifiable = false → q = .once) := by
  induction s generalizing quantifiable depth with
  | nil =>
    obtain rfl := fits_nil.mp h
    exact ⟨.once, [], rfl, .row .empty, fun _ => rfl⟩
  | cons y s ih =>
    cases y with
    | test x =>
      obtain ⟨q, rest, rfl, hrest, -⟩ := ih (fits_test.mp h)
      exact ⟨.once, _, rfl, hrest.test x q, fun _ => rfl⟩
    | groupBegin =>
      obtain ⟨q, rest, rfl, hrest, hq⟩ := ih (fits_groupBegin.mp h)
      obtain rfl := hq rfl
      exact ⟨.once, _, rfl, hrest.groupBegin, fun _ => rfl⟩
    | groupEnd =>
      obtain ⟨hdepth, hs⟩ := fits_groupEnd.mp h
      obtain ⟨depth, rfl⟩ : ∃ n, depth = n + 1 := ⟨depth - 1, by omega⟩
      obtain ⟨q, rest, rfl, hrest, -⟩ := ih hs
      exact ⟨.once, _, rfl, .group .empty q hrest, fun _ => rfl⟩
    | operator op =>
      obtain ⟨hop, hs⟩ := fits_operator.mp h
      obtain ⟨q, rest, rfl, hrest, hq⟩ := ih hs
      obtain rfl := hq rfl
      cases op with
      | alternate => exact ⟨.once, _, rfl, hrest.separator .bar, fun _ => rfl⟩
      | concatenate => exact ⟨.once, _, rfl, hrest.separator .concatenation, fun _ => rfl⟩
      | zeroOrMore =>
        exact ⟨.zeroOrMore, rest, rfl, hrest, fun hfalse => absurd (hop rfl) (by simp [hfalse])⟩
      | oneOrMore =>
        exact ⟨.oneOrMore, rest, rfl, hrest, fun hfalse => absurd (hop rfl) (by simp [hfalse])⟩
      | zeroOrOne =>
        exact ⟨.zeroOrOne, rest, rfl, hrest, fun hfalse => absurd (hop rfl) (by simp [hfalse])⟩

theorem fits_iff_exists_tree : Fits false 0 s ↔ ∃ t : Tree, s = t.symbols := by
  constructor
  · intro h
    obtain ⟨q, rest, rfl, hrest, hq⟩ := h.closes
    obtain rfl := hq rfl
    cases hrest with
    | row t => exact ⟨t, rfl⟩
  · rintro ⟨t, rfl⟩
    have h : Fits false 0 (t.symbols ++ []) := Fits.tree t (fits_nil.mpr rfl)
    rwa [List.append_nil] at h

end Fits

end Libromano.Regex
