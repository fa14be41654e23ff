/- The parent directory of a path, which is found by a scan from the back. The scan does not come
   to the first byte, and does not tell how it ended. -/

import Libromano.Bytes
import Mathlib.Data.List.Induction

set_option autoImplicit false
set_option relaxedAutoImplicit false

namespace Libromano.Filesystem

open Bytes

def isSeparator (c : UInt8) : Bool := c = 92 || c = 47

/-- The loop of `fs_parent_dir`, which goes down from `path_sz`. -/
def parentLoop (path : List UInt8) : ℕ → Except Fault ℕ
  | 0 => .ok 0
  | pathSz + 1 => do
    let current ← byteAt path (pathSz + 1)
    if isSeparator current then .ok pathSz else parentLoop path pathSz

def fsParentDir (path : List UInt8) : Except Fault ℕ := do
  let pathSz ← strlen path
  let pathSz ← parentLoop path pathSz
  .ok (pathSz + 1)

def fsParentDirNew (path : List UInt8) : Except Fault (List UInt8) := do
  let parentPathSz ← fsParentDir path
  let parentPath ← bytesAt path 0 parentPathSz
  .ok (parentPath ++ [0])

def fsParentDirInit (path buffer : List UInt8) (bufferSize : ℕ) :
    Except Fault (ℕ × List UInt8) := do
  let parentPathSz ← fsParentDir path
  if bufferSize ≤ parentPathSz then .ok (parentPathSz + 1, buffer)
  else if buffer.length ≤ parentPathSz then .error .outOfBounds
  else do
    let parentPath ← bytesAt path 0 parentPathSz
    .ok (0, parentPath ++ 0 :: buffer.drop (parentPathSz + 1))

section Scan

variable {path before span last after text : List UInt8} {c : UInt8} {s q : ℕ}

private theorem parentLoop_span (after : List UInt8) (hbefore : before.length = s + 1)
    (hspan : ∀ b ∈ span, isSeparator b = false) :
    parentLoop (before ++ (span ++ after)) (s + span.length) =
      parentLoop (before ++ (span ++ after)) s := by
  induction span using List.reverseRecOn generalizing after with
  | nil => rfl
  | append_singleton span b ih =>
    rw [List.forall_mem_append, List.forall_mem_singleton] at hspan
    obtain ⟨hspan, hb⟩ := hspan
    have hread : byteAt (before ++ (span ++ b :: after)) (s + span.length + 1) = .ok b := by
      rw [← List.append_assoc]
      refine byteAt_at (before ++ span) after b ?_
      rw [List.length_append]
      omega
    rw [List.length_append, List.length_singleton, List.append_assoc, List.singleton_append,
      ← Nat.add_assoc, parentLoop, hread, bind_ok, hb, if_neg Bool.false_ne_true]
    exact ih _ hspan

def LastSeparator (text : List UInt8) (q : ℕ) : Prop :=
  ∃ before c last, text = before ++ c :: last ∧ before.length = q ∧ isSeparator c = true ∧
    ∀ b ∈ last, isSeparator b = false

private theorem exists_lastSeparator (h : ∃ c ∈ text, isSeparator c = true) :
    ∃ q, LastSeparator text q := by
  induction text using List.reverseRecOn with
  | nil =>
    obtain ⟨c, hmem, -⟩ := h
    exact absurd hmem List.not_mem_nil
  | append_singleton text b ih =>
    by_cases hb : isSeparator b = true
    · exact ⟨text.length, text, b, [], rfl, rfl, hb, List.forall_mem_nil _⟩
    · obtain ⟨c, hmem, hc⟩ := h
      have htext : c ∈ text := by
        rcases List.mem_append.mp hmem with htext | hlast
        · exact htext
        · exact absurd (List.mem_singleton.mp hlast ▸ hc) hb
      obtain ⟨q, before, c, last, rfl, hq, hc, hlast⟩ := ih ⟨c, htext, hc⟩
      refine ⟨q, before, c, last ++ [b], by simp, hq, hc, ?_⟩
      rw [List.forall_mem_append, List.forall_mem_singleton]
      exact ⟨hlast, Bool.not_eq_true _ ▸ hb⟩

private theorem fsParentDir_of_pos (hnull : 0 ∈ path) (h : LastSeparator (cString path) q)
    (hq : 0 < q) :
    fsParentDir path = .ok q := by
  obtain ⟨before, c, last, htext, hlength, hc, hlast⟩ := h
  obtain ⟨after, hpath, -⟩ := exists_cString hnull
  obtain ⟨s, rfl⟩ : ∃ s, q = s + 1 := ⟨q - 1, by omega⟩
  have hspan : ∀ b ∈ last ++ [0], isSeparator b = false := by
    rw [List.forall_mem_append, List.forall_mem_singleton]
    exact ⟨hlast, rfl⟩
  have hbefore : (before ++ [c]).length = s + 1 + 1 := by
    rw [List.length_append, hlength, List.length_singleton]
  have hloop := parentLoop_span after hbefore hspan
  have hsplit : before ++ [c] ++ (last ++ [0] ++ after) = path := by
    rw [hpath, htext]
    simp
  have hread : byteAt path (s + 1) = .ok c := by
    rw [hpath, htext, List.append_assoc]
    exact byteAt_at before _ c hlength.symm
  have hsize : (cString path).length = s + 1 + (last ++ [0]).length := by
    rw [htext]
    simp only [List.length_append, List.length_cons, List.length_nil, hlength]
  rw [hsplit, parentLoop, hread, bind_ok, hc, if_pos rfl] at hloop
  rw [fsParentDir, strlen, if_pos hnull, bind_ok, hsize, hloop]
  rfl

private theorem fsParentDir_of_tail (hnull : 0 ∈ path)
    (htail : ∀ b ∈ (cString path).tail, isSeparator b = false) : fsParentDir path = .ok 1 := by
  obtain ⟨after, hpath, -⟩ := exists_cString hnull
  have hloop : parentLoop path (cString path).length = .ok 0 := by
    rcases htext : cString path with _ | ⟨b, rest⟩
    · rfl
    · rw [htext] at htail hpath
      have hspan : ∀ b ∈ rest ++ [0], isSeparator b = false := by
        rw [List.forall_mem_append, List.forall_mem_singleton]
        exact ⟨htail, rfl⟩
      have hfirst : [b].length = 0 + 1 := rfl
      have hpass := parentLoop_span after hfirst hspan
      have hsplit : [b] ++ (rest ++ [0] ++ after) = path := by
        rw [hpath]
        simp
      rw [hsplit, Nat.zero_add, List.length_append, parentLoop] at hpass
      exact hpass
  rw [fsParentDir, strlen, if_pos hnull, bind_ok, hloop]
  rfl

end Scan

/-- The text is a beginning that ends before the last component. -/
def Whole (parent text : List UInt8) : Prop :=
  ∃ before last, text = before ++ last ∧ (∀ b ∈ last, isSeparator b = false) ∧ parent <+: before ∧
    (before = [] ∨ ∃ c, before.getLast? = some c ∧ isSeparator c = true)

/-- Both callers take the parent of the given path: the one gives it in a block of its own, the other
one in the buffer, or the size that the buffer has to have. -/
def Copies (path parent : List UInt8) : Prop :=
  fsParentDirNew path = .ok (parent ++ [0]) ∧
    ∀ (buffer : List UInt8) (bufferSize : ℕ), bufferSize ≤ buffer.length →
      fsParentDirInit path buffer bufferSize =
        .ok (if parent.length < bufferSize then (0, parent ++ 0 :: buffer.drop (parent.length + 1))
          else (parent.length + 1, buffer))

/-- What the three functions are to give for a path. -/
structure ParentRight (path : List UInt8) : Prop where
  behind : ∀ q, LastSeparator (cString path) q → 0 < q → fsParentDir path = .ok q
  root : LastSeparator (cString path) 0 → fsParentDir path = .ok 1
  alone : (∀ b ∈ cString path, isSeparator b = false) → fsParentDir path = .ok 0
  copies : ∃ parent, fsParentDir path = .ok parent.length ∧ Whole parent (cString path) ∧
    Copies path parent

section Parent

variable {path parent text : List UInt8} {q : ℕ}

private theorem exists_parent (hnull : 0 ∈ path) (h : LastSeparator (cString path) q) :
    ∃ parent rest, cString path = parent ++ rest ∧ Whole parent (cString path) ∧
      fsParentDir path = .ok parent.length := by
  have hfound := h
  obtain ⟨before, c, last, htext, hlength, hc, hlast⟩ := h
  have hcomponent : cString path = before ++ [c] ++ last := by
    rw [htext]
    simp
  have hends : before ++ [c] = [] ∨ ∃ b, (before ++ [c]).getLast? = some b ∧ isSeparator b = true :=
    .inr ⟨c, List.getLast?_concat, hc⟩
  rcases Nat.eq_zero_or_pos q with rfl | hq
  · obtain rfl := List.length_eq_zero_iff.mp hlength
    refine ⟨[c], last, htext, ⟨_, last, hcomponent, hlast, List.prefix_rfl, hends⟩, ?_⟩
    refine fsParentDir_of_tail hnull ?_
    rw [htext]
    exact hlast
  · refine ⟨before, c :: last, htext, ⟨_, last, hcomponent, hlast, List.prefix_append _ _, hends⟩, ?_⟩
    rw [fsParentDir_of_pos hnull hfound hq, hlength]

private theorem copies_of_size (hread : bytesAt path 0 parent.length = .ok parent)
    (hsize : fsParentDir path = .ok parent.length) : Copies path parent := by
  refine ⟨?_, fun buffer bufferSize hbuffer => ?_⟩
  · rw [fsParentDirNew, hsize, bind_ok, hread]
    rfl
  · rw [fsParentDirInit, hsize, bind_ok]
    by_cases hfits : bufferSize ≤ parent.length
    · rw [if_pos hfits, if_neg (Nat.not_lt.mpr hfits)]
    · have hroom : ¬buffer.length ≤ parent.length := fun hle => hfits (Nat.le_trans hbuffer hle)
      rw [if_neg hfits, if_neg hroom, if_pos (Nat.lt_of_not_le hfits), hread, bind_ok]

private theorem parentRight_of_separator (hnull : 0 ∈ path)
    (h : ∃ c ∈ cString path, isSeparator c = true) :
    ParentRight path := by
  obtain ⟨q, hq⟩ := exists_lastSeparator h
  obtain ⟨parent, rest, htext, hwhole, hsize⟩ := exists_parent hnull hq
  obtain ⟨after, hpath, -⟩ := exists_cString hnull
  have hread : bytesAt path 0 parent.length = .ok parent := by
    rw [hpath, htext, List.append_assoc]
    exact bytesAt_append [] parent _ rfl rfl
  refine ⟨fun q' => fsParentDir_of_pos hnull, ?_, ?_, parent, hsize, hwhole,
    copies_of_size hread hsize⟩
  · rintro ⟨before, c, last, htext', hlength, -, hlast⟩
    obtain rfl := List.length_eq_zero_iff.mp hlength
    refine fsParentDir_of_tail hnull ?_
    rw [htext']
    exact hlast
  · intro hall
    obtain ⟨c, hmem, hc⟩ := h
    rw [hall c hmem] at hc
    exact absurd hc Bool.false_ne_true

/-- The three functions are right for the paths with a separator. -/
theorem parentRight_iff (hnull : 0 ∈ path) :
    ParentRight path ↔ ∃ c ∈ cString path, isSeparator c = true := by
  refine ⟨fun h => ?_, parentRight_of_separator hnull⟩
  by_contra hnone
  have hall : ∀ b ∈ cString path, isSeparator b = false := by
    intro b hb
    rw [← Bool.not_eq_true]
    exact fun hsep => hnone ⟨b, hb, hsep⟩
  have hone := fsParentDir_of_tail hnull fun b hb => hall b (List.mem_of_mem_tail hb)
  exact absurd (Except.ok.inj ((h.alone hall).symm.trans hone)) Nat.zero_ne_one

end Parent

/-- `/a/b` with its null byte. -/
theorem parentRight_iff_below : ParentRight (ascii "/a/b" ++ [0]) ↔
    ∃ c ∈ cString (ascii "/a/b" ++ [0]), isSeparator c = true :=
  parentRight_iff (by decide)

/-- The parent of `a` is `a`. -/
theorem parent_not_right : ¬∀ path : List UInt8, 0 ∈ path → ParentRight path := by
  intro h
  have hright := h [97, 0] (by decide)
  have hzero : fsParentDir [97, 0] = .ok 0 := hright.alone (List.forall_mem_singleton.mpr rfl)
  exact absurd hzero (by decide)

end Libromano.Filesystem
