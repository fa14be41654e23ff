/- Whole runs of the functions on a string. The bytes of the string change as a list does, and no
   byte is written outside the allocation. -/

import Libromano.Foundation.Objects
import Libromano.Strings.Contents

set_option autoImplicit false
set_option relaxedAutoImplicit false

namespace Libromano.Strings

open Foundation.Objects

/-- Every operation may find something else in the memory it allocates. -/
def change (s : String) (op : (ℕ → UInt8) × Op) : Except Fault String := step op.1 s op.2

/-- The string is in a valid state. -/
def Valid (s : String) : Prop := Holds s s.content

theorem Holds.valid {s : String} {content : List UInt8} (h : Holds s content) : Valid s := by
  rw [Valid, h.content_eq]
  exact h

namespace Op

def apply (content : List UInt8) : Op → List UInt8
  | setc data => data
  | sets other => other.content
  | appendc data => content ++ data
  | appends other => content ++ other.content
  | prependc data => data ++ content
  | prepends other => other.content ++ content
  | resize _ => content
  | clear => []

/-- Another string that is read is in a valid state. -/
def Allowed : Op → Prop
  | sets other | appends other | prepends other => Valid other
  | setc _ | appendc _ | prependc _ | resize _ | clear => True

/-- No size that the operation computes wraps around. -/
def Fits (s : String) : Op → Prop
  | setc data => Resizable s data.length
  | sets other => Resizable s (stringLength other)
  | appendc data | prependc data => Appendable s data.length
  | appends other | prepends other => Appendable s (stringLength other)
  | resize newSize => Resizable s newSize
  | clear => True

end Op

namespace Start

def content : Start → List UInt8
  | new data => data
  | newz length => List.replicate length 0
  | copy other => other.content

def Allowed : Start → Prop
  | new _ | newz _ => True
  | copy other => Valid other

def Fits : Start → Prop
  | new data => Growable data.length
  | newz length => Growable length
  | copy _ => True

end Start

structure Reads (s : String) (content : List UInt8) : Prop where
  length : stringLength s = content.length
  content : s.bytes.take (stringLength s) = content
  terminator : s.bytes[stringLength s]? = some 0
  capacity : stringLength s ≤ stringCapacity s
  allocated : s.bytes.length = stringCapacity s + 1

private theorem Holds.reads {s : String} {content : List UInt8} (h : Holds s content) :
    Reads s content :=
  ⟨h.size, h.content_eq, h.terminator, h.size_le, h.capacity⟩

/-- A write outside the allocation would be a step that does not return. -/
def stringSpec : Spec String ((ℕ → UInt8) × Op) (List UInt8) where
  Shows := Reads
  apply := fun _ op content => op.2.apply content
  Effect := fun _ _ _ => True

private theorem start_yields {fresh : ℕ → UInt8} {first : Start} (hallowed : first.Allowed)
    (hfits : first.Fits) : Yields (start fresh first) fun s => Holds s first.content := by
  cases first with
  | new data => exact stringNew_yields hfits
  | newz length => exact stringNewz_yields hfits
  | copy other => exact Holds.copy hallowed fresh

/-- The step lemma. -/
private theorem Holds.step {s : String} {content : List UInt8} {fresh : ℕ → UInt8} {op : Op}
    (h : Holds s content) (hallowed : op.Allowed) (hfits : op.Fits s) :
    Yields (step fresh s op) fun s' => Holds s' (op.apply content) := by
  cases op with
  | setc data => exact h.set (source_cString data) hfits
  | sets other =>
    have hother : Holds other other.content := hallowed
    rw [Op.Fits, stringLength, hother.size] at hfits
    rw [Strings.step, stringSets, stringLength, hother.size]
    exact h.set hother.source hfits
  | appendc data => exact h.append (source_cString data) hfits
  | appends other =>
    have hother : Holds other other.content := hallowed
    rw [Op.Fits, stringLength, hother.size] at hfits
    rw [Strings.step, stringAppends, stringLength, hother.size]
    exact h.append hother.source hfits
  | prependc data => exact h.prepend (source_cString data) hfits
  | prepends other =>
    have hother : Holds other other.content := hallowed
    rw [Op.Fits, stringLength, hother.size] at hfits
    rw [Strings.step, stringPrepends, stringLength, hother.size]
    exact h.prepend hother.source hfits
  | resize newSize => exact (h.resize hfits).mono fun s' _ hs' => hs'.1
  | clear => exact h.clear

/-- In a run in which no size wraps around and memory lasts, every function returns, and the
string reads as the list does. -/
theorem start_behaves {fresh : ℕ → UInt8} {first : Start} {ops : List ((ℕ → UInt8) × Op)}
    (hfirst : first.Allowed) (hfits : first.Fits) : Yields (start fresh first) fun s =>
      Along change (fun s op => op.2.Allowed ∧ change s op ≠ .error .outOfMemory) s ops →
        Along change (fun s op => op.2.Fits s) s ops →
          Behaves change stringSpec s first.content ops := by
  apply (start_yields hfirst hfits).mono
  intro s _ hs hallowed hfitting
  refine Behaves.of_along (I := Holds) ?_ ?_ hs hallowed hfitting
  · intro s content h
    exact h.reads
  · rintro s content op h ⟨hop, hmemory⟩ hfit
    have hyields : Yields (change s op) fun s' => Holds s' (op.2.apply content) := h.step hop hfit
    cases hstep : change s op with
    | error e =>
      rw [hstep] at hyields
      rw [hstep, show e = .outOfMemory from hyields] at hmemory
      exact absurd rfl hmemory
    | ok s' => exact ⟨s', rfl, trivial, hyields.of_ok hstep⟩

/-- An empty string is grown at both ends, and cleared. -/
theorem start_behaves_empty : ∃ s, start (fun _ => 7) (.new []) = .ok s ∧
    Behaves change stringSpec s [] [(fun _ => 7, .appendc [98, 99]), (fun _ => 8, .prependc [97]),
      (fun _ => 9, .resize 20), (fun _ => 9, .clear)] := by
  have hstart : start (fun _ => 7) (.new []) = .ok _ := rfl
  refine ⟨_, hstart, ?_⟩
  refine (@start_behaves (fun _ => 7) (.new []) _ trivial (show Growable 0 by decide)).of_ok hstart ?_ ?_
  · refine ⟨⟨trivial, nofun⟩, fun _ h => ?_⟩
    cases h
    refine ⟨⟨trivial, nofun⟩, fun _ h => ?_⟩
    cases h
    refine ⟨⟨trivial, nofun⟩, fun _ h => ?_⟩
    cases h
    exact ⟨⟨trivial, nofun⟩, fun _ _ => trivial⟩
  · refine ⟨show Appendable _ 2 by decide, fun _ h => ?_⟩
    cases h
    refine ⟨show Appendable _ 1 by decide, fun _ h => ?_⟩
    cases h
    refine ⟨show Resizable _ 20 by decide, fun _ h => ?_⟩
    cases h
    exact ⟨trivial, fun _ _ => trivial⟩

/-- The size of an allocation for the largest capacity wraps around to that of the header. -/
theorem start_not_behaves :
    ¬∀ fresh first ops, Start.Allowed first → Yields (start fresh first) fun s =>
      Along change (fun s op => op.2.Allowed ∧ change s op ≠ .error .outOfMemory) s ops →
        Behaves change stringSpec s first.content ops := by
  intro h
  have hstart : start (fun _ => 0) (.new [97]) = .ok _ := rfl
  have hbehaves := Yields.of_ok
    (h (fun _ => 0) (.new [97]) [(fun _ => 0, .resize (2 ^ 64 - 1))] trivial) hstart
    ⟨⟨trivial, nofun⟩, fun _ _ => trivial⟩
  obtain ⟨-, s', hstep, -⟩ := hbehaves
  cases hstep

end Libromano.Strings
