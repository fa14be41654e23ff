/- The functions that take a format, next to those that take the text it gives. -/

import Libromano.Strings.Runs

set_option autoImplicit false
set_option relaxedAutoImplicit false

namespace Libromano.Strings

open Bytes (bytesAt)

/-- Both functions return, and leave the same bytes, length and terminator. The
result of the first is not looked at. -/
def Agrees (formatted : Except Fault (Bool × String)) (plain : Except Fault String) : Prop :=
  ∃ result s', formatted = .ok result ∧ plain = .ok s' ∧
    stringLength result.2 = stringLength s' ∧ result.2.content = s'.content ∧
      result.2.bytes[stringLength result.2]? = s'.bytes[stringLength s']?

private theorem Holds.agrees {formatted : Except Fault (Bool × String)}
    {plain : Except Fault String}
    {result : Bool × String} {s' : String} {content : List UInt8} (hformatted : formatted = .ok result)
    (hplain : plain = .ok s') (hresult : Holds result.2 content) (h : Holds s' content) :
    Agrees formatted plain := by
  refine ⟨result, s', hformatted, hplain, ?_, ?_, ?_⟩
  · rw [stringLength, stringLength, hresult.size, h.size]
  · rw [hresult.content_eq, h.content_eq]
  · exact hresult.terminator.trans h.terminator.symm

private theorem Agrees.content_eq {formatted : Except Fault (Bool × String)}
    {plain : Except Fault String}
    {result : Bool × String} {s' : String} {content content' : List UInt8}
    (h : Agrees formatted plain) (hformatted : formatted = .ok result) (hplain : plain = .ok s')
    (hresult : Holds result.2 content) (hs' : Holds s' content') : content = content' := by
  obtain ⟨result₁, s₁, h₁, h₂, -, hcontent, -⟩ := h
  cases hformatted.symm.trans h₁
  cases hplain.symm.trans h₂
  rw [← hresult.content_eq, ← hs'.content_eq, hcontent]

section Buffer

variable {stack : ℕ → UInt8} {text : List UInt8}

private theorem length_formatBuffer : (formatBuffer stack text).length = maxFmtSize := by
  simp only [formatBuffer, maxFmtSize, List.length_append, List.length_take, List.length_singleton,
    List.length_map, List.length_range']
  omega

private theorem source_formatBuffer (h : text.length < maxFmtSize) :
    Source (formatBuffer stack text) text := by
  have htake : text.take (maxFmtSize - 1) = text := List.take_of_length_le (Nat.le_sub_one_of_lt h)
  simp only [formatBuffer, htake, Source, List.append_assoc, List.singleton_append]
  exact ⟨_, rfl⟩

private theorem bytesAt_formatBuffer_out {n : ℕ} (h : maxFmtSize < n) :
    bytesAt (formatBuffer stack text) 0 n = .error .outOfBounds :=
  bytesAt_out (by rw [length_formatBuffer, Nat.zero_add]; exact h)

private theorem bytesAt_formatBuffer_full (h : text.length = maxFmtSize) :
    bytesAt (formatBuffer stack text) 0 maxFmtSize = .ok (text.take (maxFmtSize - 1) ++ [0]) := by
  rw [formatBuffer]
  refine bytesAt_head ?_
  rw [List.length_append, List.length_take, h]
  rfl

end Buffer

section Formats

variable {s : String} {content text : List UInt8} {fresh fresh' stack : ℕ → UInt8}

private theorem Holds.appendable (h : Holds s content) {n : ℕ} (hn : n ≤ 2 ^ 31) :
    Appendable s n := by
  have hbounded := h.bounded
  rw [headerSize] at hbounded
  refine .inr ?_
  rw [Growable, headerSize]
  omega

private theorem Holds.stringSetc (h : Holds s content) (htext : text.length < 2 ^ 31)
    (hmemory : stringSetc fresh s text ≠ .error .outOfMemory) :
    ∃ s', stringSetc fresh s text = .ok s' ∧ Holds s' text := by
  have hfits : Resizable s text.length := by
    refine .inr ?_
    rw [headerSize]
    omega
  exact (h.set (source_cString text) hfits).exists_ok hmemory

private theorem copyIn_size {s s' : String} {start n size : ℕ} {source : List UInt8}
    (h : s.copyIn start source n size = .ok s') : s'.size = size := by
  obtain ⟨data, -, h⟩ := bind_eq_ok.mp h
  obtain ⟨bytes, -, h⟩ := bind_eq_ok.mp h
  obtain ⟨bytes', -, h⟩ := bind_eq_ok.mp h
  cases h
  rfl

private theorem Holds.setf_not_agrees (h : Holds s content) (htext : text.length < 2 ^ 31)
    (hplain : Strings.stringSetc fresh' s text ≠ .error .outOfMemory) :
    ¬Agrees (stringSetf fresh stack s text) (Strings.stringSetc fresh' s text) := by
  rintro ⟨result, s', hformatted, hs', hlength, -⟩
  obtain ⟨s'', hs'', hholds⟩ := h.stringSetc htext hplain
  cases hs'.symm.trans hs''
  rw [stringSetf, if_neg (Nat.not_succ_le_zero _)] at hformatted
  obtain ⟨s₁, -, hformatted⟩ := bind_eq_ok.mp hformatted
  obtain ⟨s₂, hcopy, hformatted⟩ := bind_eq_ok.mp hformatted
  cases hformatted
  rw [stringLength, stringLength, copyIn_size hcopy, hholds.size] at hlength
  omega

private theorem Holds.appendf_agrees_iff (h : Holds s content) (htext : text.length < 2 ^ 31)
    (hformatted : stringAppendf fresh stack s text ≠ .error .outOfMemory)
    (hplain : stringAppendc fresh' s text ≠ .error .outOfMemory) :
    Agrees (stringAppendf fresh stack s text) (stringAppendc fresh' s text) ↔
      text.length < maxFmtSize := by
  obtain ⟨s₁, hs₁, hholds₁⟩ := (h.append (source_cString text)
    (h.appendable htext.le)).exists_ok hplain
  obtain ⟨hlt, hreserve⟩ := h.reserve_sum (h.appendable htext)
  have hsize : (s.size + (text.length + 1) - 1) % 2 ^ 64 = content.length + text.length := by
    rw [← h.size]
    exact Nat.mod_eq_of_lt (by omega)
  rw [stringAppendf, if_neg (Nat.not_succ_le_zero _), hsize] at hformatted ⊢
  obtain ⟨s', ⟨hs', hroom⟩, hbind⟩ := hreserve.exists_bind hformatted
  rw [hbind] at hformatted ⊢
  rw [h.size] at hformatted hroom ⊢
  constructor
  · intro hagrees
    by_contra hfull
    obtain ⟨result, -, hresult, -⟩ := hagrees
    rw [String.copyIn, bytesAt_formatBuffer_out (Nat.lt_succ_of_le (Nat.not_lt.mp hfull))] at hresult
    cases hresult
  · intro hfits
    have hsource : Source (formatBuffer stack text) text := source_formatBuffer hfits
    have hcopy := hs'.copyIn_back hsource.fetch_terminated (Nat.le_of_succ_le hroom)
    obtain ⟨s₂, hholds₂, hbind⟩ := hcopy.exists_bind hformatted
    rw [hbind]
    exact Holds.agrees rfl hs₁ hholds₂ hholds₁

private theorem Holds.prependf_agrees_iff (h : Holds s content) (hnull : 0 ∉ text)
    (htext : text.length < 2 ^ 31)
    (hformatted : stringPrependf fresh stack s text ≠ .error .outOfMemory)
    (hplain : stringPrependc fresh' s text ≠ .error .outOfMemory) :
    Agrees (stringPrependf fresh stack s text) (stringPrependc fresh' s text) ↔
      text.length < maxFmtSize := by
  obtain ⟨s₁, hs₁, hholds₁⟩ := (h.prepend (source_cString text)
    (h.appendable htext.le)).exists_ok hplain
  by_cases hempty : text = []
  · subst hempty
    exact iff_of_true (Holds.agrees rfl hs₁ h hholds₁) (by decide)
  have hpos : ¬text.length ≤ 0 := by
    rw [Nat.le_zero, List.length_eq_zero_iff]
    exact hempty
  obtain ⟨hlt, hreserve⟩ := h.reserve_sum (h.appendable htext)
  have hsize : (s.size + text.length) % 2 ^ 64 = content.length + text.length := by
    rw [← h.size]
    exact Nat.mod_eq_of_lt (by omega)
  rw [stringPrependf, if_neg hpos, hsize] at hformatted ⊢
  obtain ⟨s', ⟨hs', hroom⟩, hbind⟩ := hreserve.exists_bind hformatted
  rw [h.size] at hroom
  rw [hbind] at hformatted ⊢
  rcases Nat.lt_trichotomy text.length maxFmtSize with hfits | hfull | hlong
  · refine iff_of_true ?_ hfits
    have hsource : Source (formatBuffer stack text) text := source_formatBuffer hfits
    have hcopy := hs'.copyIn_front hsource.fetch (Nat.le_of_succ_le hroom)
    rw [← bind_assoc] at hformatted ⊢
    obtain ⟨s₂, hholds₂, hbind⟩ := hcopy.exists_bind hformatted
    rw [hbind]
    exact Holds.agrees rfl hs₁ hholds₂ hholds₁
  · -- The last byte of the text is replaced by the null byte behind what was written.
    refine iff_of_false ?_ hfull.not_lt
    have hlength : (text.take (maxFmtSize - 1) ++ [0]).length = text.length := by
      rw [List.length_append, List.length_take, hfull]
      rfl
    have hfetch : bytesAt (formatBuffer stack text) 0 (text.take (maxFmtSize - 1) ++ [0]).length =
        .ok (text.take (maxFmtSize - 1) ++ [0]) := by
      rw [hlength, hfull]
      exact bytesAt_formatBuffer_full hfull
    have hcopy := hs'.copyIn_front hfetch (by rw [hlength]; exact Nat.le_of_succ_le hroom)
    rw [hlength] at hcopy
    rw [← bind_assoc] at hformatted ⊢
    obtain ⟨s₂, hholds₂, hbind⟩ := hcopy.exists_bind hformatted
    rw [hbind]
    intro hagrees
    have heq := List.append_cancel_right (hagrees.content_eq rfl hs₁ hholds₂ hholds₁)
    rw [← heq] at hnull
    exact hnull (List.mem_append_right _ (List.mem_singleton_self 0))
  · refine iff_of_false ?_ hlong.not_gt
    rintro ⟨result, -, hresult, -⟩
    obtain ⟨s₂, -, hresult⟩ := bind_eq_ok.mp hresult
    obtain ⟨s₃, hcopy, -⟩ := bind_eq_ok.mp hresult
    rw [String.copyIn, bytesAt_formatBuffer_out hlong] at hcopy
    cases hcopy

end Formats

/-- A function that takes a format. -/
inductive Format
  | setf
  | appendf
  | prependf
  deriving DecidableEq

def Format.formatted (fresh stack : ℕ → UInt8) (s : String) (text : List UInt8) :
    Format → Except Fault (Bool × String)
  | setf => stringSetf fresh stack s text
  | appendf => stringAppendf fresh stack s text
  | prependf => stringPrependf fresh stack s text

def Format.plain (fresh : ℕ → UInt8) (s : String) (text : List UInt8) :
    Format → Except Fault String
  | setf => stringSetc fresh s text
  | appendf => stringAppendc fresh s text
  | prependf => stringPrependc fresh s text

/-- A function with a format does what the one with the text does, except for `string_setf`, and
as long as the text and its null byte fit into the buffer. -/
theorem format_agrees_iff {s : String} {text : List UInt8} {fresh fresh' stack : ℕ → UInt8}
    (f : Format) (hs : Valid s) (hnull : 0 ∉ text) (htext : text.length < 2 ^ 31)
    (hformatted : f.formatted fresh stack s text ≠ .error .outOfMemory)
    (hplain : f.plain fresh' s text ≠ .error .outOfMemory) :
    Agrees (f.formatted fresh stack s text) (f.plain fresh' s text) ↔
      f ≠ .setf ∧ text.length < maxFmtSize := by
  have hs : Holds s s.content := hs
  cases f with
  | setf => exact iff_of_false (hs.setf_not_agrees htext hplain) fun h => h.1 rfl
  | appendf => exact (hs.appendf_agrees_iff htext hformatted hplain).trans (by simp)
  | prependf => exact (hs.prependf_agrees_iff hnull htext hformatted hplain).trans (by simp)

private theorem valid_a : Valid ⟨1, 1, [97, 0]⟩ := ⟨rfl, ⟨[], rfl⟩, rfl, by decide⟩

private theorem fetch_b : bytesAt (formatBuffer (fun _ => 0) [98]) 0 2 = .ok [98, 0] :=
  (source_formatBuffer (by decide)).fetch_terminated

/-- The string `a` with the text `b` behind it. -/
theorem format_agrees_iff_append :
    Agrees (Format.formatted (fun _ => 0) (fun _ => 0) ⟨1, 1, [97, 0]⟩ [98] .appendf)
      (Format.plain (fun _ => 0) ⟨1, 1, [97, 0]⟩ [98] .appendf) := by
  have hformatted : Format.formatted (fun _ => 0) (fun _ => 0) ⟨1, 1, [97, 0]⟩ [98] .appendf ≠
      .error .outOfMemory := by
    have hreserve : reserve (fun _ => 0) ⟨1, 1, [97, 0]⟩ 3 (grown 3) =
        .ok ⟨4, 1, [97, 0, 0, 0, 0]⟩ := rfl
    change (reserve _ _ 3 (grown 3) >>= _) ≠ _
    rw [hreserve, bind_ok, String.copyIn]
    change ((bytesAt _ 0 2 >>= _) >>= _) ≠ _
    rw [fetch_b]
    intro herror
    cases herror
  have hplain : Format.plain (fun _ => 0) ⟨1, 1, [97, 0]⟩ [98] .appendf ≠ .error .outOfMemory := by
    intro herror
    cases herror
  exact (format_agrees_iff .appendf valid_a (by decide) (by decide) hformatted hplain).mpr
    ⟨by decide, by decide⟩

/-- The string `a` set to the text `b` has a length of two. -/
theorem format_not_agrees :
    ¬∀ (f : Format) (s : String) (text : List UInt8) (fresh fresh' stack : ℕ → UInt8), Valid s →
      0 ∉ text → text.length < 2 ^ 31 → f.formatted fresh stack s text ≠ .error .outOfMemory →
      f.plain fresh' s text ≠ .error .outOfMemory →
      Agrees (f.formatted fresh stack s text) (f.plain fresh' s text) := by
  intro h
  have hformatted : Format.formatted (fun _ => 0) (fun _ => 0) ⟨1, 1, [97, 0]⟩ [98] .setf ≠
      .error .outOfMemory := by
    have hreserve : reserve (fun _ => 0) ⟨1, 1, [97, 0]⟩ 2 2 = .ok ⟨2, 1, [97, 0, 0]⟩ := rfl
    change (reserve _ _ 2 2 >>= _) ≠ _
    rw [hreserve, bind_ok, String.copyIn]
    change ((bytesAt _ 0 2 >>= _) >>= _) ≠ _
    rw [fetch_b]
    intro herror
    cases herror
  have hplain : stringSetc (fun _ => 0) ⟨1, 1, [97, 0]⟩ [98] ≠ .error .outOfMemory := by
    intro herror
    cases herror
  exact Holds.setf_not_agrees valid_a (by decide) hplain
    (h .setf _ [98] _ _ _ valid_a (by decide) (by decide) hformatted hplain)

end Libromano.Strings
