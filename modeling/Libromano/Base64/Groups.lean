/- Groups of three bytes and of four characters: what one turn of each loop does, and the bits of
   the words that it goes through. -/

import Libromano.Base64.Model
import Mathlib.Algebra.Order.Ring.Nat

set_option autoImplicit false
set_option relaxedAutoImplicit false

namespace Libromano.Base64

open Bytes (byteAt byteAt_append)

section Words

variable {a b c : UInt8} {x y z w : UInt32}

private theorem toNat_shiftLeft_or {k : ℕ} (hk : k < 32) (hy : y.toNat < 2 ^ k)
    (hx : x.toNat < 2 ^ (32 - k)) :
    (x <<< UInt32.ofNat k ||| y).toNat = x.toNat * 2 ^ k + y.toNat := by
  have hshift : (x <<< UInt32.ofNat k).toNat = x.toNat <<< k := by
    rw [UInt32.toNat_shiftLeft, UInt32.toNat_ofNat', Nat.mod_eq_of_lt (by omega : k < 2 ^ 32),
      Nat.mod_eq_of_lt hk, Nat.shiftLeft_eq]
    refine Nat.mod_eq_of_lt ?_
    calc x.toNat * 2 ^ k < 2 ^ (32 - k) * 2 ^ k := Nat.mul_lt_mul_of_pos_right hx (Nat.two_pow_pos k)
      _ = 2 ^ 32 := by rw [← Nat.pow_add, Nat.sub_add_cancel hk.le]
  rw [UInt32.toNat_or, hshift, ← Nat.shiftLeft_add_eq_or_of_lt hy, Nat.shiftLeft_eq]

private theorem toNat_bytes (a b c : UInt8) :
    (a.toUInt32 <<< 16 ||| b.toUInt32 <<< 8 ||| c.toUInt32).toNat =
      a.toNat * 2 ^ 16 + (b.toNat * 2 ^ 8 + c.toNat) := by
  have ha := a.toNat_lt
  have hb := b.toNat_lt
  have hc := c.toNat_lt
  have hlow : (b.toUInt32 <<< 8 ||| c.toUInt32).toNat = b.toNat * 2 ^ 8 + c.toNat :=
    toNat_shiftLeft_or (k := 8) (by omega) (by simpa using hc) (by simp; omega)
  rw [UInt32.or_assoc, ← hlow]
  refine toNat_shiftLeft_or (k := 16) (by omega) ?_ (by simp; omega)
  rw [hlow]
  omega

theorem toNat_sextets (hx : x.toNat < 64) (hy : y.toNat < 64) (hz : z.toNat < 64)
    (hw : w.toNat < 64) : (x <<< 18 ||| y <<< 12 ||| z <<< 6 ||| w <<< 0).toNat =
      x.toNat * 2 ^ 18 + (y.toNat * 2 ^ 12 + (z.toNat * 2 ^ 6 + w.toNat)) := by
  have hlow : (z <<< 6 ||| w).toNat = z.toNat * 2 ^ 6 + w.toNat :=
    toNat_shiftLeft_or (k := 6) (by omega) hw (by omega)
  have hmiddle : (y <<< 12 ||| (z <<< 6 ||| w)).toNat =
      y.toNat * 2 ^ 12 + (z.toNat * 2 ^ 6 + w.toNat) := by
    rw [← hlow]
    exact toNat_shiftLeft_or (k := 12) (by omega) (by omega) (by omega)
  rw [UInt32.shiftLeft_zero, UInt32.or_assoc, UInt32.or_assoc, ← hmiddle]
  exact toNat_shiftLeft_or (k := 18) (by omega) (by omega) (by omega)

private theorem toNat_sextet (x : UInt32) {k : ℕ} (hk : k < 32) :
    ((x >>> UInt32.ofNat k) &&& 0x3F).toNat = x.toNat / 2 ^ k % 64 := by
  rw [UInt32.toNat_and, UInt32.toNat_shiftRight, UInt32.toNat_ofNat',
    Nat.mod_eq_of_lt (by omega : k < 2 ^ 32), Nat.mod_eq_of_lt hk, Nat.shiftRight_eq_div_pow]
  exact Nat.and_two_pow_sub_one_eq_mod _ 6

theorem toNat_byte (x : UInt32) {k : ℕ} (hk : k < 32) :
    ((x >>> UInt32.ofNat k) &&& 0xFF).toUInt8.toNat = x.toNat / 2 ^ k % 256 := by
  rw [UInt32.toNat_toUInt8, UInt32.toNat_and, UInt32.toNat_shiftRight, UInt32.toNat_ofNat',
    Nat.mod_eq_of_lt (by omega : k < 2 ^ 32), Nat.mod_eq_of_lt hk, Nat.shiftRight_eq_div_pow]
  have hmask : x.toNat / 2 ^ k &&& 255 = x.toNat / 2 ^ k % 256 := Nat.and_two_pow_sub_one_eq_mod _ 8
  change (x.toNat / 2 ^ k &&& 255) % 256 = _
  rw [hmask, Nat.mod_mod]

end Words

/-- A buffer to which bytes were written, with what is left of it. -/
def filled (written rest : List UInt8) : Output := ⟨written ++ rest, written.length⟩

theorem calloc_eq (n : ℕ) : calloc n = filled [] (List.replicate n 0) := rfl

theorem push_filled (written : List UInt8) (r b : UInt8) (rest : List UInt8) :
    (filled written (r :: rest)).push b = .ok (filled (written ++ [b]) rest) := by
  rw [Output.push, filled, if_pos (by simp)]
  simp [filled]

def sextet (v : ℕ) : UInt8 := encodeTable.getD v 0

def Indexed (c : UInt8) : Prop := 43 ≤ c ∧ c ≤ 122

instance (c : UInt8) : Decidable (Indexed c) := inferInstanceAs (Decidable (_ ∧ _))

def valueOf (c : UInt8) : UInt32 := (decodeTable.getD (c.toNat - 43) 0).toUInt32

private theorem forall_byte {P : UInt8 → Prop} (h : ∀ n < 256, P (UInt8.ofNat n)) (c : UInt8) :
    P c := by
  have hc := h c.toNat c.toNat_lt
  rwa [UInt8.ofNat_toNat] at hc

theorem decodeAt_eq (c : UInt8) :
    decodeAt c = if Indexed c then .ok (valueOf c) else .error .outOfBounds := by
  revert c
  refine forall_byte ?_
  decide +kernel

private theorem encodeAt_eq (x : UInt32) {k : ℕ} (hk : k < 32) :
    encodeAt x (UInt32.ofNat k) = .ok (sextet (x.toNat / 2 ^ k % 64)) := by
  have hlt : x.toNat / 2 ^ k % 64 < encodeTable.length := Nat.mod_lt _ (by decide)
  rw [encodeAt, toNat_sextet x hk, byteAt, sextet, List.getD_eq_getElem?_getD,
    List.getElem?_eq_getElem hlt]
  rfl

private theorem encodeAt_chunk {x : UInt32} {n : ℕ} (hx : x.toNat = n) :
    encodeAt x 18 = .ok (sextet (n / 2 ^ 18 % 64)) ∧
      encodeAt x 12 = .ok (sextet (n / 2 ^ 12 % 64)) ∧
      encodeAt x 6 = .ok (sextet (n / 2 ^ 6 % 64)) ∧ encodeAt x 0 = .ok (sextet (n % 64)) := by
  subst hx
  refine ⟨encodeAt_eq x (k := 18) (by omega), encodeAt_eq x (k := 12) (by omega),
    encodeAt_eq x (k := 6) (by omega), ?_⟩
  have h := encodeAt_eq x (k := 0) (by omega)
  rwa [Nat.pow_zero, Nat.div_one] at h

theorem sextet_spec : ∀ v < 64, Indexed (sextet v) ∧ (valueOf (sextet v)).toNat = v ∧
    sextet v ≠ 61 := by
  decide +kernel

def encodeGroup (a b c : UInt8) : List UInt8 :=
  let n := a.toNat * 2 ^ 16 + (b.toNat * 2 ^ 8 + c.toNat)
  [sextet (n / 2 ^ 18 % 64), sextet (n / 2 ^ 12 % 64), sextet (n / 2 ^ 6 % 64), sextet (n % 64)]

def encoded : List UInt8 → List UInt8
  | [] => []
  | [a] => (encodeGroup a 0 0).take 2 ++ [61, 61]
  | [a, b] => (encodeGroup a b 0).take 3 ++ [61]
  | a :: b :: c :: data => encodeGroup a b c ++ encoded data

theorem exists_three {l : List UInt8} {n : ℕ} (h : 3 * (n + 1) ≤ l.length) :
    ∃ a b c l', l = a :: b :: c :: l' := by
  rcases l with _ | ⟨a, _ | ⟨b, _ | ⟨c, l⟩⟩⟩
  · simp at h
  · simp at h
    omega
  · simp at h
    omega
  · exact ⟨a, b, c, l, rfl⟩

theorem exists_four {l : List UInt8} {n : ℕ} (h : 4 * (n + 1) ≤ l.length) :
    ∃ a b c d l', l = a :: b :: c :: d :: l' := by
  have hthree : 3 * (n + 1) ≤ l.length := by omega
  obtain ⟨a, b, c, l, rfl⟩ := exists_three hthree
  rcases l with _ | ⟨d, l⟩
  · simp at h
    omega
  · exact ⟨a, b, c, d, l, rfl⟩

private theorem encodeGroups_eq {turns g : ℕ} (before full after written rest : List UInt8)
    (hfull : full.length = 3 * turns) (hbefore : before.length = g * 3)
    (hrest : 4 * turns ≤ rest.length) :
    encodeGroups (before ++ (full ++ after)) turns g (filled written rest) =
      .ok (filled (written ++ encoded full) (rest.drop (4 * turns))) := by
  induction turns generalizing g before full written rest with
  | zero =>
    obtain rfl := List.length_eq_zero_iff.mp hfull
    simp [encodeGroups, encoded]
  | succ turns ih =>
    obtain ⟨a, b, c, full, rfl⟩ := exists_three hfull.ge
    obtain ⟨r₀, r₁, r₂, r₃, rest, rfl⟩ := exists_four hrest
    simp only [List.length_cons] at hfull hrest
    have hnext := ih (g := g + 1) (before ++ [a, b, c]) full (written ++ encodeGroup a b c) rest
      (by omega) (by simp [hbefore]; omega) (by omega)
    have hsplit : before ++ (a :: b :: c :: full ++ after) =
        before ++ [a, b, c] ++ (full ++ after) := by simp
    have hread (j : ℕ) : byteAt (before ++ (a :: b :: c :: full ++ after)) (g * 3 + j) =
        byteAt (a :: b :: c :: full ++ after) j := byteAt_append _ _ (by rw [hbefore])
    rw [encodeGroups, hread, hread, hread]
    simp only [show byteAt (a :: b :: c :: full ++ after) 0 = .ok a from rfl,
      show byteAt (a :: b :: c :: full ++ after) 1 = .ok b from rfl,
      show byteAt (a :: b :: c :: full ++ after) 2 = .ok c from rfl, bind_ok]
    obtain ⟨h₁, h₂, h₃, h₄⟩ := encodeAt_chunk (toNat_bytes a b c)
    simp only [h₁, h₂, h₃, h₄, push_filled, bind_ok]
    rw [hsplit]
    simp only [encodeGroup, List.append_assoc, List.cons_append, List.nil_append] at hnext ⊢
    have hdrop : (r₀ :: r₁ :: r₂ :: r₃ :: rest).drop (4 * (turns + 1)) = rest.drop (4 * turns) := by
      rw [Nat.mul_succ]
      rfl
    simpa [hdrop, encoded, encodeGroup] using hnext

theorem encoded_append {turns : ℕ} {full last : List UInt8} (h : full.length = 3 * turns) :
    encoded (full ++ last) = encoded full ++ encoded last := by
  induction turns generalizing full with
  | zero =>
    obtain rfl := List.length_eq_zero_iff.mp h
    rfl
  | succ turns ih =>
    obtain ⟨a, b, c, full, rfl⟩ := exists_three h.ge
    simp only [List.length_cons] at h
    have hfull : full.length = 3 * turns := by omega
    simp [encoded, ih hfull]

theorem length_encoded (data : List UInt8) :
    (encoded data).length = base64GetEncodeSize data.length := by
  fun_induction encoded data with
  | case1 => rfl
  | case2 a => simp [encodeGroup, base64GetEncodeSize]
  | case3 a b => simp [encodeGroup, base64GetEncodeSize]
  | case4 a b c data ih =>
    rw [List.length_append, ih]
    simp only [encodeGroup, base64GetEncodeSize, List.length_cons, List.length_nil]
    omega

private theorem exists_groups (n : ℕ) (data : List UInt8) : ∃ full last, data = full ++ last ∧
    full.length = n * (data.length / n) ∧ last.length = data.length % n := by
  refine ⟨data.take (n * (data.length / n)), data.drop (n * (data.length / n)), ?_, ?_, ?_⟩
  · rw [List.take_append_drop]
  · rw [List.length_take]
    exact Nat.min_eq_left (Nat.mul_div_le _ _)
  · rw [List.length_drop]
    have := Nat.div_add_mod data.length n
    omega

private theorem toNat_bytes_two (a b : UInt8) :
    (a.toUInt32 <<< 16 ||| b.toUInt32 <<< 8).toNat =
      a.toNat * 2 ^ 16 + (b.toNat * 2 ^ 8 + (0 : UInt8).toNat) := by
  have h := toNat_bytes a b 0
  rwa [show (0 : UInt8).toUInt32 = 0 from rfl, UInt32.or_zero] at h

private theorem encodeRest_one {data written : List UInt8} {i : ℕ} {a : UInt8}
    (ha : byteAt data i = .ok a) :
    encodeRest data i 1 (filled written (List.replicate 4 0)) =
      .ok (filled (written ++ encoded [a]) []) := by
  obtain ⟨h₁, h₂, -, -⟩ := encodeAt_chunk (toNat_bytes_two a 0)
  simp only [encodeRest, Nat.add_zero, ha, bind_ok, if_neg (by omega : ¬2 ≤ 1), if_true, h₁, h₂,
    List.replicate_succ, List.replicate_zero, push_filled]
  simp [encoded, encodeGroup]

private theorem encodeRest_two {data written : List UInt8} {i : ℕ} {a b : UInt8}
    (ha : byteAt data i = .ok a) (hb : byteAt data (i + 1) = .ok b) :
    encodeRest data i 2 (filled written (List.replicate 4 0)) =
      .ok (filled (written ++ encoded [a, b]) []) := by
  obtain ⟨h₁, h₂, h₃, -⟩ := encodeAt_chunk (toNat_bytes_two a b)
  simp only [encodeRest, Nat.add_zero, ha, hb, bind_ok, Nat.le_refl, if_true,
    if_neg (by omega : ¬2 = 1), h₁, h₂, h₃, List.replicate_succ, List.replicate_zero, push_filled]
  simp [encoded, encodeGroup]

theorem base64Encode_eq (data : List UInt8) :
    base64Encode data = .ok ⟨encoded data, base64GetEncodeSize data.length⟩ := by
  obtain ⟨full, last, hdata, hfull, hlast⟩ := exists_groups 3 data
  have hlength : data.length = full.length + last.length := by
    rw [hdata, List.length_append]
  have hroom : 4 * (data.length / 3) ≤
      (List.replicate (base64GetEncodeSize data.length) (0 : UInt8)).length := by
    rw [List.length_replicate, base64GetEncodeSize]
    omega
  have hloop := encodeGroups_eq (g := 0) [] full last [] _ hfull rfl hroom
  have hread (j : ℕ) : byteAt data (data.length / 3 * 3 + j) = byteAt last j := by
    rw [hdata]
    refine byteAt_append _ _ ?_
    rw [← hdata, hfull, Nat.mul_comm]
  rw [List.nil_append, List.nil_append, ← hdata, List.drop_replicate] at hloop
  have hfilled : (⟨encoded data, base64GetEncodeSize data.length⟩ : Output) =
      filled (encoded full ++ encoded last) [] := by
    rw [← encoded_append hfull, ← hdata, filled, List.append_nil, length_encoded]
  rw [hfilled, base64Encode, calloc_eq, base64EncodeScalar]
  change (encodeGroups data (data.length / 3) 0 (filled _ _) >>= _) = _
  rw [hloop, bind_ok]
  have hleft : base64GetEncodeSize data.length - 4 * (data.length / 3) =
      if data.length % 3 = 0 then 0 else 4 := by
    rw [base64GetEncodeSize]
    split_ifs <;> omega
  rw [hleft, ← hlast]
  rcases last with _ | ⟨a, _ | ⟨b, _ | ⟨c, last⟩⟩⟩
  · simp [encoded]
  · exact encodeRest_one (hread 0)
  · exact encodeRest_two (hread 0) (hread 1)
  · have := Nat.mod_lt data.length (by omega : 0 < 3)
    simp only [List.length_cons] at hlast
    omega

end Libromano.Base64
