/- The text of a tree, in the pieces in which it is written. Each piece comes with the size that
   the writer asks for; the writer succeeds when every one of these requests can be met. -/

import Libromano.FmtDecimal
import Libromano.Json.Writer

set_option autoImplicit false
set_option relaxedAutoImplicit false

namespace Libromano.Json

open Bytes (cString)

abbrev Piece := ℕ × List UInt8

def exactly (bytes : List UInt8) : Piece := (bytes.length, bytes)

def stringPiece (s : List UInt8) : Piece :=
  (escapedSize (cString s) + 2, 34 :: ((cString s).flatMap escapeChar ++ [34]))

section Pieces

variable {F : Type} (indentSize : UInt64)

def newline (indent : UInt64) : List Piece :=
  if 0 < indentSize then [exactly [10], exactly (List.replicate indent.toNat 32)] else []

def separator (indent : UInt64) (i : ℕ) : List Piece :=
  (if 0 < i then [exactly [44]] else []) ++ newline indentSize indent

mutual

def pieces (indent : UInt64) : JsonValue F → List Piece
  | .null => [exactly nullLiteral]
  | .bool b => [exactly (if b then trueLiteral else falseLiteral)]
  | .u64 u64 => [exactly (Foundation.Decimal.decimal u64.toNat)]
  | .i64 i64 => [exactly (Fmt.signed i64.toInt)]
  | .f64 _ => []
  | .str s => [stringPiece s]
  | .array vs =>
    exactly [91] :: (elementPieces (indent + indentSize) 0 vs ++
      (newline indentSize indent ++ [exactly [93]]))
  | .dict kvs =>
    exactly [123] :: (memberPieces (indent + indentSize) 0 kvs ++
      (newline indentSize indent ++ [exactly [125]]))

def elementPieces (indent : UInt64) (i : ℕ) : List (JsonValue F) → List Piece
  | [] => []
  | v :: vs => separator indentSize indent i ++ (pieces indent v ++ elementPieces indent (i + 1) vs)

def memberPieces (indent : UInt64) (i : ℕ) : List (List UInt8 × JsonValue F) → List Piece
  | [] => []
  | (k, v) :: kvs =>
    separator indentSize indent i ++ (stringPiece k :: exactly [58] :: exactly [32] ::
      (pieces indent v ++ memberPieces indent (i + 1) kvs))

end

end Pieces

def textOf (ps : List Piece) : List UInt8 := ps.flatMap Prod.snd

def JsonBuffer.writePieces (buffer : JsonBuffer) (ps : List Piece) : Except Stop JsonBuffer :=
  ps.foldlM (fun buffer p => buffer.write p.1 p.2) buffer

section Writes

variable {F : Type} [Float64 F] {writer : JsonWriter} {indent indent' : UInt64}

/-- Write the pieces and leave the indentation at `indent`. -/
def JsonWriter.writePieces (writer : JsonWriter) (ps : List Piece) (indent : UInt64) :
    Except Stop JsonWriter := do
  let buffer ← writer.toJsonBuffer.writePieces ps
  .ok { writer with toJsonBuffer := buffer, indent := indent }

theorem writePieces_bind (ps qs : List Piece) {f : JsonWriter → Except Stop JsonWriter}
    (hf : ∀ buffer, f { writer with toJsonBuffer := buffer, indent := indent } =
      ({ writer with toJsonBuffer := buffer, indent := indent } : JsonWriter).writePieces qs indent') :
    writer.writePieces ps indent >>= f = writer.writePieces (ps ++ qs) indent' := by
  simp only [JsonWriter.writePieces, JsonBuffer.writePieces, List.foldlM_append, bind_assoc,
    bind_ok] at hf ⊢
  exact congrArg _ (funext hf)

theorem write_eq (writer : JsonWriter) (neededSize : ℕ) (bytes : List UInt8) :
    writer.write neededSize bytes = writer.writePieces [(neededSize, bytes)] writer.indent := by
  simp [JsonWriter.write, JsonWriter.writePieces, JsonBuffer.writePieces]

theorem jsonWriteChar_eq (writer : JsonWriter) (c : UInt8) :
    jsonWriteChar writer c = writer.writePieces [exactly [c]] writer.indent := write_eq writer 1 [c]

theorem jsonWriteIndent_eq (writer : JsonWriter) :
    jsonWriteIndent writer =
      writer.writePieces [exactly (List.replicate writer.indent.toNat 32)] writer.indent := by
  rw [jsonWriteIndent, write_eq]
  simp [exactly]

theorem jsonWriteStr_eq (writer : JsonWriter) (s : List UInt8) :
    jsonWriteStr writer s = writer.writePieces [stringPiece s] writer.indent := write_eq ..

theorem writeFormatted_eq (writer : JsonWriter) (bytes : List UInt8) :
    writeFormatted writer bytes.length (.ok bytes) =
      writer.writePieces [exactly bytes] writer.indent := by
  have hwrite : writer.write bytes.length bytes = writer.writePieces [exactly bytes] writer.indent :=
    write_eq ..
  rw [← hwrite, writeFormatted, if_neg (by omega), Int.toNat_natCast, JsonWriter.write,
    JsonBuffer.write]
  cases jsonWriteRealloc writer.toJsonBuffer bytes.length with
  | error stop => rfl
  | ok buffer =>
    simp only [bind_ok, lt_irrefl, if_false, List.take_length]
    cases buffer.put bytes with
    | error stop => rfl
    | ok buffer' => rfl

theorem writeOpen_eq (writer : JsonWriter) (bracket : UInt8) :
    writeOpen writer bracket =
      writer.writePieces [exactly [bracket]] (writer.indent + writer.indentSize) := by
  rw [writeOpen, jsonWriteChar_eq]
  refine (writePieces_bind _ [] fun buffer => ?_).trans (by rw [List.append_nil])
  by_cases hindent : 0 < writer.indentSize
  · rw [if_pos hindent]
    rfl
  · have hzero : writer.indentSize = 0 := UInt64.not_lt.mp hindent |> UInt64.le_zero_iff.mp
    rw [if_neg hindent]
    simp [JsonWriter.writePieces, JsonBuffer.writePieces, hzero]

theorem writeComma_eq (writer : JsonWriter) (i : ℕ) :
    writeComma writer i =
      writer.writePieces (if 0 < i then [exactly [44]] else []) writer.indent := by
  rw [writeComma]
  split_ifs
  · exact jsonWriteChar_eq writer 44
  · rfl

theorem writeNewline_eq (writer : JsonWriter) :
    writeNewline writer =
      writer.writePieces (newline writer.indentSize writer.indent) writer.indent := by
  rw [writeNewline, newline]
  split_ifs
  · rw [jsonWriteChar_eq]
    exact writePieces_bind _ [_] fun _ => jsonWriteIndent_eq _
  · rfl

theorem writeSeparator_eq (writer : JsonWriter) (i : ℕ) :
    writeSeparator writer i =
      writer.writePieces (separator writer.indentSize writer.indent i) writer.indent := by
  rw [writeSeparator, writeComma_eq]
  exact writePieces_bind _ _ fun _ => writeNewline_eq _

theorem writeClose_eq (writer : JsonWriter) (bracket : UInt8) :
    writeClose writer bracket =
      writer.writePieces (newline writer.indentSize (writer.indent - writer.indentSize) ++
        [exactly [bracket]]) (writer.indent - writer.indentSize) := by
  rw [writeClose, newline]
  by_cases hindent : 0 < writer.indentSize
  · rw [if_pos hindent, if_pos hindent, jsonWriteChar_eq]
    apply writePieces_bind _ [_, _]
    intro buffer
    simp only [jsonWriteIndent_eq]
    exact writePieces_bind _ [_] fun _ => jsonWriteChar_eq _ _
  · have hzero : writer.indentSize = 0 := UInt64.not_lt.mp hindent |> UInt64.le_zero_iff.mp
    rw [if_neg hindent, if_neg hindent, jsonWriteChar_eq]
    simp [hzero]

theorem writeElements_eq {vs : List (JsonValue F)}
    (hvs : ∀ v ∈ vs, ∀ writer : JsonWriter, jsonWriteValue writer v =
      writer.writePieces (pieces writer.indentSize writer.indent v) writer.indent)
    (writer : JsonWriter) (i : ℕ) :
    writeElements writer i vs =
      writer.writePieces (elementPieces writer.indentSize writer.indent i vs) writer.indent := by
  induction vs generalizing writer i with
  | nil => rfl
  | cons v vs ih =>
    rw [writeElements, elementPieces, writeSeparator_eq]
    apply writePieces_bind _ _
    intro buffer
    rw [hvs v List.mem_cons_self]
    exact writePieces_bind _ _ fun _ => ih (fun v hv => hvs v (List.mem_cons_of_mem _ hv)) _ _

theorem writeMembers_eq {kvs : List (List UInt8 × JsonValue F)}
    (hkvs : ∀ kv ∈ kvs, ∀ writer : JsonWriter, jsonWriteValue writer kv.2 =
      writer.writePieces (pieces writer.indentSize writer.indent kv.2) writer.indent)
    (writer : JsonWriter) (i : ℕ) :
    writeMembers writer i kvs =
      writer.writePieces (memberPieces writer.indentSize writer.indent i kvs) writer.indent := by
  induction kvs generalizing writer i with
  | nil => rfl
  | cons kv kvs ih =>
    obtain ⟨k, v⟩ := kv
    rw [writeMembers, memberPieces, writeSeparator_eq]
    apply writePieces_bind _ _
    intro buffer
    rw [jsonWriteStr_eq]
    apply writePieces_bind [_] _
    intro buffer
    rw [jsonWriteChar_eq]
    apply writePieces_bind [_] _
    intro buffer
    rw [jsonWriteChar_eq]
    apply writePieces_bind [_] _
    intro buffer
    rw [hkvs (k, v) List.mem_cons_self]
    exact writePieces_bind _ _ fun _ => ih (fun kv hkv => hkvs kv (List.mem_cons_of_mem _ hkv)) _ _

theorem jsonWriteValue_eq {v : JsonValue F} (hv : v.FloatFree) (writer : JsonWriter) :
    jsonWriteValue writer v =
      writer.writePieces (pieces writer.indentSize writer.indent v) writer.indent := by
  induction v using JsonValue.induction generalizing writer with
  | null => exact write_eq ..
  | bool b => exact write_eq ..
  | u64 n =>
    rw [jsonWriteValue, jsonWriteU64, Fmt.fmtU64_eq, Fmt.fmtSizeU64_eq, writeFormatted_eq, pieces]
  | i64 x =>
    rw [jsonWriteValue, jsonWriteI64, Fmt.fmtI64_eq, Fmt.fmtSizeI64_eq, writeFormatted_eq, pieces]
  | f64 x => exact absurd (List.mem_singleton.mpr rfl) (hv x)
  | str s => exact jsonWriteStr_eq writer s
  | array vs ih =>
    have hvs := JsonValue.floatFree_array.mp hv
    rw [jsonWriteValue, pieces, writeOpen_eq]
    apply writePieces_bind [_] _
    intro buffer
    rw [writeElements_eq fun v hv writer => ih v hv (hvs v hv) writer]
    apply writePieces_bind _ _
    intro buffer
    rw [writeClose_eq]
    simp only [UInt64.add_sub_cancel]
  | dict kvs ih =>
    have hkvs := JsonValue.floatFree_dict.mp hv
    rw [jsonWriteValue, pieces, writeOpen_eq]
    apply writePieces_bind [_] _
    intro buffer
    rw [writeMembers_eq fun kv hkv writer => ih kv hkv (hkvs kv hkv) writer]
    apply writePieces_bind _ _
    intro buffer
    rw [writeClose_eq]
    simp only [UInt64.add_sub_cancel]

end Writes

section Room

variable {buffer : JsonBuffer} {ps : List Piece}

/-- Every request, counted from the start of the text, stays below `2 ^ 62`
bytes. The capacity that covers it is then one that can be allocated. -/
def FitsFrom (size : ℕ) : List Piece → Prop
  | [] => True
  | p :: ps => size + p.1 < 2 ^ 62 ∧ FitsFrom (size + p.2.length) ps

instance decidableFitsFrom : ∀ size ps, Decidable (FitsFrom size ps)
  | _, [] => isTrue trivial
  | size, p :: ps =>
    have := decidableFitsFrom (size + p.2.length) ps
    inferInstanceAs (Decidable (size + p.1 < 2 ^ 62 ∧ FitsFrom (size + p.2.length) ps))

/-- A piece is written in the room that it asks for, and does not ask for too much. -/
def Modest (p : Piece) : Prop := p.2.length ≤ p.1 ∧ p.1 ≤ 3 * p.2.length

/-- The capacity is one that the loop reaches, and the bytes are within it. -/
def JsonBuffer.Sane (buffer : JsonBuffer) : Prop :=
  ∃ k, k ≤ 62 ∧ buffer.strCapacity = 2 ^ k ∧ 12 ≤ k ∧ buffer.str.length ≤ 2 ^ k

theorem double_capacity (k : ℕ) :
    2 * 2 ^ k % 2 ^ 64 = if k < 63 then 2 ^ (k + 1) else 0 := by
  rw [← Nat.pow_succ']
  split_ifs with hk
  · exact Nat.mod_eq_of_lt (Nat.pow_lt_pow_right (by decide) (by omega))
  · exact Nat.mod_eq_zero_of_dvd (Nat.pow_dvd_pow 2 (by omega))

theorem growCapacity_ok (fuel : ℕ) {total k : ℕ} (htotal : total < 2 ^ 62) (hk : k ≤ 62)
    (hfuel : 62 < k + fuel) :
    ∃ k', k ≤ k' ∧ k' ≤ 62 ∧ growCapacity fuel total (2 ^ k) = .ok (2 ^ k') ∧ total < 2 ^ k' := by
  induction fuel generalizing k with
  | zero => omega
  | succ fuel ih =>
    rw [growCapacity]
    split_ifs with hgrow
    · have hlt : k < 62 := (Nat.pow_lt_pow_iff_right (by decide)).mp (hgrow.trans_lt htotal)
      rw [double_capacity, if_pos (by omega)]
      obtain ⟨k', hle, hle', hok, hfits⟩ := ih (k := k + 1) (by omega) (by omega)
      exact ⟨k', by omega, hle', hok, hfits⟩
    · exact ⟨k, Nat.le_refl k, hk, rfl, by omega⟩

theorem le_of_growCapacity {fuel total capacity c : ℕ} (htotal : 2 ^ 62 ≤ total)
    (hcapacity : capacity = 0 ∨ ∃ k, capacity = 2 ^ k)
    (h : growCapacity fuel total capacity = .ok c) : 2 ^ 63 ≤ c := by
  induction fuel generalizing capacity with
  | zero => cases h
  | succ fuel ih =>
    rw [growCapacity] at h
    split_ifs at h with hgrow
    · refine ih ?_ h
      rcases hcapacity with rfl | ⟨k, rfl⟩
      · exact .inl rfl
      · rw [double_capacity]
        split_ifs
        · exact .inr ⟨_, rfl⟩
        · exact .inl rfl
    · cases h
      rcases hcapacity with rfl | ⟨k, rfl⟩
      · omega
      · exact Nat.pow_le_pow_right (by decide)
          ((Nat.pow_lt_pow_iff_right (by decide)).mp (htotal.trans_lt (Nat.lt_of_not_le hgrow)))

theorem jsonWriteRealloc_ok (hbuffer : buffer.Sane) {neededSize : ℕ}
    (hfits : buffer.str.length + neededSize < 2 ^ 62) :
    ∃ buffer', jsonWriteRealloc buffer neededSize = .ok buffer' ∧ buffer'.str = buffer.str ∧
      buffer.str.length + neededSize ≤ buffer'.strCapacity ∧ buffer'.Sane := by
  obtain ⟨k, hk, hcapacity, hk', hlen⟩ := hbuffer
  have htotal : (buffer.str.length + neededSize) % 2 ^ 64 = buffer.str.length + neededSize :=
    Nat.mod_eq_of_lt (by omega)
  rw [jsonWriteRealloc]
  simp only [htotal, hcapacity]
  split_ifs with hroom
  · exact ⟨buffer, rfl, rfl, by omega, k, hk, hcapacity, hk', hlen⟩
  · obtain ⟨m, hle, hm, hok, hlt⟩ := growCapacity_ok 65 hfits hk (by omega)
    have hsmall : 2 ^ m ≤ 2 ^ 62 := Nat.pow_le_pow_right (by decide) hm
    rw [hok, bind_ok, if_neg (by omega)]
    exact ⟨_, rfl, rfl, hlt.le, m, hm, rfl, by omega, hlen.trans (Nat.pow_le_pow_right (by decide) hle)⟩

/-- Whatever the request, a capacity that is granted is at most `2 ^ 62`; a
total from there on is refused. -/
theorem jsonWriteRealloc_le (hbuffer : buffer.Sane) {neededSize : ℕ} {buffer' : JsonBuffer}
    (h : jsonWriteRealloc buffer neededSize = .ok buffer') :
    buffer'.str = buffer.str ∧ buffer'.strCapacity ≤ 2 ^ 62 ∧
      (buffer.str.length + neededSize) % 2 ^ 64 < 2 ^ 62 := by
  obtain ⟨k, hk, hcapacity, hk', hlen⟩ := hbuffer
  have hsmall : 2 ^ k ≤ 2 ^ 62 := Nat.pow_le_pow_right (by decide) hk
  rw [jsonWriteRealloc] at h
  simp only [hcapacity] at h
  split_ifs at h with hroom
  · cases h
    exact ⟨rfl, by omega, by omega⟩
  · obtain ⟨c, hgrow, h⟩ := bind_eq_ok.mp h
    split_ifs at h with hlarge
    cases h
    have htotal : (buffer.str.length + neededSize) % 2 ^ 64 < 2 ^ 62 := by
      by_contra hge
      exact hlarge (le_of_growCapacity (by omega) (.inr ⟨k, rfl⟩) hgrow)
    obtain ⟨m, -, hm, hok, -⟩ := growCapacity_ok 65 htotal hk (by omega)
    rw [hgrow] at hok
    cases hok
    exact ⟨rfl, Nat.pow_le_pow_right (by decide) hm, htotal⟩

theorem write_ok (hbuffer : buffer.Sane) {p : Piece} (hp : Modest p)
    (hfits : buffer.str.length + p.1 < 2 ^ 62) :
    ∃ buffer', buffer.write p.1 p.2 = .ok buffer' ∧ buffer'.str = buffer.str ++ p.2 ∧
      buffer'.Sane := by
  obtain ⟨buffer', hok, hstr, hroom, k, hk, hcapacity, hk', -⟩ := jsonWriteRealloc_ok hbuffer hfits
  have hmodest := hp.1
  rw [JsonBuffer.write, hok, bind_ok, JsonBuffer.put, hstr, if_pos (by omega)]
  refine ⟨_, rfl, rfl, k, hk, hcapacity, hk', ?_⟩
  rw [List.length_append]
  omega

theorem fits_of_write (hbuffer : buffer.Sane) {p : Piece} (hp : Modest p) {buffer' : JsonBuffer}
    (h : buffer.write p.1 p.2 = .ok buffer') : buffer.str.length + p.1 < 2 ^ 62 := by
  obtain ⟨grown, hrealloc, hput⟩ := bind_eq_ok.mp h
  obtain ⟨hstr, hsmall, htotal⟩ := jsonWriteRealloc_le hbuffer hrealloc
  have hmodest := hp.2
  rw [JsonBuffer.put] at hput
  split_ifs at hput with hroom
  rw [hstr] at hroom
  -- A total that has wrapped around would leave no room for the bytes themselves.
  by_contra hge
  omega

theorem writePieces_ok_iff (hbuffer : buffer.Sane) (hps : ∀ p ∈ ps, Modest p) (out : List UInt8) :
    (∃ buffer', buffer.writePieces ps = .ok buffer' ∧ buffer'.str = out) ↔
      FitsFrom buffer.str.length ps ∧ out = buffer.str ++ textOf ps := by
  induction ps generalizing buffer with
  | nil =>
    rw [textOf, List.flatMap_nil, List.append_nil, FitsFrom, true_and, eq_comm]
    constructor
    · rintro ⟨buffer', ⟨⟩, rfl⟩
      rfl
    · rintro rfl
      exact ⟨buffer, rfl, rfl⟩
  | cons p ps ih =>
    have hp := hps p List.mem_cons_self
    have hps' := fun q hq => hps q (List.mem_cons_of_mem p hq)
    rw [JsonBuffer.writePieces, List.foldlM_cons, FitsFrom, textOf, List.flatMap_cons]
    by_cases hfits : buffer.str.length + p.1 < 2 ^ 62
    · obtain ⟨buffer', hok, hstr, hsane⟩ := write_ok hbuffer hp hfits
      have hrest := ih hsane hps'
      rw [hstr, List.length_append, List.append_assoc] at hrest
      rw [hok, bind_ok, and_assoc, and_iff_right hfits]
      exact hrest
    · constructor
      · rintro ⟨buffer', hrun, -⟩
        obtain ⟨next, hwrite, -⟩ := bind_eq_ok.mp hrun
        exact absurd (fits_of_write hbuffer hp hwrite) hfits
      · exact fun h => absurd h.1.1 hfits

end Room

section Modest

variable {F : Type} {indentSize : UInt64}

theorem modest_exactly (bytes : List UInt8) : Modest (exactly bytes) :=
  ⟨Nat.le_refl _, Nat.le_mul_of_pos_left _ (by decide)⟩

theorem modest_escaped (s : List UInt8) :
    (s.flatMap escapeChar).length ≤ escapedSize s ∧
      escapedSize s ≤ 3 * (s.flatMap escapeChar).length := by
  induction s with
  | nil => decide
  | cons c s ih =>
    have hchar : (escapeChar c).length ≤ (if jsonCharIsEscaped c then 3 else 1) ∧
        (if jsonCharIsEscaped c then 3 else 1) ≤ 3 * (escapeChar c).length := by
      rw [escapeChar]
      split_ifs
      all_goals simp
    rw [escapedSize, List.map_cons, List.sum_cons, ← escapedSize, List.flatMap_cons,
      List.length_append]
    omega

theorem modest_stringPiece (s : List UInt8) : Modest (stringPiece s) := by
  have hescaped := modest_escaped (cString s)
  simp only [Modest, stringPiece, List.length_cons, List.length_append, List.length_nil]
  omega

theorem modest_newline (indent : UInt64) : ∀ p ∈ newline indentSize indent, Modest p := by
  intro p hp
  rw [newline] at hp
  split_ifs at hp
  · simp only [List.mem_cons, List.not_mem_nil, or_false] at hp
    rcases hp with rfl | rfl
    · exact modest_exactly _
    · exact modest_exactly _
  · cases hp

theorem modest_separator (indent : UInt64) (i : ℕ) :
    ∀ p ∈ separator indentSize indent i, Modest p := by
  intro p hp
  rw [separator, List.mem_append] at hp
  rcases hp with hp | hp
  · split_ifs at hp
    · rw [List.mem_singleton.mp hp]
      exact modest_exactly _
    · cases hp
  · exact modest_newline indent p hp

theorem modest_elementPieces {vs : List (JsonValue F)}
    (hvs : ∀ v ∈ vs, ∀ indent, ∀ p ∈ pieces indentSize indent v, Modest p) (indent : UInt64) (i : ℕ) :
    ∀ p ∈ elementPieces indentSize indent i vs, Modest p := by
  induction vs generalizing i with
  | nil => exact fun p hp => absurd hp List.not_mem_nil
  | cons v vs ih =>
    intro p hp
    rw [elementPieces, List.mem_append, List.mem_append] at hp
    rcases hp with hp | hp | hp
    · exact modest_separator indent i p hp
    · exact hvs v List.mem_cons_self indent p hp
    · exact ih (fun v hv => hvs v (List.mem_cons_of_mem _ hv)) (i + 1) p hp

theorem modest_memberPieces {kvs : List (List UInt8 × JsonValue F)}
    (hkvs : ∀ kv ∈ kvs, ∀ indent, ∀ p ∈ pieces indentSize indent kv.2, Modest p)
    (indent : UInt64) (i : ℕ) : ∀ p ∈ memberPieces indentSize indent i kvs, Modest p := by
  induction kvs generalizing i with
  | nil => exact fun p hp => absurd hp List.not_mem_nil
  | cons kv kvs ih =>
    obtain ⟨k, v⟩ := kv
    intro p hp
    simp only [memberPieces, List.mem_append, List.mem_cons] at hp
    rcases hp with hp | rfl | rfl | rfl | hp | hp
    · exact modest_separator indent i p hp
    · exact modest_stringPiece k
    · exact modest_exactly _
    · exact modest_exactly _
    · exact hkvs (k, v) List.mem_cons_self indent p hp
    · exact ih (fun kv hkv => hkvs kv (List.mem_cons_of_mem _ hkv)) (i + 1) p hp

theorem modest_pieces (v : JsonValue F) (indent : UInt64) :
    ∀ p ∈ pieces indentSize indent v, Modest p := by
  induction v using JsonValue.induction generalizing indent with
  | f64 x => exact fun p hp => absurd hp List.not_mem_nil
  | str s =>
    intro p hp
    rw [List.mem_singleton.mp hp]
    exact modest_stringPiece s
  | array vs ih =>
    intro p hp
    simp only [pieces, List.mem_cons, List.mem_append, List.not_mem_nil, or_false] at hp
    rcases hp with rfl | hp | hp | rfl
    · exact modest_exactly _
    · exact modest_elementPieces ih _ _ p hp
    · exact modest_newline indent p hp
    · exact modest_exactly _
  | dict kvs ih =>
    intro p hp
    simp only [pieces, List.mem_cons, List.mem_append, List.not_mem_nil, or_false] at hp
    rcases hp with rfl | hp | hp | rfl
    · exact modest_exactly _
    · exact modest_memberPieces ih _ _ p hp
    · exact modest_newline indent p hp
    · exact modest_exactly _
  | _ =>
    intro p hp
    rw [List.mem_singleton.mp hp]
    exact modest_exactly _

end Modest

section Dumps

variable {F : Type} [Float64 F]

def text (indentSize : UInt64) (v : JsonValue F) : List UInt8 := textOf (pieces indentSize 0 v)

/-- The writer asks for less than `2 ^ 62` bytes at each point of the text. -/
def Fits (indentSize : UInt64) (v : JsonValue F) : Prop := FitsFrom 0 (pieces indentSize 0 v)

instance (indentSize : UInt64) (v : JsonValue F) : Decidable (Fits indentSize v) :=
  inferInstanceAs (Decidable (FitsFrom 0 (pieces indentSize 0 v)))

theorem jsonDumps_eq_ok_iff {v : JsonValue F} (hv : v.FloatFree) {indentSize : UInt64}
    {out : List UInt8} :
    jsonDumps v indentSize = .ok out ↔ Fits indentSize v ∧ out = text indentSize v := by
  have hsane : JsonBuffer.Sane ⟨[], 4096⟩ := ⟨12, by decide, rfl, by decide, Nat.zero_le _⟩
  rw [jsonDumps, jsonWrite, jsonWriteValue_eq hv, JsonWriter.writePieces, bind_assoc, bind_eq_ok]
  simp only [bind_ok, Except.ok.injEq]
  rw [writePieces_ok_iff hsane (modest_pieces v 0)]
  rfl

end Dumps

end Libromano.Json
