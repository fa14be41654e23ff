/- The single writes of which the text of a tree is made, doubles included, and what each of them
   does to the buffer. -/

import Libromano.FmtDouble
import Libromano.Foundation.Objects
import Libromano.Json.Pieces

set_option autoImplicit false
set_option relaxedAutoImplicit false

namespace Libromano.Json

open Foundation.Objects

inductive Write (F : Type)
  /-- Characters, literals and indentations ask for what they write. -/
  | bytes (bytes : List UInt8)
  | str (str : List UInt8)
  | u64 (u64 : UInt64)
  | i64 (i64 : Int64)
  | f64 (f64 : F)

section

variable {F : Type} [Float64 F]

/-- One write, which needs nothing of the writer but its buffer. -/
def Write.run (buffer : JsonBuffer) (write : Write F) : Except Stop JsonBuffer := do
  let writer : JsonWriter := ⟨buffer, 0, 0⟩
  let writer ← match write with
    | .bytes lit => jsonWriteLiteral writer lit
    | .str s => jsonWriteStr writer s
    | .u64 n => jsonWriteU64 writer n
    | .i64 n => jsonWriteI64 writer n
    | .f64 x => jsonWriteF64 writer x
  .ok writer.toJsonBuffer

/-- The bytes that are to be appended, those of the formatter for a number, and how many the
formatter says they are. -/
def Write.text : Write F → Except Fault (List UInt8 × ℕ)
  | .bytes lit => .ok (Fmt.counted lit)
  | .str s => .ok (Fmt.counted (stringPiece s).2)
  | .u64 n => Fmt.counted <$> Fmt.fmtU64 n
  | .i64 n => Fmt.counted <$> Fmt.fmtI64 n
  | .f64 x => Fmt.fmtF64 x 3

def plain (ps : List Piece) : List (Write F) := ps.map fun p => .bytes p.2

variable (indentSize : UInt64)

mutual

/-- The writes of a tree in their order. -/
def writes (indent : UInt64) : JsonValue F → List (Write F)
  | .null => [.bytes nullLiteral]
  | .bool b => [.bytes (if b then trueLiteral else falseLiteral)]
  | .u64 n => [.u64 n]
  | .i64 n => [.i64 n]
  | .f64 x => [.f64 x]
  | .str s => [.str s]
  | .array vs =>
    .bytes [91] :: (elementWrites (indent + indentSize) 0 vs ++
      plain (newline indentSize indent ++ [exactly [93]]))
  | .dict kvs =>
    .bytes [123] :: (memberWrites (indent + indentSize) 0 kvs ++
      plain (newline indentSize indent ++ [exactly [125]]))

def elementWrites (indent : UInt64) (i : ℕ) : List (JsonValue F) → List (Write F)
  | [] => []
  | v :: vs =>
    plain (separator indentSize indent i) ++ (writes indent v ++ elementWrites indent (i + 1) vs)

def memberWrites (indent : UInt64) (i : ℕ) : List (List UInt8 × JsonValue F) → List (Write F)
  | [] => []
  | (k, v) :: kvs =>
    plain (separator indentSize indent i) ++ (.str k :: .bytes [58] :: .bytes [32] ::
      (writes indent v ++ memberWrites indent (i + 1) kvs))

end

variable {indentSize} {writer : JsonWriter} {indent indent' : UInt64}

/-- Make the writes and leave the indentation at `indent`. -/
def JsonWriter.makeWrites (writer : JsonWriter) (ws : List (Write F)) (indent : UInt64) :
    Except Stop JsonWriter := do
  let buffer ← ws.foldlM Write.run writer.toJsonBuffer
  .ok { writer with toJsonBuffer := buffer, indent := indent }

private theorem makeWrites_bind (ws vs : List (Write F)) {f : JsonWriter → Except Stop JsonWriter}
    (hf : ∀ buffer, f { writer with toJsonBuffer := buffer, indent := indent } =
      ({ writer with toJsonBuffer := buffer, indent := indent } : JsonWriter).makeWrites vs indent') :
    writer.makeWrites ws indent >>= f = writer.makeWrites (ws ++ vs) indent' := by
  simp only [JsonWriter.makeWrites, List.foldlM_append, bind_assoc, bind_ok] at hf ⊢
  exact congrArg _ (funext hf)

private theorem run_bytes (buffer : JsonBuffer) (lit : List UInt8) :
    Write.run buffer (.bytes lit : Write F) = buffer.write lit.length lit := by
  simp only [Write.run, jsonWriteLiteral, JsonWriter.write, bind_assoc, bind_ok]
  exact bind_pure _

private theorem run_str (buffer : JsonBuffer) (s : List UInt8) :
    Write.run buffer (.str s : Write F) = buffer.write (stringPiece s).1 (stringPiece s).2 := by
  simp only [Write.run, jsonWriteStr, JsonWriter.write, stringPiece, bind_assoc, bind_ok]
  exact bind_pure _

private theorem writePieces_plain {ps : List Piece} (hps : ∀ p ∈ ps, p = exactly p.2) :
    writer.writePieces ps indent = writer.makeWrites (plain ps : List (Write F)) indent := by
  have hfold : ∀ buffer : JsonBuffer,
      buffer.writePieces ps = (plain ps : List (Write F)).foldlM Write.run buffer := by
    induction ps with
    | nil => exact fun buffer => rfl
    | cons p ps ih =>
      intro buffer
      obtain ⟨hp, hps⟩ := List.forall_mem_cons.mp hps
      rw [JsonBuffer.writePieces, List.foldlM_cons, plain, List.map_cons, List.foldlM_cons,
        run_bytes, congrArg Prod.fst hp]
      exact congrArg _ (funext (ih hps))
  rw [JsonWriter.writePieces, JsonWriter.makeWrites, hfold]

private theorem writeFormatted_run (writer : JsonWriter) (bufferSz : ℤ)
    (format : Except Fault (List UInt8)) :
    writeFormatted writer bufferSz format =
      writeFormatted ⟨writer.toJsonBuffer, 0, 0⟩ bufferSz format >>= fun other =>
        .ok { writer with toJsonBuffer := other.toJsonBuffer } := by
  unfold writeFormatted
  by_cases hneg : bufferSz < 0
  · rw [if_pos hneg, if_pos hneg]
    rfl
  rw [if_neg hneg, if_neg hneg]
  cases jsonWriteRealloc writer.toJsonBuffer bufferSz.toNat with
  | error stop => rfl
  | ok buffer =>
    cases format with
    | error fault => rfl
    | ok bytes =>
      simp only [bind_ok, bind_assoc]
      refine congrArg _ (funext fun _ => ?_)
      split
      · rfl
      · simp only [bind_assoc, bind_ok]

private theorem makeWrites_singleton (w : Write F) {x : Except Stop JsonWriter}
    (hx : x = Write.run writer.toJsonBuffer w >>= fun buffer =>
      .ok { writer with toJsonBuffer := buffer }) :
    x = writer.makeWrites [w] writer.indent := by
  rw [hx, JsonWriter.makeWrites, List.foldlM_cons]
  simp only [List.foldlM_nil, bind_assoc]
  rfl

private theorem jsonWriteStr_writes (writer : JsonWriter) (s : List UInt8) :
    jsonWriteStr writer s = writer.makeWrites [(.str s : Write F)] writer.indent := by
  refine makeWrites_singleton _ ?_
  rw [run_str]
  rfl

private theorem jsonWriteChar_writes (writer : JsonWriter) (c : UInt8) :
    jsonWriteChar writer c = writer.makeWrites [(.bytes [c] : Write F)] writer.indent := by
  refine makeWrites_singleton _ ?_
  rw [run_bytes]
  rfl

private theorem jsonWriteLiteral_writes (writer : JsonWriter) (lit : List UInt8) :
    jsonWriteLiteral writer lit = writer.makeWrites [(.bytes lit : Write F)] writer.indent := by
  refine makeWrites_singleton _ ?_
  rw [run_bytes]
  rfl

private theorem writeFormatted_writes (writer : JsonWriter) {w : Write F} {bufferSz : ℤ}
    {format : Except Fault (List UInt8)}
    (hw : ∀ buffer, Write.run buffer w =
      writeFormatted ⟨buffer, 0, 0⟩ bufferSz format >>= fun other => .ok other.toJsonBuffer) :
    writeFormatted writer bufferSz format = writer.makeWrites [w] writer.indent := by
  refine makeWrites_singleton w ?_
  rw [hw, writeFormatted_run]
  simp only [bind_assoc, bind_ok]

private theorem newline_exactly (indentSize indent : UInt64) :
    ∀ p ∈ newline indentSize indent, p = exactly p.2 := by
  unfold newline
  split
  · simp [exactly]
  · simp

private theorem separator_exactly (indentSize indent : UInt64) (i : ℕ) :
    ∀ p ∈ separator indentSize indent i, p = exactly p.2 := by
  intro p hp
  rcases List.mem_append.mp hp with hp | hp
  · split at hp
    · rw [List.mem_singleton.mp hp]
      rfl
    · cases hp
  · exact newline_exactly indentSize indent p hp

private theorem writeSeparator_writes (writer : JsonWriter) (i : ℕ) :
    writeSeparator writer i = writer.makeWrites
      (plain (separator writer.indentSize writer.indent i) : List (Write F)) writer.indent := by
  rw [writeSeparator_eq, writePieces_plain (F := F) (separator_exactly _ _ i)]

private theorem writeOpen_writes (writer : JsonWriter) (bracket : UInt8) :
    writeOpen writer bracket = writer.makeWrites [(.bytes [bracket] : Write F)]
      (writer.indent + writer.indentSize) := by
  rw [writeOpen_eq, writePieces_plain (F := F) (by simp [exactly])]
  rfl

private theorem writeClose_writes (writer : JsonWriter) (bracket : UInt8) :
    writeClose writer bracket = writer.makeWrites
      (plain (newline writer.indentSize (writer.indent - writer.indentSize) ++ [exactly [bracket]]) :
        List (Write F)) (writer.indent - writer.indentSize) := by
  rw [writeClose_eq, writePieces_plain (F := F)]
  intro p hp
  rcases List.mem_append.mp hp with hp | hp
  · exact newline_exactly _ _ p hp
  · rw [List.mem_singleton.mp hp]
    rfl

private theorem writeElements_writes {vs : List (JsonValue F)}
    (hvs : ∀ v ∈ vs, ∀ writer : JsonWriter, jsonWriteValue writer v =
      writer.makeWrites (writes writer.indentSize writer.indent v) writer.indent)
    (writer : JsonWriter) (i : ℕ) :
    writeElements writer i vs =
      writer.makeWrites (elementWrites writer.indentSize writer.indent i vs) writer.indent := by
  induction vs generalizing writer i with
  | nil => rfl
  | cons v vs ih =>
    rw [writeElements, elementWrites, writeSeparator_writes (F := F)]
    apply makeWrites_bind _ _
    intro buffer
    rw [hvs v List.mem_cons_self]
    exact makeWrites_bind _ _ fun _ => ih (fun v hv => hvs v (List.mem_cons_of_mem _ hv)) _ _

private theorem writeMembers_writes {kvs : List (List UInt8 × JsonValue F)}
    (hkvs : ∀ kv ∈ kvs, ∀ writer : JsonWriter, jsonWriteValue writer kv.2 =
      writer.makeWrites (writes writer.indentSize writer.indent kv.2) writer.indent)
    (writer : JsonWriter) (i : ℕ) :
    writeMembers writer i kvs =
      writer.makeWrites (memberWrites writer.indentSize writer.indent i kvs) writer.indent := by
  induction kvs generalizing writer i with
  | nil => rfl
  | cons kv kvs ih =>
    obtain ⟨k, v⟩ := kv
    rw [writeMembers, memberWrites, writeSeparator_writes (F := F)]
    apply makeWrites_bind _ _
    intro buffer
    rw [jsonWriteStr_writes (F := F)]
    apply makeWrites_bind [_] _
    intro buffer
    rw [jsonWriteChar_writes (F := F)]
    apply makeWrites_bind [_] _
    intro buffer
    rw [jsonWriteChar_writes (F := F)]
    apply makeWrites_bind [_] _
    intro buffer
    rw [hkvs (k, v) List.mem_cons_self]
    exact makeWrites_bind _ _ fun _ => ih (fun kv hkv => hkvs kv (List.mem_cons_of_mem _ hkv)) _ _

private theorem jsonWriteValue_writes (v : JsonValue F) (writer : JsonWriter) :
    jsonWriteValue writer v =
      writer.makeWrites (writes writer.indentSize writer.indent v) writer.indent := by
  induction v using JsonValue.induction generalizing writer with
  | null => exact jsonWriteLiteral_writes ..
  | bool b => exact jsonWriteLiteral_writes ..
  | u64 n => exact writeFormatted_writes writer (w := .u64 n) fun buffer => rfl
  | i64 n => exact writeFormatted_writes writer (w := .i64 n) fun buffer => rfl
  | f64 x => exact writeFormatted_writes writer (w := .f64 x) fun buffer => rfl
  | str s => exact jsonWriteStr_writes writer s
  | array vs ih =>
    rw [jsonWriteValue, writes, writeOpen_writes (F := F)]
    apply makeWrites_bind [_] _
    intro buffer
    rw [writeElements_writes ih]
    apply makeWrites_bind _ _
    intro buffer
    rw [writeClose_writes (F := F)]
    simp only [UInt64.add_sub_cancel]
  | dict kvs ih =>
    rw [jsonWriteValue, writes, writeOpen_writes (F := F)]
    apply makeWrites_bind [_] _
    intro buffer
    rw [writeMembers_writes ih]
    apply makeWrites_bind _ _
    intro buffer
    rw [writeClose_writes (F := F)]
    simp only [UInt64.add_sub_cancel]

theorem jsonWrite_writes (root : JsonValue F) (indentSize : UInt64) :
    jsonWrite root indentSize =
      (writes indentSize 0 root).foldlM Write.run ⟨[], 4096⟩ >>= fun buffer => .ok buffer.str := by
  unfold jsonWrite
  rw [jsonWriteValue_writes, JsonWriter.makeWrites, bind_assoc]
  rfl

end

section Room

variable {buffer buffer' : JsonBuffer} {neededSize : ℕ}

/-- The sizes for which `realloc` is asked for `2 ^ 63` bytes, which it refuses. -/
def Refused (total : ℕ) : Prop := 2 ^ 62 ≤ total % 2 ^ 64 ∧ total % 2 ^ 64 < 2 ^ 63

end Room

section Exact

variable {buffer buffer' : JsonBuffer}

/-- The text is appended, or the memory for it is refused. Every fault counts against it. -/
def Appends (buffer : JsonBuffer) (result : Except Stop JsonBuffer) (text : List UInt8) : Prop :=
  match result with
  | .ok buffer' => buffer'.str = buffer.str ++ text
  | .error stop => stop = .null (some .memAllocError)

end Exact

end Libromano.Json
