/- The text of a request as it is built, and the size that is deduced for it. -/

import Libromano.Http.Headers

set_option autoImplicit false
set_option relaxedAutoImplicit false

namespace Libromano.Http

open Bytes

/-- What the loop of `http_request_deduce_build_size` adds for an entry. -/
def addEntrySize (sz : ℕ) (headerEntry : HTTPHeaderEntry) : Except Fault ℕ := do
  let keySz ← strlen headerEntry.key
  let valueSz ← strlen headerEntry.value
  .ok (sz + keySz + 2 + valueSz + 2)

/-- Sums of sizes wrap around. -/
def httpRequestDeduceBuildSize (request : HTTPRequest) : Except Fault ℕ := do
  let sz := httpVersionAsStrlen request.version + 1
  let endpointSz ← strlen request.endpoint
  let sz := sz + (endpointSz + 1)
  let sz := sz + (httpMethodAsStrlen request.method + 2)
  let entries ← httpHeaderEntries request.headers
  let sz ← entries.foldlM addEntrySize sz
  let sz := sz + 2
  .ok ((sz + 1) % 2 ^ 64)

def entryText (entry : HTTPHeaderEntry) : List UInt8 :=
  cString entry.key ++ (ascii ": " ++ (cString entry.value ++ ascii "\r\n"))

/-- The request line, the headers and the blank line. -/
def requestText (request : HTTPRequest) (entries : List HTTPHeaderEntry) : List UInt8 :=
  cString (httpMethodAsString request.method) ++ (ascii " " ++ (cString request.endpoint ++
    (ascii " " ++ (cString ((httpVersionAsString request.version).getD []) ++ (ascii "\r\n" ++
      (entries.flatMap entryText ++ ascii "\r\n"))))))

/-- The strings of the entry are ended. -/
def Ended (entry : HTTPHeaderEntry) : Prop := 0 ∈ entry.key ∧ 0 ∈ entry.value

section Builder

variable {builder : Buffer} {text str : List UInt8} {n : ℕ} {entry : HTTPHeaderEntry}
  {entries : List HTTPHeaderEntry}

/-- The builder gets a text behind what it has, as long as memory lasts. -/
def Appends (builder : Buffer) (text : List UInt8) (result : Except Fault Buffer) : Prop :=
  ∀ total, builder.Room total → builder.bytes.length + text.length ≤ total →
    ∃ j builder', result = .ok builder' ∧ builder'.Room total ∧
      builder'.capacity = builder.capacity * 2 ^ j ∧ builder'.bytes = builder.bytes ++ text

private theorem Appends.bind {text' : List UInt8} {result : Except Fault Buffer}
    {next : Buffer → Except Fault Buffer} (h : Appends builder text result)
    (hnext : ∀ builder', Appends builder' text' (next builder')) :
    Appends builder (text ++ text') (result >>= next) := by
  intro total hroom hfits
  rw [List.length_append] at hfits
  obtain ⟨j, builder', rfl, hroom', hcapacity, hbytes⟩ := h total hroom (by omega)
  obtain ⟨j', builder'', hresult, hroom'', hcapacity', hbytes'⟩ := hnext builder' total hroom' (by
    rw [hbytes, List.length_append]
    omega)
  refine ⟨j + j', builder'', hresult, hroom'', ?_, ?_⟩
  · rw [hcapacity', hcapacity, Nat.pow_add, Nat.mul_assoc]
  · rw [hbytes', hbytes, List.append_assoc]

private theorem appends_sized (hn : text.length = n) (hpos : n ≠ 0) (after : List UInt8) :
    Appends builder text (httpBuilderAppend builder (text ++ after) n) := by
  intro total hroom hfits
  obtain ⟨j, builder', happend, hroom', hwritten⟩ := hroom.append text after hn (by rwa [← hn])
  refine ⟨j, builder', ?_, hroom', hwritten⟩
  rw [httpBuilderAppend, if_neg hpos, bind_ok, happend]
  rfl

private theorem appends_string (hnull : 0 ∈ str) :
    Appends builder (cString str) (httpBuilderAppend builder str 0) := by
  intro total hroom hfits
  obtain ⟨after, hstr, -⟩ := exists_cString hnull
  obtain ⟨j, builder', happend, hroom', hwritten⟩ := hroom.append (cString str) (0 :: after) rfl hfits
  rw [← hstr] at happend
  refine ⟨j, builder', ?_, hroom', hwritten⟩
  rw [httpBuilderAppend, if_pos rfl, strlen, if_pos hnull, bind_ok, happend]
  rfl

private theorem appends_literal (s : String) (hpos : (ascii s).length ≠ 0) :
    Appends builder (ascii s) (httpBuilderAppend builder (literal s) (ascii s).length) :=
  appends_sized rfl hpos [0]

private theorem appends_entry (hended : Ended entry) :
    Appends builder (entryText entry) (appendEntry builder entry) := by
  apply (appends_string hended.1).bind
  intro builder
  apply (appends_literal ": " (by decide)).bind
  intro builder
  exact (appends_string hended.2).bind fun builder => appends_literal "\r\n" (by decide)

private theorem appends_entries (hended : ∀ entry ∈ entries, Ended entry) :
    Appends builder (entries.flatMap entryText) (entries.foldlM appendEntry builder) := by
  induction entries generalizing builder with
  | nil =>
    intro total hroom _
    exact ⟨0, builder, rfl, hroom, (Nat.mul_one _).symm, (List.append_nil _).symm⟩
  | cons entry entries ih =>
    obtain ⟨hentry, hentries⟩ := List.forall_mem_cons.mp hended
    rw [List.flatMap_cons, List.foldlM_cons]
    exact (appends_entry hentry).bind fun builder => ih hentries

private theorem appends_method (method : HTTPMethod) :
    Appends builder (cString (httpMethodAsString method))
      (httpBuilderAppend builder (httpMethodAsString method) (httpMethodAsStrlen method)) := by
  have hstring : httpMethodAsString method = cString (httpMethodAsString method) ++ [0] := by
    cases method <;> rfl
  have hsize : (cString (httpMethodAsString method)).length = httpMethodAsStrlen method := by
    cases method <;> rfl
  have happend : Appends builder _ _ := appends_sized hsize (by cases method <;> decide) [0]
  rwa [← hstring] at happend

private theorem appends_version {version : HTTPVersion} {string : List UInt8}
    (h : httpVersionAsString version = some string) : Appends builder (cString string)
      (httpBuilderAppend builder string (httpVersionAsStrlen version)) := by
  cases version with
  | invalid => cases h
  | other value => cases h
  | v1_1 =>
    cases h
    exact appends_literal "HTTP/1.1" (by decide)
  | v2 =>
    cases h
    exact appends_literal "HTTP/2" (by decide)
  | v3 =>
    cases h
    exact appends_literal "HTTP/3" (by decide)

end Builder

section Build

variable {request : HTTPRequest} {version : List UInt8} {entries : List HTTPHeaderEntry}
  {builder : Buffer} {total : ℕ}

theorem request_built (request : HTTPRequest)
    (hversion : httpVersionAsString request.version = some version)
    (hendpoint : 0 ∈ request.endpoint) (hheaders : Shows request.headers entries)
    (hended : ∀ entry ∈ entries, Ended entry) (hempty : builder.bytes = []) (hroom : builder.Room total)
    (hfits : (requestText request entries).length ≤ total) :
    ∃ j builder', httpRequestBuild request builder = .ok (some builder') ∧ builder'.Room total ∧
      builder'.capacity = builder.capacity * 2 ^ j ∧ builder'.bytes = requestText request entries := by
  have happends : Appends builder (requestText request entries) (do
      let builder ← httpBuilderAppend builder (httpMethodAsString request.method)
        (httpMethodAsStrlen request.method)
      let builder ← httpBuilderAppend builder (literal " ") 1
      let builder ← httpBuilderAppend builder request.endpoint 0
      let builder ← httpBuilderAppend builder (literal " ") 1
      let builder ← httpBuilderAppend builder version (httpVersionAsStrlen request.version)
      let builder ← httpBuilderAppend builder (literal "\r\n") 2
      let builder ← entries.foldlM appendEntry builder
      httpBuilderAppend builder (literal "\r\n") 2) := by
    rw [requestText, hversion, Option.getD_some]
    apply (appends_method request.method).bind
    intro builder
    apply (appends_literal " " (by decide)).bind
    intro builder
    apply (appends_string hendpoint).bind
    intro builder
    apply (appends_literal " " (by decide)).bind
    intro builder
    apply (appends_version hversion).bind
    intro builder
    apply (appends_literal "\r\n" (by decide)).bind
    intro builder
    exact (appends_entries hended).bind fun builder => appends_literal "\r\n" (by decide)
  obtain ⟨j, builder', hbuilt, hroom', hcapacity, hbytes⟩ := happends total hroom
    (by rwa [hempty, List.length_nil, Nat.zero_add])
  rw [hempty, List.nil_append] at hbytes
  refine ⟨j, builder', ?_, hroom', hcapacity, hbytes⟩
  have hpointer := congrArg (· >>= fun builder => Except.ok (some builder)) hbuilt
  simp only [bind_assoc, bind_ok] at hpointer
  rw [httpRequestBuild, if_neg (not_not_intro hempty), hversion]
  simp only [hheaders.entries_eq, bind_ok]
  exact hpointer

private theorem addEntrySize_foldlM {sz : ℕ} (hended : ∀ entry ∈ entries, Ended entry) :
    entries.foldlM addEntrySize sz = .ok (sz + (entries.flatMap entryText).length) := by
  induction entries generalizing sz with
  | nil => rfl
  | cons entry entries ih =>
    obtain ⟨⟨hkey, hvalue⟩, hentries⟩ := List.forall_mem_cons.mp hended
    rw [List.foldlM_cons, addEntrySize, strlen, if_pos hkey, strlen, if_pos hvalue]
    simp only [bind_ok, ih hentries, List.flatMap_cons, List.length_append, entryText]
    refine congrArg Except.ok ?_
    have hcolon : (ascii ": ").length = 2 := rfl
    have hbreak : (ascii "\r\n").length = 2 := rfl
    omega

private theorem deduce_eq (hversion : httpVersionAsString request.version = some version)
    (hendpoint : 0 ∈ request.endpoint) (hheaders : Shows request.headers entries)
    (hended : ∀ entry ∈ entries, Ended entry) : httpRequestDeduceBuildSize request =
      .ok (((requestText request entries).length + 1) % 2 ^ 64) := by
  have hmethod : (cString (httpMethodAsString request.method)).length =
      httpMethodAsStrlen request.method := by
    cases request.method <;> rfl
  have hstring : (cString version).length = httpVersionAsStrlen request.version := by
    cases hcase : request.version <;> rw [hcase] at hversion <;> cases hversion <;> rfl
  rw [httpRequestDeduceBuildSize, strlen, if_pos hendpoint]
  simp only [bind_ok, hheaders.entries_eq, addEntrySize_foldlM hended, requestText, hversion,
    Option.getD_some, List.length_append, hmethod, hstring]
  have hspace : (ascii " ").length = 1 := rfl
  have hbreak : (ascii "\r\n").length = 2 := rfl
  rw [hspace, hbreak]
  refine congrArg Except.ok (congrArg (· % 2 ^ 64) ?_)
  omega

/-- The request that is built has the size that is deduced, less the null byte. -/
theorem httpRequestBuild_deduced (hversion : httpVersionAsString request.version = some version)
    (hendpoint : 0 ∈ request.endpoint) (hheaders : Shows request.headers entries)
    (hended : ∀ entry ∈ entries, Ended entry) (hempty : builder.bytes = [])
    (hroom : builder.Room (requestText request entries).length) :
    ∃ builder' n, httpRequestBuild request builder = .ok (some builder') ∧
      builder'.bytes = requestText request entries ∧
      httpRequestDeduceBuildSize request = .ok n ∧ builder'.bytes.length = n - 1 ∧ n ≠ 0 := by
  obtain ⟨-, builder', hbuilt, ⟨-, -, k, hneeded, hobject⟩, -, hbytes⟩ := request_built request
    hversion hendpoint hheaders hended hempty hroom le_rfl
  refine ⟨builder', _, hbuilt, hbytes, deduce_eq hversion hendpoint hheaders hended, ?_⟩
  have hlt : (requestText request entries).length + 1 < 2 ^ 64 := by
    unfold int64Max at hobject
    omega
  rw [hbytes, Nat.mod_eq_of_lt hlt]
  exact ⟨rfl, Nat.succ_ne_zero _⟩

end Build

/-- A request with a header whose value is empty, built where there is one byte. -/
theorem httpRequestBuild_deduced_empty :
    ∃ builder' n, httpRequestBuild ⟨.v1_1, .get, literal "",
        ⟨[⟨⟨literal "A", literal ""⟩, none⟩], some 0, some 0⟩⟩ ⟨1, []⟩ = .ok (some builder') ∧
      builder'.bytes = requestText ⟨.v1_1, .get, literal "",
        ⟨[⟨⟨literal "A", literal ""⟩, none⟩], some 0, some 0⟩⟩ [⟨literal "A", literal ""⟩] ∧
      httpRequestDeduceBuildSize ⟨.v1_1, .get, literal "",
        ⟨[⟨⟨literal "A", literal ""⟩, none⟩], some 0, some 0⟩⟩ = .ok n ∧
      builder'.bytes.length = n - 1 ∧ n ≠ 0 := by
  have hversion : httpVersionAsString .v1_1 = some (literal "HTTP/1.1") := rfl
  refine httpRequestBuild_deduced hversion (by decide) ?_ ?_ rfl ?_
  · exact ⟨[(0, ⟨literal "A", literal ""⟩)], ⟨⟨rfl, none, rfl, rfl⟩, rfl⟩, rfl⟩
  · exact List.forall_mem_singleton.mpr ⟨by decide, by decide⟩
  · exact ⟨Nat.one_pos, Nat.zero_le _, 5, by decide, by decide⟩

end Libromano.Http
