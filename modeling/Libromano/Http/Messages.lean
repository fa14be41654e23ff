/- Well-formed responses, and what the parser makes of them. A value without a byte is measured
   again by the function that adds it, up to the next null byte. -/

import Libromano.Http.Reading

set_option autoImplicit false
set_option relaxedAutoImplicit false

namespace Libromano.Http

open Bytes
open Foundation.Decimal (isDigit readOn)

/-- A header: a name and a value. -/
structure Field where
  name : List UInt8
  value : List UInt8
  name_ne : name ≠ []
  name_clean : ∀ c ∈ name, c ≠ 58 ∧ c ≠ 13 ∧ c ≠ 10 ∧ c ≠ 0
  value_clean : ∀ c ∈ value, c ≠ 13 ∧ c ≠ 10 ∧ c ≠ 0

/-- A response with its status line, its headers and its body. -/
structure Message where
  digits : List UInt8
  reason : List UInt8
  fields : List Field
  body : List UInt8
  digits_ne : digits ≠ []
  digits_decimal : ∀ c ∈ digits, isDigit c = true
  code_lt : readOn 0 digits < 2 ^ 31
  reason_clean : ∀ c ∈ reason, c ≠ 13 ∧ c ≠ 10 ∧ c ≠ 0

namespace Field

variable (f : Field)

/-- `name: value` with its line break. -/
def line : List UInt8 := f.name ++ 58 :: 32 :: (f.value ++ [13, 10])

/-- The entry that a header is to become. -/
def entry : HTTPHeaderEntry := ⟨f.name ++ [0], f.value ++ [0]⟩

theorem colon_not_mem : 58 ∉ f.name := fun h => (f.name_clean 58 h).1 rfl

theorem cr_not_mem : 13 ∉ f.value := fun h => (f.value_clean 13 h).1 rfl

theorem begins (after : List UInt8) : Begins (f.line ++ after) := by
  obtain ⟨c, name, hname⟩ := List.exists_cons_of_ne_nil f.name_ne
  have hc : c ≠ 13 := (f.name_clean c (by simp [hname])).2.1
  constructor
  · simp [line]
    omega
  · intro htake
    rw [line, hname] at htake
    exact hc (List.cons.inj htake).1

theorem line_append (after : List UInt8) :
    f.line ++ after = f.name ++ 58 :: 32 :: (f.value ++ 13 :: 10 :: after) := by simp [line]

end Field

def linesOf (fields : List Field) : List UInt8 := fields.flatMap Field.line

namespace Message

variable (m : Message)

def statusLine : List UInt8 := ascii "HTTP/1.1" ++ 32 :: (m.digits ++ 32 :: (m.reason ++ [13, 10]))

/-- Everything up to the blank line, with that line. -/
def head : List UInt8 := m.statusLine ++ (linesOf m.fields ++ [13, 10])

def text : List UInt8 := m.head ++ m.body

def code : ℕ := readOn 0 m.digits

end Message

def entriesOf : List Field → List UInt8 → List HTTPHeaderEntry
  | [], _ => []
  | f :: fields, content =>
    ⟨f.name ++ [0], copied f.value (13 :: 10 :: (linesOf fields ++ 13 :: 10 :: content)) ++ [0]⟩ ::
      entriesOf fields content

def Roomy : List Field → List UInt8 → Prop
  | [], _ => True
  | f :: fields, content => Storable f.name ∧
      Storable (copied f.value (13 :: 10 :: (linesOf fields ++ 13 :: 10 :: content))) ∧
      Roomy fields content

section Lines

variable {f : Field} {fields : List Field} {content before : List UInt8} {headers : HTTPHeader}
  {entries : List HTTPHeaderEntry} {fuel : ℕ}

private theorem linesOf_nil : linesOf [] = [] := rfl

theorem linesOf_cons (content : List UInt8) : linesOf (f :: fields) ++ 13 :: 10 :: content =
    f.line ++ (linesOf fields ++ 13 :: 10 :: content) := by
  rw [linesOf, List.flatMap_cons, List.append_assoc]
  rfl

private theorem parseHeaders_field (hnull : 0 ∈ content) :
    parseHeaders (fuel + 1) (parserAt before (linesOf (f :: fields) ++ 13 :: 10 :: content)) headers =
      if Storable f.name ∧
          Storable (copied f.value (13 :: 10 :: (linesOf fields ++ 13 :: 10 :: content))) then
        parseHeaders fuel (parserAt (before ++ f.line) (linesOf fields ++ 13 :: 10 :: content))
          (headers.link ⟨f.name ++ [0],
            copied f.value (13 :: 10 :: (linesOf fields ++ 13 :: 10 :: content)) ++ [0]⟩)
      else .error .arenaOverrun := by
  have hbegins := f.begins (linesOf fields ++ 13 :: 10 :: content)
  rw [Field.line_append] at hbegins
  have hline := parseHeaders_line headers before fuel hbegins
    f.colon_not_mem f.cr_not_mem (by simp [hnull])
  rw [copied_of_ne f.name_ne] at hline
  rw [linesOf_cons, Field.line_append, hline]
  rfl

private theorem parseHeaders_fields (hroom : Roomy fields content) (hnull : 0 ∈ content)
    (hfuel : fields.length < fuel) (h : Shows headers entries) :
    ∃ headers', parseHeaders fuel (parserAt before (linesOf fields ++ 13 :: 10 :: content)) headers =
        .ok (some (parserAt (before ++ linesOf fields) (13 :: 10 :: content)), headers') ∧
      Shows headers' (entries ++ entriesOf fields content) := by
  obtain ⟨fuel, rfl⟩ : ∃ n, fuel = n + 1 := ⟨fuel - 1, by omega⟩
  induction fields generalizing before headers entries fuel with
  | nil =>
    refine ⟨headers, ?_, ?_⟩
    · rw [linesOf_nil, List.nil_append, List.append_nil, parseHeaders_stop parseKey_blank]
    · rwa [entriesOf, List.append_nil]
  | cons f fields ih =>
    obtain ⟨hname, hvalue, hroom⟩ := hroom
    obtain ⟨fuel, rfl⟩ : ∃ n, fuel = n + 1 := ⟨fuel - 1, by simp at hfuel; omega⟩
    obtain ⟨headers', hloop, hshows⟩ := ih hroom h.link fuel
      (by simpa using hfuel)
    rw [parseHeaders_field hnull, if_pos ⟨hname, hvalue⟩]
    refine ⟨headers', hloop.trans ?_, ?_⟩
    · rw [List.append_assoc, linesOf, linesOf, List.flatMap_cons]
    · rw [List.append_assoc] at hshows
      exact hshows

private theorem parseHeaders_overrun (hroom : ¬Roomy fields content) (hnull : 0 ∈ content)
    (hfuel : fields.length < fuel) :
    parseHeaders fuel (parserAt before (linesOf fields ++ 13 :: 10 :: content)) headers =
      .error .arenaOverrun := by
  obtain ⟨fuel, rfl⟩ : ∃ n, fuel = n + 1 := ⟨fuel - 1, by omega⟩
  induction fields generalizing before headers fuel with
  | nil => exact absurd trivial hroom
  | cons f fields ih =>
    obtain ⟨fuel, rfl⟩ : ∃ n, fuel = n + 1 := ⟨fuel - 1, by simp at hfuel; omega⟩
    rw [parseHeaders_field hnull]
    split_ifs with hstored
    · exact ih (fun hrest => hroom ⟨hstored.1, hstored.2, hrest⟩) fuel (by simpa using hfuel)
    · rfl

end Lines

section Text

variable {m : Message} {response : HTTPResponse} {content : List UInt8}

private theorem atoi_digit {d : UInt8} (hd : isDigit d = true) (rest : List UInt8) :
    atoi (d :: rest) = readDigits false (d :: rest) := by
  have hspace : isspace d = false := by
    simp only [isDigit, Bool.and_eq_true, decide_eq_true_eq] at hd
    simp only [isspace, Bool.or_eq_false_iff, beq_eq_false_iff_ne, decide_eq_false_iff_not, Bool.and_eq_false_iff,
      UInt8.le_iff_toNat_le]
    refine ⟨?_, .inr ?_⟩
    · rintro rfl
      exact absurd hd.1 (by decide)
    · rw [show (13 : UInt8).toNat = 13 from rfl]
      omega
  rw [atoi, List.dropWhile_cons_of_neg (by simp [hspace])]
  split
  · rename_i hsign
    rw [(List.cons.inj hsign).1] at hd
    cases hd
  · rename_i hsign
    rw [(List.cons.inj hsign).1] at hd
    cases hd
  · rfl

private theorem clampLong_code (m : Message) : (clampLong (m.code : ℤ)).bmod (2 ^ 32) = m.code := by
  have hlt := m.code_lt
  rw [← Message.code] at hlt
  have hclamp : clampLong (m.code : ℤ) = m.code := by
    rw [clampLong]
    omega
  rw [hclamp]
  exact Int.bmod_eq_of_le (by omega) (by omega)

private theorem atoi_digits (m : Message) {c : UInt8} (hc : isDigit c = false) (rest : List UInt8) :
    atoi (m.digits ++ c :: rest) = .ok m.code := by
  obtain ⟨d, digits, hdigits⟩ := List.exists_cons_of_ne_nil m.digits_ne
  have hd : isDigit d = true := m.digits_decimal d (by simp [hdigits])
  have htake : (m.digits ++ c :: rest).takeWhile isDigit = m.digits := by
    rw [List.takeWhile_append_of_pos m.digits_decimal, List.takeWhile_cons_of_neg (by simp [hc]),
      List.append_nil]
  have hatoi : atoi (m.digits ++ c :: rest) = readDigits false (m.digits ++ c :: rest) := by
    rw [hdigits]
    exact atoi_digit hd _
  rw [hatoi, readDigits]
  simp only [htake]
  rw [if_pos (by simp), ← Message.code, if_neg (by simp), clampLong_code]

private theorem length_linesOf (fields : List Field) : fields.length ≤ (linesOf fields).length := by
  induction fields with
  | nil => rfl
  | cons f fields ih =>
    rw [linesOf, List.flatMap_cons, List.length_append, List.length_cons]
    have hpos : 0 < f.line.length := by simp [Field.line]
    rw [linesOf] at ih
    omega

private theorem fields_fuel (fields : List Field) (before content : List UInt8) : fields.length <
    (parserAt before (linesOf fields ++ 13 :: 10 :: content)).sz + 1 := by
  have hle := length_linesOf fields
  rw [sz_parserAt, List.length_append]
  omega

private theorem version_head (rest : List UInt8) :
    httpVersionFromString (ascii "HTTP/1.1" ++ rest) = .v1_1 := by
  have htake : (ascii "HTTP/1.1" ++ rest).take 5 = ascii "HTTP/" := rfl
  rw [httpVersionFromString, if_neg (by simp [ascii]), if_neg (not_not_intro htake)]
  rfl

theorem Message.head_append (m : Message) (content : List UInt8) :
    m.head ++ content = ascii "HTTP/1.1" ++ 32 :: (m.digits ++ 32 :: m.reason ++
      13 :: 10 :: (linesOf m.fields ++ 13 :: 10 :: content)) := by
  simp [Message.head, Message.statusLine]

theorem Message.cr_not_mem (m : Message) : 13 ∉ m.digits ++ 32 :: m.reason := by
  intro h
  rcases List.mem_append.mp h with hdigits | hreason
  · exact absurd (m.digits_decimal 13 hdigits) (by decide)
  · rcases List.mem_cons.mp hreason with h32 | hreason
    · cases h32
    · exact (m.reason_clean 13 hreason).1 rfl

private theorem httpResponseParse_head (m : Message) (response : HTTPResponse)
    (content : List UInt8) :
    ∃ before, httpResponseParse response (m.head ++ content) =
      parseFields { response with version := .v1_1, code := m.code }
        (parserAt before (linesOf m.fields ++ 13 :: 10 :: content)) := by
  have hversion : httpVersionFromString (m.head ++ content) = .v1_1 := by
    rw [m.head_append]
    exact version_head _
  have hcode := atoi_digits m (c := 32) rfl
    (m.reason ++ 13 :: 10 :: (linesOf m.fields ++ 13 :: 10 :: content))
  rw [m.head_append] at hversion ⊢
  have hvalid : httpVersionFromString (ascii "HTTP/1.1" ++ 32 :: (m.digits ++ 32 :: m.reason ++
      13 :: 10 :: (linesOf m.fields ++ 13 :: 10 :: content))) ≠ .invalid := by
    rw [hversion]
    decide
  rw [httpResponseParse_space hvalid (by decide) (by simp), hversion,
    parseCode_line (by simpa using hcode) m.cr_not_mem (by simp)]
  exact ⟨_, rfl⟩

theorem httpResponseParse_message {version : HTTPVersion} (hroom : Roomy m.fields content)
    (hnull : 0 ∈ content) :
    ∃ headers, httpResponseParse (httpResponseInit version) (m.head ++ content) =
        .ok (true, ⟨.v1_1, headers, m.code, some (content ++ [0]), content.length⟩) ∧
      Shows headers (entriesOf m.fields content) := by
  obtain ⟨before, hhead⟩ := httpResponseParse_head m (httpResponseInit version) content
  have hfuel := fields_fuel m.fields before content
  obtain ⟨headers, hloop, hshows⟩ := parseHeaders_fields hroom hnull hfuel
    shows_init
  refine ⟨headers, ?_, hshows⟩
  rw [hhead, parseFields_eq]
  change (parseHeaders _ _ httpHeaderInit >>= _) = _
  rw [hloop, bind_ok, finish_some]
  exact parseContent_line List.not_mem_nil (List.ne_nil_of_mem hnull)

theorem httpResponseParse_overrun (hroom : ¬Roomy m.fields content) (hnull : 0 ∈ content) :
    httpResponseParse response (m.head ++ content) = .error .arenaOverrun := by
  obtain ⟨before, hhead⟩ := httpResponseParse_head m response content
  have hfuel := fields_fuel m.fields before content
  rw [hhead, parseFields_eq, parseHeaders_overrun hroom hnull hfuel]
  rfl

end Text

section Stored

variable {fields : List Field} {content : List UInt8}

private theorem copied_value_iff (value after : List UInt8) :
    copied value (13 :: after) = value ↔ value ≠ [] := by
  constructor
  · rintro h rfl
    have hne : cString (13 :: after) ≠ [] := by
      rw [cString, List.takeWhile_cons_of_pos (by decide)]
      simp
    exact hne h
  · exact copied_of_ne

private theorem entriesOf_eq_iff :
    entriesOf fields content = fields.map Field.entry ↔ ∀ f ∈ fields, f.value ≠ [] := by
  induction fields with
  | nil => simp [entriesOf]
  | cons f fields ih =>
    rw [entriesOf, List.map_cons, List.cons.injEq, ih, List.forall_mem_cons, Field.entry,
      HTTPHeaderEntry.mk.injEq, List.append_left_inj, List.append_left_inj, copied_value_iff]
    simp

private theorem roomy_iff (h : ∀ f ∈ fields, f.value ≠ []) :
    Roomy fields content ↔ ∀ f ∈ fields, Storable f.name ∧ Storable f.value := by
  induction fields with
  | nil => simp [Roomy]
  | cons f fields ih =>
    obtain ⟨hf, hfields⟩ := List.forall_mem_cons.mp h
    rw [Roomy, copied_of_ne hf, ih hfields, List.forall_mem_cons, and_assoc]

end Stored

theorem httpResponseParse_text_iff (m : Message) (version : HTTPVersion) :
    (∃ response, httpResponseParse (httpResponseInit version) (m.text ++ [0]) =
        .ok (true, response) ∧ response.code = m.code ∧
      httpHeaderEntries response.headers = .ok (m.fields.map Field.entry)) ↔
    ∀ f ∈ m.fields, f.value ≠ [] ∧ Storable f.name ∧ Storable f.value := by
  have hnull : 0 ∈ m.body ++ [0] := by simp
  rw [Message.text, List.append_assoc]
  constructor
  · rintro ⟨response, hparse, -, hentries⟩
    have hroom : Roomy m.fields (m.body ++ [0]) := by
      by_contra hroom
      rw [httpResponseParse_overrun hroom hnull] at hparse
      cases hparse
    obtain ⟨headers, hmessage, hshows⟩ := httpResponseParse_message hroom hnull
    obtain rfl : response = _ := (Prod.mk.inj (Except.ok.inj (hparse.symm.trans hmessage))).2
    have hvalues := entriesOf_eq_iff.mp
      (Except.ok.inj (hshows.entries_eq.symm.trans hentries))
    intro f hf
    exact ⟨hvalues f hf, (roomy_iff hvalues).mp hroom f hf⟩
  · intro h
    have hvalues : ∀ f ∈ m.fields, f.value ≠ [] := fun f hf => (h f hf).1
    have hroom : Roomy m.fields (m.body ++ [0]) := (roomy_iff hvalues).mpr fun f hf => (h f hf).2
    obtain ⟨headers, hmessage, hshows⟩ := httpResponseParse_message hroom hnull
    rw [entriesOf_eq_iff.mpr hvalues] at hshows
    exact ⟨_, hmessage, rfl, hshows.entries_eq⟩

def emptyValue : Message where
  digits := ascii "200"
  reason := ascii "OK"
  fields := [⟨ascii "A", [], by decide, by simp [ascii], by simp⟩]
  body := []
  digits_ne := by decide
  digits_decimal := by simp [ascii]; decide
  code_lt := by decide
  reason_clean := by simp [ascii]

/-- The line break and what follows it become the value. -/
theorem httpResponseParse_not_text : ¬∀ (m : Message) (version : HTTPVersion),
    ∃ response, httpResponseParse (httpResponseInit version) (m.text ++ [0]) =
        .ok (true, response) ∧ response.code = m.code ∧
      httpHeaderEntries response.headers = .ok (m.fields.map Field.entry) := by
  intro h
  obtain ⟨response, hparse, -, hentries⟩ := h emptyValue .invalid
  obtain rfl : response = _ := (Prod.mk.inj (Except.ok.inj hparse)).2.symm
  revert hentries
  decide

end Libromano.Http
