/- Which texts the response parser reads without leaving them. A value that is cut leads it behind
   the end. -/

import Libromano.Http.Cursor
import Mathlib.Data.List.TakeWhile

set_option autoImplicit false
set_option relaxedAutoImplicit false

namespace Libromano.Http

open Bytes

/-- Every value that begins in a header line is followed by a line break and something
more, and the arena has room for the strings. -/
inductive Ends : List UInt8 → Prop
  | short {t : List UInt8} : t.length ≤ 2 → Ends t
  | blank {t : List UInt8} : Ends (13 :: 10 :: t)
  | noColon {t : List UInt8} : 58 ∉ t → Ends t
  | noValue {name after : List UInt8} : 58 ∉ name → after.length ≤ 1 → Ends (name ++ 58 :: after)
  | line {name value rest : List UInt8} {sp lf : UInt8} : 58 ∉ name → 13 ∉ value → rest ≠ [] →
      Storable (copied name (58 :: sp :: (value ++ 13 :: lf :: rest))) →
      Storable (copied value (13 :: lf :: rest)) → Ends rest →
      Ends (name ++ 58 :: sp :: (value ++ 13 :: lf :: rest))

/-- A text in which a header line begins, with something behind the colon. -/
def Begins (t : List UInt8) : Prop := 2 < t.length ∧ t.take 2 ≠ [13, 10]

section Inversion

variable {name value rest after : List UInt8} {sp lf : UInt8}

private theorem Ends.exists_line (h : Ends (name ++ 58 :: sp :: after))
    (hbegins : Begins (name ++ 58 :: sp :: after)) (hname : 58 ∉ name) (hafter : after ≠ []) :
    ∃ value lf rest, after = value ++ 13 :: lf :: rest ∧ 13 ∉ value ∧ rest ≠ [] ∧
      Storable (copied name (58 :: sp :: after)) ∧ Storable (copied value (13 :: lf :: rest)) ∧
      Ends rest := by
  obtain ⟨hlong, hblank⟩ := hbegins
  generalize ht : name ++ 58 :: sp :: after = t at h hlong hblank
  cases h with
  | short hshort => omega
  | blank => simp at hblank
  | noColon hcolon => exact absurd (by rw [← ht]; simp) hcolon
  | noValue hname' hshort =>
    obtain ⟨-, rfl⟩ := first_unique hname hname' ht
    rcases after with _ | ⟨b, after⟩
    · exact absurd rfl hafter
    · simp at hshort
  | line hname' hvalue hrest hkey hstored hends =>
    obtain ⟨rfl, hsame⟩ := first_unique hname hname' ht
    obtain ⟨rfl, rfl⟩ := List.cons.inj hsame
    exact ⟨_, _, _, rfl, hvalue, hrest, hkey, hstored, hends⟩

end Inversion

section Content

variable {response : HTTPResponse} {before rest : List UInt8}

theorem parseContent_line {span : List UInt8} (hspan : 13 ∉ span) (hrest : rest ≠ []) :
    parseContent response (parserAt before (span ++ 13 :: 10 :: rest)) =
      .ok (true, { response with content := some (rest ++ [0]), contentSz := rest.length }) := by
  have hpos := List.length_pos_iff.mpr hrest
  have hbytes : bytesAt (before ++ span ++ [13, 10] ++ rest) (before ++ span ++ [13, 10]).length
      rest.length = .ok rest := by
    have hread := bytesAt_append (before ++ span ++ [13, 10]) rest [] rfl rfl
    rwa [List.append_nil] at hread
  have hsz : (parserAt (before ++ span ++ [13, 10]) rest).sz -
      (parserAt (before ++ span ++ [13, 10]) rest).current = rest.length := by
    rw [sz_parserAt]
    exact Nat.add_sub_cancel_left _ _
  have hinside : ¬(parserAt (before ++ span ++ [13, 10]) rest).sz ≤
      (parserAt (before ++ span ++ [13, 10]) rest).current := by
    omega
  rw [parseContent, skipCrlf_found hspan hrest, bind_ok]
  simp only [if_neg hinside, hsz]
  simp only [parserAt, hbytes]
  rfl

private theorem parseContent_returns (hrest : rest ≠ []) :
    ∃ r, parseContent response (parserAt before rest) = .ok r := by
  rcases skipCrlf_cases before hrest with ⟨span, after, rfl, hspan, hafter⟩ | hstop
  · exact ⟨_, parseContent_line hspan hafter⟩
  · rw [parseContent, hstop]
    exact ⟨_, rfl⟩

private theorem parseContent_end :
    parseContent response (parserAt before []) = .error .outOfBounds := by
  rw [parseContent, skipCrlf_end]
  rfl

private theorem parseContent_past (text : List UInt8) :
    parseContent response (parserPast text) = .error .outOfBounds := by
  rw [parseContent, skipCrlf_past]
  rfl

end Content

def finish (response : HTTPResponse) (reached : Option HTTPResponseParser × HTTPHeader) :
    Except Fault (Bool × HTTPResponse) :=
  match reached.1 with
  | none => .ok (false, { response with headers := reached.2 })
  | some parser => parseContent { response with headers := reached.2 } parser

theorem finish_some (response : HTTPResponse) (parser : HTTPResponseParser) (headers : HTTPHeader) :
    finish response (some parser, headers) = parseContent { response with headers } parser := rfl

theorem parseFields_eq (response : HTTPResponse) (parser : HTTPResponseParser) :
    parseFields response parser =
      parseHeaders (parser.sz + 1) parser response.headers >>= finish response := rfl

section Lines

variable {response : HTTPResponse} {headers : HTTPHeader} {before name value rest after : List UInt8}
  {sp lf : UInt8} {fuel : ℕ}

theorem parseHeaders_stop {parser : HTTPResponseParser} (h : parseKey parser = .ok none) :
    parseHeaders (fuel + 1) parser headers = .ok (some parser, headers) := by
  rw [parseHeaders, h]
  rfl

theorem parseHeaders_noColon (hbegins : Begins rest) (hcolon : 58 ∉ rest) :
    parseHeaders (fuel + 1) (parserAt before rest) headers = .ok (none, headers) := by
  rw [parseHeaders, parseKey_line hbegins.1 hbegins.2, parseSpan_missing hcolon]
  simp [parserPast]

theorem parseHeaders_noValue (hbegins : Begins (name ++ 58 :: after)) (hcolon : 58 ∉ name)
    (hafter : after.length ≤ 1) :
    parseHeaders (fuel + 1) (parserAt before (name ++ 58 :: after)) headers = .ok (none, headers) := by
  rw [parseHeaders, parseKey_line hbegins.1 hbegins.2]
  rcases after with _ | ⟨sp, _ | ⟨b, after⟩⟩
  · rw [parseSpan_last hcolon]
    simp [parserPast]
  · rw [parseSpan_found hcolon]
    simp [parserAt]
  · simp at hafter

private theorem parseHeaders_value {span : Span} {parser : HTTPResponseParser}
    (hbegins : Begins (name ++ 58 :: sp :: after)) (hcolon : 58 ∉ name) (hafter : after ≠ [])
    (hvalue : parseValue (parserAt (before ++ name ++ [58, sp]) after) = .ok (span, parser)) :
    parseHeaders (fuel + 1) (parserAt before (name ++ 58 :: sp :: after)) headers =
      httpHeaderAddEntry headers (name ++ 58 :: sp :: after) name.length span.start span.size >>=
        fun headers => parseHeaders fuel parser headers := by
  have hpos := List.length_pos_iff.mpr hafter
  rw [parseHeaders, parseKey_line hbegins.1 hbegins.2, parseSpan_found hcolon]
  simp only [bind_ok]
  rw [if_neg (by simp [parserAt]; omega), hvalue]
  rfl

private theorem httpHeaderAddEntry_eq (headers : HTTPHeader) (name after value rest : List UInt8)
    (hafter : 0 ∈ after) (hrest : 0 ∈ rest) :
    httpHeaderAddEntry headers (name ++ after) name.length (value ++ rest) value.length =
      if Storable (copied name after) ∧ Storable (copied value rest) then
        .ok (headers.link ⟨copied name after ++ [0], copied value rest ++ [0]⟩)
      else .error .arenaOverrun := by
  rw [httpHeaderAddEntry, internalString_eq name hafter, internalString_eq value hrest]
  by_cases hkey : Storable (copied name after)
  · by_cases hvalue : Storable (copied value rest)
    · simp [hkey, hvalue]
    · simp [hkey, hvalue]
  · simp [hkey]

theorem parseHeaders_line (headers : HTTPHeader) (before : List UInt8) (fuel : ℕ)
    (hbegins : Begins (name ++ 58 :: sp :: (value ++ 13 :: lf :: rest)))
    (hcolon : 58 ∉ name) (hcr : 13 ∉ value) (hnull : 0 ∈ lf :: rest) :
    parseHeaders (fuel + 1) (parserAt before (name ++ 58 :: sp :: (value ++ 13 :: lf :: rest)))
        headers =
      if Storable (copied name (58 :: sp :: (value ++ 13 :: lf :: rest))) ∧
          Storable (copied value (13 :: lf :: rest)) then
        parseHeaders fuel
          (parserAt (before ++ (name ++ 58 :: sp :: (value ++ [13, lf]))) rest)
          (headers.link ⟨copied name (58 :: sp :: (value ++ 13 :: lf :: rest)) ++ [0],
            copied value (13 :: lf :: rest) ++ [0]⟩)
      else .error .arenaOverrun := by
  have hplace : before ++ name ++ [58, sp] ++ value ++ [13, lf] =
      before ++ (name ++ 58 :: sp :: (value ++ [13, lf])) := by simp
  have hadd := httpHeaderAddEntry_eq headers name (58 :: sp :: (value ++ 13 :: lf :: rest)) value
    (13 :: lf :: rest) (by simp [List.mem_cons.mp hnull]) (List.mem_cons_of_mem _ hnull)
  rw [parseHeaders_value hbegins hcolon (by simp) (parseSpan_found hcr), hplace]
  simp only [hadd]
  split_ifs
  · rfl
  · rfl

end Lines

private theorem getLast?_after (span : List UInt8) {after : List UInt8}
    (h : (span ++ after).getLast? = some 0)
    (hafter : after ≠ []) : after.getLast? = some 0 := by
  rwa [List.getLast?_append_of_ne_nil _ hafter] at h

theorem parseKey_notBegins {before t : List UInt8} (h : ¬Begins t) :
    parseKey (parserAt before t) = .ok none ∧ Ends t := by
  by_cases hshort : t.length ≤ 2
  · exact ⟨parseKey_short hshort, .short hshort⟩
  · have hblank : t.take 2 = [13, 10] := by
      by_contra hne
      exact h ⟨Nat.lt_of_not_le hshort, hne⟩
    rw [← List.take_append_drop 2 t, hblank]
    exact ⟨parseKey_blank, .blank⟩

section Values

variable {response : HTTPResponse} {headers : HTTPHeader} {before name value rest after : List UInt8}
  {sp lf : UInt8} {fuel : ℕ}

private theorem finish_past (text : List UInt8) : ∀ r,
    parseHeaders (fuel + 1) (parserPast text) headers >>= finish response ≠ .ok r := by
  intro r
  rw [parseHeaders_stop (parseKey_past text), bind_ok, finish_some, parseContent_past]
  intro h
  cases h

theorem finish_end : ∀ r,
    parseHeaders (fuel + 1) (parserAt before []) headers >>= finish response ≠ .ok r := by
  intro r
  rw [parseHeaders_stop (parseKey_short (by simp)), bind_ok, finish_some, parseContent_end]
  intro h
  cases h

theorem cutValue_not_returns (hbegins : Begins (name ++ 58 :: sp :: after)) (hcolon : 58 ∉ name)
    (hafter : after ≠ []) (hcr : 13 ∉ after) : ∀ r,
    parseHeaders (fuel + 2) (parserAt before (name ++ 58 :: sp :: after)) headers >>=
      finish response ≠ .ok r := by
  intro r hr
  rw [parseHeaders_value hbegins hcolon hafter (parseSpan_missing hcr)] at hr
  obtain ⟨reached, hreached, hfinish⟩ := bind_eq_ok.mp hr
  obtain ⟨headers', -, hloop⟩ := bind_eq_ok.mp hreached
  refine finish_past _ r (bind_eq_ok.mpr ⟨reached, hloop, hfinish⟩)

private theorem line_returns_iff (hbegins : Begins (name ++ 58 :: sp :: (value ++ 13 :: lf :: rest)))
    (hcolon : 58 ∉ name) (hcr : 13 ∉ value) (hnull : 0 ∈ lf :: rest)
    (ih : rest ≠ [] → ∀ before headers,
      (∃ r, parseHeaders (fuel + 1) (parserAt before rest) headers >>= finish response = .ok r) ↔
        Ends rest) :
    (∃ r, parseHeaders (fuel + 2) (parserAt before (name ++ 58 :: sp :: (value ++ 13 :: lf :: rest)))
        headers >>= finish response = .ok r) ↔
      Ends (name ++ 58 :: sp :: (value ++ 13 :: lf :: rest)) := by
  rw [parseHeaders_line _ _ _ hbegins hcolon hcr hnull]
  constructor
  · rintro ⟨r, hr⟩
    by_cases hstored : Storable (copied name (58 :: sp :: (value ++ 13 :: lf :: rest))) ∧
        Storable (copied value (13 :: lf :: rest))
    · rw [if_pos hstored] at hr
      by_cases hrest : rest = []
      · subst hrest
        exact absurd hr (finish_end r)
      · exact .line hcolon hcr hrest hstored.1 hstored.2 ((ih hrest _ _).mp ⟨r, hr⟩)
    · rw [if_neg hstored] at hr
      cases hr
  · intro hends
    obtain ⟨value', lf', rest', hafter, hcr', hrest, hkey, hvalue, hends⟩ :=
      hends.exists_line hbegins hcolon (by simp)
    obtain ⟨rfl, hsame⟩ := first_unique hcr hcr' hafter
    obtain ⟨rfl, rfl⟩ := List.cons.inj hsame
    rw [if_pos ⟨hkey, hvalue⟩]
    exact (ih hrest _ _).mpr hends

end Values

private theorem parseHeaders_returns_iff (response : HTTPResponse) (fuel : ℕ) {t : List UInt8}
    (hlast : t.getLast? = some 0) (hfuel : t.length < fuel) (before : List UInt8)
    (headers : HTTPHeader) :
    (∃ r, parseHeaders fuel (parserAt before t) headers >>= finish response = .ok r) ↔ Ends t := by
  induction fuel generalizing t before headers with
  | zero => omega
  | succ fuel ih =>
    have hne : t ≠ [] := by
      rintro rfl
      cases hlast
    by_cases hbegins : Begins t
    · by_cases hcolon : 58 ∈ t
      · obtain ⟨name, after, rfl, hname⟩ := List.eq_append_cons_of_mem hcolon
        by_cases hvalue : after.length ≤ 1
        · rw [parseHeaders_noValue hbegins hname hvalue]
          exact iff_of_true ⟨_, rfl⟩ (.noValue hname hvalue)
        · obtain ⟨sp, after, rfl⟩ : ∃ sp after', after = sp :: after' := by
            rcases after with _ | ⟨sp, after⟩
            · simp at hvalue
            · exact ⟨sp, after, rfl⟩
          have hafter : after ≠ [] := by
            rintro rfl
            simp at hvalue
          obtain ⟨fuel, rfl⟩ : ∃ n, fuel = n + 1 := ⟨fuel - 1, by simp at hfuel; omega⟩
          by_cases hcr : 13 ∈ after
          · obtain ⟨value, after, rfl, hspan⟩ := List.eq_append_cons_of_mem hcr
            rcases after with _ | ⟨lf, rest⟩
            · have hsplit : name ++ 58 :: sp :: (value ++ [13]) = (name ++ 58 :: sp :: value) ++ [13] := by
                simp
              rw [hsplit, List.getLast?_concat] at hlast
              cases hlast
            · have hsplit : name ++ 58 :: sp :: (value ++ 13 :: lf :: rest) =
                  (name ++ 58 :: sp :: (value ++ [13])) ++ lf :: rest := by simp
              have hnull : 0 ∈ lf :: rest := by
                rw [hsplit] at hlast
                exact List.mem_of_getLast? (getLast?_after _ hlast (by simp))
              apply line_returns_iff hbegins hname hspan hnull
              intro hrest before headers
              have hlast' : ((name ++ 58 :: sp :: (value ++ [13, lf])) ++ rest).getLast? = some 0 := by
                simpa using hlast
              exact ih (getLast?_after _ hlast' hrest) (by simp at hfuel; omega) before headers
          · refine iff_of_false (fun ⟨r, hr⟩ => cutValue_not_returns hbegins hname hafter hcr r hr) ?_
            intro hends
            obtain ⟨value, lf, rest, rfl, -⟩ := hends.exists_line hbegins hname hafter
            exact hcr (by simp)
      · rw [parseHeaders_noColon hbegins hcolon]
        exact iff_of_true ⟨_, rfl⟩ (.noColon hcolon)
    · obtain ⟨hstop, hends⟩ := parseKey_notBegins hbegins
      rw [parseHeaders_stop hstop]
      exact iff_of_true (parseContent_returns hne) hends

private theorem mem_dropWhile {p : UInt8 → Bool} {c : UInt8} {text : List UInt8} (h : c ∈ text)
    (hc : p c = false) : c ∈ text.dropWhile p := by
  rw [← List.takeWhile_append_dropWhile (p := p) (l := text), List.mem_append] at h
  rcases h with h | h
  · rw [List.mem_takeWhile_imp h] at hc
    cases hc
  · exact h

private theorem readDigits_returns {text : List UInt8} (h : 0 ∈ text) (negative : Bool) :
    ∃ value, readDigits negative text = .ok value := by
  have hlt : (text.takeWhile Foundation.Decimal.isDigit).length < text.length := by
    have hpos := List.length_pos_of_mem (mem_dropWhile (p := Foundation.Decimal.isDigit) h rfl)
    have hsum := congrArg List.length
      (List.takeWhile_append_dropWhile (p := Foundation.Decimal.isDigit) (l := text))
    rw [List.length_append] at hsum
    omega
  rw [readDigits]
  simp only [if_pos hlt]
  exact ⟨_, rfl⟩

theorem atoi_returns {text : List UInt8} (h : 0 ∈ text) : ∃ value, atoi text = .ok value := by
  have hdrop := mem_dropWhile (p := isspace) h rfl
  rw [atoi]
  split
  · rename_i rest hrest
    rw [hrest] at hdrop
    exact readDigits_returns (by simpa using hdrop) true
  · rename_i rest hrest
    rw [hrest] at hdrop
    exact readDigits_returns (by simpa using hdrop) false
  · exact readDigits_returns hdrop false

section Status

variable {response : HTTPResponse} {before line reason rest t : List UInt8} {code : ℤ}

theorem httpResponseParse_invalid (hversion : httpVersionFromString rest = .invalid) :
    httpResponseParse response rest = .ok (false, { response with version := .invalid }) := by
  rw [httpResponseParse, hversion]
  rfl

theorem httpResponseParse_noSpace (hversion : httpVersionFromString rest ≠ .invalid)
    (hspace : 32 ∉ rest) (hrest : rest ≠ []) : httpResponseParse response rest =
      .ok (false, { response with version := httpVersionFromString rest }) := by
  rw [httpResponseParse, if_neg hversion]
  change (skipWhitespace (parserAt [] rest) >>= _) = _
  rw [skipWhitespace_missing hspace hrest]
  rfl

theorem httpResponseParse_space (hversion : httpVersionFromString (line ++ 32 :: rest) ≠ .invalid)
    (hline : 32 ∉ line) (hrest : rest ≠ []) : httpResponseParse response (line ++ 32 :: rest) =
      parseCode { response with version := httpVersionFromString (line ++ 32 :: rest) }
        (parserAt (line ++ [32]) rest) := by
  rw [httpResponseParse, if_neg hversion]
  change (skipWhitespace (parserAt [] (line ++ 32 :: rest)) >>= _) = _
  rw [skipWhitespace_found hline hrest]
  rfl

private theorem drop_parserAt :
    (parserAt before rest).start.drop (parserAt before rest).current = rest :=
  List.drop_left

theorem parseCode_stop (hcode : atoi rest = .ok code)
    (hstop : skipCrlf (parserAt before rest) = .ok none) :
    parseCode response (parserAt before rest) = .ok (false, { response with code }) := by
  rw [parseCode, drop_parserAt, hcode, bind_ok, hstop]
  rfl

theorem parseCode_line (hcode : atoi (reason ++ 13 :: 10 :: t) = .ok code) (hreason : 13 ∉ reason)
    (ht : t ≠ []) : parseCode response (parserAt before (reason ++ 13 :: 10 :: t)) =
      parseFields { response with code } (parserAt (before ++ reason ++ [13, 10]) t) := by
  rw [parseCode, drop_parserAt, hcode, bind_ok, skipCrlf_found hreason ht]
  rfl

end Status

/-- If the version and the status line are accepted, the text behind the status line
ends well. -/
def Readable (s : List UInt8) : Prop :=
  httpVersionFromString s ≠ .invalid → ∀ line reason t,
    s = line ++ 32 :: (reason ++ 13 :: 10 :: t) → 32 ∉ line → 13 ∉ reason → Ends t

theorem exists_parse_iff {s : List UInt8} (hlast : s.getLast? = some 0)
    (response : HTTPResponse) : (∃ r, httpResponseParse response s = .ok r) ↔ Readable s := by
  have hne : s ≠ [] := by
    rintro rfl
    cases hlast
  by_cases hversion : httpVersionFromString s = .invalid
  · rw [httpResponseParse_invalid hversion]
    exact iff_of_true ⟨_, rfl⟩ fun h => absurd hversion h
  by_cases hspace : 32 ∈ s
  · obtain ⟨line, rest, rfl, hline⟩ := List.eq_append_cons_of_mem hspace
    have hrest : rest ≠ [] := by
      rintro rfl
      rw [List.getLast?_concat] at hlast
      cases hlast
    have hlast' : rest.getLast? = some 0 :=
      getLast?_after (line ++ [32]) (by simpa using hlast) hrest
    obtain ⟨code, hcode⟩ := atoi_returns (List.mem_of_getLast? hlast')
    rw [httpResponseParse_space hversion hline hrest]
    rcases skipCrlf_cases (line ++ [32]) hrest with ⟨reason, t, rfl, hreason, ht⟩ | hstop
    · have hlast'' : t.getLast? = some 0 :=
        getLast?_after (reason ++ [13, 10]) (by simpa using hlast') ht
      have hfields := parseHeaders_returns_iff { response with
          version := httpVersionFromString (line ++ 32 :: (reason ++ 13 :: 10 :: t)), code }
        ((parserAt (line ++ [32] ++ reason ++ [13, 10]) t).sz + 1) hlast''
        (by simp [parserAt]; omega) (line ++ [32] ++ reason ++ [13, 10]) response.headers
      rw [parseCode_line hcode hreason ht, parseFields_eq]
      refine hfields.trans ⟨fun hends _ line' reason' t' hs hline' hreason' => ?_, fun h =>
        h hversion line reason t rfl hline hreason⟩
      obtain ⟨-, hsame⟩ := first_unique hline hline' hs
      obtain ⟨-, hsame'⟩ := first_unique hreason hreason' hsame
      exact (List.cons.inj hsame').2 ▸ hends
    · rw [parseCode_stop hcode hstop]
      refine iff_of_true ⟨_, rfl⟩ fun _ line' reason t hs hline' hreason => ?_
      obtain ⟨-, rfl⟩ := first_unique hline hline' hs
      have ht : t ≠ [] := by
        rintro rfl
        rw [show reason ++ [13, 10] = (reason ++ [13]) ++ [10] by simp, List.getLast?_concat] at hlast'
        cases hlast'
      rw [skipCrlf_found hreason ht] at hstop
      cases hstop
  · rw [httpResponseParse_noSpace hversion hspace hne]
    refine iff_of_true ⟨_, rfl⟩ fun _ line reason t hs => ?_
    rw [hs] at hspace
    simp at hspace

theorem httpResponseParse_returns_iff {s : List UInt8} (hlast : s.getLast? = some 0)
    (response : HTTPResponse) : (∃ r, httpResponseParse response s = .ok r) ↔ Readable s :=
  exists_parse_iff hlast response

/-- A response with one header line and no content. -/
theorem httpResponseParse_returns_iff_line :
    (∃ r, httpResponseParse (httpResponseInit .invalid)
      (ascii "HTTP/1.1 200 OK\r\nA: b\r\n\r\n" ++ [0]) = .ok r) ↔
    Readable (ascii "HTTP/1.1 200 OK\r\nA: b\r\n\r\n" ++ [0]) :=
  httpResponseParse_returns_iff rfl (httpResponseInit .invalid)

/-- A response that is cut in the value of its header line. -/
theorem httpResponseParse_not_returns : ¬∀ (s : List UInt8) (response : HTTPResponse),
    s.getLast? = some 0 → ∃ r, httpResponseParse response s = .ok r := by
  intro h
  obtain ⟨r, hr⟩ := h (ascii "HTTP/1.1 200 OK\r\nA: b" ++ [0]) (httpResponseInit .invalid) rfl
  cases hr

end Libromano.Http
