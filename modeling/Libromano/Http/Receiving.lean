/- The response that a call receives. The loop takes the first short answer of `socket_recv` for
   the end of the response. -/

import Libromano.Http.Messages
import Libromano.Http.Sending

set_option autoImplicit false
set_option relaxedAutoImplicit false

namespace Libromano.Http

open Bytes

/-- The bytes that the loop receives: all up to the first short answer, with it. -/
def received : List (List UInt8) → List UInt8
  | [] => []
  | data :: recvs =>
    if data.length < httpResponseBufferSz then data else data ++ received recvs

/-- A way to cut a text into the answers of `socket_recv`. -/
structure Cuts (text : List UInt8) (recvs : List (List UInt8)) : Prop where
  flatten : recvs.flatten = text
  sized : ∀ data ∈ recvs, data ≠ [] ∧ data.length ≤ httpResponseBufferSz

section Loop

variable {recvs : List (List UInt8)} {buffer : Buffer} {text : List UInt8}

private theorem received_cons (data : List UInt8) (recvs : List (List UInt8)) :
    received (data :: recvs) =
      if data.length < httpResponseBufferSz then data else data ++ received recvs :=
  rfl

private theorem received_prefix (recvs : List (List UInt8)) :
    ∃ rest, recvs.flatten = received recvs ++ rest := by
  induction recvs with
  | nil => exact ⟨[], rfl⟩
  | cons data recvs ih =>
    rw [received_cons, List.flatten_cons]
    split_ifs
    · exact ⟨recvs.flatten, rfl⟩
    · obtain ⟨rest, hrest⟩ := ih
      exact ⟨rest, by rw [hrest, List.append_assoc]⟩

def asked (recvs : List (List UInt8)) : ℕ :=
  (received recvs).length / httpResponseBufferSz * httpResponseBufferSz + httpResponseBufferSz

private theorem asked_short {data : List UInt8} (h : data.length < httpResponseBufferSz) :
    asked (data :: recvs) = httpResponseBufferSz := by
  rw [asked, received_cons, if_pos h, Nat.div_eq_of_lt h]
  omega

private theorem asked_full {data : List UInt8} (h : data.length = httpResponseBufferSz) :
    asked (data :: recvs) = httpResponseBufferSz + asked recvs := by
  rw [asked, received_cons, if_neg (by omega), List.length_append, h, asked,
    Nat.add_div_left _ (by decide)]
  rw [httpResponseBufferSz]
  omega

private theorem receive_eq (hsized : ∀ data ∈ recvs, data.length ≤ httpResponseBufferSz)
    (hgrown : buffer.Grown) (hfits : buffer.bytes.length + asked recvs ≤ maxCapacity) :
    ∃ buffer', receive (recvs.map some) buffer = .ok (true, buffer') ∧ buffer'.Grown ∧
      buffer'.bytes = buffer.bytes ++ received recvs := by
  induction recvs generalizing buffer with
  | nil =>
    obtain ⟨grown, hresize, hgrown', hbytes, -⟩ := hgrown.checkResize (n := httpResponseBufferSz)
      (by simpa [asked, received] using hfits)
    refine ⟨grown, ?_, hgrown', by rw [hbytes, received, List.append_nil]⟩
    rw [List.map_nil, receive, hresize]
    rfl
  | cons data recvs ih =>
    obtain ⟨hdata, hrecvs⟩ := List.forall_mem_cons.mp hsized
    have hpart : httpResponseBufferSz ≤ asked (data :: recvs) := Nat.le_add_left _ _
    obtain ⟨grown, hresize, hgrown', hbytes, hroom⟩ :=
      hgrown.checkResize (n := httpResponseBufferSz) (by omega)
    obtain ⟨hwrite, hwritten⟩ := hgrown'.write data (by rw [hbytes]; omega)
    rw [List.map_cons, receive, hresize]
    simp only [bind_ok, hwrite]
    by_cases hshort : data.length < httpResponseBufferSz
    · rw [if_pos hshort]
      refine ⟨_, rfl, hwritten, ?_⟩
      rw [received_cons, if_pos hshort, hbytes]
    · rw [if_neg hshort]
      have hfull : data.length = httpResponseBufferSz := Nat.le_antisymm hdata (Nat.le_of_not_lt hshort)
      rw [asked_full hfull] at hfits
      obtain ⟨buffer', hreceive, hgrown'', hbytes'⟩ := ih hrecvs hwritten (by
        rw [List.length_append, hbytes, hfull]
        omega)
      refine ⟨buffer', hreceive, hgrown'', ?_⟩
      rw [hbytes', received_cons, if_neg hshort, hbytes, List.append_assoc]

private theorem receive_refused (hsized : ∀ data ∈ recvs, data.length ≤ httpResponseBufferSz)
    (hgrown : buffer.Grown) (hexceeds : maxCapacity < buffer.bytes.length + asked recvs) :
    ∃ buffer', receive (recvs.map some) buffer = .ok (false, buffer') := by
  induction recvs generalizing buffer with
  | nil =>
    have hnow : maxCapacity < buffer.bytes.length + httpResponseBufferSz := by
      simpa [asked, received] using hexceeds
    refine ⟨buffer, ?_⟩
    rw [List.map_nil, receive, hgrown.checkResize_none hnow]
    rfl
  | cons data recvs ih =>
    rw [List.map_cons, receive]
    by_cases hnow : maxCapacity < buffer.bytes.length + httpResponseBufferSz
    · refine ⟨buffer, ?_⟩
      rw [hgrown.checkResize_none hnow]
      rfl
    · obtain ⟨hdata, hrecvs⟩ := List.forall_mem_cons.mp hsized
      obtain ⟨grown, hresize, hgrown', hbytes, hroom⟩ :=
        hgrown.checkResize (n := httpResponseBufferSz) (Nat.le_of_not_lt hnow)
      obtain ⟨hwrite, hwritten⟩ := hgrown'.write data (by rw [hbytes]; omega)
      have hfull : ¬data.length < httpResponseBufferSz := by
        intro hshort
        rw [asked_short hshort] at hexceeds
        exact hnow hexceeds
      rw [asked_full (Nat.le_antisymm hdata (Nat.le_of_not_lt hfull))] at hexceeds
      obtain ⟨buffer', hreceive⟩ := ih hrecvs hwritten (by
        rw [List.length_append, hbytes]
        omega)
      refine ⟨buffer', ?_⟩
      rw [hresize]
      simp only [bind_ok, hwrite]
      rw [if_neg hfull, hreceive]

end Loop

private theorem asked_le_iff (recvs : List (List UInt8)) :
    asked recvs ≤ maxCapacity ↔ (received recvs).length < maxCapacity := by
  rw [asked, httpResponseBufferSz, maxCapacity]
  omega

section Headers

variable {headers headers' : HTTPHeader} {key value : List UInt8} {keySz valueSz fuel : ℕ}
  {parser : HTTPResponseParser} {reached : Option HTTPResponseParser} {body : List UInt8}
  {response response' : HTTPResponse} {result : Bool}

def Linked (header : HTTPHeader) : Prop := ∃ entries, Shows header entries

private theorem httpHeaderAddEntry_linked (h : Linked headers)
    (hadd : httpHeaderAddEntry headers key keySz value valueSz = .ok headers') : Linked headers' := by
  obtain ⟨entries, hshows⟩ := h
  obtain ⟨internalKey, -, hadd⟩ := bind_eq_ok.mp hadd
  obtain ⟨internalValue, -, hadd⟩ := bind_eq_ok.mp hadd
  obtain rfl := Except.ok.inj hadd
  exact ⟨_, hshows.link⟩

private theorem parseHeaders_linked (h : Linked headers)
    (hloop : parseHeaders fuel parser headers = .ok (reached, headers')) : Linked headers' := by
  induction fuel generalizing parser headers with
  | zero => cases hloop
  | succ fuel ih =>
    obtain ⟨key, -, hloop⟩ := bind_eq_ok.mp hloop
    rcases key with _ | ⟨key, parser'⟩
    · obtain ⟨-, rfl⟩ := Prod.mk.inj (Except.ok.inj hloop)
      exact h
    · simp only at hloop
      split_ifs at hloop
      · obtain ⟨-, rfl⟩ := Prod.mk.inj (Except.ok.inj hloop)
        exact h
      · obtain ⟨⟨value, parser''⟩, -, hloop⟩ := bind_eq_ok.mp hloop
        obtain ⟨added, hadd, hloop⟩ := bind_eq_ok.mp hloop
        exact ih (httpHeaderAddEntry_linked h hadd) hloop

private theorem parseContent_headers (h : parseContent response parser = .ok (result, response')) :
    response'.headers = response.headers := by
  obtain ⟨skipped, -, h⟩ := bind_eq_ok.mp h
  rcases skipped with _ | parser'
  · obtain ⟨-, rfl⟩ := Prod.mk.inj (Except.ok.inj h)
    rfl
  · simp only at h
    split_ifs at h
    · obtain ⟨-, rfl⟩ := Prod.mk.inj (Except.ok.inj h)
      rfl
    · obtain ⟨content, -, h⟩ := bind_eq_ok.mp h
      obtain ⟨-, rfl⟩ := Prod.mk.inj (Except.ok.inj h)
      rfl

private theorem parseFields_linked (h : Linked response.headers)
    (hparse : parseFields response parser = .ok (result, response')) : Linked response'.headers := by
  rw [parseFields_eq] at hparse
  obtain ⟨⟨reached, headers⟩, hloop, hfinish⟩ := bind_eq_ok.mp hparse
  have hlinked := parseHeaders_linked h hloop
  rcases reached with _ | parser'
  · obtain ⟨-, rfl⟩ := Prod.mk.inj (Except.ok.inj hfinish)
    exact hlinked
  · rw [finish_some] at hfinish
    rw [parseContent_headers hfinish]
    exact hlinked

private theorem httpResponseParse_linked (h : Linked response.headers)
    (hparse : httpResponseParse response body = .ok (result, response')) :
    Linked response'.headers := by
  by_cases hversion : httpVersionFromString body = .invalid
  · rw [httpResponseParse_invalid hversion] at hparse
    obtain ⟨-, rfl⟩ := Prod.mk.inj (Except.ok.inj hparse)
    exact h
  · rw [httpResponseParse, if_neg hversion] at hparse
    obtain ⟨skipped, -, hparse⟩ := bind_eq_ok.mp hparse
    rcases skipped with _ | parser
    · obtain ⟨-, rfl⟩ := Prod.mk.inj (Except.ok.inj hparse)
      exact h
    · obtain ⟨code, -, hparse⟩ := bind_eq_ok.mp hparse
      obtain ⟨skipped, -, hparse⟩ := bind_eq_ok.mp hparse
      rcases skipped with _ | parser'
      · obtain ⟨-, rfl⟩ := Prod.mk.inj (Except.ok.inj hparse)
        exact h
      · refine parseFields_linked ?_ hparse
        exact h

end Headers

/-- The request of a call on a live context is built and sent, so that the call comes
to its receiving part. -/
structure Sent (ctx : HTTPContext) (request : HTTPRequest) (sent : ℤ) : Prop where
  live : ctx.isAlive = true
  built : ∃ headers builder,
    httpHeaderAddEntry request.headers (literal "Host") 4 ctx.host 0 = .ok headers ∧
      httpRequestBuild { request with headers } (bufferReset ctx.builder) = .ok (some builder)
  positive : 0 < sent
  recvBuffer : ctx.recvBuffer.Grown

/-- What the caller sees of a call: its result and the response. -/
def answer (ctx : HTTPContext) (request : HTTPRequest) (version : HTTPVersion) (sent : ℤ)
    (recvs : List (List UInt8)) : Except Fault (Bool × HTTPResponse) := do
  let outcome ← httpContextSendRequest ctx request (httpResponseInit version) ⟨sent, recvs.map some⟩
  .ok (outcome.result, outcome.response)

section Call

variable {ctx : HTTPContext} {request : HTTPRequest} {version : HTTPVersion} {sent : ℤ}
  {recvs : List (List UInt8)} {outcome : Outcome}

private theorem readResponse_eq (outcome : Outcome) (hgrown : outcome.ctx.recvBuffer.Grown)
    (hresult : outcome.result = false) (hheaders : Linked outcome.response.headers)
    (hfits : outcome.ctx.recvBuffer.bytes.length + 1 ≤ maxCapacity) :
    readResponse outcome >>= (fun outcome => .ok (outcome.result, outcome.response)) =
      httpResponseParse outcome.response (outcome.ctx.recvBuffer.bytes ++ [0]) := by
  have hone : [(0 : UInt8)].length = 1 := rfl
  obtain ⟨buffer, happend, -, hbytes⟩ := hgrown.append [0] [] hone hfits
  rw [List.append_nil] at happend
  rw [readResponse, happend, bind_ok]
  simp only [hbytes]
  cases hparse : httpResponseParse outcome.response (outcome.ctx.recvBuffer.bytes ++ [0]) with
  | error e => rfl
  | ok parsed =>
    obtain ⟨result, response⟩ := parsed
    obtain ⟨entries, hshows⟩ := httpResponseParse_linked hheaders hparse
    cases result with
    | false => simp [hresult]
    | true => simp [httpHeaderFind, hshows.entries_eq]

private theorem answer_eq (hsent : Sent ctx request sent)
    (hsized : ∀ data ∈ recvs, data.length ≤ httpResponseBufferSz) :
    answer ctx request version sent recvs =
      if (received recvs).length < maxCapacity then
        httpResponseParse (httpResponseInit version) (received recvs ++ [0])
      else .ok (false, httpResponseInit version) := by
  obtain ⟨headers, builder, hadd, hbuild⟩ := hsent.built
  have hgrown := hsent.recvBuffer.reset
  rw [answer, httpContextSendRequest, if_neg (by simp [hsent.live]), hadd]
  simp only [bind_ok, hbuild]
  rw [if_neg (Int.not_le.mpr hsent.positive)]
  split_ifs with hfits
  · obtain ⟨buffer, hreceive, hgrown', hbytes⟩ := receive_eq hsized hgrown (by
      simpa [bufferReset] using (asked_le_iff recvs).mpr hfits)
    have hreset : (bufferReset ctx.recvBuffer).bytes = [] := rfl
    rw [hreset, List.nil_append] at hbytes
    have hread := readResponse_eq ⟨false,
        { ctx with builder, recvBuffer := buffer }, { request with headers },
        httpResponseInit version, some builder.bytes⟩ hgrown' rfl ⟨[], shows_init⟩
      (by rw [hbytes]; exact hfits)
    rw [hbytes] at hread
    rw [hreceive]
    exact hread
  · obtain ⟨buffer, hreceive⟩ := receive_refused hsized hgrown (by
      simpa [bufferReset] using (not_congr (asked_le_iff recvs)).mpr hfits)
    rw [hreceive]
    rfl

end Call

section Cut

variable {response : HTTPResponse} {headers : HTTPHeader} {before t q : List UInt8}
  {fields : List Field} {fuel : ℕ}

private theorem exists_snoc (span : List UInt8) {after : List UInt8} (h : t ++ [0] = span ++ after)
    (hafter : after ≠ []) : ∃ after', after = after' ++ [0] ∧ t = span ++ after' := by
  rcases List.eq_nil_or_concat' after with rfl | ⟨after', c, rfl⟩
  · exact absurd rfl hafter
  · rw [← List.append_assoc] at h
    obtain ⟨ht, hc⟩ := List.append_inj' h rfl
    exact ⟨after', by rw [hc], ht⟩

private theorem exists_snoc_cons {c : UInt8} {span after : List UInt8}
    (h : t ++ [0] = span ++ c :: after)
    (hafter : after ≠ []) : ∃ after', after = after' ++ [0] ∧ t = span ++ c :: after' := by
  obtain ⟨after', hsame, ht⟩ := exists_snoc (span ++ [c]) (by simpa using h) hafter
  exact ⟨after', hsame, by simpa using ht⟩

private theorem cut_notBegins (hcut : linesOf fields ++ [13, 10] = t ++ q) (hq : q ≠ [])
    (hbegins : ¬Begins (t ++ [0])) : ∀ r,
    parseContent response (parserAt before (t ++ [0])) ≠ .ok (true, r) := by
  intro r hr
  have hne : t ++ [0] ≠ [] := by simp
  rcases skipCrlf_cases before hne with ⟨span, after, ht, hspan, hafter⟩ | hstop
  · have hlong : 2 < (t ++ [0]).length := by
      have hpos := List.length_pos_iff.mpr hafter
      rw [ht]
      simp
      omega
    have hblank : (t ++ [0]).take 2 = [13, 10] := by
      by_contra hne
      exact hbegins ⟨hlong, hne⟩
    obtain ⟨t', rfl⟩ : ∃ t', t = 13 :: 10 :: t' := by
      rcases t with _ | ⟨c, _ | ⟨c', t⟩⟩
      · simp at hlong
      · simp at hlong
      · simp at hblank
        obtain ⟨rfl, rfl⟩ := hblank
        exact ⟨t, rfl⟩
    rcases fields with _ | ⟨f, fields⟩
    · simp [linesOf] at hcut
      exact hq hcut.2
    · have hfirst := (f.begins (linesOf fields ++ [13, 10])).2
      rw [← linesOf_cons, hcut] at hfirst
      exact hfirst rfl
  · rw [parseContent, hstop] at hr
    cases hr

private theorem cut_line {f : Field} (hcut : f.line ++ (linesOf fields ++ [13, 10]) = t ++ q)
    (hbegins : Begins (t ++ [0]))
    (ih : ∀ t' before headers, linesOf fields ++ [13, 10] = t' ++ q → t'.length < t.length →
      ∀ r, parseHeaders (fuel + 1) (parserAt before (t' ++ [0])) headers >>= finish response ≠
        .ok (true, r)) :
    ∀ r, parseHeaders (fuel + 2) (parserAt before (t ++ [0])) headers >>= finish response ≠
      .ok (true, r) := by
  intro r hr
  by_cases hcolon : 58 ∈ t ++ [0]
  · obtain ⟨name, after, ht, hname⟩ := List.eq_append_cons_of_mem hcolon
    rw [ht] at hr hbegins
    by_cases hvalue : after.length ≤ 1
    · rw [parseHeaders_noValue hbegins hname hvalue] at hr
      cases hr
    obtain ⟨sp, after, rfl⟩ : ∃ sp after', after = sp :: after' := by
      rcases after with _ | ⟨sp, after⟩
      · simp at hvalue
      · exact ⟨sp, after, rfl⟩
    have hafter : after ≠ [] := by
      rintro rfl
      simp at hvalue
    by_cases hcr : 13 ∈ after
    · obtain ⟨value, after, rfl, hspan⟩ := List.eq_append_cons_of_mem hcr
      rcases after with _ | ⟨lf, rest⟩
      · have hsplit : t ++ [0] = (name ++ 58 :: sp :: value) ++ [13] := by simp [ht]
        have hzero := (List.append_inj' hsplit rfl).2
        cases hzero
      · have hnull : 0 ∈ lf :: rest := by
          have hsplit : t ++ [0] = (name ++ 58 :: sp :: (value ++ [13])) ++ lf :: rest := by simp [ht]
          obtain ⟨after', hsame, -⟩ := exists_snoc _ hsplit (by simp)
          rw [hsame]
          simp
        rw [parseHeaders_line _ _ _ hbegins hname hspan hnull] at hr
        split_ifs at hr
        · by_cases hrest : rest = []
          · subst hrest
            exact finish_end _ hr
          · have hsplit : t ++ [0] = (name ++ 58 :: sp :: (value ++ [13, lf])) ++ rest := by simp [ht]
            obtain ⟨t', rfl, rfl⟩ := exists_snoc _ hsplit hrest
            have hwhole : f.name ++ 58 :: 32 :: (f.value ++ 13 :: 10 :: (linesOf fields ++ [13, 10])) =
                name ++ 58 :: sp :: (value ++ 13 :: lf :: (t' ++ q)) := by
              rw [← Field.line_append, hcut]
              simp
            obtain ⟨-, hsame⟩ := first_unique f.colon_not_mem hname hwhole
            obtain ⟨-, hsame'⟩ := first_unique f.cr_not_mem hspan (List.cons.inj hsame).2
            exact ih t' _ _ (List.cons.inj hsame').2 (by simp; omega) r hr
        · cases hr
    · exact cutValue_not_returns hbegins hname hafter hcr _ hr
  · rw [parseHeaders_noColon hbegins hcolon] at hr
    cases hr

private theorem cut_not_true (hcut : linesOf fields ++ [13, 10] = t ++ q) (hq : q ≠ [])
    (hfuel : t.length + 1 < fuel) : ∀ r,
    parseHeaders fuel (parserAt before (t ++ [0])) headers >>= finish response ≠ .ok (true, r) := by
  obtain ⟨fuel, rfl⟩ : ∃ n, fuel = n + 2 := ⟨fuel - 2, by omega⟩
  induction fields generalizing t before headers fuel with
  | nil =>
    intro r hr
    by_cases hbegins : Begins (t ++ [0])
    · have hcolon : 58 ∉ t ++ [0] := by
        intro hmem
        rcases List.mem_append.mp hmem with hmem | hmem
        · have hwhole : 58 ∈ linesOf [] ++ [13, 10] := hcut ▸ List.mem_append_left q hmem
          revert hwhole
          decide
        · revert hmem
          decide
      rw [parseHeaders_noColon hbegins hcolon] at hr
      cases hr
    · rw [parseHeaders_stop (parseKey_notBegins hbegins).1, bind_ok, finish_some] at hr
      exact cut_notBegins hcut hq hbegins _ hr
  | cons f fields ih =>
    by_cases hbegins : Begins (t ++ [0])
    · rw [linesOf_cons] at hcut
      apply cut_line hcut hbegins
      intro t' before headers hcut' hlt
      obtain ⟨fuel, rfl⟩ : ∃ n, fuel = n + 1 := ⟨fuel - 1, by omega⟩
      exact ih hcut' fuel (by omega)
    · intro r hr
      rw [parseHeaders_stop (parseKey_notBegins hbegins).1, bind_ok, finish_some] at hr
      exact cut_notBegins hcut hq hbegins _ hr

private theorem httpResponseParse_cut {m : Message} {p : List UInt8} (hcut : m.head = p ++ q)
    (hq : q ≠ []) :
    ∀ r, httpResponseParse response (p ++ [0]) ≠ .ok (true, r) := by
  intro r hr
  by_cases hversion : httpVersionFromString (p ++ [0]) = .invalid
  · rw [httpResponseParse_invalid hversion] at hr
    cases hr
  by_cases hspace : 32 ∈ p ++ [0]
  · obtain ⟨line, rest, hp, hline⟩ := List.eq_append_cons_of_mem hspace
    have hrest : rest ≠ [] := by
      rintro rfl
      have hzero := (List.append_inj' hp rfl).2
      cases hzero
    rw [hp] at hr hversion
    rw [httpResponseParse_space hversion hline hrest] at hr
    rcases skipCrlf_cases (line ++ [32]) hrest with ⟨reason, t, rfl, hreason, ht⟩ | hstop
    · have hsplit : p ++ [0] = (line ++ 32 :: (reason ++ [13, 10])) ++ t := by simp [hp]
      obtain ⟨t, rfl, rfl⟩ := exists_snoc _ hsplit ht
      obtain ⟨code, hcode⟩ : ∃ code, atoi (reason ++ 13 :: 10 :: (t ++ [0])) = .ok code :=
        atoi_returns (by simp)
      have hwhole : ascii "HTTP/1.1" ++ 32 :: (m.digits ++ 32 :: m.reason ++
          13 :: 10 :: (linesOf m.fields ++ [13, 10])) =
            line ++ 32 :: (reason ++ 13 :: 10 :: (t ++ q)) := by
        have hhead := m.head_append []
        rw [List.append_nil, hcut] at hhead
        rw [← hhead]
        simp
      obtain ⟨-, hsame⟩ := first_unique (by decide) hline hwhole
      obtain ⟨-, hsame'⟩ := first_unique m.cr_not_mem hreason hsame
      rw [parseCode_line hcode hreason ht, parseFields_eq] at hr
      exact cut_not_true (List.cons.inj hsame').2 hq (by simp [parserAt]; omega) r hr
    · obtain ⟨code, hcode⟩ : ∃ code, atoi rest = .ok code := by
        obtain ⟨after, rfl, -⟩ := exists_snoc_cons hp hrest
        exact atoi_returns (by simp)
      rw [parseCode_stop hcode hstop] at hr
      cases hr
  · rw [httpResponseParse_noSpace hversion hspace (by simp)] at hr
    cases hr

end Cut

/-- The call returns, and if it returns `true` the content is the body. -/
def Correct (m : Message) (answer : Except Fault (Bool × HTTPResponse)) : Prop :=
  ∃ result response, answer = .ok (result, response) ∧ (result = true →
    response.contentSz = m.body.length ∧
      ∃ content, response.content = some content ∧ content.take response.contentSz = m.body)

section Answers

variable {m : Message} {ctx : HTTPContext} {request : HTTPRequest} {version : HTTPVersion} {sent : ℤ}
  {recvs : List (List UInt8)}

private theorem not_correct_of_head (body : List UInt8) (hbody : 0 ∉ m.body) :
    ¬Correct m (httpResponseParse (httpResponseInit version) (m.head ++ (body ++ [0]))) := by
  rintro ⟨result, response, hparse, hcontent⟩
  by_cases hroom : Roomy m.fields (body ++ [0])
  · obtain ⟨headers, hmessage, -⟩ := httpResponseParse_message hroom
      (by simp : 0 ∈ body ++ [0])
    obtain ⟨rfl, rfl⟩ := Prod.mk.inj (Except.ok.inj (hparse.symm.trans hmessage))
    obtain ⟨-, content, hsome, htake⟩ := hcontent rfl
    obtain rfl := Option.some.inj hsome
    rw [List.take_left] at htake
    exact hbody (htake ▸ by simp)
  · rw [httpResponseParse_overrun hroom (by simp)] at hparse
    cases hparse

/-- What is received is correct exactly when it is cut in the head, at a place where the
parser does not leave it. -/
private theorem correct_parse_iff (hbody : 0 ∉ m.body) {p rest : List UInt8}
    (hp : m.text = p ++ rest) :
    Correct m (httpResponseParse (httpResponseInit version) (p ++ [0])) ↔
      p.length < m.head.length ∧ Readable (p ++ [0]) := by
  have hlast : (p ++ [0]).getLast? = some 0 := List.getLast?_concat
  have hwhole (body : List UInt8) (hp : p = m.head ++ body) :
      ¬Correct m (httpResponseParse (httpResponseInit version) (p ++ [0])) := by
    rw [hp, List.append_assoc]
    exact not_correct_of_head _ hbody
  rw [← exists_parse_iff hlast (httpResponseInit version)]
  rcases List.append_eq_append_iff.mp hp with ⟨body, hbody, -⟩ | ⟨q, hq, -⟩
  · refine iff_of_false (hwhole body hbody) fun h => absurd h.1 ?_
    rw [hbody, List.length_append]
    omega
  · by_cases hnil : q = []
    · subst hnil
      rw [List.append_nil] at hq
      refine iff_of_false (hwhole [] (by rw [hq, List.append_nil])) fun h => absurd h.1 ?_
      rw [hq]
      omega
    · constructor
      · rintro ⟨result, response, hparse, -⟩
        refine ⟨?_, _, hparse⟩
        have hpos := List.length_pos_iff.mpr hnil
        rw [hq, List.length_append]
        omega
      · rintro ⟨-, ⟨result, response⟩, hparse⟩
        refine ⟨result, response, hparse, fun htrue => ?_⟩
        rw [htrue] at hparse
        exact absurd hparse (httpResponseParse_cut hq hnil response)

/-- The first answer has `n` bytes, each of the others one. -/
def cutAt (n : ℕ) (text : List UInt8) : List (List UInt8) :=
  text.take n :: (text.drop n).map fun c => [c]

private theorem cuts_cutAt {n : ℕ} {text : List UInt8} (hn : 0 < n) (hle : n ≤ httpResponseBufferSz)
    (htext : text ≠ []) : Cuts text (cutAt n text) := by
  have hpos := List.length_pos_iff.mpr htext
  refine ⟨?_, ?_⟩
  · rw [cutAt, List.flatten_cons, ← List.flatMap_def, List.flatMap_singleton', List.take_append_drop]
  · intro data hdata
    rcases List.mem_cons.mp hdata with rfl | hdata
    · refine ⟨?_, ?_⟩
      · rw [← List.length_pos_iff, List.length_take]
        omega
      · rw [List.length_take]
        omega
    · obtain ⟨c, -, rfl⟩ := List.mem_map.mp hdata
      exact ⟨by simp, (by decide : 1 ≤ httpResponseBufferSz)⟩

private theorem received_cutAt {n : ℕ} {text : List UInt8} (hlt : n < httpResponseBufferSz) :
    received (cutAt n text) = text.take n := by
  have hshort : (text.take n).length < httpResponseBufferSz := by
    rw [List.length_take]
    omega
  rw [cutAt, received_cons, if_pos hshort]

private theorem answer_cutAt_one (hsent : Sent ctx request sent) :
    answer ctx request version sent (cutAt 1 m.text) =
      .ok (false, { httpResponseInit version with version := .invalid }) := by
  have hcuts := @cuts_cutAt 1 m.text (by omega) (by decide) (by simp [Message.text, Message.head])
  have htake : m.text.take 1 = [72] := by
    rw [Message.text, m.head_append]
    rfl
  rw [answer_eq hsent fun data hdata => (hcuts.sized data hdata).2, received_cutAt (by decide), htake,
    if_pos (by decide)]
  rfl

private theorem answer_cutAt_nine (hsent : Sent ctx request sent) :
    answer ctx request version sent (cutAt 9 m.text) =
      .ok (false, { httpResponseInit version with version := .v1_1 }) := by
  have hcuts := @cuts_cutAt 9 m.text (by omega) (by decide) (by simp [Message.text, Message.head])
  have htake : m.text.take 9 = ascii "HTTP/1.1 " := by
    rw [Message.text, m.head_append]
    rfl
  rw [answer_eq hsent fun data hdata => (hcuts.sized data hdata).2, received_cutAt (by decide), htake,
    if_pos (by decide)]
  rfl

theorem answer_correct_iff (hbody : 0 ∉ m.body) (hcuts : Cuts m.text recvs)
    (hsent : Sent ctx request sent) (version : HTTPVersion) :
    (Correct m (answer ctx request version sent recvs) ↔ maxCapacity ≤ (received recvs).length ∨
      (received recvs).length < m.head.length ∧ Readable (received recvs ++ [0])) ∧
    ∃ recvs', Cuts m.text recvs' ∧
      answer ctx request version sent recvs' ≠ answer ctx request version sent recvs := by
  have hne : m.text ≠ [] := by simp [Message.text, Message.head]
  constructor
  · obtain ⟨rest, hrest⟩ := received_prefix recvs
    rw [hcuts.flatten] at hrest
    rw [answer_eq hsent fun data hdata => (hcuts.sized data hdata).2]
    split_ifs with hfits
    · rw [correct_parse_iff hbody hrest]
      exact (or_iff_right (Nat.not_le.mpr hfits)).symm
    · refine iff_of_true ⟨_, _, rfl, fun h => ?_⟩ (.inl (Nat.le_of_not_lt hfits))
      cases h
  · by_cases hone : answer ctx request version sent (cutAt 1 m.text) =
      answer ctx request version sent recvs
    · refine ⟨cutAt 9 m.text, cuts_cutAt (by omega) (by decide) hne, ?_⟩
      rw [← hone, answer_cutAt_one hsent, answer_cutAt_nine hsent]
      intro hsame
      have hversion := congrArg HTTPResponse.version (Prod.mk.inj (Except.ok.inj hsame)).2
      cases hversion
    · exact ⟨cutAt 1 m.text, cuts_cutAt (by omega) (by decide) hne, hone⟩

end Answers

private theorem ok_digits_ne : ascii "200" ≠ [] := by decide

private theorem ok_digits_decimal : ∀ c ∈ ascii "200", Foundation.Decimal.isDigit c = true := by
  simp [ascii]
  decide

private theorem ok_code_lt : Foundation.Decimal.readOn 0 (ascii "200") < 2 ^ 31 := by decide

private theorem ok_reason_clean : ∀ c ∈ ascii "OK", c ≠ 13 ∧ c ≠ 10 ∧ c ≠ 0 := by simp [ascii]

def oneByte : Message where
  digits := ascii "200"
  reason := ascii "OK"
  fields := []
  body := [120]
  digits_ne := ok_digits_ne
  digits_decimal := ok_digits_decimal
  code_lt := ok_code_lt
  reason_clean := ok_reason_clean

def hostContext : HTTPContext := ⟨⟨4096, []⟩, ⟨4096, []⟩, literal "host", true⟩

def getRequest : HTTPRequest := ⟨.v1_1, .get, literal "/", httpHeaderInit⟩

private theorem sent_getRequest : Sent hostContext getRequest 1 :=
  ⟨rfl, ⟨_, _, rfl, rfl⟩, by decide, ⟨Nat.zero_le _, 0, by omega, rfl⟩⟩

private theorem cuts_oneByte : Cuts oneByte.text [oneByte.text] := by
  refine ⟨by simp, fun data hdata => ?_⟩
  rw [List.mem_singleton.mp hdata]
  exact ⟨by decide, by decide⟩

/-- The whole response comes at once. -/
theorem answer_correct_iff_whole :
    (Correct oneByte (answer hostContext getRequest .invalid 1 [oneByte.text]) ↔
      maxCapacity ≤ (received [oneByte.text]).length ∨
        (received [oneByte.text]).length < oneByte.head.length ∧
          Readable (received [oneByte.text] ++ [0])) ∧
    ∃ recvs', Cuts oneByte.text recvs' ∧ answer hostContext getRequest .invalid 1 recvs' ≠
      answer hostContext getRequest .invalid 1 [oneByte.text] :=
  answer_correct_iff (by decide) cuts_oneByte sent_getRequest .invalid

/-- Even then the content has a byte more than the body. -/
theorem answer_not_correct : ¬∀ (m : Message) (recvs : List (List UInt8)) (ctx : HTTPContext)
    (request : HTTPRequest) (version : HTTPVersion) (sent : ℤ), 0 ∉ m.body → Cuts m.text recvs →
    Sent ctx request sent → Correct m (answer ctx request version sent recvs) := by
  intro h
  have hcorrect := h oneByte _ _ _ .invalid _ (by decide) cuts_oneByte sent_getRequest
  rw [answer_eq sent_getRequest fun data hdata => (cuts_oneByte.sized data hdata).2,
    if_pos (by decide)] at hcorrect
  exact not_correct_of_head [120] (by decide) hcorrect

end Libromano.Http
