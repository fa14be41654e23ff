/- The request that is sent, and what sending it does to the caller's headers. -/

import Libromano.Http.Building

set_option autoImplicit false
set_option relaxedAutoImplicit false

namespace Libromano.Http

open Bytes

section Build

variable {request : HTTPRequest} {version : List UInt8} {entries : List HTTPHeaderEntry}
  {builder : Buffer}

private theorem httpRequestBuild_eq (request : HTTPRequest)
    (hversion : httpVersionAsString request.version = some version)
    (hendpoint : 0 ∈ request.endpoint) (hheaders : Shows request.headers entries)
    (hended : ∀ entry ∈ entries, Ended entry) (hgrown : builder.Grown) (hempty : builder.bytes = [])
    (hfits : (requestText request entries).length ≤ maxCapacity) :
    ∃ builder', httpRequestBuild request builder = .ok (some builder') ∧ builder'.Grown ∧
      builder'.bytes = requestText request entries := by
  obtain ⟨j, builder', hbuilt, hroom, hcapacity, hbytes⟩ := request_built request hversion hendpoint
    hheaders hended hempty hgrown.room hfits
  obtain ⟨-, k, -, hgrown⟩ := hgrown
  refine ⟨builder', hbuilt, hroom.grown (k := k + j) ?_, hbytes⟩
  rw [hcapacity, hgrown, ← Nat.pow_add, Nat.add_assoc]

end Build

/-- The header that a call adds. -/
def hostEntry (host : List UInt8) : HTTPHeaderEntry := ⟨literal "Host", cString host ++ [0]⟩

section Call

variable {ctx : HTTPContext} {request : HTTPRequest} {response : HTTPResponse} {socket : Socket}
  {outcome outcome' : Outcome} {headers headers' : HTTPHeader} {host : List UInt8}
  {entries : List HTTPHeaderEntry}

private theorem addHost_eq (h : httpHeaderAddEntry headers (literal "Host") 4 host 0 = .ok headers') :
    headers' = headers.link (hostEntry host) ∧ 0 ∈ host := by
  obtain ⟨key, hkey, h'⟩ := bind_eq_ok.mp h
  obtain ⟨value, hvalue, hlink⟩ := bind_eq_ok.mp h'
  obtain rfl : literal "Host" = key := Except.ok.inj hkey
  have hnull : 0 ∈ host := by
    by_contra hnone
    rw [internalString, if_pos rfl, strlen, if_neg hnone] at hvalue
    cases hvalue
  have hinternal := internalString_eq [] hnull
  rw [List.nil_append, List.length_nil, hvalue, copied_nil] at hinternal
  split_ifs at hinternal
  obtain rfl := Except.ok.inj hinternal
  exact ⟨(Except.ok.inj hlink).symm, hnull⟩

private theorem readResponse_keeps (h : readResponse outcome = .ok outcome') :
    outcome'.request = outcome.request ∧ outcome'.handed = outcome.handed ∧
      outcome'.ctx.host = outcome.ctx.host ∧ outcome'.ctx.builder = outcome.ctx.builder := by
  obtain ⟨appended, -, h⟩ := bind_eq_ok.mp h
  rcases appended with _ | recvBuffer
  · obtain rfl := Except.ok.inj h
    exact ⟨rfl, rfl, rfl, rfl⟩
  · obtain ⟨⟨result, response⟩, -, h⟩ := bind_eq_ok.mp h
    simp only at h
    split_ifs at h
    · obtain ⟨entry, -, h⟩ := bind_eq_ok.mp h
      obtain rfl := Except.ok.inj h
      exact ⟨rfl, rfl, rfl, rfl⟩
    · obtain rfl := Except.ok.inj h
      exact ⟨rfl, rfl, rfl, rfl⟩

private theorem sendRequest_cases (hlive : ctx.isAlive = true)
    (h : httpContextSendRequest ctx request response socket = .ok outcome) :
    ∃ headers built, httpHeaderAddEntry request.headers (literal "Host") 4 ctx.host 0 = .ok headers ∧
      httpRequestBuild { request with headers } (bufferReset ctx.builder) = .ok built ∧
      outcome.request = { request with headers } ∧ outcome.handed = built.map Buffer.bytes ∧
      outcome.ctx.host = ctx.host ∧
      outcome.ctx.builder = built.getD (bufferReset ctx.builder) := by
  rw [httpContextSendRequest, if_neg (by simp [hlive])] at h
  obtain ⟨headers, hadd, h⟩ := bind_eq_ok.mp h
  obtain ⟨built, hbuild, h⟩ := bind_eq_ok.mp h
  refine ⟨headers, built, hadd, hbuild, ?_⟩
  rcases built with _ | builder
  · obtain rfl := Except.ok.inj h
    exact ⟨rfl, rfl, rfl, rfl⟩
  · simp only at h
    split_ifs at h
    · obtain rfl := Except.ok.inj h
      exact ⟨rfl, rfl, rfl, rfl⟩
    · obtain ⟨⟨received, recvBuffer⟩, -, h⟩ := bind_eq_ok.mp h
      simp only at h
      split_ifs at h
      · exact readResponse_keeps h
      · obtain rfl := Except.ok.inj h
        exact ⟨rfl, rfl, rfl, rfl⟩

private theorem sendRequest_headers (hlive : ctx.isAlive = true)
    (hheaders : Shows request.headers entries)
    (h : httpContextSendRequest ctx request response socket = .ok outcome) :
    Shows outcome.request.headers (entries ++ [hostEntry ctx.host]) := by
  obtain ⟨headers, built, hadd, -, hrequest, -⟩ := sendRequest_cases hlive h
  obtain ⟨rfl, -⟩ := addHost_eq hadd
  rw [hrequest]
  exact hheaders.link

end Call

/-- The outcomes of calls that are made one after the other with the same request. The
context is connected again where it is no longer alive. -/
def sends : HTTPContext → HTTPRequest → List (HTTPResponse × Socket) → Except Fault (List Outcome)
  | _, _, [] => .ok []
  | ctx, request, (response, socket) :: calls => do
    let outcome ← httpContextSendRequest { ctx with isAlive := true } request response socket
    let outcomes ← sends outcome.ctx outcome.request calls
    .ok (outcome :: outcomes)

section Runs

variable {ctx : HTTPContext} {request : HTTPRequest} {entries : List HTTPHeaderEntry}
  {calls : List (HTTPResponse × Socket)} {outcomes : List Outcome} {version : List UInt8}

private theorem replicate_shift {α : Type} (l : List α) (x : α) (k : ℕ) :
    l ++ [x] ++ List.replicate (k + 1) x = l ++ List.replicate (k + 1 + 1) x := by
  rw [List.append_assoc, List.singleton_append, List.replicate_succ (n := k + 1)]

private theorem sends_headers (hheaders : Shows request.headers entries)
    (h : sends ctx request calls = .ok outcomes) :
    ∀ k outcome, outcomes[k]? = some outcome → Shows outcome.request.headers
      (entries ++ List.replicate (k + 1) (hostEntry ctx.host)) := by
  induction calls generalizing ctx request entries outcomes with
  | nil =>
    obtain rfl := Except.ok.inj h
    intro k outcome hk
    cases hk
  | cons call calls ih =>
    obtain ⟨response, socket⟩ := call
    obtain ⟨first, hfirst, h⟩ := bind_eq_ok.mp h
    obtain ⟨rest, hrest, h⟩ := bind_eq_ok.mp h
    obtain rfl := Except.ok.inj h
    have hshows := sendRequest_headers rfl hheaders hfirst
    obtain ⟨-, -, -, -, -, -, hhost, -⟩ := sendRequest_cases rfl hfirst
    intro k outcome hk
    rcases k with _ | k
    · obtain rfl := Option.some.inj hk
      exact hshows
    · have hlater := ih hshows hrest k outcome hk
      rw [hhost] at hlater
      rwa [← replicate_shift]

private theorem sends_handed (hversion : httpVersionAsString request.version = some version)
    (hendpoint : 0 ∈ request.endpoint) (hheaders : Shows request.headers entries)
    (hended : ∀ entry ∈ entries, Ended entry) (hgrown : ctx.builder.Grown)
    (hfits : ∀ k < calls.length,
      (requestText request (entries ++ List.replicate (k + 1) (hostEntry ctx.host))).length ≤
        maxCapacity) (h : sends ctx request calls = .ok outcomes) :
    ∀ k outcome, outcomes[k]? = some outcome → outcome.handed =
      some (requestText request (entries ++ List.replicate (k + 1) (hostEntry ctx.host))) := by
  induction calls generalizing ctx request entries outcomes with
  | nil =>
    obtain rfl := Except.ok.inj h
    intro k outcome hk
    cases hk
  | cons call calls ih =>
    obtain ⟨response, socket⟩ := call
    obtain ⟨first, hfirst, h⟩ := bind_eq_ok.mp h
    obtain ⟨rest, hrest, h⟩ := bind_eq_ok.mp h
    obtain rfl := Except.ok.inj h
    obtain ⟨headers, built, hadd, hbuild, hrequest, hhanded, hhost, hbuilder⟩ :=
      sendRequest_cases rfl hfirst
    obtain ⟨rfl, hnull⟩ := addHost_eq hadd
    have hshows := sendRequest_headers rfl hheaders hfirst
    have hended' : ∀ entry ∈ entries ++ [hostEntry ctx.host], Ended entry := by
      refine List.forall_mem_append.mpr ⟨hended, ?_⟩
      simp [Ended, hostEntry, literal]
    obtain ⟨builder, hbuilt, hgrown', hbytes⟩ := httpRequestBuild_eq
      { request with headers := request.headers.link (hostEntry ctx.host) } hversion hendpoint
      hheaders.link hended' hgrown.reset rfl (hfits 0 (by simp))
    obtain rfl := Except.ok.inj (hbuilt.symm.trans hbuild)
    intro k outcome hk
    rcases k with _ | k
    · obtain rfl := Option.some.inj hk
      rw [hhanded, Option.map_some, hbytes]
      rfl
    · have hlater := ih (by rw [hrequest]; exact hversion)
        (by rw [hrequest]; exact hendpoint) hshows hended' (by rw [hbuilder]; exact hgrown')
        (by
          intro j hj
          have hnext := hfits (j + 1) (by simpa using hj)
          rw [hhost, hrequest, replicate_shift]
          exact hnext) hrest k outcome hk
      rw [hlater, hhost, hrequest, replicate_shift]
      rfl

private theorem sends_cons_changes {call : HTTPResponse × Socket}
    (hheaders : Shows request.headers entries)
    (h : sends ctx request (call :: calls) = .ok outcomes) :
    ∃ outcome ∈ outcomes, httpHeaderEntries outcome.request.headers ≠ .ok entries := by
  have hlater := sends_headers hheaders h
  obtain ⟨first, hfirst, h⟩ := bind_eq_ok.mp h
  obtain ⟨rest, hrest, h⟩ := bind_eq_ok.mp h
  obtain rfl := Except.ok.inj h
  refine ⟨first, List.mem_cons_self, fun hsame => ?_⟩
  rw [(hlater 0 first rfl).entries_eq] at hsame
  have hlength := congrArg List.length (Except.ok.inj hsame)
  simp at hlength

theorem sends_steady_iff (hheaders : Shows request.headers entries) (ctx : HTTPContext)
    (calls : List (HTTPResponse × Socket)) :
    (∃ outcomes, sends ctx request calls = .ok outcomes ∧ ∀ outcome ∈ outcomes,
      outcome.handed = some (requestText request (entries ++ [hostEntry ctx.host])) ∧
        httpHeaderEntries outcome.request.headers = .ok entries) ↔ calls = [] := by
  constructor
  · rintro ⟨outcomes, hsends, hsteady⟩
    rcases calls with _ | ⟨call, calls⟩
    · rfl
    · obtain ⟨outcome, hmem, hchanged⟩ := sends_cons_changes hheaders hsends
      exact absurd (hsteady outcome hmem).2 hchanged
  · rintro rfl
    exact ⟨[], rfl, fun outcome h => absurd h List.not_mem_nil⟩

end Runs

/-- One request without headers. -/
theorem sends_steady_iff_get :
    (∃ outcomes, sends ⟨⟨4096, []⟩, ⟨4096, []⟩, literal "host", true⟩
        ⟨.v1_1, .get, literal "/", httpHeaderInit⟩ [(httpResponseInit .invalid, ⟨1, []⟩)] =
          .ok outcomes ∧ ∀ outcome ∈ outcomes,
      outcome.handed = some (requestText ⟨.v1_1, .get, literal "/", httpHeaderInit⟩
          ([] ++ [hostEntry (literal "host")])) ∧
        httpHeaderEntries outcome.request.headers = .ok []) ↔
    [((httpResponseInit .invalid, ⟨1, []⟩) : HTTPResponse × Socket)] = [] :=
  sends_steady_iff shows_init
    ⟨⟨4096, []⟩, ⟨4096, []⟩, literal "host", true⟩ _

/-- A request without headers, sent twice: the second time it has two headers for the host. -/
theorem sends_not_steady : ¬∀ (ctx : HTTPContext) (request : HTTPRequest)
    (entries : List HTTPHeaderEntry) (calls : List (HTTPResponse × Socket)),
    Shows request.headers entries → ∃ outcomes, sends ctx request calls = .ok outcomes ∧
      ∀ outcome ∈ outcomes,
        outcome.handed = some (requestText request (entries ++ [hostEntry ctx.host])) ∧
          httpHeaderEntries outcome.request.headers = .ok entries := by
  intro h
  obtain ⟨outcomes, hsends, hsteady⟩ := h ⟨⟨4096, []⟩, ⟨4096, []⟩, literal "host", true⟩
    ⟨.v1_1, .get, literal "/", httpHeaderInit⟩ []
    [(httpResponseInit .invalid, ⟨1, []⟩), (httpResponseInit .invalid, ⟨1, []⟩)] shows_init
  obtain ⟨first, -, hrest⟩ := bind_eq_ok.mp hsends
  obtain ⟨rest, hrest, hcons⟩ := bind_eq_ok.mp hrest
  obtain ⟨second, -, hnil⟩ := bind_eq_ok.mp hrest
  obtain rfl := Except.ok.inj hnil
  obtain rfl := Except.ok.inj hcons
  have hgrown : (⟨4096, []⟩ : Buffer).Grown := ⟨Nat.zero_le _, 0, by decide, rfl⟩
  have htwice := sends_handed rfl (by decide) shows_init (fun _ h => absurd h List.not_mem_nil)
    hgrown (by decide) hsends 1 second rfl
  have honce := (hsteady second (by simp)).1
  exact absurd (htwice.symm.trans honce) (by decide)

end Libromano.Http
