/- The headers, requests and responses of `http.c`. A string that is passed is given by the bytes
   from where its pointer points to the end of the object. -/

import Libromano.Arena
import Libromano.Foundation.Chains
import Libromano.Foundation.Decimal
import Libromano.Http.Buffers
import Mathlib.Data.Int.Notation

set_option autoImplicit false
set_option relaxedAutoImplicit false

namespace Libromano.Http

open Bytes Foundation
open Foundation.Chains (Cell setNext)
open Foundation.Decimal (isDigit readOn)

def literal (s : String) : List UInt8 := ascii s ++ [0]

/-- Any number can come from a cast. -/
inductive HTTPVersion
  | invalid
  | v1_1
  | v2
  | v3
  | other (value : ℤ)
  deriving DecidableEq

def HTTPVersion.ofInt (value : ℤ) : HTTPVersion :=
  if value = 0 then .invalid
  else if value = 1 then .v1_1
  else if value = 2 then .v2
  else if value = 3 then .v3
  else .other value

/-- `none` stands for `NULL`. -/
def httpVersionAsString : HTTPVersion → Option (List UInt8)
  | .v1_1 => some (literal "HTTP/1.1")
  | .v2 => some (literal "HTTP/2")
  | .v3 => some (literal "HTTP/3")
  | _ => none

def httpVersionAsStrlen : HTTPVersion → ℕ
  | .v1_1 => 8
  | .v2 => 6
  | .v3 => 6
  | _ => 0

def httpVersionFromString (str : List UInt8) : HTTPVersion :=
  if str.length < 6 then .invalid
  else if str.take 5 ≠ ascii "HTTP/" then .invalid
  else .ofInt ((str.getD 5 0).toInt8.toInt - 48)

inductive HTTPMethod
  | post
  | get
  | delete
  | put
  | patch
  | head
  | options
  | trace
  | connect
  deriving DecidableEq

def httpMethodAsString : HTTPMethod → List UInt8
  | .post => literal "POST"
  | .get => literal "GET"
  | .delete => literal "DELETE"
  | .put => literal "PUT"
  | .patch => literal "PATCH"
  | .head => literal "HEAD"
  | .options => literal "OPTIONS"
  | .trace => literal "TRACE"
  | .connect => literal "CONNECT"

def httpMethodAsStrlen : HTTPMethod → ℕ
  | .post => 4
  | .get => 3
  | .delete => 6
  | .put => 3
  | .patch => 5
  | .head => 4
  | .options => 7
  | .trace => 5
  | .connect => 7

/-- Both strings are held with their null byte. -/
structure HTTPHeaderEntry where
  key : List UInt8
  value : List UInt8
  deriving DecidableEq

structure HTTPHeader where
  entries : List (Cell HTTPHeaderEntry)
  head : Option ℕ
  tail : Option ℕ

def httpHeaderInit : HTTPHeader := ⟨[], none, none⟩

def stringBlockSize : ℕ := 2048

/-- The copy of a string in the arena. A size of zero is measured. -/
def internalString (str : List UInt8) (strSz : ℕ) : Except Fault (List UInt8) := do
  let strSz ← (if strSz = 0 then strlen str else .ok strSz)
  if Arena.holds stringBlockSize (strSz + 1) then do
    let bytes ← bytesAt str 0 strSz
    .ok (bytes ++ [0])
  else .error .arenaOverrun

def HTTPHeader.link (header : HTTPHeader) (entry : HTTPHeaderEntry) : HTTPHeader :=
  let address := header.entries.length
  let entries := header.entries ++ [⟨entry, none⟩]
  { entries := match header.tail with
      | some tail => setNext entries tail (some address)
      | none => entries
    head := match header.head with
      | some head => some head
      | none => some address
    tail := some address }

def httpHeaderAddEntry (header : HTTPHeader) (key : List UInt8) (keySz : ℕ) (value : List UInt8)
    (valueSz : ℕ) : Except Fault HTTPHeader := do
  let internalKey ← internalString key keySz
  let internalValue ← internalString value valueSz
  .ok (header.link ⟨internalKey, internalValue⟩)

/-- The entries that a loop over `http_header_get_next` comes to from a pointer on. -/
def entriesFrom (header : HTTPHeader) : ℕ → Option ℕ → Except Fault (List HTTPHeaderEntry)
  | 0, _ => .error .diverges
  | _ + 1, none => .ok []
  | fuel + 1, some address =>
    match header.entries[address]? with
    | none => .error .outOfBounds
    | some cell => do
      let entries ← entriesFrom header fuel cell.next
      .ok (cell.item :: entries)

def httpHeaderEntries (header : HTTPHeader) : Except Fault (List HTTPHeaderEntry) :=
  entriesFrom header (header.entries.length + 1) header.head

def httpHeaderFind (header : HTTPHeader) (key : List UInt8) :
    Except Fault (Option HTTPHeaderEntry) := do
  let entries ← httpHeaderEntries header
  .ok (entries.find? fun entry => cString entry.key = cString key)

structure HTTPRequest where
  version : HTTPVersion
  method : HTTPMethod
  endpoint : List UInt8
  headers : HTTPHeader

/-- The callers do not look at the result: without room nothing is appended. -/
def httpBuilderAppend (builder : Buffer) (str : List UInt8) (strSz : ℕ) : Except Fault Buffer := do
  let strSz ← (if strSz = 0 then strlen str else .ok strSz)
  let appended ← bufferAppend builder str strSz
  .ok (appended.getD builder)

def appendEntry (builder : Buffer) (entry : HTTPHeaderEntry) : Except Fault Buffer := do
  let builder ← httpBuilderAppend builder entry.key 0
  let builder ← httpBuilderAppend builder (literal ": ") 2
  let builder ← httpBuilderAppend builder entry.value 0
  httpBuilderAppend builder (literal "\r\n") 2

/-- `none` stands for `NULL`. -/
def httpRequestBuild (request : HTTPRequest) (builder : Buffer) : Except Fault (Option Buffer) :=
  if builder.bytes ≠ [] then .ok none
  else do
    let builder ← httpBuilderAppend builder (httpMethodAsString request.method)
      (httpMethodAsStrlen request.method)
    let builder ← httpBuilderAppend builder (literal " ") 1
    let builder ← httpBuilderAppend builder request.endpoint 0
    let builder ← httpBuilderAppend builder (literal " ") 1
    match httpVersionAsString request.version with
    | none => .error .nullPointer
    | some version =>
      let builder ← httpBuilderAppend builder version (httpVersionAsStrlen request.version)
      let builder ← httpBuilderAppend builder (literal "\r\n") 2
      let entries ← httpHeaderEntries request.headers
      let builder ← entries.foldlM appendEntry builder
      let builder ← httpBuilderAppend builder (literal "\r\n") 2
      .ok (some builder)

structure HTTPResponse where
  version : HTTPVersion
  headers : HTTPHeader
  code : ℤ
  content : Option (List UInt8)
  contentSz : ℕ

/-- The version is not set; any value may stand there. -/
def httpResponseInit (version : HTTPVersion) : HTTPResponse :=
  ⟨version, httpHeaderInit, 0, none, 0⟩

/-- A `long` that a numeral is read into stops at its bounds. -/
def clampLong (value : ℤ) : ℤ := max (-2 ^ 63) (min (2 ^ 63 - 1) value)

def readDigits (negative : Bool) (text : List UInt8) : Except Fault ℤ :=
  let digits := text.takeWhile isDigit
  if digits.length < text.length then
    let value := clampLong (if negative then -(readOn 0 digits) else readOn 0 digits)
    .ok (value.bmod (2 ^ 32))
  else .error .outOfBounds

/-- `atoi`, which is `strtol` cut to an `int`. -/
def atoi (text : List UInt8) : Except Fault ℤ :=
  match text.dropWhile isspace with
  | 45 :: rest => readDigits true rest
  | 43 :: rest => readDigits false rest
  | rest => readDigits false rest

structure HTTPResponseParser where
  start : List UInt8
  current : ℕ
  sz : ℕ

/-- `while(start[current++] != c) if(current >= sz) return false;`, with what is
returned and the place that is reached. -/
def skipPast (c : UInt8) (start : List UInt8) (sz : ℕ) : ℕ → ℕ → Except Fault (Bool × ℕ)
  | 0, _ => .error .diverges
  | fuel + 1, current => do
    let b ← byteAt start current
    if b = c then .ok (true, current + 1)
    else if sz ≤ current + 1 then .ok (false, current + 1)
    else skipPast c start sz fuel (current + 1)

/-- `none` stands for `false`. -/
def skipWhitespace (parser : HTTPResponseParser) : Except Fault (Option HTTPResponseParser) := do
  let (found, current) ← skipPast 32 parser.start parser.sz (parser.sz + 1) parser.current
  if found && decide (current < parser.sz) then .ok (some { parser with current }) else .ok none

def skipCrlf (parser : HTTPResponseParser) : Except Fault (Option HTTPResponseParser) := do
  let (found, current) ← skipPast 13 parser.start parser.sz (parser.sz + 1) parser.current
  if found && decide (current < parser.sz) then do
    let b ← byteAt parser.start current
    if b ≠ 10 then .ok none
    else if parser.sz ≤ current + 1 then .ok none
    else .ok (some { parser with current := current + 1 })
  else .ok none

/-- `while(current < sz && start[current++] != c) n++;`, with the place that is reached
and the number. -/
def countTo (c : UInt8) (start : List UInt8) (sz : ℕ) : ℕ → ℕ → ℕ → Except Fault (ℕ × ℕ)
  | 0, _, _ => .error .diverges
  | fuel + 1, current, n =>
    if current < sz then do
      let b ← byteAt start current
      if b = c then .ok (current + 1, n) else countTo c start sz fuel (current + 1) (n + 1)
    else .ok (current, n)

structure Span where
  start : List UInt8
  size : ℕ

def atBlankLine (parser : HTTPResponseParser) : Except Fault Bool := do
  let b ← byteAt parser.start parser.current
  if b = 13 then do
    let b' ← byteAt parser.start (parser.current + 1)
    .ok (b' = 10)
  else .ok false

/-- The span before the next `c`, and the parser one byte behind it. -/
def parseSpan (c : UInt8) (parser : HTTPResponseParser) :
    Except Fault (Span × HTTPResponseParser) := do
  let (current, n) ← countTo c parser.start parser.sz (parser.sz + 1) parser.current 0
  .ok (⟨parser.start.drop parser.current, n⟩, { parser with current := current + 1 })

/-- `none` stands for `NULL`. -/
def parseKey (parser : HTTPResponseParser) : Except Fault (Option (Span × HTTPResponseParser)) :=
  if parser.sz ≤ parser.current + 2 then .ok none
  else do
    if ← atBlankLine parser then .ok none
    else do
      let key ← parseSpan 58 parser
      .ok (some key)

def parseValue (parser : HTTPResponseParser) : Except Fault (Span × HTTPResponseParser) :=
  parseSpan 13 parser

/-- The loop over the header lines. Without a parser `false` is returned. -/
def parseHeaders : ℕ → HTTPResponseParser → HTTPHeader →
    Except Fault (Option HTTPResponseParser × HTTPHeader)
  | 0, _, _ => .error .diverges
  | fuel + 1, parser, headers => do
    match ← parseKey parser with
    | none => .ok (some parser, headers)
    | some (key, parser) =>
      if parser.sz ≤ parser.current then .ok (none, headers)
      else do
        let (value, parser) ← parseValue parser
        let headers ← httpHeaderAddEntry headers key.start key.size value.start value.size
        parseHeaders fuel parser headers

def parseContent (response : HTTPResponse) (parser : HTTPResponseParser) :
    Except Fault (Bool × HTTPResponse) := do
  match ← skipCrlf parser with
  | none => .ok (false, response)
  | some parser =>
    if parser.sz ≤ parser.current then .ok (true, response)
    else do
      let contentSz := parser.sz - parser.current
      let content ← bytesAt parser.start parser.current contentSz
      .ok (true, { response with content := some (content ++ [0]), contentSz })

def parseFields (response : HTTPResponse) (parser : HTTPResponseParser) :
    Except Fault (Bool × HTTPResponse) := do
  let (reached, headers) ← parseHeaders (parser.sz + 1) parser response.headers
  let response := { response with headers }
  match reached with
  | none => .ok (false, response)
  | some parser => parseContent response parser

def parseCode (response : HTTPResponse) (parser : HTTPResponseParser) :
    Except Fault (Bool × HTTPResponse) := do
  let code ← atoi (parser.start.drop parser.current)
  let response := { response with code }
  match ← skipCrlf parser with
  | none => .ok (false, response)
  | some parser => parseFields response parser

def httpResponseParse (response : HTTPResponse) (body : List UInt8) :
    Except Fault (Bool × HTTPResponse) :=
  let response := { response with version := httpVersionFromString body }
  if response.version = .invalid then .ok (false, response)
  else do
    match ← skipWhitespace ⟨body, 0, body.length⟩ with
    | none => .ok (false, response)
    | some parser => parseCode response parser

structure HTTPContext where
  builder : Buffer
  recvBuffer : Buffer
  host : List UInt8
  isAlive : Bool

def httpResponseBufferSz : ℕ := 512

/-- What the system answers during a call: what `socket_send` returns, and the bytes
that each `socket_recv` brings, `none` for an error. Once all are brought the server has
closed. -/
structure Socket where
  sent : ℤ
  recvs : List (Option (List UInt8))

/-- The loop of the calls of `socket_recv`. -/
def receive : List (Option (List UInt8)) → Buffer → Except Fault (Bool × Buffer)
  | recvs, buffer => do
    match ← bufferCheckResize buffer httpResponseBufferSz with
    | none => .ok (false, buffer)
    | some buffer =>
      match recvs with
      | [] => .ok (true, buffer)
      | none :: _ => .ok (false, buffer)
      | some data :: recvs => do
        let buffer ← buffer.write data
        if data.length < httpResponseBufferSz then .ok (true, buffer) else receive recvs buffer

/-- The outcome of a call, with the bytes that the socket was handed. -/
structure Outcome where
  result : Bool
  ctx : HTTPContext
  request : HTTPRequest
  response : HTTPResponse
  handed : Option (List UInt8)

/-- `resp_entry != NULL && strcmp(resp_entry->value, "close")`. -/
def disconnects (entry : Option HTTPHeaderEntry) : Bool :=
  match entry with
  | some entry => cString entry.value ≠ ascii "close"
  | none => false

/-- The part behind the last `socket_recv`. -/
def readResponse (outcome : Outcome) : Except Fault Outcome := do
  match ← bufferAppend outcome.ctx.recvBuffer [0] 1 with
  | none => .ok outcome
  | some recvBuffer => do
    let ctx := { outcome.ctx with recvBuffer }
    let (result, response) ← httpResponseParse outcome.response recvBuffer.bytes
    if result then do
      let entry ← httpHeaderFind response.headers (literal "Connection")
      let isAlive := ctx.isAlive && !disconnects entry
      .ok { outcome with result, ctx := { ctx with isAlive }, response }
    else .ok { outcome with ctx, response }

def httpContextSendRequest (ctx : HTTPContext) (request : HTTPRequest) (response : HTTPResponse)
    (socket : Socket) : Except Fault Outcome :=
  if ctx.isAlive = false then .ok ⟨false, ctx, request, response, none⟩
  else do
    let headers ← httpHeaderAddEntry request.headers (literal "Host") 4 ctx.host 0
    let request := { request with headers }
    let ctx := { ctx with builder := bufferReset ctx.builder }
    match ← httpRequestBuild request ctx.builder with
    | none => .ok ⟨false, ctx, request, response, none⟩
    | some builder => do
      let ctx := { ctx with builder }
      let outcome := ⟨false, ctx, request, response, some builder.bytes⟩
      if socket.sent ≤ 0 then .ok outcome
      else do
        let (received, recvBuffer) ← receive socket.recvs (bufferReset ctx.recvBuffer)
        let outcome := { outcome with ctx := { ctx with recvBuffer } }
        if received then readResponse outcome else .ok outcome

end Libromano.Http
