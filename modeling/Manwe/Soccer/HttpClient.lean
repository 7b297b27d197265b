import Manwe.Soccer.Http

/-!
# The HTTP/1.1 client

`HttpClient` (`HttpClient.h`): `buildRequestHead` serialises a request that `checkRequestParts` has
let through, and `readResponse` reads one response off a `BufferedReader`: past the interim answers
to the final head, and then the body in one of four framings (none, chunked, a stated length, up to
the end of the stream).

The loops of `readResponse` are bounded by the limits of the code itself, so their fuel is a
constant.
-/

namespace Manwe.HttpClient

open Http BufferedReader MonadExcept

/-! ### Requests -/

/-- `HttpClient::checkRequestParts` does not throw. -/
def checkRequestParts (method host path : Bytes) (extra : List HttpHeader) : Bool :=
  isHttpToken method && !host.isEmpty && !hasTargetCtl host && !hasTargetCtl path &&
    extra.all fun h => isHttpToken h.name && !hasFieldValueCtl h.value &&
      !h.named "Transfer-Encoding"

/-- The target `request` and `pooledRequest` send: an empty path is `/`. -/
def requestTarget (path : Bytes) : Bytes := if path = [] then bytes "/" else path

/-- Methods that normally carry a body. -/
def expectsBody (method : Bytes) : Bool :=
  iequalsAscii method (bytes "POST") || iequalsAscii method (bytes "PUT") ||
    iequalsAscii method (bytes "PATCH")

/-- `HttpClient::buildRequestHead`. -/
def buildRequestHead (method host : Bytes) (port : ℕ) (path : Bytes) (extra : List HttpHeader)
    (bodySize : ℕ) (connection : Bytes) : Bytes :=
  let haveHost := extra.any (·.named "Host")
  let haveAgent := extra.any fun h => !h.named "Host" && h.named "User-Agent"
  method ++ [32] ++ path ++ bytes " HTTP/1.1\r\n" ++
    (if haveHost then [] else bytes "Host: " ++ hostHeaderValue host port 80 ++ crlf) ++
    (bytes "Connection: " ++ connection ++ crlf) ++
    (if haveAgent then [] else bytes "User-Agent: manwe-soccer-http/0.3\r\n") ++
    (extra.filter fun h => !h.named "Content-Length").flatMap fieldLine ++
    (if bodySize ≠ 0 ∨ expectsBody method then bytes "Content-Length: " ++ decimal bodySize ++ crlf
      else []) ++
    crlf

/-! ### The head of a response -/

def fail (what : String) : Fault := .runtime ("HttpClient: " ++ what)

/-- `HttpClient::stripLineEnd`. -/
def stripLineEnd (line : Bytes) : Except Fault Bytes :=
  if line.length < 2 ∨ line.dropLast.getLast? ≠ some 13 ∨ line.getLast? ≠ some 10 then
    .error (fail "line not terminated by CRLF")
  else .ok line.dropLast.dropLast

/-- `HttpClient::parseStatusLine`: status, reason, and whether the version is 1.0. -/
def parseStatusLine (raw : Bytes) : Except Fault (ℕ × Bytes × Bool) := do
  let line ← stripLineEnd raw
  match line with
  | 72 :: 84 :: 84 :: 80 :: 47 :: major :: 46 :: minor :: 32 :: rest =>
    if line.length < 12 ∨ !isDigit major ∨ !isDigit minor then .error (fail "malformed status line")
    else
      let (code, reason) := (cutAt 32 rest).getD (rest, [])
      if code.length ≠ 3 ∨ !code.all isDigit then .error (fail "malformed status code")
      else .ok (stoull code, trimAscii reason, raw.take 8 == bytes "HTTP/1.0")
  | _ => .error (fail "malformed status line")

/-- `HttpClient::parseHeaderLine`. -/
def parseHeaderLine (raw : Bytes) : Except Fault HttpHeader := do
  let line ← stripLineEnd raw
  match cutAt 58 line with
  | none => .error (fail "malformed header line")
  | some (name, value) =>
    if !isHttpToken name then .error (fail "malformed header line")
    else if hasFieldValueCtl (trimAscii value) then
      .error (fail "control character in header value")
    else .ok ⟨name, trimAscii value⟩

/-- What a head has brought: the response, the version, and the two counts of bytes. -/
structure Head where
  resp : HttpResponse
  http10 : Bool
  /-- `header_bytes`, over all interim responses. -/
  headerBytes : ℕ
  consumed : ℕ
  deriving DecidableEq, Repr

/-- More fields, and `n` more bytes. -/
def Head.grow (h : Head) (fields : List HttpHeader) (n : ℕ) : Head where
  resp := { h.resp with headers := h.resp.headers ++ fields }
  http10 := h.http10
  headerBytes := h.headerBytes + n
  consumed := h.consumed + n

/-- The loop over the header lines, up to the blank one. -/
def readHeaders : ℕ → Head → EStateM Fault BufferedReader Head
  | 0, _ => throw .spent
  | fuel + 1, h => do
    let line ← readLine
    let h := h.grow [] line.length
    if h.headerBytes > maxHeaderBytes then throw (fail "header block too large")
    else if line = [] then throw (fail "connection closed inside header block")
    else if line = crlf then return h
    else if line.getLast? ≠ some 10 then throw (fail "connection closed inside header block")
    else
      let field ← ofExcept (parseHeaderLine line)
      readHeaders fuel (h.grow [field] 0)

/-- The status line and the headers of one response, interim or final. -/
def readHead (headerBytes consumed : ℕ) : EStateM Fault BufferedReader Head := do
  let line ← readLine
  if line = [] then throw (fail "connection closed before status line")
  else
    let (status, reason, http10) ← ofExcept (parseStatusLine line)
    readHeaders (maxHeaderBytes + 2)
      { resp := { status, reason }, http10
        headerBytes := headerBytes + line.length, consumed := consumed + line.length }

/-- An interim response: 1xx other than 101. -/
def interim (status : ℕ) : Bool := 100 ≤ status && status < 200 && status != 101

/-- The loop past the interim responses, of which `left` more are tolerated. -/
def readFinalHead : ℕ → ℕ → ℕ → EStateM Fault BufferedReader Head
  | 0, _, _ => throw (fail "too many 1xx interim responses")
  | left + 1, headerBytes, consumed => do
    let h ← readHead headerBytes consumed
    if interim h.resp.status then readFinalHead left h.headerBytes h.consumed
    else return h

/-- The Connection fields as one token list. -/
def connectionTokens (headers : List HttpHeader) : Bytes :=
  headers.foldl (fun tokens h =>
    if h.named "Connection" then (if tokens = [] then tokens else tokens ++ [44]) ++ h.value
    else tokens) []

/-- The peer leaves the connection open for another exchange. -/
def keepAlive (h : Head) : Bool :=
  let tokens := connectionTokens h.resp.headers
  !headerListHasToken tokens "close" && (!h.http10 || headerListHasToken tokens "keep-alive")

/-! ### The body of a response -/

/-- The value of a hexadecimal digit. -/
def hexDigit (c : UInt8) : Option ℕ :=
  if 48 ≤ c ∧ c ≤ 57 then some (c.toNat - 48)
  else if 97 ≤ c ∧ c ≤ 102 then some (c.toNat - 97 + 10)
  else if 65 ≤ c ∧ c ≤ 70 then some (c.toNat - 65 + 10)
  else none

/-- The loop over the digits of a chunk size: their number, the value and what follows them. -/
def hexSize (digits value : ℕ) : Bytes → Except Fault (ℕ × ℕ × Bytes)
  | [] => .ok (digits, value, [])
  | c :: rest =>
    match hexDigit c with
    | none => .ok (digits, value, c :: rest)
    | some v =>
      if digits ≥ 16 then .error (fail "chunk size too large")
      else hexSize (digits + 1) (value * 16 + v) rest

/-- The size a chunk's first line announces; extensions are ignored. -/
def parseChunkSize (line : Bytes) : Except Fault ℕ :=
  if line.length < 3 ∨ line.length > 1024 ∨ line.dropLast.getLast? ≠ some 13 ∨
      line.getLast? ≠ some 10 then
    .error (fail "malformed chunk size line")
  else match hexSize 0 0 line.dropLast.dropLast with
    | .error e => .error e
    | .ok (digits, value, rest) =>
      if digits = 0 ∨ (rest ≠ [] ∧ rest.head? ≠ some 59) ∨ rest.contains 13 ∨ rest.contains 0 then
        .error (fail "malformed chunk size line")
      else .ok value

/-- The loop over the chunks, with the body and the count of bytes so far. -/
def readChunks : ℕ → Bytes → ℕ → EStateM Fault BufferedReader (Bytes × ℕ)
  | 0, _, _ => throw .spent
  | fuel + 1, chunked, consumed => do
    let line ← readLine
    let size ← ofExcept (parseChunkSize line)
    if size = 0 then return (chunked, consumed + line.length)
    else if size > maxBodyBytes ∨ chunked.length + size > maxBodyBytes then
      throw (fail "body too large")
    else
      let chunked ← readBody (fail "truncated chunked body") size size chunked
      let terminator ← readExact 2
      if terminator ≠ crlf then throw (fail "malformed chunk terminator")
      else readChunks fuel chunked (consumed + line.length + size + 2)

/-- The loop over the trailer section; the result is the count of bytes. -/
def readTrailers : ℕ → ℕ → ℕ → EStateM Fault BufferedReader ℕ
  | 0, _, _ => throw .spent
  | fuel + 1, trailerBytes, consumed => do
    let line ← readLine
    if trailerBytes + line.length > maxHeaderBytes then throw (fail "trailer block too large")
    else if line.getLast? ≠ some 10 then throw (fail "connection closed inside trailers")
    else if line = crlf then return consumed + line.length
    else readTrailers fuel (trailerBytes + line.length) (consumed + line.length)

/-- The loop that reads an identity-framed body to the end of the stream. -/
def readToEof : ℕ → Bytes → EStateM Fault BufferedReader Bytes
  | 0, _ => throw .spent
  | fuel + 1, body => do
    if (← get).eof then return body
    else
      let chunk ← readExact 4096
      if chunk = [] then return body
      else if body.length + chunk.length > maxBodyBytes then throw (fail "body too large")
      else readToEof fuel (body ++ chunk)

/-- What `readResponse` returns, with its two out parameters. -/
structure Reply where
  resp : HttpResponse
  /-- `outStreamReusable`. -/
  reusable : Bool
  /-- `consumedOut`; 0 where the code does not set it. -/
  consumed : ℕ
  deriving DecidableEq, Repr

/-- A lone chunked coding from a 1.1 peer, with no length beside it. -/
def chunkedOnly (h : Head) : Bool :=
  h.resp.headers.countP (·.named "Transfer-Encoding") == 1 &&
    (h.resp.headers.all fun f =>
      !f.named "Transfer-Encoding" || iequalsAscii f.value (bytes "chunked")) &&
    !h.http10 && !h.resp.headers.any (·.named "Content-Length")

/-- The chunked body and its trailers. -/
def readChunkedBody (h : Head) : EStateM Fault BufferedReader Reply := do
  if !chunkedOnly h then throw (fail "unsupported Transfer-Encoding")
  else
    let (chunked, consumed) ← readChunks (maxBodyBytes + 2) [] h.consumed
    let consumed ← readTrailers (maxHeaderBytes + 2) 0 consumed
    return ⟨{ h.resp with body := chunked }, keepAlive h, consumed⟩

/-- The body with a stated length, or up to the end of the stream. -/
def readPlainBody (h : Head) : EStateM Fault BufferedReader Reply := do
  match strictContentLength h.resp.headers maxBodyBytes with
  | .error what => throw (.runtime what)
  | .ok (some len) =>
    let body ← readExact len
    if body.length ≠ len then throw (fail "truncated response body")
    else return ⟨{ h.resp with body }, keepAlive h, h.consumed + body.length⟩
  | .ok none =>
    let body ← readToEof (maxBodyBytes + 2) []
    return ⟨{ h.resp with body }, false, h.consumed⟩

/-- `HttpClient::readResponse`. -/
def readResponse (headRequest : Bool) : EStateM Fault BufferedReader Reply := do
  let h ← readFinalHead maxInterimResponses 0 0
  if h.resp.status = 101 then return ⟨h.resp, false, 0⟩
  else if headRequest || h.resp.status == 204 || h.resp.status == 304 then
    return ⟨h.resp, keepAlive h, h.consumed⟩
  else if hasTransferEncoding h.resp.headers then readChunkedBody h
  else readPlainBody h

end Manwe.HttpClient
