import Manwe.Soccer.Http

/-!
# The HTTP/1.1 server

`HttpServer` (`HttpServer.h`): `parseRequest` reads one request off a `BufferedReader`, and
`writeResponse` serialises the handler's answer. The parser is cut in two where the source starts
the body clock: `parseHead` takes the request line, the header fields and the framing they announce,
and only `parseBody` writes the interim answer or takes a byte of the body.

The deadlines are not modelled: an expired one shuts the socket down, which the parser meets as the
end of the stream.
-/

namespace Manwe.HttpServer

open Http MonadExcept

/-- The limits of `HttpServerOptions`; zero is none. -/
structure HttpServerOptions where
  maxHeaderBytes : ℕ := maxHeaderBytes
  maxHeaderCount : ℕ := 100
  maxBodyBytes : ℕ := maxBodyBytes
  deriving DecidableEq, Repr

/-- `HttpRequest`. -/
structure HttpRequest where
  method : Bytes
  path : Bytes
  query : Bytes
  headers : List HttpHeader
  body : Bytes
  deriving DecidableEq, Repr

/-- `HttpServer::lineBound`: the reader's line limit. -/
def lineBound (o : HttpServerOptions) : ℕ :=
  if o.maxHeaderBytes = 0 then 64 * 1024 else max 1024 (min o.maxHeaderBytes (16 * 1024 * 1024))

/-! ### Reading a request -/

/-- What `readHeadLine` makes of a line; `none` is the end of the stream before any byte. -/
def stripHeadLine (line : Bytes) : Except Fault (Option Bytes) := if line = [] then .ok none
  else if line.getLast? ≠ some 10 then
    .error (.socket "HttpServer: connection closed inside the request head")
  else if line.dropLast.getLast? ≠ some 13 then
    .error (.protocol 400 "HttpServer: bare LF in request head")
  else if hasCtlLineBreak line.dropLast.dropLast then
    .error (.protocol 400 "HttpServer: stray control character in request head")
  else .ok (some line.dropLast.dropLast)

/-- `HttpServer::readHeadLine`: the line and the new count of header bytes. -/
def readHeadLine (requestLine : Bool) (headerBytes : ℕ) :
    EStateM Fault BufferedReader (Option Bytes × ℕ) := do
  let line ← tryCatch BufferedReader.readLine fun
    | .lineTooLong => throw (.protocol (if requestLine then 414 else 431)
        "HttpServer: request line or header field too long")
    | e => throw e
  let stripped ← ofExcept (stripHeadLine line)
  return (stripped, headerBytes + line.length)

/-- `HTTP/`, a digit, a dot and a digit. -/
def isVersion : Bytes → Bool
  | [72, 84, 84, 80, 47, major, 46, minor] => isDigit major && isDigit minor
  | _ => false

def malformedRequestLine : Fault := .protocol 400 "HttpServer: malformed request line"

/-- The request line: method, target, and whether the version is 1.1. -/
def parseRequestLine (line : Bytes) : Except Fault (Bytes × Bytes × Bool) :=
  match cutAt 32 line with
  | none => .error malformedRequestLine
  | some (method, rest) =>
    match cutAt 32 rest with
    | none => .error malformedRequestLine
    | some (target, version) =>
      if !isHttpToken method || target.isEmpty || hasTargetCtl target || target.contains 35 then
        .error malformedRequestLine
      else if !isVersion version then .error malformedRequestLine
      else if version ≠ bytes "HTTP/1.1" ∧ version ≠ bytes "HTTP/1.0" then
        .error (.protocol 505 "HttpServer: HTTP version not supported")
      else .ok (method, target, version == bytes "HTTP/1.1")

/-- More header bytes than the limit. -/
def headTooLarge (o : HttpServerOptions) (headerBytes : ℕ) : Bool :=
  o.maxHeaderBytes != 0 && headerBytes > o.maxHeaderBytes

/-- One header line, with `count` fields before it. -/
def parseField (o : HttpServerOptions) (count : ℕ) (line : Bytes) : Except Fault HttpHeader :=
  match cutAt 58 line with
  | none => .error (.protocol 400 "HttpServer: malformed header line")
  | some (name, value) =>
    if !isHttpToken name then .error (.protocol 400 "HttpServer: malformed header line")
    else if o.maxHeaderCount ≠ 0 ∧ count ≥ o.maxHeaderCount then
      .error (.protocol 431 "HttpServer: too many header fields")
    else if hasFieldValueCtl (trimAscii value) then
      .error (.protocol 400 "HttpServer: control character in header value")
    else .ok ⟨name, trimAscii value⟩

/-- The loop over the header lines, up to the blank one. -/
def readFields (o : HttpServerOptions) :
    ℕ → List HttpHeader → ℕ → EStateM Fault BufferedReader (List HttpHeader)
  | 0, _, _ => throw .spent
  | fuel + 1, headers, headerBytes => do
    let (line, headerBytes) ← readHeadLine false headerBytes
    if headTooLarge o headerBytes then
      throw (.protocol 431 "HttpServer: header block too large")
    else match line with
      | none => throw (.socket "HttpServer: connection closed inside header block")
      | some [] => return headers
      | some line =>
        let h ← ofExcept (parseField o headers.length line)
        readFields o fuel (headers ++ [h]) headerBytes

/-- The checks after the blank line: Host, Transfer-Encoding, Content-Length and its limit, and
Expect. The result is the announced length. -/
def checkFraming (o : HttpServerOptions) (http11 : Bool) (headers : List HttpHeader) :
    Except Fault (Option ℕ) :=
  if http11 ∧ headers.countP (·.named "Host") ≠ 1 then
    .error (.protocol 400 "HttpServer: HTTP/1.1 request needs exactly one Host header")
  else if hasTransferEncoding headers then
    if headers.any (·.named "Content-Length") then
      .error (.protocol 400 "HttpServer: Transfer-Encoding with Content-Length")
    else .error (.protocol 501 "HttpServer: Transfer-Encoding not supported")
  else match strictContentLength headers 0 with
    | .error what => .error (.protocol 400 what)
    | .ok len =>
      if o.maxBodyBytes ≠ 0 ∧ len.getD 0 > o.maxBodyBytes then
        .error (.protocol 413 "HttpServer: request body too large")
      else if headers.any fun h => h.named "Expect" && !iequalsAscii h.value (bytes "100-continue")
      then .error (.protocol 417 "HttpServer: unsupported Expect value")
      else .ok len

/-- What the head of a request says. -/
structure RequestHead where
  method : Bytes
  target : Bytes
  http11 : Bool
  headers : List HttpHeader
  len : Option ℕ
  deriving DecidableEq, Repr

/-- `HttpServer::parseRequest`, up to the body. -/
def parseHead (o : HttpServerOptions) : EStateM Fault BufferedReader RequestHead := do
  let (line, headerBytes) ← readHeadLine true 0
  match line with
  | none => throw (.socket "HttpServer: empty request")
  | some line =>
    let (method, target, http11) ← ofExcept (parseRequestLine line)
    if headTooLarge o headerBytes then
      throw (.protocol 431 "HttpServer: header block too large")
    else
      let headers ← readFields o ((← get).pending.length + 1) [] headerBytes
      let len ← ofExcept (checkFraming o http11 headers)
      return { method, target, http11, headers, len }

def kContinue : Bytes := bytes "HTTP/1.1 100 Continue\r\n\r\n"

/-- The client waits for an interim answer before it sends the body. -/
def RequestHead.expects (h : RequestHead) : Bool :=
  h.http11 && iequalsAscii (header h.headers "Expect") (bytes "100-continue")

/-- The interim answer, if there is a body and it was asked for. -/
def sendContinue (h : RequestHead) : EStateM Fault BufferedReader Unit :=
  if h.len.getD 0 ≠ 0 ∧ h.expects then BufferedReader.write kContinue else pure ()

/-- The request with its body: routes match on the path, the query travels separately. -/
def RequestHead.request (h : RequestHead) (body : Bytes) : HttpRequest where
  method := h.method
  path := (splitQuery h.target).1
  query := (splitQuery h.target).2
  headers := h.headers
  body := body

/-- `HttpServer::parseRequest`, the body. -/
def parseBody (h : RequestHead) : EStateM Fault BufferedReader HttpRequest := do
  sendContinue h
  let len := h.len.getD 0
  let body ← readBody (.socket "HttpServer: truncated request body") len len []
  return h.request body

/-- `HttpServer::parseRequest`. -/
def parseRequest (o : HttpServerOptions) : EStateM Fault BufferedReader HttpRequest := do
  let h ← parseHead o
  parseBody h

/-! ### Writing a response -/

/-- Control characters in the reason or in a field would split the response. -/
def unsafeHead (resp : HttpResponse) : Bool := hasFieldValueCtl resp.reason ||
    resp.headers.any fun h => !isHttpToken h.name || hasFieldValueCtl h.value

/-- A status line nobody can parse is not sent. -/
def sentStatus (resp : HttpResponse) : ℕ :=
  if 100 ≤ resp.status ∧ resp.status ≤ 599 then resp.status else 500

/-- The reason that is sent: the handler's, or the standard phrase. -/
def sentReason (resp : HttpResponse) : Bytes :=
  if resp.reason = [] then bytes (reasonPhrase (sentStatus resp)) else resp.reason

/-- `statedLength`: the first Content-Length of the handler that is not empty. -/
def statedLength (headers : List HttpHeader) : Bytes :=
  ((headers.find? fun h => h.named "Content-Length" && h.value != []).map (·.value)).getD []

/-- The Content-Length of a response, if it has one. -/
def sentLength (resp : HttpResponse) (head : Bool) : Bytes :=
  framedContentLength (sentStatus resp) head (statedLength resp.headers) resp.body.length

/-- The head `writeResponse` puts together. -/
def responseHead (resp : HttpResponse) (head : Bool) : Bytes :=
  bytes "HTTP/1.1 " ++ decimal (sentStatus resp) ++ [32] ++ sentReason resp ++ crlf ++
    (resp.headers.filter fun h => !isServerManagedResponseHeader h).flatMap fieldLine ++
    (if sentLength resp head = [] then []
      else bytes "Content-Length: " ++ sentLength resp head ++ crlf) ++
    bytes "Connection: close\r\n\r\n"

/-- `HttpServer::writeResponse`. -/
def writeResponse (resp : HttpResponse) (method : Bytes) : EStateM Fault TcpStream Unit := do
  if unsafeHead resp then
    throw (.protocol 500 "HttpServer: control characters in response head")
  else
    let head := method == bytes "HEAD"
    TcpStream.write (responseHead resp head)
    if sendBody (sentStatus resp) head && resp.body != [] then TcpStream.write resp.body
    else pure ()

end Manwe.HttpServer
