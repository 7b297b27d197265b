import Manwe.Soccer.BufferedReader.Reads

/-!
# The HTTP/1.1 grammar both sides share

The helpers of `HttpClient.h` that client and server parse and check with: tokens, field values,
request targets, optional whitespace, decimal numbers, header lists and `Content-Length`. A string
is the list of its bytes.
-/

namespace Manwe.Http

/-! ### Characters and strings -/

/-- `kHttpMaxBodyBytes`. -/
def maxBodyBytes : ℕ := 16 * 1024 * 1024

/-- `kHttpMaxHeaderBytes`. -/
def maxHeaderBytes : ℕ := 64 * 1024

/-- `kHttpMaxInterimResponses`. -/
def maxInterimResponses : ℕ := 8

/-- Optional whitespace: space and tab. -/
def ows (c : UInt8) : Bool := c == 32 || c == 9

/-- `trimAscii`. -/
def trimAscii (s : Bytes) : Bytes := trimBoth ows s

/-- `std::tolower` in the C locale. -/
def tolower (c : UInt8) : UInt8 := if 65 ≤ c ∧ c ≤ 90 then c + 32 else c

/-- `iequalsAscii`: the size test and the loop are one comparison. -/
def iequalsAscii (a b : Bytes) : Bool := a.map tolower == b.map tolower

/-- `std::isdigit`. -/
def isDigit (c : UInt8) : Bool := 48 ≤ c && c ≤ 57

/-- `hasCtlLineBreak`, and the search `readHeadLine` makes: CR, LF or NUL. -/
def hasCtlLineBreak (s : Bytes) : Bool := s.any fun c => c == 13 || c == 10 || c == 0

/-- `isTokenChar`. -/
def isTokenChar (c : UInt8) : Bool := isDigit c || (97 ≤ c && c ≤ 122) || (65 ≤ c && c ≤ 90) ||
    (bytes "!#$%&'*+-.^_`|~").contains c

/-- `isHttpToken`. -/
def isHttpToken (s : Bytes) : Bool := !s.isEmpty && s.all isTokenChar

/-- A control character that a field value may not carry. -/
def isFieldValueCtl (c : UInt8) : Bool := (c < 32 && c != 9) || c == 127

/-- `hasFieldValueCtl`. -/
def hasFieldValueCtl (s : Bytes) : Bool := s.any isFieldValueCtl

/-- A character that a request target may not carry. -/
def isTargetCtl (c : UInt8) : Bool := c ≤ 32 || c == 127

/-- `hasTargetCtl`. -/
def hasTargetCtl (s : Bytes) : Bool := s.any isTargetCtl

/-- `std::to_string` of a size. -/
def decimal (n : ℕ) : Bytes := (Nat.toDigits 10 n).map fun c => c.toNat.toUInt8

/-- `std::stoull` of a string of digits. -/
def stoull (s : Bytes) : ℕ := s.foldl (fun n c => 10 * n + (c.toNat - 48)) 0

/-- A number as `Content-Length` may give it: 1 to 12 digits. -/
def isLength (s : Bytes) : Bool := !s.isEmpty && s.length ≤ 12 && s.all isDigit

/-! ### Header fields -/

/-- `HttpHeader`. -/
structure HttpHeader where
  name : Bytes
  value : Bytes
  deriving DecidableEq, Repr

/-- Is the field called `name`, in any case? -/
def HttpHeader.named (h : HttpHeader) (name : String) : Bool := iequalsAscii h.name (bytes name)

/-- `HttpRequest::header` and `HttpResponse::header`. -/
def header (headers : List HttpHeader) (name : String) : Bytes :=
  ((headers.find? (·.named name)).map (·.value)).getD []

/-- `hasTransferEncoding`. -/
def hasTransferEncoding (headers : List HttpHeader) : Bool :=
  headers.any (·.named "Transfer-Encoding")

/-- `headerListHasToken`. -/
def headerListHasToken (value : Bytes) (token : String) : Bool :=
  (value.splitOn 44).any fun item => iequalsAscii (trimAscii item) (bytes token)

/-- The loop of `strictContentLength`; `found` is the value of the occurrences so far. -/
def contentLengths (found : Option ℕ) : List HttpHeader → Except String (Option ℕ)
  | [] => .ok found
  | h :: hs =>
    if h.named "Content-Length" then
      if isLength h.value then
        match found with
        | some n =>
          if stoull h.value = n then contentLengths found hs
          else .error "HTTP: conflicting Content-Length headers"
        | none => contentLengths (some (stoull h.value)) hs
      else .error "HTTP: invalid Content-Length"
    else contentLengths found hs

/-- `strictContentLength`: the length, if there is one; a `limit` of zero is none. -/
def strictContentLength (headers : List HttpHeader) (limit : ℕ) : Except String (Option ℕ) :=
  match contentLengths none headers with
  | .error e => .error e
  | .ok none => .ok none
  | .ok (some n) =>
    if limit ≠ 0 ∧ n > limit then .error "HTTP: invalid Content-Length" else .ok (some n)

/-- `splitQuery`: path and query. -/
def splitQuery (target : Bytes) : Bytes × Bytes := (cutAt 63 target).getD (target, [])

/-- `hostHeaderValue`. -/
def hostHeaderValue (host : Bytes) (port omitPort : ℕ) : Bytes :=
  (if host.contains 58 && host.head? != some 91 then [91] ++ host ++ [93] else host) ++
    (if port ≠ 0 ∧ port ≠ omitPort then [58] ++ decimal port else [])

/-- CRLF. -/
def crlf : Bytes := [13, 10]

/-- A header line as both sides write it. -/
def fieldLine (h : HttpHeader) : Bytes := h.name ++ bytes ": " ++ h.value ++ crlf

/-! ### Responses -/

/-- `HttpResponse`, without the trailers of HTTP/2. -/
structure HttpResponse where
  status : ℕ := 200
  reason : Bytes := []
  headers : List HttpHeader := []
  body : Bytes := []
  deriving DecidableEq, Repr

/-- `isServerManagedResponseHeader`. -/
def isServerManagedResponseHeader (h : HttpHeader) : Bool :=
  h.named "Content-Length" || h.named "Connection" || h.named "Transfer-Encoding" ||
    h.named "Keep-Alive" || h.named "Upgrade" || h.named "Proxy-Connection"

/-- `statusHasNoBody`: 1xx, 204 and 304. -/
def statusHasNoBody (status : ℕ) : Bool :=
  (100 ≤ status && status < 200) || status == 204 || status == 304

/-- `sendBody` of `framedContentLength`. -/
def sendBody (status : ℕ) (head : Bool) : Bool := !head && !statusHasNoBody status

/-- `framedContentLength`; an empty result is no Content-Length. -/
def framedContentLength (status : ℕ) (head : Bool) (stated : Bytes) (bodySize : ℕ) : Bytes :=
  if sendBody status head then decimal bodySize
  else if status = 204 ∨ (100 ≤ status ∧ status < 200) then []
  else if isLength stated then stated
  else if status = 304 then []
  else decimal bodySize

/-- `reasonPhrase`. -/
def reasonPhrase (status : ℕ) : String := match status with
  | 100 => "Continue"
  | 101 => "Switching Protocols"
  | 200 => "OK"
  | 201 => "Created"
  | 202 => "Accepted"
  | 203 => "Non-Authoritative Information"
  | 204 => "No Content"
  | 205 => "Reset Content"
  | 206 => "Partial Content"
  | 300 => "Multiple Choices"
  | 301 => "Moved Permanently"
  | 302 => "Found"
  | 303 => "See Other"
  | 304 => "Not Modified"
  | 307 => "Temporary Redirect"
  | 308 => "Permanent Redirect"
  | 400 => "Bad Request"
  | 401 => "Unauthorized"
  | 403 => "Forbidden"
  | 404 => "Not Found"
  | 405 => "Method Not Allowed"
  | 406 => "Not Acceptable"
  | 408 => "Request Timeout"
  | 409 => "Conflict"
  | 410 => "Gone"
  | 411 => "Length Required"
  | 412 => "Precondition Failed"
  | 413 => "Content Too Large"
  | 414 => "URI Too Long"
  | 415 => "Unsupported Media Type"
  | 417 => "Expectation Failed"
  | 422 => "Unprocessable Content"
  | 426 => "Upgrade Required"
  | 429 => "Too Many Requests"
  | 431 => "Request Header Fields Too Large"
  | 500 => "Internal Server Error"
  | 501 => "Not Implemented"
  | 502 => "Bad Gateway"
  | 503 => "Service Unavailable"
  | 504 => "Gateway Timeout"
  | 505 => "HTTP Version Not Supported"
  | _ => ""

/-! ### Bodies -/

/-- `kBodyChunk`, and the step in which chunks are read. -/
def bodyChunk : ℕ := 64 * 1024

/-- The loop that reads `left` more bytes of a body, a bounded piece at a time; a short piece is the
fault `truncated`. -/
def readBody (truncated : Fault) : ℕ → ℕ → Bytes → EStateM Fault BufferedReader Bytes
  | 0, left, body => if left = 0 then return body else throw .spent
  | fuel + 1, left, body =>
    if left = 0 then return body
    else do
      let want := min bodyChunk left
      let piece ← BufferedReader.readExact want
      if piece.length ≠ want then throw truncated
      else readBody truncated fuel (left - want) (body ++ piece)

end Manwe.Http
