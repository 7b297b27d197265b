import Manwe.Soccer.HttpClient
import Manwe.Soccer.Http2.Client.Message
import Manwe.Soccer.Http2.Server.Message

/-!
# A request and its response over HTTP/2

Both sides hand nghttp2 a list of fields and a provider that it pulls the body from, and get
callbacks for what the other side handed over. Here are **the two builders**: what
`Http2Connection::request` submits, and what `submitResponseLocked` does, with their providers
`requestBodyRead` and `serverBodyRead`, the second of which submits the trailers when the body is at
its end.

nghttp2 between them is assumed to deliver: the fields of a block unchanged and in order, then the
bytes that were pulled, in DATA frames and chunks of any size (`RequestDelivery`,
`ResponseDelivery`).
-/

namespace Manwe.Http2

open Http List

/-- `lowerAscii`. -/
def lowerAscii (s : Bytes) : Bytes := s.map tolower

def lowerName (h : HttpHeader) : HttpHeader := ⟨lowerAscii h.name, h.value⟩

/-! ### What the client submits -/

def invalidHeader : Fault := .runtime "Http2Connection::request: invalid header in request"

def invalidTarget : Fault := .runtime "Http2Connection::request: invalid method or target"

/-- One round of the loop over the caller's headers: the authority and the headers kept so far. -/
def requestHeader (acc : Bytes × List HttpHeader) (h : HttpHeader) :
    Except Fault (Bytes × List HttpHeader) :=
  if !isHttpToken h.name || hasFieldValueCtl h.value || h.named "Transfer-Encoding" then
    .error invalidHeader
  else if h.named "Connection" || h.named "Keep-Alive" || h.named "Proxy-Connection" ||
      h.named "Upgrade" || h.named "Content-Length" then .ok acc
  else if h.named "TE" then
    if iequalsAscii (trimAscii h.value) (bytes "trailers") then .ok (acc.1,
      acc.2 ++ [h]) else .ok acc
  else if h.named "Host" then if h.value.isEmpty then .error invalidHeader else .ok (h.value, acc.2)
  else .ok (acc.1, acc.2 ++ [h])

/-- The length that `request` adds. -/
def requestLength (method body : Bytes) : List HttpHeader :=
  if !body.isEmpty || HttpClient.expectsBody method then [⟨bytes "content-length",
    decimal body.length⟩]
  else []

/-- The header list of `Http2Connection::request`, on a connection with the given authority. -/
def requestFields (authority scheme method path : Bytes) (headers : List HttpHeader)
    (body : Bytes) : Except Fault (List HttpHeader) := do
  if !isHttpToken method || path.isEmpty || hasTargetCtl path then throw invalidTarget
  let (authority, kept) ← headers.foldlM requestHeader (authority, [])
  return [⟨bytes ":method", method⟩, ⟨bytes ":scheme", scheme⟩, ⟨bytes ":authority", authority⟩,
    ⟨bytes ":path", path⟩] ++ kept.map lowerName ++ requestLength method body

/-- What a call of a body provider does. -/
structure Pull where
  data : Bytes
  offset : ℕ
  eof : Bool
  /-- DATA does not end the stream: these trailers do -/
  trailers : List HttpHeader := []

/-- A call of a provider with a buffer of `length` bytes; `trailers` are submitted at the end. -/
def pullBody (body : Bytes) (trailers : List HttpHeader) (offset length : ℕ) : Pull :=
  let toCopy := min (body.length - offset) length
  { data := (body.drop offset).take toCopy
    offset := offset + toCopy
    eof := offset + toCopy == body.length
    trailers := if offset + toCopy == body.length then trailers else [] }

def requestBodyRead (body : Bytes) : ℕ → ℕ → Pull := pullBody body []

/-! ### What the server submits -/

def serverBodyRead (body : Bytes) (trailers : List HttpHeader) : ℕ → ℕ →
    Pull := pullBody body trailers

/-- `validResponse`. -/
def validResponse (resp : Http2Response) : Bool := (200 ≤ resp.status && resp.status ≤ 599) &&
    (resp.headers ++ resp.trailers).all fun h => isHttpToken h.name && !hasFieldValueCtl h.value

/-- The `statedLength` of `submitResponseLocked`. -/
def statedLength (headers : List HttpHeader) : Bytes :=
  ((headers.find? (·.named "Content-Length")).map HttpHeader.value).getD []

def responseLength (resp : Http2Response) (head : Bool) : Bytes :=
  framedContentLength resp.status head (statedLength resp.headers) resp.body.length

/-- `respHeaders` of `submitResponseLocked`. -/
def respHeaders (resp : Http2Response) (head : Bool) : List HttpHeader :=
  (resp.headers.filter fun h => !isServerManagedResponseHeader h).map lowerName ++
    if (responseLength resp head).isEmpty then []
    else [⟨bytes "content-length", responseLength resp head⟩]

/-- `respTrailers` of `submitResponseLocked`. -/
def respTrailers (resp : Http2Response) (head : Bool) : List HttpHeader :=
  if sendBody resp.status head then
    (resp.trailers.filter fun h => !(isServerManagedResponseHeader h || h.named "te")).map lowerName
  else []

/-- `respBody` of `submitResponseLocked`. -/
def respBody (resp : Http2Response) (head : Bool) : Bytes :=
  if sendBody resp.status head then resp.body else []

/-- The header list of `submitResponseLocked`. -/
def responseFields (resp : Http2Response) (head : Bool) : List HttpHeader :=
  ⟨bytes ":status", decimal resp.status⟩ :: respHeaders resp head

/-! ### What nghttp2 delivers -/

/-- **Pulling a provider** from an offset to the end of the data, with buffers of any size: the
bytes, and the last call. -/
inductive Pulls (read : ℕ → ℕ → Pull) : ℕ → Bytes → Pull → Prop
  | last {offset length : ℕ} (eof : (read offset length).eof = true) :
      Pulls read offset (read offset length).data (read offset length)
  | more {offset length : ℕ} {data : Bytes} {p : Pull} (eof : (read offset length).eof = false)
      (rest : Pulls read (read offset length).offset data p) :
      Pulls read offset ((read offset length).data ++ data) p

/-- DATA frames, each of them in chunks; the last one may end the stream. -/
def dataFrames {γ : Type} (data : Bytes → γ) (frame : Bool → γ) (endStream : Bool) :
    List (List Bytes) → List γ
  | [] => []
  | [chunks] => chunks.map data ++ [frame endStream]
  | chunks :: frames => chunks.map data ++ [frame false] ++ dataFrames data frame endStream frames

/-- The callbacks for a block of fields, at the server. -/
def requestBlock (fields : List HttpHeader) (endStream : Bool) : List Server.Part :=
  .begin :: fields.map (fun h => .field h.name h.value) ++ [.frame endStream]

/-- The callbacks for a block of fields, at the client. -/
def responseBlock (fields : List HttpHeader) (endStream : Bool) : List Callback :=
  .beginHeaders :: fields.map (fun h => .header h.name h.value) ++ [.frame endStream]

/-- **The callbacks at the server** for a request that was submitted with these fields and this
body. -/
inductive RequestDelivery (fields : List HttpHeader) (body : Bytes) : List Server.Part → Prop
  | empty (noBody : body = []) : RequestDelivery fields body (requestBlock fields true)
  | body {data : Bytes} {p : Pull} {frames : List (List Bytes)} (some : body ≠ [])
      (pulls : Pulls (requestBodyRead body) 0 data p) (ne : frames ≠ [])
      (same : frames.flatten.flatten = data) :
      RequestDelivery fields body
        (requestBlock fields false ++ dataFrames Server.Part.data Server.Part.frame true frames)

/-- **The callbacks at the client** for a response that was submitted with these fields, body and
trailers. An empty DATA frame that ends nothing need not be sent. -/
inductive ResponseDelivery (fields : List HttpHeader) (body : Bytes) (trailers : List HttpHeader) :
    List Callback → Prop
  | empty (noBody : body = []) (noTrailers : trailers = []) :
      ResponseDelivery fields body trailers (responseBlock fields true)
  | body {data : Bytes} {p : Pull} {frames : List (List Bytes)} (some : body ≠ [] ∨ trailers ≠ [])
      (pulls : Pulls (serverBodyRead body trailers) 0 data p) (last : p.trailers = [])
      (ne : frames ≠ []) (same : frames.flatten.flatten = data) :
      ResponseDelivery fields body trailers
        (responseBlock fields false ++ dataFrames Callback.data Callback.frame true frames)
  | trailers {data : Bytes} {p : Pull} {frames : List (List Bytes)} (some : body ≠ [] ∨
    trailers ≠ []) (pulls : Pulls (serverBodyRead body trailers) 0 data p) (last : p.trailers ≠ [])
      (same : frames.flatten.flatten = data) :
      ResponseDelivery fields body trailers
        (responseBlock fields false ++ dataFrames Callback.data Callback.frame false frames ++
          responseBlock p.trailers true)

/-! ### What was delivered -/

/-- **Pulling gives the body**, whatever the sizes of the buffers. -/
theorem Pulls.eq {body : Bytes} {trailers : List HttpHeader} {offset : ℕ} {data : Bytes} {p : Pull}
    (h : Pulls (pullBody body trailers) offset data p) (hle : offset ≤ body.length) :
    data = body.drop offset ∧ p.trailers = trailers := by
  induction h with
  | @last offset length eof =>
    have hend : offset + min (body.length - offset) length = body.length := by
      simpa [pullBody] using eof
    refine ⟨?_, if_pos eof⟩
    exact take_of_length_le (by rw [length_drop]; omega)
  | @more offset length data p eof rest ih =>
    obtain ⟨rfl, htr⟩ := ih (by simp only [pullBody]; omega)
    refine ⟨?_, htr⟩
    simp only [pullBody]
    rw [← drop_drop, take_append_drop]

section Heard

variable {σ α : Type} {f : σ → α → Option σ} {x y z : σ} {a : α} {l l' : List α}

theorem foldlM_cons_some (h : f x a = some y) (h' : l.foldlM f y = some z) :
    (a :: l).foldlM f x = some z := by
  rw [foldlM_cons, h]
  exact h'

theorem foldlM_append_some (h : l.foldlM f x = some y) (h' : l'.foldlM f y = some z) :
    (l ++ l').foldlM f x = some z := by
  rw [foldlM_append, h]
  exact h'

/-- **DATA frames in any cut** are heard as one body. -/
theorem foldlM_dataFrames {data : Bytes → α} {frame : Bool → α} {endStream : Bool}
    (content final : Bytes → σ)
    (hdata : ∀ body chunk, f (content body) (data chunk) = some (content (body ++ chunk)))
    (hframe : ∀ body, f (content body) (frame false) = some (content body))
    (hlast : ∀ body, f (content body) (frame endStream) = some (final body))
    {frames : List (List Bytes)} (hne : frames ≠ []) (body : Bytes) :
    (dataFrames data frame endStream frames).foldlM f (content body) =
      some (final (body ++ frames.flatten.flatten)) := by
  have hchunks : ∀ (chunks : List Bytes) (body : Bytes),
      (chunks.map data).foldlM f (content body) = some (content (body ++ chunks.flatten)) := by
    intro chunks
    induction chunks with
    | nil =>
      intro body
      simp
    | cons chunk chunks ih =>
      intro body
      refine foldlM_cons_some (hdata body chunk) ?_
      rw [ih, flatten_cons, append_assoc]
  induction frames generalizing body with
  | nil => exact absurd rfl hne
  | cons chunks frames ih =>
    cases frames with
    | nil =>
      refine foldlM_append_some (hchunks chunks body) (foldlM_cons_some (hlast _) ?_)
      simp
    | cons =>
      refine foldlM_append_some (foldlM_append_some (hchunks chunks body)
        (foldlM_cons_some (hframe _) rfl)) ?_
      rw [ih (by simp)]
      simp

end Heard

end Manwe.Http2
