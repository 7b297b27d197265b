import Manwe.Soccer.HttpServer
import Manwe.Soccer.Http2.Client

/-!
# The streams of an HTTP/2 server connection

The nghttp2 callbacks assemble a request for each stream in the connection's map. After every
receive the driver walks the map and hands the complete requests to handlers, one coroutine
(`runOneHandler`) each; a handler answers on its stream if the stream is still there. A handler has
**a share of the concurrent-stream cap** as long as it has not answered: it counts through its
stream, and once the client has reset the stream through `orphanHandlers`.

A step is one callback, one pass of the driver, or one section or check of a handler. nghttp2 is the
environment: identifiers of new streams increase, and no DATA comes after END_STREAM. Deadlines,
rate limits and the writes are left open: `abusive` may be set and the driver may end at any time.
-/

namespace Manwe.Http2

open Http

/-- `HttpRequest` with the fields of HTTP/2. -/
structure Http2Request extends HttpServer.HttpRequest where
  method := []
  path := []
  query := []
  headers := []
  body := []
  authority : Bytes := []
  scheme : Bytes := []
  deriving DecidableEq, Repr

/-- The limits of `Http2ServerOptions`; zero is none. -/
structure Http2ServerOptions where
  maxConcurrentStreams : ℕ := 100
  maxHeaderListBytes : ℕ := 64 * 1024
  maxHeaderCount : ℕ := 100
  maxBodyBytes : ℕ := 16 * 1024 * 1024
  maxConnectionBodyBytes : ℕ := 64 * 1024 * 1024

/-- `ServerStream`, without the response. -/
structure ServerStream where
  req : Http2Request := {}
  handlerStarted : Bool := false
  responseSubmitted : Bool := false
  handlerActive : Bool := false
  bodyRejected : Bool := false
  rejected : Bool := false
  hasHost : Bool := false
  /-- the place of the joined cookie header -/
  cookieIndex : Option ℕ := none
  headerBytes : ℕ := 0
  bodyBytes : ℕ := 0
  deriving DecidableEq

namespace ServerStream

variable (o : Http2ServerOptions) (st : ServerStream)

/-- The header caps are exceeded with a field of `n` bytes more. -/
def overHeaders (n : ℕ) : Bool :=
  (o.maxHeaderListBytes != 0 && decide (st.headerBytes + n > o.maxHeaderListBytes)) ||
    (o.maxHeaderCount != 0 && decide (st.req.headers.length ≥ o.maxHeaderCount))

/-- A header field at the end of the list. -/
def push (name value : Bytes) : ServerStream :=
  { st with req.headers := st.req.headers ++ [⟨name, value⟩] }

/-- `:authority` stands for Host. -/
def setAuthority (value : Bytes) : ServerStream :=
  if st.hasHost then { st with req.authority := value }
  else
    { st with
      req.authority := value
      req.headers := st.req.headers ++ [⟨bytes "host", value⟩]
      hasHost := true }

/-- A crumb of the cookie is joined to the others. -/
def addCookie (value : Bytes) : ServerStream := match st.cookieIndex with
  | some i =>
    { st with
      req.headers := st.req.headers.modify i fun h => ⟨h.name, h.value ++ bytes "; " ++ value⟩ }
  | none => { st.push (bytes "cookie") value with cookieIndex := some st.req.headers.length }

/-- The field is stored. -/
def store (name value : Bytes) : ServerStream :=
  if name = bytes ":method" then { st with req.method := value }
  else if name = bytes ":path" then
    { st with req.path := (splitQuery value).1, req.query := (splitQuery value).2 }
  else if name = bytes ":scheme" then { st with req.scheme := value }
  else if name = bytes ":authority" then st.setAuthority value
  else if isPseudo name then st
  else if name = bytes "host" then
    if st.hasHost then st else { st.push name value with hasHost := true }
  else if name = bytes "cookie" then st.addCookie value
  else st.push name value

/-- `serverOnHeader`, for the block of the request. -/
def onHeader (name value : Bytes) : ServerStream := if st.rejected then st
  else if st.overHeaders o (name.length + value.length + 32) then
    { st with
      headerBytes := st.headerBytes + (name.length + value.length + 32)
      rejected := true
      req.headers := [] }
  else { st with headerBytes := st.headerBytes + (name.length + value.length + 32) }.store name
    value

/-- The body is dropped for good. -/
@[simp] def rejectBody : ServerStream :=
  { st with bodyRejected := true, bodyBytes := 0, req.body := [] }

def takeChunk (chunk : Bytes) : ServerStream :=
  { st with req.body := st.req.body ++ chunk, bodyBytes := st.bodyBytes + chunk.length }

/-- The driver hands the request to a handler. -/
def ready : Bool := !(st.bodyRejected || st.rejected) && st.handlerStarted && !st.responseSubmitted

/-- What the driver's walk does to a stream; the request is moved out of one that is ready. -/
def walked : ServerStream :=
  if st.bodyRejected || st.rejected then { st with responseSubmitted := true }
  else if st.ready then { st with responseSubmitted := true, handlerActive := true, req := {} }
  else st

end ServerStream

namespace Server

/-- Where a handler stands. -/
inductive Phase where
  /-- not dispatched -/
  | absent
  | spawned
  /-- past the look at `closed` and at the stop token -/
  | admitted
  /-- looking for a route, or in it -/
  | running
  /-- has a response -/
  | finished
  /-- past the look at `closed` -/
  | answering
  | flushing
  /-- before the destructor of `Finished` -/
  | leaving
  | ended
  deriving DecidableEq

/-- A call of `runOneHandler`. -/
structure Handler where
  phase : Phase := .absent
  req : Http2Request := {}
  released : Bool := false
  deriving DecidableEq

structure State where
  streams : Table ℕ ServerStream := .empty
  bodyBytesInFlight : ℕ := 0
  orphanHandlers : ℕ := 0
  closed : Bool := false
  abusive : Bool := false
  /-- the handler of each stream -/
  handlers : ℕ → Handler := fun _ => {}
  /-- the streams whose stop token has fired -/
  stopped : List ℕ := []
  /-- the highest stream identifier that the peer has used -/
  lastId : ℕ := 0

inductive Event where
  /-- the header block of a request begins -/
  | beginHeaders (id : ℕ)
  | header (id : ℕ) (name value : Bytes)
  /-- a field of a trailer block -/
  | trailer (id : ℕ) (name value : Bytes)
  | data (id : ℕ) (chunk : Bytes)
  /-- a whole HEADERS or DATA frame -/
  | frame (id : ℕ) (endStream : Bool)
  | close (id : ℕ)
  /-- a flood of frames -/
  | flood
  /-- the driver walks the map and spawns handlers -/
  | dispatch
  /-- the driver ends -/
  | driverEnds
  | start (id : ℕ)
  | look (id : ℕ)
  /-- the route handler, which owns the request, returns or throws -/
  | finish (id : ℕ)
  /-- there is no route: the answer is 404 -/
  | notFound (id : ℕ)
  | recheck (id : ℕ)
  /-- the section that gives the share up and submits the response -/
  | submit (id : ℕ)
  | flushed (id : ℕ)
  /-- the destructor of `Finished` -/
  | release (id : ℕ)

def State.adjust (s : State) (id : ℕ) (f : ServerStream → ServerStream) : State :=
  { s with streams := s.streams.adjust id f }

def State.setHandler (s : State) (id : ℕ) (h : Handler) : State :=
  { s with handlers := Function.update s.handlers id h }

/-- The handler goes on. -/
def State.go (s : State) (id : ℕ) (p : Phase) : State :=
  s.setHandler id { s.handlers id with phase := p }

/-- `serverOnBeginHeaders`: a stream beyond the cap gets no entry. -/
def State.onBeginHeaders (o : Http2ServerOptions) (s : State) (id : ℕ) : State :=
  if o.maxConcurrentStreams ≠ 0 ∧ s.streams.size + s.orphanHandlers ≥ o.maxConcurrentStreams then
    { s with lastId := id }
  else { s with lastId := id, streams := s.streams.emplace id {} }

/-- `serverOnDataChunk`. -/
def State.onDataChunk (o : Http2ServerOptions) (s : State) (id : ℕ) (chunk : Bytes) : State :=
  match s.streams.find id with
  | none => s
  | some st =>
    if st.bodyRejected || st.rejected then s
    else if o.maxConnectionBodyBytes ≠ 0 ∧
        s.bodyBytesInFlight + chunk.length > o.maxConnectionBodyBytes then
      { s.adjust id ServerStream.rejectBody with
        bodyBytesInFlight := s.bodyBytesInFlight - st.bodyBytes
        abusive := true }
    else if o.maxBodyBytes ≠ 0 ∧ st.req.body.length + chunk.length > o.maxBodyBytes then
      { s.adjust id ServerStream.rejectBody with
        bodyBytesInFlight := s.bodyBytesInFlight - st.bodyBytes }
    else
      { s.adjust id fun st => st.takeChunk chunk with
        bodyBytesInFlight := s.bodyBytesInFlight + chunk.length }

/-- `serverOnFrameRecv`, for HEADERS and DATA frames. -/
def State.onFrameRecv (s : State) (id : ℕ) (endStream : Bool) : State :=
  if endStream then s.adjust id fun st => { st with handlerStarted := true } else s

/-- `serverOnStreamClose`. -/
def State.onStreamClose (s : State) (id : ℕ) : State := match s.streams.find id with
  | none => s
  | some st =>
    { s with
      stopped := s.stopped ++ [id]
      bodyBytesInFlight := s.bodyBytesInFlight - st.bodyBytes
      orphanHandlers := if st.handlerActive then s.orphanHandlers + 1 else s.orphanHandlers
      streams := s.streams.erase id }

/-- The driver's walk over the map. -/
def State.dispatch (s : State) : State := { s with
    streams := s.streams.map fun _ st => st.walked
    handlers := fun id =>
      match s.streams.find id with
      | none => s.handlers id
      | some st => if st.ready then { phase := .spawned, req := st.req } else s.handlers id }

/-- The section of a handler that has a response. -/
def State.submit (s : State) (id : ℕ) : State := match s.streams.find id with
  | none => s.go id .leaving
  | some _ =>
    (s.setHandler id { s.handlers id with phase := .flushing, released := true }).adjust id
      fun st => { st with handlerActive := false, responseSubmitted := true }

/-- The frame of the handler is gone, and a request that is still in it. -/
def State.endHandler (s : State) (id : ℕ) : State :=
  s.setHandler id { s.handlers id with phase := .ended, req := {} }

/-- The destructor of `Finished`. -/
def State.release (s : State) (id : ℕ) : State := if (s.handlers id).released then s.endHandler id
  else
    match s.streams.find id with
    | some _ => (s.endHandler id).adjust id fun st => { st with handlerActive := false }
    | none =>
      if s.orphanHandlers ≠ 0 then { s.endHandler id with orphanHandlers := s.orphanHandlers - 1 }
      else s.endHandler id

/-- No END_STREAM was received on the stream. -/
def State.receiving (s : State) (id : ℕ) : Bool := match s.streams.find id with
  | none => true
  | some st => !st.handlerStarted

def step (o : Http2ServerOptions) (s : State) : Event → Option State
  | .beginHeaders id => if s.lastId < id then some (s.onBeginHeaders o id) else none
  | .header id name value => some (s.adjust id fun st => st.onHeader o name value)
  | .trailer _ _ _ => some s
  | .data id chunk => if s.receiving id then some (s.onDataChunk o id chunk) else none
  | .frame id endStream => some (s.onFrameRecv id endStream)
  | .close id => some (s.onStreamClose id)
  | .flood => some { s with abusive := true }
  | .dispatch => if s.closed || s.abusive then none else some s.dispatch
  | .driverEnds =>
    some { s with closed := true, stopped := s.stopped ++ s.streams.entries.map Prod.fst }
  | .start id =>
    match (s.handlers id).phase with
    | .spawned => some (s.go id (if s.closed || s.stopped.contains id then .leaving else .admitted))
    | _ => none
  | .look id =>
    match (s.handlers id).phase with
    | .admitted => some (s.go id (if (s.streams.find id).isSome then .running else .leaving))
    | _ => none
  | .finish id =>
    match (s.handlers id).phase with
    | .running => some (s.setHandler id { s.handlers id with phase := .finished, req := {} })
    | _ => none
  | .notFound id =>
    match (s.handlers id).phase with
    | .running => some (s.go id .finished)
    | _ => none
  | .recheck id =>
    match (s.handlers id).phase with
    | .finished => some (s.go id (if s.closed then .leaving else .answering))
    | _ => none
  | .submit id =>
    match (s.handlers id).phase with
    | .answering => some (s.submit id)
    | _ => none
  | .flushed id =>
    match (s.handlers id).phase with
    | .flushing => some (s.go id .leaving)
    | _ => none
  | .release id =>
    match (s.handlers id).phase with
    | .leaving => some (s.release id)
    | _ => none

/-! ### What a run leaves behind -/

/-- What nghttp2 calls back about one stream. -/
inductive Part where
  | begin
  | field (name value : Bytes)
  | trailer (name value : Bytes)
  | data (chunk : Bytes)
  | frame (endStream : Bool)
  | close
  deriving DecidableEq

/-- The callbacks about the stream `id`. -/
@[simp] def heard (id : ℕ) (_ : State) : Event → List Part
  | .beginHeaders id' => if id' = id then [.begin] else []
  | .header id' name value => if id' = id then [.field name value] else []
  | .trailer id' name value => if id' = id then [.trailer name value] else []
  | .data id' chunk => if id' = id then [.data chunk] else []
  | .frame id' endStream => if id' = id then [.frame endStream] else []
  | .close id' => if id' = id then [.close] else []
  | _ => []

/-- The requests that the step hands to handlers, by their streams. -/
def dispatched (s : State) : Event → List (ℕ × Http2Request)
  | .dispatch => (s.streams.entries.filter fun p => p.2.ready).map fun p => (p.1, p.2.req)
  | _ => []

end Server

end Manwe.Http2
