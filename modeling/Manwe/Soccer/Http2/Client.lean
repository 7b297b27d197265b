import Manwe.Data.Table
import Manwe.Soccer.Http
import Manwe.Transition.Run

/-!
# The streams of an HTTP/2 client connection

Every request in flight has a stream object in the connection's map. The nghttp2 callbacks fill it
in, `failStream` and `failOutstandingStreams` give it up, and the request's `StreamAwaiter` waits
for it and takes the response out. A step is one section under `mapMu` (with `sessionMu`, for the
registration of a request), one access to `closed`, or one resumption: a handle that a section has
taken out of a stream is in `resuming` until then.

**nghttp2 is the environment**: it calls back for streams that were submitted, with whatever the
peer sends. What the callbacks submit in turn (`RST_STREAM`, `GOAWAY`) has no effect but on what
comes back.
-/

namespace Manwe.Http2

open Http

/-! ### Stream objects -/

def kHttp2MaxBodyBytes : ℕ := 16 * 1024 * 1024

def kHttp2MaxHeaderBytes : ℕ := 64 * 1024

def kHttp2MaxInterimResponses : ℕ := 8

/-- `NGHTTP2_CANCEL`. -/
def cancelCode : ℕ := 8

/-- `NGHTTP2_INTERNAL_ERROR`. -/
def internalErrorCode : ℕ := 2

/-- `Http2Response`: a response with trailers. -/
structure Http2Response extends HttpResponse where
  trailers : List HttpHeader := []
  deriving DecidableEq, Repr

/-- `Http2Stream`, without the request's body; `ι` is the type of coroutine handles. -/
structure Http2Stream (ι : Type) where
  response : Http2Response := {}
  done : Bool := false
  waiter : Option ι := none
  errorCode : ℕ := 0
  bodyRejected : Bool := false
  headerBytes : ℕ := 0
  interimCount : ℕ := 0
  finalSeen : Bool := false
  endStreamSeen : Bool := false
  informational : Bool := false
  statusInBlock : Bool := false
  headersRejected : Bool := false
  connectionLost : Bool := false
  timedOut : Bool := false
  sessionClosed : Bool := false
  consumed : Bool := false
  deriving DecidableEq

/-- `isspace` in the C locale. -/
def isSpace (c : UInt8) : Bool := c == 32 || (9 ≤ c && c ≤ 13)

/-- `std::atoi`. -/
def atoi (s : Bytes) : ℤ := match s.dropWhile isSpace with
  | 45 :: ds => -(stoull (ds.takeWhile isDigit) : ℤ)
  | 43 :: ds => stoull (ds.takeWhile isDigit)
  | ds => stoull (ds.takeWhile isDigit)

/-- A pseudo-header field. -/
def isPseudo (name : Bytes) : Bool := name.head? == some 58

namespace Http2Stream

variable {ι : Type} (st : Http2Stream ι)

def onBeginHeaders : Http2Stream ι := { st with statusInBlock := false }

/-- A regular field: of the trailers, if it is in a block without `:status` after the final
response. -/
@[simp] def addField (name value : Bytes) : Http2Stream ι :=
  if isPseudo name || st.informational then st
  else if st.finalSeen && !st.statusInBlock then
    { st with response.trailers := st.response.trailers ++ [⟨name, value⟩] }
  else { st with response.headers := st.response.headers ++ [⟨name, value⟩] }

/-- `:status`, and whether there are too many interim responses by now. -/
def addStatus (status : ℤ) : Http2Stream ι × Bool := if 100 ≤ status ∧ status < 200 then
    ({ st with statusInBlock := true, informational := true, interimCount := st.interimCount + 1 },
      st.interimCount + 1 > kHttp2MaxInterimResponses)
  else
    ({ st with
        statusInBlock := true
        informational := false
        finalSeen := true
        response.status := status.toNat }, false)

def rejectHeaders (reject : Bool) : Http2Stream ι := if reject then
    { st with headersRejected := true, response.headers := [], response.trailers := [] }
  else st

/-- `onHeader` past the accounting; `tooLong` is its verdict. -/
def storeHeader (name value : Bytes) (tooLong : Bool) : Http2Stream ι :=
  if name = bytes ":status" then
    (st.addStatus (atoi value)).1.rejectHeaders (tooLong || (st.addStatus (atoi value)).2)
  else (if tooLong then st else st.addField name value).rejectHeaders tooLong

def onHeader (name value : Bytes) : Http2Stream ι := if st.headersRejected || st.done then st else
    { st with headerBytes := st.headerBytes + name.length + value.length + 32 }.storeHeader name
      value
      (st.headerBytes + name.length + value.length + 32 > kHttp2MaxHeaderBytes)

def onDataChunk (data : Bytes) : Http2Stream ι := if st.done || st.bodyRejected then st
  else if st.response.body.length + data.length > kHttp2MaxBodyBytes then
    { st with bodyRejected := true, response.body := [] }
  else { st with response.body := st.response.body ++ data }

/-- `onFrameRecv`, for HEADERS and DATA frames. -/
def onFrameRecv (endStream : Bool) : Http2Stream ι :=
  if endStream then { st with endStreamSeen := true } else st

def onStreamClose (errorCode : ℕ) : Http2Stream ι := { st with
    sessionClosed := true
    errorCode := if st.done then st.errorCode else errorCode
    done := true
    waiter := none }

/-- The section of `failStream`. -/
def fail (timedOut : Bool) : Http2Stream ι := if st.done then st else
    { st with
      errorCode := cancelCode
      timedOut := timedOut
      connectionLost := !timedOut
      done := true
      waiter := none }

/-- A stream in the loop of `failOutstandingStreams`. -/
def lose : Http2Stream ι := if st.done then st else
    { st with
      errorCode := internalErrorCode
      connectionLost := true
      done := true
      waiter := none }

/-- The handle that `failStream` and `failOutstandingStreams` take out of the stream. -/
def woken : List ι := if st.done then [] else st.waiter.toList

end Http2Stream

/-- The exceptions of `await_resume`. -/
inductive Fault where
  | runtime (what : String)
  | socket (what : String)
  deriving DecidableEq

/-- What `await_resume` makes of the stream. -/
def Http2Stream.outcome {ι : Type} (st : Http2Stream ι) : Except Fault Http2Response :=
  if st.bodyRejected then
    .error (.runtime "HTTP/2 response body exceeded the per-stream cap; stream was reset")
  else if st.headersRejected then
    .error (.runtime "HTTP/2 response headers exceeded the cap; stream was reset")
  else if st.timedOut then .error (.socket "HTTP/2 request timed out")
  else if st.connectionLost then
    .error (.runtime "HTTP/2 connection closed before the response completed")
  else if st.errorCode ≠ 0 then
    .error (.runtime ("HTTP/2 stream error: nghttp2 code " ++ toString st.errorCode))
  else if !st.finalSeen then
    .error (.runtime "HTTP/2 stream closed before a response was received")
  else if !st.endStreamSeen then
    .error (.runtime "HTTP/2 stream closed before the response completed")
  else .ok st.response

/-! ### The connection -/

/-- What nghttp2 calls back with, for one stream. -/
inductive Callback where
  | beginHeaders
  | header (name value : Bytes)
  | data (chunk : Bytes)
  /-- a whole HEADERS or DATA frame has been received -/
  | frame (endStream : Bool)
  | close (errorCode : ℕ)
  deriving DecidableEq

namespace Client

/-- Where an operation stands: a `request`, its deadline, or a party that gives the connection up.
-/
inductive Phase where
  | idle
  /-- a `request` past the first look at `closed` -/
  | checked
  /-- writes its frames out -/
  | flushing (id : ℕ)
  /-- before `await_ready` -/
  | awaiting (id : ℕ)
  /-- before `await_suspend` -/
  | suspending (id : ℕ)
  | parked (id : ℕ)
  /-- before `await_resume` -/
  | resumed (id : ℕ)
  /-- a deadline that has found its stream unfinished -/
  | expired (id : ℕ)
  /-- `closed` is set, and `failOutstandingStreams` still to be called -/
  | sweeping
  /-- the frame was destroyed while it was parked -/
  | destroyed
  | ended
  deriving DecidableEq

structure State (ι : Type) where
  streams : Table ℕ (Http2Stream ι) := .empty
  closed : Bool := false
  /-- the identifier of the next stream that is submitted -/
  nextId : ℕ := 1
  ops : ι → Phase := fun _ => .idle
  /-- handles that were taken out of a stream and are not resumed yet -/
  resuming : List ι := []

inductive Event (ι : Type) where
  /-- `request`: the first look at `closed` -/
  | request (i : ι)
  /-- `nghttp2_submit_request` refuses -/
  | submitFails (i : ι)
  /-- the request is submitted and entered in the map, and `closed` looked at again -/
  | register (i : ι)
  | flushed (i : ι)
  /-- the write fails: `abortConnection` sets `closed` -/
  | flushFails (i : ι)
  | ready (i : ι)
  | suspend (i : ι)
  | resume (i : ι)
  /-- the section of `await_resume` -/
  | take (i : ι)
  | callback (id : ℕ) (c : Callback)
  /-- `requestDeadline`: the section that looks whether the stream is done -/
  | deadline (i : ι) (id : ℕ)
  | failStream (i : ι)
  /-- the driver ends, or `abortConnection` is called: `closed` is set -/
  | shut (i : ι)
  /-- `close`: the exchange of `closed` -/
  | close (i : ι)
  /-- the section of `failOutstandingStreams` -/
  | sweep (i : ι)
  /-- the frame of a parked request is destroyed -/
  | destroy (i : ι)

section Steps

variable {ι : Type} [DecidableEq ι]

def State.put (s : State ι) (i : ι) (p : Phase) : State ι :=
  { s with ops := Function.update s.ops i p }

def State.adjust (s : State ι) (id : ℕ) (f : Http2Stream ι → Http2Stream ι) : State ι :=
  { s with streams := s.streams.adjust id f }

/-- The stream is in the map and not done. -/
def State.unfinished (s : State ι) (id : ℕ) : Bool := match s.streams.find id with
  | none => false
  | some st => !st.done

/-- `onStreamClose`: the object goes if the awaiter has already left. -/
def State.onStreamClose (s : State ι) (id errorCode : ℕ) : State ι := match s.streams.find id with
  | none => s
  | some st =>
    { s with
      streams := if st.consumed then s.streams.erase id
        else s.streams.adjust id fun st => st.onStreamClose errorCode
      resuming := s.resuming ++ st.waiter.toList }

def State.onCallback (s : State ι) (id : ℕ) : Callback → State ι
  | .beginHeaders => s.adjust id Http2Stream.onBeginHeaders
  | .header name value => s.adjust id fun st => st.onHeader name value
  | .data chunk => s.adjust id fun st => st.onDataChunk chunk
  | .frame endStream => s.adjust id fun st => st.onFrameRecv endStream
  | .close errorCode => s.onStreamClose id errorCode

/-- The registration of a request, and the second look at `closed`. -/
def State.register (s : State ι) (i : ι) : State ι := if s.closed then
    { s.put i .ended with
      streams := s.streams.emplace s.nextId { consumed := true, done := true }
      nextId := s.nextId + 2 }
  else
    { s.put i (.flushing s.nextId) with
      streams := s.streams.emplace s.nextId {}
      nextId := s.nextId + 2 }

/-- The section of `failStream`. -/
def State.failStream (s : State ι) (id : ℕ) (timedOut : Bool) : State ι :=
  match s.streams.find id with
  | none => s
  | some st => { s.adjust id fun st => st.fail timedOut with resuming := s.resuming ++ st.woken }

/-- The section of `failOutstandingStreams`. -/
def State.failOutstandingStreams (s : State ι) : State ι := { s with
    streams := s.streams.map fun _ st => st.lose
    resuming := s.resuming ++ s.streams.entries.flatMap fun p => p.2.woken }

/-- The section of `await_resume`, with the stream in the map. -/
def State.take (s : State ι) (id : ℕ) (st : Http2Stream ι) : State ι :=
  if st.sessionClosed then { s with streams := s.streams.erase id }
  else s.adjust id fun st => { st with consumed := true, response := {} }

def step (s : State ι) : Event ι → Option (State ι)
  | .request i =>
    match s.ops i with
    | .idle => some (s.put i (if s.closed then .ended else .checked))
    | _ => none
  | .submitFails i =>
    match s.ops i with
    | .checked => some (s.put i .ended)
    | _ => none
  | .register i =>
    match s.ops i with
    | .checked => some (s.register i)
    | _ => none
  | .flushed i =>
    match s.ops i with
    | .flushing id => some (s.put i (.awaiting id))
    | _ => none
  | .flushFails i =>
    match s.ops i with
    | .flushing _ => some { s.put i .sweeping with closed := true }
    | _ => none
  | .ready i =>
    match s.ops i with
    | .awaiting id => some (s.put i (if s.unfinished id then .suspending id else .resumed id))
    | _ => none
  | .suspend i =>
    match s.ops i with
    | .suspending id =>
      if s.unfinished id then
        some ((s.put i (.parked id)).adjust id fun st => { st with waiter := some i })
      else some (s.put i (.resumed id))
    | _ => none
  | .resume i =>
    if i ∈ s.resuming then
      match s.ops i with
      | .parked id => some { s.put i (.resumed id) with resuming := s.resuming.erase i }
      | _ => some { s with resuming := s.resuming.erase i }
    else none
  | .take i =>
    match s.ops i with
    | .resumed id =>
      match s.streams.find id with
      | none => some (s.put i .ended)
      | some st => some ((s.put i .ended).take id st)
    | _ => none
  | .callback id c => if id < s.nextId then some (s.onCallback id c) else none
  | .deadline i id =>
    match s.ops i with
    | .idle => some (s.put i (if s.unfinished id then .expired id else .ended))
    | _ => none
  | .failStream i =>
    match s.ops i with
    | .expired id => some ((s.put i .ended).failStream id true)
    | _ => none
  | .shut i =>
    match s.ops i with
    | .idle => some { s.put i .sweeping with closed := true }
    | _ => none
  | .close i =>
    match s.ops i with
    | .idle => some { s.put i (if s.closed then .ended else .sweeping) with closed := true }
    | _ => none
  | .sweep i =>
    match s.ops i with
    | .sweeping => some (s.put i .ended).failOutstandingStreams
    | _ => none
  | .destroy i =>
    match s.ops i with
    | .parked _ => some (s.put i .destroyed)
    | _ => none

end Steps

/-! ### What a run leaves behind -/

variable {ι : Type}

/-- The handle that the step resumes. -/
def resumes (_ : State ι) : Event ι → List ι
  | .resume i => [i]
  | _ => []

/-- What a `request` returns or throws: the caller, its stream, and the result. -/
def results (s : State ι) : Event ι → List (ι × ℕ × Except Fault Http2Response)
  | .take i =>
    match s.ops i with
    | .resumed id =>
      match s.streams.find id with
      | none => [(i, id, .error (.runtime "HTTP/2 stream vanished"))]
      | some st => [(i, id, st.outcome)]
    | _ => []
  | _ => []

/-- What nghttp2 calls back with for the stream. -/
def heard (id : ℕ) (_ : State ι) : Event ι → List Callback
  | .callback id' c => if id' = id then [c] else []
  | _ => []

end Client

end Manwe.Http2
